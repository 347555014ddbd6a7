import CryptoPlaypen.Bitcoin.Transaction

/-! The encoder of `example-p2wpkh-spend.js`, with a marker, a flag and witness
stacks as soon as one input has a witness. -/
namespace CryptoPlaypen.Bitcoin.P2wpkhSpend
open Buffer

def hasWitness (vins : List Vin) : Bool := vins.any fun vin => vin.witness.isSome

def scriptOf (vin : Vin) : Bytes :=
  if vin.witness.isSome then [] else vin.scriptSig.getD vin.script

def witnessLength (P : Packages) (vins : List Vin) : Nat :=
  (vins.filterMap Vin.witness).foldl (fun sum witness =>
    sum + P.encodingLength witness.length +
      witness.foldl (fun dsum d => dsum + P.encodingLength d.length + d.length) 0) 0

def calcTxBytes (P : Packages) (vins : List Vin) (vouts : List Vout) : Nat :=
  4 + (if hasWitness vins then 2 else 0) + P.encodingLength vins.length +
    vinsBytes P (vins.map fun vin => (scriptOf vin).length) +
    P.encodingLength vouts.length + voutsBytes P vouts +
    (if hasWitness vins then witnessLength P vins else 0) + 4

def writeFlags (marked : Bool) : CellWriter UInt8 Unit :=
  if marked then do
    BufferCursor.writeUInt8 0x00
    BufferCursor.writeUInt8 0x01
  else pure ()

/-- The output index is taken from `value`. -/
def writeVin (P : Packages) (vin : Vin) : CellWriter UInt8 Unit := do
  BufferCursor.writeBytes vin.hash
  BufferCursor.writeUInt32LE (propertyNumber vin.value)
  match vin.witness, vin.scriptSig with
  | some _, _ => BufferCursor.writeBytes (P.encode 0)
  | none, some scriptSig => BufferCursor.writeSized P scriptSig
  | none, none => BufferCursor.writeSized P vin.script
  BufferCursor.writeUInt32LE vin.sequence

/-- Nothing is written for an input that has no witness. -/
def writeWitness (P : Packages) (vin : Vin) : CellWriter UInt8 Unit :=
  match vin.witness with
  | some witness => do
    BufferCursor.writeBytes (P.encode witness.length)
    witness.forM (BufferCursor.writeSized P)
  | none => pure ()

def txToBuffer (P : Packages) (tx : Tx) : Option Bytes := do
  let cursor ← serialized (calcTxBytes P tx.vins tx.vouts) do
    BufferCursor.writeInt32LE tx.version
    writeFlags (hasWitness tx.vins)
    BufferCursor.writeBytes (P.encode tx.vins.length)
    tx.vins.forM (writeVin P)
    BufferCursor.writeBytes (P.encode tx.vouts.length)
    tx.vouts.forM (writeVout P)
    tx.vins.forM (writeWitness P)
    BufferCursor.writeUInt32LE tx.locktime
  pure cursor.buffer

def wireIn (vin : Vin) : TxIn := vin.wire (vin.value.getD 0) (scriptOf vin)

def writtenStacks (tx : Tx) : List (List Bytes) := tx.vins.filterMap Vin.witness

def wireBytes (tx : Tx) : Bytes :=
  if hasWitness tx.vins then
    segwitBytes tx.wireVersion (tx.vins.map wireIn) (tx.vouts.map Vout.wire) (writtenStacks tx)
      tx.locktime
  else legacyBytes tx.wireVersion (tx.vins.map wireIn) (tx.vouts.map Vout.wire) tx.locktime

private theorem scriptOf_length {vin : Vin} (h : vin.Fits) : (scriptOf vin).length < 2 ^ 53 := by
  unfold scriptOf
  split
  · decide
  · cases hsig : vin.scriptSig with
    | none => exact h.script
    | some scriptSig => exact h.scriptSig scriptSig hsig

theorem wireIn_fits {vin : Vin} (h : vin.Fits) (hvalue : vin.value.getD 0 < 2 ^ 32) :
    (wireIn vin).Fits := h.wire hvalue (scriptOf_length h)

theorem filterMap_witness_of_none {vins : List Vin} (h : hasWitness vins = false) :
    vins.filterMap Vin.witness = [] := by
  simpa [hasWitness] using h

/-- A transaction that the encoder accepts has only 32-bit values in its inputs. -/
theorem value_lt_of_txToBuffer {P : Packages} {tx : Tx} {b : Bytes} (h : txToBuffer P tx = some b) :
    ∀ vin ∈ tx.vins, vin.value.getD 0 < 2 ^ 32 := by
  have hvin (vin : Vin) : Demands (writeVin P vin) (vin.value.getD 0 < 2 ^ 32) :=
    Demands.second <| Demands.first fun c r hr => by
      have hbound := (BufferCursor.demands_uint32LE _ c r hr).2
      simp only [propertyNumber] at hbound
      omega
  obtain ⟨cursor,hc,_⟩ := Option.bind_eq_some_iff.mp h
  obtain ⟨r,hr,_⟩ := Option.map_eq_some_iff.mp hc
  refine (?_ : Demands _ (∀ vin ∈ tx.vins, vin.value.getD 0 < 2 ^ 32)) _ r hr
  exact Demands.second <| Demands.second <| Demands.second <| Demands.first <|
    Demands.loop tx.vins (writeVin P) _ hvin

theorem writes_flags (marked : Bool) :
    Writes (writeFlags marked) (if marked then [0, 1] else []) := by
  cases marked with
  | false => exact Writes.skip
  | true =>
    exact (BufferCursor.writes_uintLE 1 (show 0 < 256 ^ 1 by decide)).seq
      (BufferCursor.writes_uintLE 1 (show 1 < 256 ^ 1 by decide))

variable {P : Packages} (laws : PackageLaws P)
include laws

private theorem writes_vin {vin : Vin} (h : vin.Fits) (hvalue : vin.value.getD 0 < 2 ^ 32) :
    Writes (writeVin P vin) (wireIn vin).bytes := by
  have hscript := BufferCursor.writes_sized laws (scriptOf_length h)
  have hempty : Writes (BufferCursor.writeBytes (P.encode 0)) (sized []) := by
    rw [laws.encode 0 (by decide)]
    exact BufferCursor.writes_bytes _
  have hrest {script : CellWriter UInt8 Unit} (hw : Writes script (sized (scriptOf vin))) :=
    (BufferCursor.writes_bytes vin.hash).seq <| (BufferCursor.writes_uint32LE hvalue).seq <|
    hw.seq (BufferCursor.writes_uint32LE h.sequence)
  unfold writeVin
  cases hwit : vin.witness with
  | some witness => exact hrest (by simpa [scriptOf, hwit] using hempty)
  | none =>
    cases hsig : vin.scriptSig with
    | some scriptSig => exact hrest (by simpa [scriptOf, hwit, hsig] using hscript)
    | none => exact hrest (by simpa [scriptOf, hwit, hsig] using hscript)

private theorem writes_witness {vin : Vin} (h : vin.Fits) :
    Writes (writeWitness P vin) ((vin.witness.map witnessBytes).getD []) := by
  unfold writeWitness
  cases hwit : vin.witness with
  | none => exact Writes.skip
  | some witness =>
    obtain ⟨hcount,hdata⟩ := h.witness witness hwit
    simp only [laws.encode _ hcount]
    exact (BufferCursor.writes_bytes _).seq <| Writes.loop witness _ sized fun d hd =>
      BufferCursor.writes_sized laws (hdata d hd)

private theorem writes_witnesses {vins : List Vin} (h : ∀ vin ∈ vins, vin.Fits) :
    Writes (vins.forM (writeWitness P)) ((vins.filterMap Vin.witness).flatMap witnessBytes) := by
  have hloop := Writes.loop vins _ _ fun vin hvin => writes_witness laws (h vin hvin)
  refine hloop.congr ?_
  induction vins with
  | nil => rfl
  | cons vin vins ih =>
    have htail := ih (fun v hv => h v (List.mem_cons_of_mem _ hv))
      (Writes.loop vins _ _ fun v hv => writes_witness laws (h v (List.mem_cons_of_mem _ hv)))
    cases hwit : vin.witness <;> simp [hwit, htail]

private theorem witnessLength_eq {vins : List Vin} (h : ∀ vin ∈ vins, vin.Fits) :
    witnessLength P vins = ((vins.filterMap Vin.witness).flatMap witnessBytes).length := by
  rw [witnessLength, foldl_length _ witnessBytes]
  · exact Nat.zero_add _
  · intro witness hmem sum
    obtain ⟨vin,hvin,hwit⟩ := List.mem_filterMap.mp hmem
    obtain ⟨hcount,hdata⟩ := (h vin hvin).witness witness hwit
    rw [laws.encodingLength _ hcount, foldl_length witness sized]
    · simp [witnessBytes, counted]
      omega
    · intro d hd dsum
      rw [laws.encodingLength _ (hdata d hd)]
      simp [sized]
      omega

/-- The buffer is sized exactly, and filled with the format that the witnesses
call for, where the outpoints carry `value` and an input with a witness no script. -/
theorem txToBuffer_eq {tx : Tx} (h : tx.Fits)
    (hvalues : ∀ vin ∈ tx.vins, vin.value.getD 0 < 2 ^ 32) :
    txToBuffer P tx = some (wireBytes tx) := by
  have hwrites := (BufferCursor.writes_int32LE h.version.1 h.version.2).seq <|
    (writes_flags (hasWitness tx.vins)).seq <|
    writes_body laws h.counts h.vouts wireIn
      (fun vin hvin => writes_vin laws (h.vins vin hvin) (hvalues vin hvin)) <|
    (writes_witnesses laws h.vins).seq (BufferCursor.writes_uint32LE h.locktime)
  have hvins := vinsBytes_eq laws wireIn (fun vin hvin => (h.vins vin hvin).hash)
    fun vin hvin => scriptOf_length (h.vins vin hvin)
  have hsize : calcTxBytes P tx.vins tx.vouts = (int32Bytes tx.version ++
      ((if hasWitness tx.vins then [0, 1] else []) ++
      (bodyBytes (tx.vins.map wireIn) (tx.vouts.map Vout.wire) ++
      ((tx.vins.filterMap Vin.witness).flatMap witnessBytes ++ leBytes 4 tx.locktime)))).length := by
    change 4 + _ + _ + vinsBytes P (tx.vins.map fun vin => (wireIn vin).script.length) + _ + _ + _ + 4 = _
    rw [hvins, voutsBytes_eq laws h.vouts, laws.encodingLength _ h.counts.1,
      laws.encodingLength _ h.counts.2, witnessLength_eq laws h.vins]
    cases hmark : hasWitness tx.vins with
    | false =>
      simp [bodyBytes, counted, List.flatMap_map, filterMap_witness_of_none hmark]
      omega
    | true =>
      simp [bodyBytes, counted, List.flatMap_map]
      omega
  obtain ⟨c,hc,hbuffer,_⟩ := serialized_of_writes hwrites hsize
  rw [txToBuffer, hc]
  refine congrArg some (hbuffer.trans ?_)
  cases hmark : hasWitness tx.vins with
  | false => simp [wireBytes, hmark, legacyBytes, filterMap_witness_of_none hmark]; rfl
  | true => simp [wireBytes, hmark, segwitBytes, writtenStacks]; rfl

omit laws

def workedVin (vout : Nat) : Vin where
  txid := (List.range 32).map UInt8.ofNat
  vout := vout
  hash := ((List.range 32).map UInt8.ofNat).reverse
  sequence := 0xffffffff
  script := [0x76, 0xa9, 0x88, 0xac]
  scriptSig := none
  witness := some [[0x30, 0x01], [0x02]]
  value := none
  index := none

def workedTx (vout : Nat) : Tx where
  version := 2
  locktime := 0
  vins := [workedVin vout]
  vouts := [{ script := [0x76, 0xa9, 0x88, 0xac], value := .number 9000 }]

theorem workedVin_fits {vout : Nat} (h : vout < 2 ^ 32) : (workedVin vout).Fits :=
  ⟨by simp [workedVin],h,by simp [workedVin],by simp [workedVin],by simp [workedVin],by simp [workedVin]⟩

theorem workedTx_fits {vout : Nat} (h : vout < 2 ^ 32) : (workedTx vout).Fits where
  version := by simp [workedTx]
  locktime := by simp [workedTx]
  counts := by simp [workedTx]
  vins := by
    simp only [workedTx, List.forall_mem_singleton]
    exact workedVin_fits h
  vouts := by
    simp only [workedTx, List.forall_mem_singleton]
    exact ⟨by simp,by decide⟩

def pairTx : Tx := { workedTx 0 with
  vins := [workedVin 0, { workedVin 3 with hash := List.replicate 32 9, value := some 3, index := some 3 }] }

theorem pairTx_fits : pairTx.Fits :=
  have htx : (workedTx 0).Fits := workedTx_fits (by decide)
  have hvin : (workedVin 3).Fits := workedVin_fits (by decide)
  { htx with
    counts := by simp [pairTx, workedTx]
    vins := List.forall_mem_cons.mpr ⟨workedVin_fits (by decide),
      List.forall_mem_singleton.mpr { hvin with hash := by simp }⟩ }

end CryptoPlaypen.Bitcoin.P2wpkhSpend
