import CryptoPlaypen.Bitcoin.HashCommitment
import CryptoPlaypen.Bitcoin.SegwitTransaction

/-! The digest of `hashForWitnessV0`. Four buffers of calculated sizes are filled;
three of them are hashed into the fourth. -/
namespace CryptoPlaypen.Bitcoin.P2wpkhSpend
open Buffer

def fillPrevOuts (tx : Tx) : Option (Cursor UInt8) :=
  serialized (36 * tx.vins.length) <| tx.vins.forM fun vin => do
    BufferCursor.writeBytes vin.hash
    BufferCursor.writeUInt32LE (propertyNumber vin.index)

def fillSequence (tx : Tx) : Option (Cursor UInt8) :=
  serialized (4 * tx.vins.length) <| tx.vins.forM fun vin =>
    BufferCursor.writeUInt32LE vin.sequence

def fillOutputs (P : Packages) (tx : Tx) : Option (Cursor UInt8) :=
  serialized (voutsBytes P tx.vouts) (tx.vouts.forM (writeVout P))

def fillPreimage (P : Packages) (tx : Tx) (vin : Vin) (value : Amount) (hashType : Nat)
    (hashPrevOuts hashSequence hashOutputs : Bytes) : Option (Cursor UInt8) :=
  serialized (156 + P.encodingLength vin.script.length + vin.script.length) do
    BufferCursor.writeUInt32LE tx.version
    BufferCursor.writeBytes hashPrevOuts
    BufferCursor.writeBytes hashSequence
    BufferCursor.writeBytes vin.hash
    BufferCursor.writeUInt32LE (propertyNumber vin.index)
    BufferCursor.writeSized P vin.script
    BufferCursor.writeUInt64LE P value
    BufferCursor.writeUInt32LE vin.sequence
    BufferCursor.writeBytes hashOutputs
    BufferCursor.writeUInt32LE tx.locktime
    BufferCursor.writeUInt32LE hashType

structure WitnessBuffers where
  prevOuts : Cursor UInt8
  sequence : Cursor UInt8
  outputs : Cursor UInt8
  preimage : Cursor UInt8
  deriving DecidableEq, Repr

def witnessBuffers (P : Packages) (sha256 : Bytes → Bytes) (tx : Tx) (vindex : Nat)
    (value : Amount) (hashType : Nat) : Option WitnessBuffers := do
  let vin ← tx.vins[vindex]?
  let prevOuts ← fillPrevOuts tx
  let sequence ← fillSequence tx
  let outputs ← fillOutputs P tx
  let preimage ← fillPreimage P tx vin value hashType (hash256 sha256 prevOuts.buffer)
    (hash256 sha256 sequence.buffer) (hash256 sha256 outputs.buffer)
  pure { prevOuts, sequence, outputs, preimage }

def hashForWitnessV0 (P : Packages) (sha256 : Bytes → Bytes) (tx : Tx) (vindex : Nat)
    (value : Amount) (hashType : Nat) : Option Bytes := do
  let buffers ← witnessBuffers P sha256 tx vindex value hashType
  pure (hash256 sha256 buffers.preimage.buffer)

def Filled (c : Cursor UInt8) : Prop :=
  c.position = c.buffer.length ∧ Tiles 0 c.extents c.buffer.length

structure WitnessBuffers.Filled (buffers : WitnessBuffers) : Prop where
  prevOuts : P2wpkhSpend.Filled buffers.prevOuts
  sequence : P2wpkhSpend.Filled buffers.sequence
  outputs : P2wpkhSpend.Filled buffers.outputs
  preimage : P2wpkhSpend.Filled buffers.preimage

def outpoints (index : Vin → Nat) (vins : List Vin) : Bytes :=
  vins.flatMap fun vin => vin.hash ++ leBytes 4 (index vin)

/-- The message of the witness digest, for a choice of the indexes of the outpoints. -/
def witnessPreimage (sha256 : Bytes → Bytes) (index : Vin → Nat) (tx : Tx) (vin : Vin)
    (amount hashType : Nat) : Bytes :=
  leBytes 4 tx.wireVersion ++ (hash256 sha256 (outpoints index tx.vins) ++
  (hash256 sha256 (tx.vins.flatMap fun vin => leBytes 4 vin.sequence) ++
  (vin.hash ++ (leBytes 4 (index vin) ++ (sized vin.script ++ (leBytes 8 amount ++
  (leBytes 4 vin.sequence ++ (hash256 sha256 (tx.vouts.flatMap fun vout => vout.wire.bytes) ++
  (leBytes 4 tx.locktime ++ leBytes 4 hashType)))))))))

private theorem serialized_filled {w : CellWriter UInt8 Unit} {out : Bytes} (hw : Writes w out) {size : Nat}
    (hsize : size = out.length) : ∃ c, serialized size w = some c ∧ c.buffer = out ∧ Filled c := by
  obtain ⟨extents,htiles,hrun⟩ := hw.fill (show (zeros size).length = out.length by simpa using hsize)
  exact ⟨_,by rw [serialized, hrun]; rfl,rfl,rfl,htiles⟩

private theorem outpoints_length {index : Vin → Nat} {vins : List Vin}
    (h : ∀ vin ∈ vins, vin.hash.length = 32) : (outpoints index vins).length = 36 * vins.length := by
  induction vins with
  | nil => rfl
  | cons vin vins ih =>
    have htail := ih fun v hv => h v (List.mem_cons_of_mem _ hv)
    have hhash := h vin List.mem_cons_self
    rw [outpoints, List.flatMap_cons, List.length_append, List.length_append, hhash, leBytes_length,
      List.length_cons, Nat.mul_succ, ← htail, outpoints]
    omega

/-- Outpoints of one width spell their indexes. -/
theorem outpoints_injective {index index' : Vin → Nat} {vins : List Vin}
    (hindex : ∀ vin ∈ vins, index vin < 2 ^ 32) (hindex' : ∀ vin ∈ vins, index' vin < 2 ^ 32)
    (h : outpoints index vins = outpoints index' vins) : ∀ vin ∈ vins, index vin = index' vin := by
  induction vins with
  | nil => simp
  | cons vin vins ih =>
    obtain ⟨hhead,htail⟩ := List.append_inj h (by simp)
    have hle := List.append_cancel_left hhead
    have hfirst := leBytes_injective (hindex vin List.mem_cons_self) (hindex' vin List.mem_cons_self) hle
    exact List.forall_mem_cons.mpr ⟨hfirst,ih (fun v hv => hindex v (List.mem_cons_of_mem _ hv))
      (fun v hv => hindex' v (List.mem_cons_of_mem _ hv)) htail⟩

private theorem digestWindow_witnessPreimage {sha256 : Bytes → Bytes} (h : HashLength sha256)
    (index : Vin → Nat) (tx : Tx) (vin : Vin) (amount hashType : Nat) :
    digestWindow (witnessPreimage sha256 index tx vin amount hashType) =
      hash256 sha256 (outpoints index tx.vins) := by
  rw [digestWindow, witnessPreimage, List.drop_left' (leBytes_length 4 _),
    List.take_left' (hash256_length h _)]

private theorem witnessPreimage_length {sha256 : Bytes → Bytes} (h : HashLength sha256)
    (index : Vin → Nat) (tx : Tx) (vin : Vin) (amount hashType : Nat) :
    32 < (witnessPreimage sha256 index tx vin amount hashType).length := by
  simp only [witnessPreimage, List.length_append, leBytes_length, hash256_length h]
  omega

/-- Digests that agree for every hash function commit to the same outpoints. -/
theorem witnessPreimage_commits {tx : Tx} (vin : Vin) (amount hashType : Nat) {index : Vin → Nat}
    (h : tx.Fits) (hindex : ∀ vin ∈ tx.vins, index vin < 2 ^ 32)
    (heq : ∀ sha256, HashLength sha256 →
      hash256 sha256 (witnessPreimage sha256 index tx vin amount hashType) =
        hash256 sha256 (witnessPreimage sha256 Vin.vout tx vin amount hashType)) :
    ∀ vin ∈ tx.vins, index vin = vin.vout := by
  have hlength (f : Vin → Nat) : (outpoints f tx.vins).length ≠ 32 := by
    rw [outpoints_length fun vin hvin => (h.vins vin hvin).hash]
    omega
  refine outpoints_injective hindex (fun vin hvin => (h.vins vin hvin).vout) ?_
  by_contra hne
  obtain ⟨sha256,hsha,hdiffer,hcarry⟩ :=
    exists_carrying_hash (hlength index) (hlength Vin.vout) hne
  have hwritten := hcarry _ List.mem_cons_self _
    (Nat.ne_of_gt (witnessPreimage_length hsha index tx vin amount hashType))
    (digestWindow_witnessPreimage hsha index tx vin amount hashType)
  have hright := hcarry _ (List.mem_cons_of_mem _ List.mem_cons_self) _
    (Nat.ne_of_gt (witnessPreimage_length hsha Vin.vout tx vin amount hashType))
    (digestWindow_witnessPreimage hsha Vin.vout tx vin amount hashType)
  have hsame := heq sha256 hsha
  rw [hwritten, hright] at hsame
  exact hdiffer hsame

/-- A computation that ends has found a version and indexes that it can write. -/
theorem witnessBuffers_demands {P : Packages} {sha256 : Bytes → Bytes} {tx : Tx} {vindex : Nat}
    {value : Amount} {hashType : Nat} {buffers : WitnessBuffers}
    (h : witnessBuffers P sha256 tx vindex value hashType = some buffers) :
    0 ≤ tx.version ∧ ∀ vin ∈ tx.vins, vin.index.getD 0 < 2 ^ 32 := by
  obtain ⟨vin,_,h⟩ := Option.bind_eq_some_iff.mp h
  obtain ⟨prevOuts,hprev,h⟩ := Option.bind_eq_some_iff.mp h
  obtain ⟨sequence,_,h⟩ := Option.bind_eq_some_iff.mp h
  obtain ⟨outputs,_,h⟩ := Option.bind_eq_some_iff.mp h
  obtain ⟨preimage,hpre,_⟩ := Option.bind_eq_some_iff.mp h
  obtain ⟨r,hr,_⟩ := Option.map_eq_some_iff.mp hpre
  obtain ⟨q,hq,_⟩ := Option.map_eq_some_iff.mp hprev
  constructor
  · refine (?_ : Demands _ (0 ≤ tx.version)) _ r hr
    exact Demands.first fun c s hs => (BufferCursor.demands_uint32LE _ c s hs).1
  · refine (?_ : Demands _ (∀ vin ∈ tx.vins, vin.index.getD 0 < 2 ^ 32)) _ q hq
    refine Demands.loop tx.vins _ _ fun vin => Demands.second fun c s hs => ?_
    have hbound := (BufferCursor.demands_uint32LE _ c s hs).2
    simp only [propertyNumber] at hbound
    omega

section Filling
variable {P : Packages} {tx : Tx} (laws : PackageLaws P) (h : tx.Fits)
include h

private theorem fillPrevOuts_eq (hindex : ∀ vin ∈ tx.vins, vin.index.getD 0 < 2 ^ 32) :
    ∃ c, fillPrevOuts tx = some c ∧
      c.buffer = outpoints (fun vin => vin.index.getD 0) tx.vins ∧ Filled c :=
  serialized_filled
    (Writes.loop tx.vins _ (fun vin => vin.hash ++ leBytes 4 (vin.index.getD 0)) fun vin hvin =>
      (BufferCursor.writes_bytes vin.hash).seq (BufferCursor.writes_uint32LE (hindex vin hvin)))
    (outpoints_length fun vin hvin => (h.vins vin hvin).hash).symm

private theorem fillSequence_eq : ∃ c, fillSequence tx = some c ∧
    c.buffer = (tx.vins.flatMap fun vin => leBytes 4 vin.sequence) ∧ Filled c :=
  serialized_filled
    (Writes.loop tx.vins _ _ fun vin hvin => BufferCursor.writes_uint32LE (h.vins vin hvin).sequence)
    (by simp [List.length_flatMap, Nat.mul_comm])

include laws

private theorem fillOutputs_eq : ∃ c, fillOutputs P tx = some c ∧
    c.buffer = (tx.vouts.flatMap fun vout => vout.wire.bytes) ∧ Filled c :=
  serialized_filled (writes_vouts laws h.vouts) (voutsBytes_eq laws h.vouts)

private theorem fillPreimage_eq {vin : Vin} (hvin : vin ∈ tx.vins) {value : Amount} (hvalue : value.Fits)
    (h0 : 0 ≤ tx.version) (hindex : vin.index.getD 0 < 2 ^ 32) {hashType : Nat}
    (htype : hashType < 2 ^ 32) {prev seq outs : Bytes}
    (hdigests : prev.length = 32 ∧ seq.length = 32 ∧ outs.length = 32) :
    ∃ c, fillPreimage P tx vin value hashType prev seq outs = some c ∧
      c.buffer = leBytes 4 tx.wireVersion ++ (prev ++ (seq ++ (vin.hash ++
        (leBytes 4 (vin.index.getD 0) ++ (sized vin.script ++ (leBytes 8 value.units ++
        (leBytes 4 vin.sequence ++ (outs ++ (leBytes 4 tx.locktime ++ leBytes 4 hashType))))))))) ∧
      Filled c := by
  obtain ⟨hprev,hseq,houts⟩ := hdigests
  have hfits := h.vins vin hvin
  have hversion : Writes (BufferCursor.writeUInt32LE tx.version) (leBytes 4 tx.wireVersion) := by
    have hwrites := BufferCursor.writes_uint32LE tx.wireVersion_lt
    rwa [h.wireVersion h0] at hwrites
  refine serialized_filled
    (hversion.seq <| (BufferCursor.writes_bytes prev).seq <| (BufferCursor.writes_bytes seq).seq <|
      (BufferCursor.writes_bytes vin.hash).seq <| (BufferCursor.writes_uint32LE hindex).seq <|
      (BufferCursor.writes_sized laws hfits.script).seq <|
      (BufferCursor.writes_uint64LE laws hvalue).seq <|
      (BufferCursor.writes_uint32LE hfits.sequence).seq <| (BufferCursor.writes_bytes outs).seq <|
      (BufferCursor.writes_uint32LE h.locktime).seq (BufferCursor.writes_uint32LE htype)) ?_
  rw [laws.encodingLength _ hfits.script]
  simp only [List.length_append, leBytes_length, sized, hprev, hseq, houts, hfits.hash]
  omega

/-- The four buffers are filled exactly, and the last one with the message. -/
theorem witnessBuffers_eq {vindex : Nat} (hvindex : vindex < tx.vins.length) {value : Amount}
    (hvalue : value.Fits) (h0 : 0 ≤ tx.version)
    (hindex : ∀ vin ∈ tx.vins, vin.index.getD 0 < 2 ^ 32) {sha256 : Bytes → Bytes}
    (hsha : HashLength sha256) {hashType : Nat} (htype : hashType < 2 ^ 32) :
    ∃ buffers, witnessBuffers P sha256 tx vindex value hashType = some buffers ∧ buffers.Filled ∧
      buffers.preimage.buffer = witnessPreimage sha256 (fun vin => vin.index.getD 0) tx
        tx.vins[vindex] value.units hashType := by
  have hmem := List.getElem_mem hvindex
  obtain ⟨prevOuts,hprev,hprevBuffer,hprevFilled⟩ := fillPrevOuts_eq h hindex
  obtain ⟨sequence,hseq,hseqBuffer,hseqFilled⟩ := fillSequence_eq h
  obtain ⟨outputs,houts,houtsBuffer,houtsFilled⟩ := fillOutputs_eq laws h
  obtain ⟨preimage,hpre,hpreBuffer,hpreFilled⟩ :=
    fillPreimage_eq laws h hmem hvalue h0 (hindex _ hmem) htype
      ⟨hash256_length hsha prevOuts.buffer,hash256_length hsha sequence.buffer,
        hash256_length hsha outputs.buffer⟩
  refine ⟨⟨prevOuts,sequence,outputs,preimage⟩,?_,⟨hprevFilled,hseqFilled,houtsFilled,hpreFilled⟩,?_⟩
  · simp only [witnessBuffers, List.getElem?_eq_getElem hvindex, hprev, hseq, houts, hpre,
      Option.bind_eq_bind, Option.bind_some]
    rfl
  · rw [hpreBuffer, hprevBuffer, hseqBuffer, houtsBuffer, witnessPreimage]

end Filling

/-- Whatever the hash function, the four buffers are filled exactly and the result
is the digest of the message with the indexes that `vout` names. -/
def DigestsWitness (P : Packages) (tx : Tx) (vin : Vin) (vindex : Nat) (value : Amount) : Prop :=
  ∀ sha256, HashLength sha256 → ∃ buffers,
    witnessBuffers P sha256 tx vindex value 1 = some buffers ∧ buffers.Filled ∧
    hashForWitnessV0 P sha256 tx vindex value 1 =
      some (hash256 sha256 (witnessPreimage sha256 Vin.vout tx vin value.units 1))

theorem hashForWitnessV0_eq {P : Packages} {sha256 : Bytes → Bytes} {tx : Tx} {vindex : Nat}
    {value : Amount} {hashType : Nat} {buffers : WitnessBuffers}
    (h : witnessBuffers P sha256 tx vindex value hashType = some buffers) :
    hashForWitnessV0 P sha256 tx vindex value hashType =
      some (hash256 sha256 buffers.preimage.buffer) := by
  rw [hashForWitnessV0, h]
  rfl

section Digest
variable {P : Packages} {tx : Tx} (laws : PackageLaws P) (h : tx.Fits)
  {vindex : Nat} (hvindex : vindex < tx.vins.length) {value : Amount} (hvalue : value.Fits)
include laws h hvalue

private theorem vout_of_digestsWitness (hdigests : DigestsWitness P tx tx.vins[vindex] vindex value) :
    0 ≤ tx.version ∧ ∀ vin ∈ tx.vins, vin.index.getD 0 = vin.vout := by
  obtain ⟨buffers,hbuffers,_⟩ := hdigests (fun _ => zeros 32) fun _ => zeros_length 32
  obtain ⟨h0,hindex⟩ := witnessBuffers_demands hbuffers
  refine ⟨h0,witnessPreimage_commits tx.vins[vindex] value.units 1 h hindex fun sha256 hsha => ?_⟩
  obtain ⟨_,_,_,hdigest⟩ := hdigests sha256 hsha
  obtain ⟨written,hwritten,_,hbuffer⟩ :=
    witnessBuffers_eq laws h hvindex hvalue h0 hindex hsha (show 1 < 2 ^ 32 by decide)
  rw [hashForWitnessV0_eq hwritten, hbuffer] at hdigest
  exact Option.some.inj hdigest

private theorem digestsWitness_of_vout (h0 : 0 ≤ tx.version)
    (hvout : ∀ vin ∈ tx.vins, vin.index.getD 0 = vin.vout) :
    DigestsWitness P tx tx.vins[vindex] vindex value := by
  intro sha256 hsha
  have hindex : ∀ vin ∈ tx.vins, vin.index.getD 0 < 2 ^ 32 := fun vin hvin => by
    rw [hvout vin hvin]
    exact (h.vins vin hvin).vout
  obtain ⟨buffers,hbuffers,hfilled,hbuffer⟩ :=
    witnessBuffers_eq laws h hvindex hvalue h0 hindex hsha (show 1 < 2 ^ 32 by decide)
  have hout : outpoints (fun vin => vin.index.getD 0) tx.vins = outpoints Vin.vout tx.vins := by
    simp only [outpoints, List.flatMap_def]
    exact congrArg List.flatten (List.map_congr_left fun vin hvin => by rw [hvout vin hvin])
  refine ⟨buffers,hbuffers,hfilled,?_⟩
  rw [hashForWitnessV0_eq hbuffers, hbuffer, witnessPreimage, witnessPreimage, hout,
    hvout _ (List.getElem_mem hvindex)]

/-- The digest is right exactly for a version that is not negative and inputs whose
`index`, with 0 for none, is their `vout`. -/
theorem witness_sighash_iff :
    DigestsWitness P tx tx.vins[vindex] vindex value ↔
      0 ≤ tx.version ∧ ∀ vin ∈ tx.vins, vin.index.getD 0 = vin.vout :=
  ⟨vout_of_digestsWitness laws h hvindex hvalue,
    fun ⟨h0,hvout⟩ => digestsWitness_of_vout laws h hvindex hvalue h0 hvout⟩

end Digest

/-- Output 0 is committed to without an `index`, any other with one. -/
theorem witness_sighash_worked :
    DigestsWitness wirePackages pairTx (pairTx.vins.get ⟨1, by decide⟩) 1 (.number 10000) :=
  (witness_sighash_iff wirePackages_laws pairTx_fits (show 1 < pairTx.vins.length by decide) (by decide)).mpr
    ⟨by decide,by simp [pairTx, workedVin]⟩

/-- With the `vout` of the worked example, 1, other outpoints are hashed. -/
theorem witness_sighash_fails :
    outpoints (fun vin => vin.index.getD 0) (workedTx 1).vins ≠
      outpoints Vin.vout (workedTx 1).vins ∧
    ¬ DigestsWitness wirePackages (workedTx 1) (workedVin 1) 0 (.number 10000) := by
  refine ⟨by decide +kernel,fun hdigests => ?_⟩
  have hvout := (vout_of_digestsWitness wirePackages_laws (workedTx_fits (by decide))
    (show 0 < (workedTx 1).vins.length by decide) (by decide) hdigests).2
  exact absurd (hvout (workedVin 1) (by simp [workedTx])) (by decide)

end CryptoPlaypen.Bitcoin.P2wpkhSpend
