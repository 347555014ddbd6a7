import CryptoPlaypen.Bitcoin.CompactSize

/-! Transactions on the wire: the original format, the format with a marker, a
flag and one witness stack per input, and a decoder of both. -/
namespace CryptoPlaypen.Bitcoin
open Buffer

structure TxIn where
  hash : Bytes
  index : Nat
  script : Bytes
  sequence : Nat
  deriving DecidableEq, Repr

structure TxOut where
  value : Nat
  script : Bytes
  deriving DecidableEq, Repr

structure WireTx where
  version : Nat
  inputs : List TxIn
  outputs : List TxOut
  witnesses : List (List Bytes)
  locktime : Nat
  deriving DecidableEq, Repr

structure TxIn.Fits (t : TxIn) : Prop where
  hash : t.hash.length = 32
  index : t.index < 2 ^ 32
  script : t.script.length < 2 ^ 64
  sequence : t.sequence < 2 ^ 32

structure TxOut.Fits (t : TxOut) : Prop where
  value : t.value < 2 ^ 64
  script : t.script.length < 2 ^ 64

def TxIn.bytes (t : TxIn) : Bytes :=
  t.hash ++ (leBytes 4 t.index ++ (sized t.script ++ leBytes 4 t.sequence))

def TxOut.bytes (t : TxOut) : Bytes := leBytes 8 t.value ++ sized t.script

def witnessBytes (stack : List Bytes) : Bytes := counted sized stack

def readTxIn : Reader UInt8 TxIn := do
  let hash ← readBytes 32
  let index ← readLE 4
  let script ← readSized
  let sequence ← readLE 4
  pure { hash, index, script, sequence }

def readTxOut : Reader UInt8 TxOut := do
  let value ← readLE 8
  let script ← readSized
  pure { value, script }

def readWitness : Reader UInt8 (List Bytes) := readCounted readSized

/-- After the version, a count of zero is the marker; any other count is that of
the inputs, and there are no witnesses. -/
def readTx : Reader UInt8 WireTx := do
  let version ← readLE 4
  let n ← readCompactSize
  if n = 0 then
    let flag ← Reader.token
    if flag = 1 then
      let inputs ← readCounted readTxIn
      let outputs ← readCounted readTxOut
      let witnesses ← Reader.times inputs.length readWitness
      let locktime ← readLE 4
      pure { version, inputs, outputs, witnesses, locktime }
    else failure
  else
    let inputs ← Reader.times n readTxIn
    let outputs ← readCounted readTxOut
    let locktime ← readLE 4
    pure { version, inputs, outputs, witnesses := inputs.map fun _ => [], locktime }

/-- The transaction that all of the bytes spell, if any. -/
def decodeTx (bs : Bytes) : Option WireTx :=
  match readTx.run bs with
  | some (t, []) => some t
  | _ => none

def bodyBytes (inputs : List TxIn) (outputs : List TxOut) : Bytes :=
  counted TxIn.bytes inputs ++ counted TxOut.bytes outputs

def legacyBytes (version : Nat) (inputs : List TxIn) (outputs : List TxOut) (locktime : Nat) : Bytes :=
  leBytes 4 version ++ (bodyBytes inputs outputs ++ leBytes 4 locktime)

/-- The format with the marker 0, the flag 1 and the given witnesses. -/
def segwitBytes (version : Nat) (inputs : List TxIn) (outputs : List TxOut)
    (witnesses : List (List Bytes)) (locktime : Nat) : Bytes :=
  leBytes 4 version ++ ([0, 1] ++ (bodyBytes inputs outputs ++
    (witnesses.flatMap witnessBytes ++ leBytes 4 locktime)))

private theorem reads_txIn {t : TxIn} (h : t.Fits) : Reads readTxIn t.bytes t :=
  (reads_bytes_of_length h.hash).bind <| (reads_LE 4 h.index).bind <| (reads_sized h.script).bind <|
    (reads_LE 4 h.sequence).map fun sequence => { t with sequence }

theorem reads_txOut {t : TxOut} (h : t.Fits) : Reads readTxOut t.bytes t :=
  (reads_LE 8 h.value).bind <| (reads_sized h.script).map fun script => { t with script }

private theorem reads_witness {stack : List Bytes} (hcount : stack.length < 2 ^ 64)
    (h : ∀ d ∈ stack, d.length < 2 ^ 64) : Reads readWitness (witnessBytes stack) stack := by
  have hread := reads_counted stack sized id hcount fun d hd => reads_sized (h d hd)
  rwa [List.map_id] at hread

private theorem reads_witnesses {witnesses : List (List Bytes)}
    (h : ∀ s ∈ witnesses, s.length < 2 ^ 64 ∧ ∀ d ∈ s, d.length < 2 ^ 64) :
    Reads (Reader.times witnesses.length readWitness) (witnesses.flatMap witnessBytes) witnesses := by
  simpa using Reads.times witnesses witnessBytes id fun s hs => reads_witness (h s hs).1 (h s hs).2

private theorem reads_txOuts {outputs : List TxOut} (hcount : outputs.length < 2 ^ 64)
    (h : ∀ t ∈ outputs, t.Fits) :
    Reads (readCounted readTxOut) (counted TxOut.bytes outputs) outputs := by
  simpa using reads_counted outputs TxOut.bytes id hcount fun t ht => reads_txOut (h t ht)

private theorem consumes_witness : Consumes readWitness 1 :=
  consumes_counted (consumes_sized.mono (by omega))

theorem TxIn.bytes_length {t : TxIn} (h : t.hash.length = 32) :
    t.bytes.length = 40 + (sized t.script).length := by
  simp only [TxIn.bytes, List.length_append, h, leBytes_length]
  omega

theorem TxOut.bytes_length (t : TxOut) : t.bytes.length = 8 + (sized t.script).length := by
  simp [TxOut.bytes]

private theorem decodeTx_eq_some {bs : Bytes} {t : WireTx} :
    decodeTx bs = some t ↔ readTx.run bs = some (t, []) := by
  unfold decodeTx
  split
  · rename_i u h
    rw [h]
    simp
  · rename_i h
    exact ⟨nofun,fun hrun => absurd hrun (h t)⟩

section Decoding
variable {version locktime : Nat} {inputs : List TxIn} {outputs : List TxOut}
  {witnesses : List (List Bytes)}

private theorem reads_legacyBytes (hversion : version < 2 ^ 32) (hlocktime : locktime < 2 ^ 32)
    (hne : inputs ≠ []) (hcount : inputs.length < 2 ^ 64 ∧ outputs.length < 2 ^ 64)
    (hinputs : ∀ t ∈ inputs, t.Fits) (houtputs : ∀ t ∈ outputs, t.Fits) :
    Reads readTx (legacyBytes version inputs outputs locktime)
      ⟨version, inputs, outputs, inputs.map fun _ => [], locktime⟩ := by
  have hins : Reads (Reader.times inputs.length readTxIn) (inputs.flatMap TxIn.bytes) inputs := by
    simpa using Reads.times inputs TxIn.bytes id fun t ht => reads_txIn (hinputs t ht)
  have houts := reads_txOuts hcount.2 houtputs
  have hlock := reads_LE 4 hlocktime
  rw [legacyBytes, bodyBytes, counted, List.append_assoc, List.append_assoc]
  refine (reads_LE 4 hversion).bind ((reads_compactSize hcount.1).bind ?_)
  rw [if_neg (by simpa using hne)]
  exact hins.bind (houts.bind (hlock.map fun l => WireTx.mk _ _ _ _ l))

/-- The part of the decoder behind the marker and the flag. -/
theorem run_segwitBytes (hversion : version < 2 ^ 32)
    (hcount : inputs.length < 2 ^ 64 ∧ outputs.length < 2 ^ 64)
    (hinputs : ∀ t ∈ inputs, t.Fits) (houtputs : ∀ t ∈ outputs, t.Fits) (rest : Bytes) :
    readTx.run (leBytes 4 version ++ ([0, 1] ++ (bodyBytes inputs outputs ++ rest))) =
      (do
        let witnesses ← Reader.times inputs.length readWitness
        let locktime ← readLE 4
        pure ⟨version, inputs, outputs, witnesses, locktime⟩ : Reader UInt8 WireTx).run rest := by
  have hins : Reads (readCounted readTxIn) (counted TxIn.bytes inputs) inputs := by
    simpa using reads_counted inputs TxIn.bytes id hcount.1 fun t ht => reads_txIn (hinputs t ht)
  have houts := reads_txOuts hcount.2 houtputs
  have hmarker : Reads readCompactSize [0] 0 := reads_compactSize (n := 0) (by decide)
  have hflag : Reads Reader.token [(1 : UInt8)] 1 := Reads.token 1
  rw [readTx, (reads_LE 4 hversion).run_bind]
  change (readCompactSize >>= _).run ([0] ++ ([1] ++ (bodyBytes inputs outputs ++ rest))) = _
  rw [hmarker.run_bind, if_pos rfl, hflag.run_bind, if_pos rfl, bodyBytes, List.append_assoc,
    hins.run_bind, houts.run_bind]

theorem decodeTx_legacyBytes (hversion : version < 2 ^ 32) (hlocktime : locktime < 2 ^ 32)
    (hne : inputs ≠ []) (hcount : inputs.length < 2 ^ 64 ∧ outputs.length < 2 ^ 64)
    (hinputs : ∀ t ∈ inputs, t.Fits) (houtputs : ∀ t ∈ outputs, t.Fits) :
    decodeTx (legacyBytes version inputs outputs locktime) =
      some ⟨version, inputs, outputs, inputs.map fun _ => [], locktime⟩ :=
  decodeTx_eq_some.mpr
    (reads_legacyBytes hversion hlocktime hne hcount hinputs houtputs).run_all

theorem decodeTx_segwitBytes (hversion : version < 2 ^ 32) (hlocktime : locktime < 2 ^ 32)
    (hcount : inputs.length < 2 ^ 64 ∧ outputs.length < 2 ^ 64)
    (hinputs : ∀ t ∈ inputs, t.Fits) (houtputs : ∀ t ∈ outputs, t.Fits)
    (hwitnesses : ∀ s ∈ witnesses, s.length < 2 ^ 64 ∧ ∀ d ∈ s, d.length < 2 ^ 64)
    (hall : witnesses.length = inputs.length) :
    decodeTx (segwitBytes version inputs outputs witnesses locktime) =
      some ⟨version, inputs, outputs, witnesses, locktime⟩ := by
  rw [decodeTx_eq_some, segwitBytes, run_segwitBytes hversion hcount hinputs houtputs, ← hall,
    (reads_witnesses hwitnesses).run_bind]
  exact ((reads_LE 4 hlocktime).map fun l => WireTx.mk _ _ _ _ l).run_all

/-- With a witness stack too few the lock time does not hold enough bytes for the
stacks that are missing and for itself. -/
theorem decodeTx_segwitBytes_short (hversion : version < 2 ^ 32)
    (hcount : inputs.length < 2 ^ 64 ∧ outputs.length < 2 ^ 64)
    (hinputs : ∀ t ∈ inputs, t.Fits) (houtputs : ∀ t ∈ outputs, t.Fits)
    (hwitnesses : ∀ s ∈ witnesses, s.length < 2 ^ 64 ∧ ∀ d ∈ s, d.length < 2 ^ 64)
    (hfew : witnesses.length < inputs.length) (t : WireTx) :
    decodeTx (segwitBytes version inputs outputs witnesses locktime) ≠ some t := by
  intro h
  obtain ⟨k,hk⟩ := Nat.exists_eq_add_of_lt hfew
  rw [decodeTx_eq_some, segwitBytes, run_segwitBytes hversion hcount hinputs houtputs, hk,
    Nat.add_assoc, Reader.times_add] at h
  simp only [bind_assoc, pure_bind] at h
  rw [(reads_witnesses hwitnesses).run_bind] at h
  have hrest : Consumes (do
      let missing ← Reader.times (k + 1) readWitness
      let locktime ← readLE 4
      pure (WireTx.mk version inputs outputs (witnesses ++ missing) locktime)) ((k + 1) * 1 + (4 + 0)) :=
    (consumes_witness.times (k + 1)).bind fun _ => (consumes_LE 4).bind fun _ => Consumes.pure _
  have := hrest _ _ _ h
  simp at this

end Decoding
end CryptoPlaypen.Bitcoin
