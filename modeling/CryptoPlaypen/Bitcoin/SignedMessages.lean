import CryptoPlaypen.Bitcoin.LegacySighash
import CryptoPlaypen.Bitcoin.WitnessSighash

/-! What a signature commits to: of all transactions, those that agree with the signed one on
everything but scriptSigs and witnesses, and no other. -/
namespace CryptoPlaypen.Bitcoin
open Buffer

namespace WireTx

structure Fits (tx : WireTx) : Prop where
  version : tx.version < 2 ^ 32
  locktime : tx.locktime < 2 ^ 32
  inputs_ne : tx.inputs ≠ []
  counts : tx.inputs.length < 2 ^ 64 ∧ tx.outputs.length < 2 ^ 64
  inputs : ∀ t ∈ tx.inputs, t.Fits
  outputs : ∀ t ∈ tx.outputs, t.Fits

/-- The inputs of a message: only the one that is signed has a script. -/
def blanked (tx : WireTx) (i : Nat) (script : Bytes) : List TxIn :=
  tx.inputs.mapIdx fun j t => { t with script := if j = i then script else [] }

def legacyMessage (tx : WireTx) (i : Nat) (script : Bytes) (hashType : Nat) : Bytes :=
  legacyBytes tx.version (tx.blanked i script) tx.outputs tx.locktime ++ leBytes 4 hashType

/-- The message of the witness digest, of the type that covers everything. -/
def witnessMessage (sha256 : Bytes → Bytes) (tx : WireTx) (t : TxIn) (amount : Nat) (script : Bytes) :
    Bytes :=
  leBytes 4 tx.version ++ (hash256 sha256 (tx.inputs.flatMap fun t => t.hash ++ leBytes 4 t.index) ++
  (hash256 sha256 (tx.inputs.flatMap fun t => leBytes 4 t.sequence) ++
  (t.hash ++ (leBytes 4 t.index ++ (sized script ++ (leBytes 8 amount ++
  (leBytes 4 t.sequence ++ (hash256 sha256 (tx.outputs.flatMap TxOut.bytes) ++
  (leBytes 4 tx.locktime ++ leBytes 4 1)))))))))

def hashedParts (tx : WireTx) : List Bytes :=
  [tx.inputs.flatMap fun t => t.hash ++ leBytes 4 t.index, tx.inputs.flatMap fun t => leBytes 4 t.sequence,
    tx.outputs.flatMap TxOut.bytes]

end WireTx

def TxIn.outpoint (t : TxIn) : Bytes × Nat := (t.hash,t.index)

/-- Two transactions differ in scriptSigs and witnesses at most. -/
structure WireTx.Agrees (tx tx' : WireTx) : Prop where
  version : tx.version = tx'.version
  outpoints : tx.inputs.map TxIn.outpoint = tx'.inputs.map TxIn.outpoint
  sequences : tx.inputs.map TxIn.sequence = tx'.inputs.map TxIn.sequence
  outputs : tx.outputs = tx'.outputs
  locktime : tx.locktime = tx'.locktime

def Tx.wire (t : Tx) : WireTx where
  version := t.wireVersion
  inputs := t.vins.map P2pkh.wireIn
  outputs := t.vouts.map Vout.wire
  witnesses := t.vins.map fun _ => []
  locktime := t.locktime

def filteredPrevOutScript (script : Bytes) : Bytes :=
  script.filter fun op => op.toNat != OPS.OP_CODESEPARATOR

private theorem flatMap_bytes_injective {τ α : Type} {r : Reader τ α} (enc : α → List τ) {xs ys : List α}
    (hxs : ∀ x ∈ xs, Reads r (enc x) x) (hys : ∀ y ∈ ys, Reads r (enc y) y)
    (hne : ∀ x, enc x ≠ []) (h : xs.flatMap enc = ys.flatMap enc) : xs = ys := by
  have hx := Reads.untilEnd xs enc id hxs (fun x _ => hne x) _ le_rfl
  have hy := Reads.untilEnd ys enc id hys (fun y _ => hne y) _ le_rfl
  rw [h, hy] at hx
  simpa using hx.symm

section Legacy
variable {tx tx' : WireTx} {i i' hashType hashType' : Nat} {s s' : Bytes}

private theorem blanked_congr (houtpoints : tx.inputs.map TxIn.outpoint = tx'.inputs.map TxIn.outpoint)
    (hsequences : tx.inputs.map TxIn.sequence = tx'.inputs.map TxIn.sequence) (i : Nat) (s : Bytes) :
    tx.blanked i s = tx'.blanked i s := by
  have hcount : tx.inputs.length = tx'.inputs.length := by simpa using congrArg List.length houtpoints
  refine List.ext_getElem (by simpa [WireTx.blanked] using hcount) fun j hj hj' => ?_
  simp only [WireTx.blanked, List.length_mapIdx] at hj hj'
  have hpoint : tx.inputs[j].outpoint = tx'.inputs[j].outpoint := by
    simpa [hj, hj'] using congrArg (·[j]?) houtpoints
  have hsequence : tx.inputs[j].sequence = tx'.inputs[j].sequence := by
    simpa [hj, hj'] using congrArg (·[j]?) hsequences
  obtain ⟨hhash,hindex⟩ := Prod.mk.inj hpoint
  simp [WireTx.blanked, hhash, hindex, hsequence]

/-- Without a script it makes no difference which input is signed. -/
private theorem blanked_nil (tx : WireTx) (i i' : Nat) : tx.blanked i [] = tx.blanked i' [] := by
  simp [WireTx.blanked]

private theorem WireTx.Fits.blanked (h : tx.Fits) (hs : s.length < 2 ^ 64) :
    ∀ t ∈ tx.blanked i s, t.Fits := by
  simp only [WireTx.blanked, List.mem_mapIdx]
  rintro _ ⟨j,hj,rfl⟩
  have hfits := h.inputs _ (List.getElem_mem hj)
  have hscript : (if j = i then s else []).length < 2 ^ 64 := by
    split
    · exact hs
    · decide
  exact ⟨hfits.hash,hfits.index,hscript,hfits.sequence⟩

/-- Nothing but the scripts is another. -/
private theorem blanked_map (tx : WireTx) (i : Nat) (s : Bytes) {α : Type} {f : TxIn → α}
    (hf : ∀ t s, f { t with script := s } = f t) : (tx.blanked i s).map f = tx.inputs.map f := by
  refine List.ext_getElem (by simp [WireTx.blanked]) fun j _ _ => ?_
  simp only [WireTx.blanked, List.getElem_map, List.getElem_mapIdx, hf]

private theorem blanked_script (hi : i < tx.inputs.length) (j : Nat) :
    ((tx.blanked j s)[i]?).map TxIn.script = some (if i = j then s else []) := by
  simp only [WireTx.blanked, List.getElem?_mapIdx, List.getElem?_eq_getElem hi, Option.map_some]

private theorem WireTx.Fits.decode_blanked (h : tx.Fits) (hs : s.length < 2 ^ 64) :
    decodeTx (legacyBytes tx.version (tx.blanked i s) tx.outputs tx.locktime) =
      some ⟨tx.version,tx.blanked i s,tx.outputs,(tx.blanked i s).map fun _ => [],tx.locktime⟩ :=
  decodeTx_legacyBytes h.version h.locktime (by simpa [WireTx.blanked] using h.inputs_ne)
    (by simpa [WireTx.blanked] using h.counts) (h.blanked hs) h.outputs

/-- Agreement is all that a message asks of a transaction. -/
theorem WireTx.Agrees.legacyMessage (h : tx.Agrees tx') (i : Nat) (s : Bytes) (hashType : Nat) :
    tx.legacyMessage i s hashType = tx'.legacyMessage i s hashType := by
  rw [WireTx.legacyMessage, WireTx.legacyMessage, blanked_congr h.outpoints h.sequences, h.version, h.outputs,
    h.locktime]

/-- The messages of two transactions are the same exactly if these agree, and the same input is
signed under the same script and type; only an empty script does not say which input it was. -/
theorem legacyMessage_eq_iff (h : tx.Fits) (h' : tx'.Fits) (hi : i < tx.inputs.length)
    (hi' : i' < tx'.inputs.length) (hs : s.length < 2 ^ 64) (hs' : s'.length < 2 ^ 64)
    (htype : hashType < 2 ^ 32) (htype' : hashType' < 2 ^ 32) :
    tx.legacyMessage i s hashType = tx'.legacyMessage i' s' hashType' ↔
      tx.Agrees tx' ∧ s = s' ∧ (i = i' ∨ s = []) ∧ hashType = hashType' := by
  constructor
  · intro hmessage
    obtain ⟨hbytes,htypes⟩ := List.append_inj' hmessage (by simp)
    have hdecoded := (h.decode_blanked (i := i) hs).symm.trans
      ((congrArg decodeTx hbytes).trans (h'.decode_blanked hs'))
    obtain ⟨hversion,hins,houtputs,_,hlocktime⟩ := WireTx.mk.inj (Option.some.inj hdecoded)
    have hcount : tx.inputs.length = tx'.inputs.length := by
      simpa [WireTx.blanked] using congrArg List.length hins
    have hsame {α : Type} (f : TxIn → α) (hf : ∀ t s, f { t with script := s } = f t) :
        tx.inputs.map f = tx'.inputs.map f := by
      rw [← blanked_map tx i s hf, hins, blanked_map tx' i' s' hf]
    -- each of the two inputs has its script on one side, and this or none on the other
    have hat := blanked_script (s := s) hi i
    have hat' := blanked_script (s := s) (show i' < tx.inputs.length from hcount ▸ hi') i
    rw [hins, blanked_script (hcount ▸ hi)] at hat
    rw [hins, blanked_script hi'] at hat'
    simp only [if_true, Option.some.injEq] at hat hat'
    refine ⟨⟨hversion,hsame _ fun _ _ => rfl,hsame _ fun _ _ => rfl,houtputs,hlocktime⟩,?_⟩
    rw [← and_assoc]
    refine ⟨?_,leBytes_injective htype htype' htypes⟩
    by_cases hii : i = i'
    · rw [if_pos hii] at hat
      exact ⟨hat.symm,.inl hii⟩
    · rw [if_neg hii] at hat
      rw [if_neg (Ne.symm hii)] at hat'
      exact ⟨hat.symm.trans hat'.symm,.inr hat.symm⟩
  · rintro ⟨hagrees,rfl,hsigned,rfl⟩
    rw [hagrees.legacyMessage]
    rcases hsigned with rfl | rfl
    · rfl
    · rw [WireTx.legacyMessage, WireTx.legacyMessage, blanked_nil tx' i i']

end Legacy

section Signers
variable {t : Tx} {i hashType : Nat}

theorem Tx.Fits.wire (h : t.Fits) (hne : t.vins ≠ []) : t.wire.Fits where
  version := t.wireVersion_lt
  locktime := h.locktime
  inputs_ne := by simpa [Tx.wire] using hne
  counts := by
    have := h.counts
    simp only [Tx.wire, List.length_map]
    omega
  inputs := List.forall_mem_map.mpr fun vin hvin => P2pkh.wireIn_fits (h.vins vin hvin)
  outputs := outputs_fit h

private theorem filteredPrevOutScript_length (h : t.Fits) (hi : i < t.vins.length) :
    (filteredPrevOutScript t.vins[i].script).length < 2 ^ 53 :=
  Nat.lt_of_le_of_lt (List.length_filter_le _ _) (h.vins _ (List.getElem_mem hi)).script

/-- What is hashed is the message of the filtered script, whatever has been signed before. -/
theorem sighash_eq_legacyMessage {P : Packages} (laws : PackageLaws P) (sha256 : Bytes → Bytes) (h : t.Fits)
    (hi : i < t.vins.length) (htype : hashType < 2 ^ 31) :
    sighash (P2pkh.txToBuffer P) sha256 t i hashType =
      some (hash256 sha256 (t.wire.legacyMessage i (filteredPrevOutScript t.vins[i].script) hashType)) := by
  have hins : hashedInputs Vin.vout t i = t.wire.blanked i (filteredPrevOutScript t.vins[i].script) := by
    refine List.ext_getElem (by simp [hashedInputs, WireTx.blanked, Tx.wire]) fun j _ _ => ?_
    by_cases hj : j = i
    · subst hj
      simp [hashedInputs, WireTx.blanked, Tx.wire, P2pkh.wireIn, Vin.wire, filteredPrevOutScript]
    · simp [hashedInputs, WireTx.blanked, Tx.wire, P2pkh.wireIn, Vin.wire, hj]
  rw [sighash_eq (signingClone_eq hi) (P2pkh.txToBuffer_signing laws h i) htype, hins]
  rfl

/-- Each call of the signer hashes one message, for every hash function, and two calls hash the same
message exactly if the transactions agree on version, outpoints, sequences, outputs and lock time, and
the scripts without their separator bytes, the types and the inputs are the same; inputs whose filtered
scripts are empty are not told apart. -/
theorem sighash_binds {P : Packages} (laws : PackageLaws P) {t' : Tx} {i' hashType' : Nat} (h : t.Fits)
    (h' : t'.Fits) (hi : i < t.vins.length) (hi' : i' < t'.vins.length) (htype : hashType < 2 ^ 31)
    (htype' : hashType' < 2 ^ 31) :
    ∃ message message',
      (∀ sha256, sighash (P2pkh.txToBuffer P) sha256 t i hashType = some (hash256 sha256 message) ∧
        sighash (P2pkh.txToBuffer P) sha256 t' i' hashType' = some (hash256 sha256 message')) ∧
      (message = message' ↔ t.wire.Agrees t'.wire ∧
        filteredPrevOutScript t.vins[i].script = filteredPrevOutScript t'.vins[i'].script ∧
        (i = i' ∨ filteredPrevOutScript t.vins[i].script = []) ∧ hashType = hashType') := by
  refine ⟨_,_,fun sha256 => ⟨sighash_eq_legacyMessage laws sha256 h hi htype,
    sighash_eq_legacyMessage laws sha256 h' hi' htype'⟩,?_⟩
  exact legacyMessage_eq_iff (h.wire (List.ne_nil_of_length_pos (by omega)))
    (h'.wire (List.ne_nil_of_length_pos (by omega))) (by simpa [Tx.wire] using hi)
    (by simpa [Tx.wire] using hi') (lt_widest (filteredPrevOutScript_length h hi))
    (lt_widest (filteredPrevOutScript_length h' hi')) (by omega) (by omega)

end Signers

def spendingTx (scripts : List Bytes) : Tx where
  version := 2
  locktime := 0
  vins := scripts.mapIdx fun i script =>
    { txid := List.replicate 32 7, vout := i, hash := List.replicate 32 7, sequence := 0xffffffff
      script := script, scriptSig := none, witness := none, value := some i, index := some i }
  vouts := [{ script := [0x51], value := .number 900 }]

theorem spendingTx_fits {scripts : List Bytes} (hcount : scripts.length ≤ 2 ^ 32)
    (hscripts : ∀ script ∈ scripts, script.length < 2 ^ 53) : (spendingTx scripts).Fits where
  version := by simp [spendingTx]
  locktime := by simp [spendingTx]
  counts := by simp only [spendingTx, List.length_mapIdx, List.length_singleton]; omega
  vins := by
    simp only [spendingTx, List.mem_mapIdx]
    rintro _ ⟨i,hi,rfl⟩
    exact ⟨by simp,Nat.lt_of_lt_of_le hi hcount,by simp,hscripts _ (List.getElem_mem hi),by simp,by simp⟩
  vouts := by
    simp only [spendingTx, List.forall_mem_singleton]
    exact ⟨by simp,by decide⟩

/-- A separator byte in the script of the second input makes no difference, but the input does. -/
theorem sighash_binds_separator :
    ∃ message message',
      (∀ sha256, sighash (P2pkh.txToBuffer wirePackages) sha256 (spendingTx [[0x76], [0xab, 0x87]]) 1 1 =
          some (hash256 sha256 message) ∧
        sighash (P2pkh.txToBuffer wirePackages) sha256 (spendingTx [[0x87], [0x87]]) 1 1 =
          some (hash256 sha256 message')) ∧
      message = message' := by
  obtain ⟨message,message',hdigests,hiff⟩ := sighash_binds wirePackages_laws
    (show (spendingTx [[0x76], [0xab, 0x87]]).Fits from spendingTx_fits (by decide) (by decide))
    (show (spendingTx [[0x87], [0x87]]).Fits from spendingTx_fits (by decide) (by decide))
    (show 1 < (spendingTx [[0x76], [0xab, 0x87]]).vins.length by decide)
    (show 1 < (spendingTx [[0x87], [0x87]]).vins.length by decide)
    (show 1 < 2 ^ 31 by decide) (show 1 < 2 ^ 31 by decide)
  exact ⟨message,message',hdigests,hiff.mpr ⟨⟨rfl,rfl,rfl,rfl,rfl⟩,rfl,.inl rfl,rfl⟩⟩

section Witnesses
variable {sha256 : Bytes → Bytes} {tx tx' : WireTx} {x x' : TxIn} {amount amount' : Nat} {s s' : Bytes}

def readWitnessMessage : Reader UInt8 (Nat × Bytes × Bytes × TxIn × Nat × Bytes × Nat) := do
  let version ← readLE 4
  let outpoints ← readBytes 32
  let sequences ← readBytes 32
  let hash ← readBytes 32
  let index ← readLE 4
  let script ← readSized
  let amount ← readLE 8
  let sequence ← readLE 4
  let outputs ← readBytes 32
  let locktime ← readLE 4
  let _ ← readLE 4
  pure (version, outpoints, sequences, ⟨hash,index,script,sequence⟩, amount, outputs, locktime)

private theorem reads_witnessMessage (hsha : HashLength sha256) (h : tx.Fits) (hx : x.Fits)
    (hamount : amount < 2 ^ 64) (hs : s.length < 2 ^ 64) :
    Reads readWitnessMessage (tx.witnessMessage sha256 x amount s)
      (tx.version, hash256 sha256 (tx.inputs.flatMap fun t => t.hash ++ leBytes 4 t.index),
        hash256 sha256 (tx.inputs.flatMap fun t => leBytes 4 t.sequence), { x with script := s }, amount,
        hash256 sha256 (tx.outputs.flatMap TxOut.bytes), tx.locktime) := by
  have hdigest (b : Bytes) := reads_bytes_of_length (hash256_length hsha b)
  exact (reads_LE 4 h.version).bind <| (hdigest _).bind <| (hdigest _).bind <|
    (reads_bytes_of_length hx.hash).bind <| (reads_LE 4 hx.index).bind <| (reads_sized hs).bind <|
    (reads_LE 8 hamount).bind <| (reads_LE 4 hx.sequence).bind <| (hdigest _).bind <|
    (reads_LE 4 h.locktime).bind <| (reads_LE 4 (show 1 < 256 ^ 4 by decide)).map fun _ => _

private theorem outpoints_of_bytes {inputs inputs' : List TxIn} (h : ∀ t ∈ inputs, t.Fits)
    (h' : ∀ t ∈ inputs', t.Fits) (heq : (inputs.flatMap fun t => t.hash ++ leBytes 4 t.index) =
      inputs'.flatMap fun t => t.hash ++ leBytes 4 t.index) :
    inputs.map TxIn.outpoint = inputs'.map TxIn.outpoint := by
  have hread {t : TxIn} (ht : t.Fits) : Reads (do
      let hash ← readBytes 32
      let index ← readLE 4
      pure (hash,index)) (t.hash ++ leBytes 4 t.index) t.outpoint :=
    (reads_bytes_of_length ht.hash).bind ((reads_LE 4 ht.index).map fun index => (t.hash,index))
  refine flatMap_bytes_injective (fun p => p.1 ++ leBytes 4 p.2)
    (List.forall_mem_map.mpr fun t ht => hread (h t ht))
    (List.forall_mem_map.mpr fun t ht => hread (h' t ht)) (fun p => by simp [leBytes]) ?_
  rwa [List.flatMap_map, List.flatMap_map]

private theorem sequences_of_bytes {inputs inputs' : List TxIn} (h : ∀ t ∈ inputs, t.Fits)
    (h' : ∀ t ∈ inputs', t.Fits) (heq : (inputs.flatMap fun t => leBytes 4 t.sequence) =
      inputs'.flatMap fun t => leBytes 4 t.sequence) :
    inputs.map TxIn.sequence = inputs'.map TxIn.sequence := by
  refine flatMap_bytes_injective (leBytes 4)
    (List.forall_mem_map.mpr fun t ht => reads_LE 4 (h t ht).sequence)
    (List.forall_mem_map.mpr fun t ht => reads_LE 4 (h' t ht).sequence) (fun p => by simp [leBytes]) ?_
  rwa [List.flatMap_map, List.flatMap_map]

/-- The messages of two inputs are the same exactly if the transactions agree and the inputs, the
amounts and the scripts are the same, where the digests of the parts are no collision. -/
theorem witnessMessage_eq_iff (hsha : HashLength sha256) (h : tx.Fits) (h' : tx'.Fits) (hx : x.Fits)
    (hx' : x'.Fits) (hamount : amount < 2 ^ 64) (hamount' : amount' < 2 ^ 64) (hs : s.length < 2 ^ 64)
    (hs' : s'.length < 2 ^ 64)
    (hparts : List.Forall₂ (fun a b => hash256 sha256 a = hash256 sha256 b → a = b) tx.hashedParts tx'.hashedParts) :
    tx.witnessMessage sha256 x amount s = tx'.witnessMessage sha256 x' amount' s' ↔
      tx.Agrees tx' ∧ x.outpoint = x'.outpoint ∧ x.sequence = x'.sequence ∧ amount = amount' ∧ s = s' := by
  constructor
  · intro hmessage
    have hread := reads_witnessMessage hsha h hx hamount hs
    rw [hmessage] at hread
    have hfields := hread.run_all.symm.trans (reads_witnessMessage hsha h' hx' hamount' hs').run_all
    simp only [Option.some.injEq, Prod.mk.injEq, and_true] at hfields
    obtain ⟨hversion,hpoints,hseqs,hinput,hsame,houts,hlocktime⟩ := hfields
    obtain ⟨hhash,hindex,hscript,hsequence⟩ := TxIn.mk.inj hinput
    simp only [WireTx.hashedParts, List.forall₂_cons, List.Forall₂.nil, and_true] at hparts
    obtain ⟨hpoints',hseqs',houts'⟩ := hparts
    exact ⟨⟨hversion,outpoints_of_bytes h.inputs h'.inputs (hpoints' hpoints),
      sequences_of_bytes h.inputs h'.inputs (hseqs' hseqs),
      flatMap_bytes_injective TxOut.bytes (fun t ht => reads_txOut (h.outputs t ht))
        (fun t ht => reads_txOut (h'.outputs t ht)) (fun t => by simp [TxOut.bytes, leBytes]) (houts' houts),
      hlocktime⟩,congrArg₂ Prod.mk hhash hindex,hsequence,hsame,hscript⟩
  · rintro ⟨hagrees,houtpoint,hsequence,rfl,rfl⟩
    obtain ⟨hhash,hindex⟩ := Prod.mk.inj houtpoint
    have houtpoints : (tx.inputs.map fun t => t.hash ++ leBytes 4 t.index) =
        tx'.inputs.map fun t => t.hash ++ leBytes 4 t.index := by
      simpa [Function.comp_def, TxIn.outpoint] using congrArg (List.map fun p : Bytes × Nat => p.1 ++ leBytes 4 p.2) hagrees.outpoints
    have hsequences : (tx.inputs.map fun t => leBytes 4 t.sequence) =
        tx'.inputs.map fun t => leBytes 4 t.sequence := by
      simpa [Function.comp_def] using congrArg (List.map (leBytes 4)) hagrees.sequences
    simp only [WireTx.witnessMessage, List.flatMap_def, houtpoints, hsequences, hagrees.version,
      hagrees.outputs, hagrees.locktime, hhash, hindex, hsequence]

/-- What the witness digest of the code is about: the outpoints with the numbers of `index`. -/
def P2wpkhSpend.indexedTx (t : Tx) : WireTx where
  version := t.wireVersion
  inputs := t.vins.map fun vin => vin.wire (vin.index.getD 0) []
  outputs := t.vouts.map Vout.wire
  witnesses := []
  locktime := t.locktime

theorem P2wpkhSpend.indexedTx_fits {t : Tx} (h : t.Fits) (hne : t.vins ≠ [])
    (hindex : ∀ vin ∈ t.vins, vin.index.getD 0 < 2 ^ 32) : (indexedTx t).Fits where
  version := t.wireVersion_lt
  locktime := h.locktime
  inputs_ne := by simpa [indexedTx] using hne
  counts := by
    have := h.counts
    simp only [indexedTx, List.length_map]
    omega
  inputs := List.forall_mem_map.mpr fun vin hvin => (h.vins vin hvin).wire (hindex vin hvin) (by decide)
  outputs := outputs_fit h

/-- The witness digest is the one of the transaction with the numbers of `index`. -/
theorem P2wpkhSpend.hashForWitnessV0_message {P : Packages} (laws : PackageLaws P) (hsha : HashLength sha256)
    {t : Tx} (h : t.Fits) (h0 : 0 ≤ t.version) (hindex : ∀ vin ∈ t.vins, vin.index.getD 0 < 2 ^ 32) {i : Nat}
    (hi : i < t.vins.length) {value : Amount} (hvalue : value.Fits) :
    P2wpkhSpend.hashForWitnessV0 P sha256 t i value 1 = some (hash256 sha256
      ((P2wpkhSpend.indexedTx t).witnessMessage sha256 (t.vins[i].wire (t.vins[i].index.getD 0) []) value.units
        t.vins[i].script)) := by
  obtain ⟨buffers,hbuffers,_,hpreimage⟩ :=
    P2wpkhSpend.witnessBuffers_eq laws h hi hvalue h0 hindex hsha (show 1 < 2 ^ 32 by decide)
  have hmessage : P2wpkhSpend.witnessPreimage sha256 (fun vin => vin.index.getD 0) t t.vins[i] value.units 1 =
      (P2wpkhSpend.indexedTx t).witnessMessage sha256 (t.vins[i].wire (t.vins[i].index.getD 0) []) value.units
        t.vins[i].script := by
    simp only [WireTx.witnessMessage, P2wpkhSpend.witnessPreimage, P2wpkhSpend.outpoints,
      P2wpkhSpend.indexedTx, Vin.wire, List.flatMap_map]
  rw [P2wpkhSpend.hashForWitnessV0_eq hbuffers, hpreimage, hmessage]

/-- The code signs the hash of a message that only a transaction with the same version, outpoints,
sequences, outputs and lock time has, for the same outpoint, sequence, amount and script, as long as
its three inner digests are no collision. -/
theorem hashForWitnessV0_binds {P : Packages} (laws : PackageLaws P) (hsha : HashLength sha256) {t : Tx}
    (h : t.Fits) (h0 : 0 ≤ t.version) (hindex : ∀ vin ∈ t.vins, vin.index.getD 0 < 2 ^ 32) {i : Nat}
    (hi : i < t.vins.length) {value : Amount} (hvalue : value.Fits) :
    ∃ message, P2wpkhSpend.hashForWitnessV0 P sha256 t i value 1 = some (hash256 sha256 message) ∧
      ∀ (tx : WireTx) (x : TxIn) (amount : Nat) (script : Bytes), tx.Fits → x.Fits → amount < 2 ^ 64 →
        script.length < 2 ^ 64 →
        List.Forall₂ (fun a b => hash256 sha256 a = hash256 sha256 b → a = b) tx.hashedParts
          (P2wpkhSpend.indexedTx t).hashedParts →
        (tx.witnessMessage sha256 x amount script = message ↔ tx.Agrees (P2wpkhSpend.indexedTx t) ∧
          x.outpoint = (t.vins[i].hash,t.vins[i].index.getD 0) ∧ x.sequence = t.vins[i].sequence ∧
          amount = value.units ∧ script = t.vins[i].script) := by
  have hmem := List.getElem_mem hi
  have hfits := P2wpkhSpend.indexedTx_fits h (List.ne_nil_of_length_pos (by omega)) hindex
  refine ⟨_,P2wpkhSpend.hashForWitnessV0_message laws hsha h h0 hindex hi hvalue,
    fun tx x amount script htx hx hamount hscript hparts => ?_⟩
  rw [witnessMessage_eq_iff hsha htx hfits hx ((h.vins _ hmem).wire (hindex _ hmem) (by decide))
    hamount hvalue.units_lt hscript (lt_widest (h.vins _ hmem).script) hparts]
  rfl

end Witnesses

/-- The second of two inputs. -/
theorem hashForWitnessV0_binds_second :
    ∃ message, P2wpkhSpend.hashForWitnessV0 wirePackages foldHash (spendingTx [[0x51], [0x87, 0xac]]) 1
        (.number 10000) 1 = some (hash256 foldHash message) ∧
      ∀ (tx : WireTx) (x : TxIn) (amount : Nat) (script : Bytes), tx.Fits → x.Fits → amount < 2 ^ 64 →
        script.length < 2 ^ 64 →
        List.Forall₂ (fun a b => hash256 foldHash a = hash256 foldHash b → a = b)
          tx.hashedParts (P2wpkhSpend.indexedTx (spendingTx [[0x51], [0x87, 0xac]])).hashedParts →
        (tx.witnessMessage foldHash x amount script = message ↔
          tx.Agrees (P2wpkhSpend.indexedTx (spendingTx [[0x51], [0x87, 0xac]])) ∧
          x.outpoint = (List.replicate 32 7, 1) ∧ x.sequence = 0xffffffff ∧ amount = 10000 ∧
          script = [0x87, 0xac]) :=
  hashForWitnessV0_binds wirePackages_laws foldHash_length (spendingTx_fits (by decide) (by decide))
    (by decide) (by decide) (show 1 < (spendingTx [[0x51], [0x87, 0xac]]).vins.length by decide) (by decide)

end CryptoPlaypen.Bitcoin
