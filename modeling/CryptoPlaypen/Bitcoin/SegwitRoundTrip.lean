import CryptoPlaypen.Bitcoin.SegwitTransaction

/-! Segwit transactions through the encoder and a decoder of the wire format. -/
namespace CryptoPlaypen.Bitcoin.P2wpkhSpend
open Buffer

/-- The transaction that its bytes should spell: every outpoint names `vout`, every
input keeps its `scriptSig`, and there is one witness stack per input. -/
def expectedTx (tx : Tx) : WireTx where
  version := tx.version.toNat
  inputs := tx.vins.map fun vin => vin.wire vin.vout (vin.scriptSig.getD [])
  outputs := tx.vouts.map Vout.wire
  witnesses := tx.vins.map fun vin => vin.witness.getD []
  locktime := tx.locktime

structure Spends (tx : Tx) : Prop extends tx.Fits where
  unsigned : 0 ≤ tx.version
  inputs : tx.vins ≠ []
  spent : ∀ vin ∈ tx.vins, vin.scriptSig.isSome ∨ vin.witness.isSome

section Inputs
variable {tx : Tx}

private theorem hasWitness_iff {vins : List Vin} :
    hasWitness vins = true ↔ ∃ vin ∈ vins, vin.witness.isSome := by
  simp [hasWitness]

private theorem wireIns_eq_iff : tx.vins.map wireIn = (expectedTx tx).inputs ↔
    ∀ vin ∈ tx.vins, vin.value.getD 0 = vin.vout ∧ scriptOf vin = vin.scriptSig.getD [] := by
  rw [expectedTx, List.map_inj_left]
  simp [wireIn, Vin.wire]

/-- Of a spent input, exactly a script beside a witness is left out. -/
theorem scriptOf_eq_iff {vin : Vin} (h : vin.scriptSig.isSome ∨ vin.witness.isSome) :
    scriptOf vin = vin.scriptSig.getD [] ↔ (vin.witness.isSome → vin.scriptSig.getD [] = []) := by
  unfold scriptOf
  cases hwit : vin.witness with
  | some witness =>
    rw [if_pos (Option.isSome_some)]
    exact ⟨fun h _ => h.symm,fun h => (h rfl).symm⟩
  | none =>
    obtain ⟨scriptSig,hsig⟩ := Option.isSome_iff_exists.mp (by simpa [hwit] using h)
    simp [hsig]

private theorem stacks_of_all {vins : List Vin} (h : ∀ vin ∈ vins, vin.witness.isSome) :
    vins.filterMap Vin.witness = vins.map fun vin => vin.witness.getD [] := by
  induction vins with
  | nil => rfl
  | cons vin vins ih =>
    obtain ⟨witness,hwit⟩ := Option.isSome_iff_exists.mp (h vin List.mem_cons_self)
    simp [hwit, ih fun v hv => h v (List.mem_cons_of_mem _ hv)]

/-- As many stacks as inputs are written only if every input has one. -/
theorem all_of_stacks_length {vins : List Vin}
    (h : vins.length ≤ (vins.filterMap Vin.witness).length) : ∀ vin ∈ vins, vin.witness.isSome := by
  induction vins with
  | nil => simp
  | cons vin vins ih =>
    have hbound := List.length_filterMap_le Vin.witness vins
    cases hwit : vin.witness with
    | none =>
      simp [hwit] at h
      omega
    | some witness =>
      have htail : vins.length ≤ (vins.filterMap Vin.witness).length := by simpa [hwit] using h
      exact List.forall_mem_cons.mpr ⟨by simp [hwit],ih htail⟩

end Inputs

section Decoding
variable {tx : Tx}

private theorem wireIns_fit (h : tx.Fits) (hvalues : ∀ vin ∈ tx.vins, vin.value.getD 0 < 2 ^ 32) :
    ∀ t ∈ tx.vins.map wireIn, t.Fits := by
  rintro t ht
  obtain ⟨vin,hvin,rfl⟩ := List.mem_map.mp ht
  exact wireIn_fits (h.vins vin hvin) (hvalues vin hvin)

private theorem counts_fit (h : tx.Fits) :
    (tx.vins.map wireIn).length < 2 ^ 64 ∧ (tx.vouts.map Vout.wire).length < 2 ^ 64 := by
  have := h.counts
  simp only [List.length_map]
  omega

private theorem writtenStacks_fit (h : tx.Fits) :
    ∀ s ∈ writtenStacks tx, s.length < 2 ^ 64 ∧ ∀ d ∈ s, d.length < 2 ^ 64 := by
  intro s hs
  obtain ⟨vin,hvin,hwit⟩ := List.mem_filterMap.mp hs
  obtain ⟨hcount,hdata⟩ := (h.vins vin hvin).witness s hwit
  exact ⟨lt_widest hcount,fun d hd => lt_widest (hdata d hd)⟩

private theorem wireVersion_eq (h : Spends tx) : tx.wireVersion = tx.version.toNat := by
  have := h.toFits.wireVersion h.unsigned
  omega

/-- Without a witness the bytes decode, and what they spell is the inputs written. -/
theorem decodeTx_wireBytes_plain (h : Spends tx)
    (hvalues : ∀ vin ∈ tx.vins, vin.value.getD 0 < 2 ^ 32) (hmark : hasWitness tx.vins = false) :
    decodeTx (wireBytes tx) = some { expectedTx tx with inputs := tx.vins.map wireIn } := by
  have hnone : ∀ vin ∈ tx.vins, vin.witness = none := by simpa [hasWitness] using hmark
  have hempty : (tx.vins.map fun vin => vin.witness.getD []) = tx.vins.map fun _ => [] :=
    List.map_congr_left fun vin hvin => by simp [hnone vin hvin]
  rw [wireBytes, if_neg (by simp [hmark]), decodeTx_legacyBytes tx.wireVersion_lt h.locktime
    (by simpa using h.inputs) (counts_fit h.toFits) (wireIns_fit h.toFits hvalues)
    (outputs_fit h.toFits), wireVersion_eq h, expectedTx, hempty, List.map_map]
  rfl

/-- With a witness on every input the bytes decode too. -/
theorem decodeTx_wireBytes_marked (h : Spends tx)
    (hvalues : ∀ vin ∈ tx.vins, vin.value.getD 0 < 2 ^ 32)
    (hall : ∀ vin ∈ tx.vins, vin.witness.isSome) :
    decodeTx (wireBytes tx) = some { expectedTx tx with inputs := tx.vins.map wireIn } := by
  have hmark : hasWitness tx.vins = true := by
    obtain ⟨vin,hvin⟩ := List.exists_mem_of_ne_nil _ h.inputs
    exact hasWitness_iff.mpr ⟨vin,hvin,hall vin hvin⟩
  have hcount : (writtenStacks tx).length = (tx.vins.map wireIn).length := by
    rw [writtenStacks, stacks_of_all hall, List.length_map, List.length_map]
  rw [wireBytes, if_pos hmark, decodeTx_segwitBytes tx.wireVersion_lt h.locktime
    (counts_fit h.toFits) (wireIns_fit h.toFits hvalues) (outputs_fit h.toFits)
    (writtenStacks_fit h.toFits) hcount, wireVersion_eq h, writtenStacks, stacks_of_all hall]
  rfl

/-- With a witness on some inputs only they spell nothing. -/
theorem decodeTx_wireBytes_mixed (h : Spends tx)
    (hvalues : ∀ vin ∈ tx.vins, vin.value.getD 0 < 2 ^ 32) (hmark : hasWitness tx.vins = true)
    (hmixed : ¬ ∀ vin ∈ tx.vins, vin.witness.isSome) (t : WireTx) :
    decodeTx (wireBytes tx) ≠ some t := by
  have hfew : (writtenStacks tx).length < (tx.vins.map wireIn).length := by
    by_contra hle
    rw [List.length_map, Nat.not_lt] at hle
    exact hmixed (all_of_stacks_length hle)
  rw [wireBytes, if_pos hmark]
  exact decodeTx_segwitBytes_short tx.wireVersion_lt (counts_fit h.toFits)
    (wireIns_fit h.toFits hvalues) (outputs_fit h.toFits) (writtenStacks_fit h.toFits) hfew t

end Decoding

/-- The bytes of a spending transaction spell it exactly if `value` names the
output that `vout` does, no input has both a script and a witness, and not only
some of the inputs have a witness. -/
theorem segwit_round_trip_iff {P : Packages} (laws : PackageLaws P) {tx : Tx} (h : Spends tx) :
    (txToBuffer P tx).bind decodeTx = some (expectedTx tx) ↔
      (∀ vin ∈ tx.vins, vin.value.getD 0 = vin.vout) ∧
      (∀ vin ∈ tx.vins, vin.witness.isSome → vin.scriptSig.getD [] = []) ∧
      ((∃ vin ∈ tx.vins, vin.witness.isSome) → ∀ vin ∈ tx.vins, vin.witness.isSome) := by
  constructor
  · intro hback
    obtain ⟨b,hb,hdecode⟩ := Option.bind_eq_some_iff.mp hback
    have hvalues := value_lt_of_txToBuffer hb
    rw [txToBuffer_eq laws h.toFits hvalues] at hb
    cases hb
    have hall : (∃ vin ∈ tx.vins, vin.witness.isSome) → ∀ vin ∈ tx.vins, vin.witness.isSome := by
      intro hsome
      by_contra hmixed
      exact decodeTx_wireBytes_mixed h hvalues (hasWitness_iff.mpr hsome) hmixed _ hdecode
    have hins : tx.vins.map wireIn = (expectedTx tx).inputs := by
      cases hmark : hasWitness tx.vins with
      | false =>
        rw [decodeTx_wireBytes_plain h hvalues hmark] at hdecode
        exact congrArg WireTx.inputs (Option.some.inj hdecode)
      | true =>
        rw [decodeTx_wireBytes_marked h hvalues (hall (hasWitness_iff.mp hmark))] at hdecode
        exact congrArg WireTx.inputs (Option.some.inj hdecode)
    have hvins := wireIns_eq_iff.mp hins
    exact ⟨fun vin hvin => (hvins vin hvin).1,
      fun vin hvin => (scriptOf_eq_iff (h.spent vin hvin)).mp (hvins vin hvin).2,hall⟩
  · rintro ⟨hvout,hscript,hall⟩
    have hvalues : ∀ vin ∈ tx.vins, vin.value.getD 0 < 2 ^ 32 := fun vin hvin => by
      rw [hvout vin hvin]
      exact (h.vins vin hvin).vout
    have hins : tx.vins.map wireIn = (expectedTx tx).inputs := wireIns_eq_iff.mpr fun vin hvin =>
      ⟨hvout vin hvin,(scriptOf_eq_iff (h.spent vin hvin)).mpr (hscript vin hvin)⟩
    rw [txToBuffer_eq laws h.toFits hvalues, Option.bind_some]
    cases hmark : hasWitness tx.vins with
    | false => rw [decodeTx_wireBytes_plain h hvalues hmark, hins]
    | true => rw [decodeTx_wireBytes_marked h hvalues (hall (hasWitness_iff.mp hmark)), hins]

private theorem workedTx_spends {vout : Nat} (h : vout < 2 ^ 32) : Spends (workedTx vout) where
  toFits := workedTx_fits h
  unsigned := by simp [workedTx]
  inputs := by simp [workedTx]
  spent := by simp [workedTx, workedVin]

/-- Output 0 survives without a `value`, any other with one. -/
theorem segwit_round_trip_worked :
    (txToBuffer wirePackages pairTx).bind decodeTx = some (expectedTx pairTx) :=
  (segwit_round_trip_iff wirePackages_laws
    { pairTx_fits with
      unsigned := by simp [pairTx, workedTx]
      inputs := by simp [pairTx]
      spent := by simp [pairTx, workedVin] }).mpr
    ⟨by simp [pairTx, workedVin],by simp [pairTx, workedVin],by simp [pairTx, workedVin]⟩

/-- With the `vout` of the worked example, 1, the bytes name output 0. -/
theorem segwit_round_trip_fails :
    Spends (workedTx 1) ∧
      (txToBuffer wirePackages (workedTx 1)).bind decodeTx ≠ some (expectedTx (workedTx 1)) :=
  ⟨workedTx_spends (by decide),by decide +kernel⟩

end CryptoPlaypen.Bitcoin.P2wpkhSpend
