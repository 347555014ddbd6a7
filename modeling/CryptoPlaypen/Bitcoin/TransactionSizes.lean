import CryptoPlaypen.Bitcoin.LegacyTransaction
import CryptoPlaypen.Bitcoin.SegwitTransaction

/-! The sizes that the encoders compute beforehand, against the bytes that they write. Of the
package for lengths only the length of what it encodes is used. -/
namespace CryptoPlaypen.Bitcoin
open Buffer

structure LengthLaws (P : Packages) : Prop where
  encode : ∀ n < 2 ^ 53, (P.encode n).length = P.encodingLength n
  toBuffer : ∀ n < 2 ^ 64, ∃ b, P.toBuffer n = some b ∧ b.length = 8

theorem PackageLaws.lengths {P : Packages} (laws : PackageLaws P) : LengthLaws P where
  encode n h := by rw [laws.encode n h, laws.encodingLength n h]
  toBuffer n h := ⟨_,laws.toBuffer n h,leBytes_length 8 n⟩

/-- The sum over inputs with scripts as `script` gives them. -/
theorem vinsBytes_sum (P : Packages) (vins : List Vin) (script : Vin → Bytes) :
    vinsBytes P (vins.map fun vin => (script vin).length) =
      (vins.map fun vin => 40 + P.encodingLength (script vin).length + (script vin).length).sum := by
  rw [vinsBytes, List.foldl_map]
  refine (foldl_sum vins _ _ (fun vin _ sum => ?_) 0).trans (Nat.zero_add _)
  omega

section Parts
variable {P : Packages} (laws : LengthLaws P)
include laws

private theorem stores_count {n : Nat} (h : n < 2 ^ 53) :
    Stores (BufferCursor.writeBytes (P.encode n)) (P.encodingLength n) :=
  (BufferCursor.writes_bytes _).stores.congr (laws.encode n h)

private theorem stores_sized {source : Bytes} (h : source.length < 2 ^ 53) :
    Stores (BufferCursor.writeSized P source) (P.encodingLength source.length + source.length) :=
  (stores_count laws h).seq (BufferCursor.writes_bytes source).stores

private theorem stores_amount {value : Amount} (h : value.Fits) : Stores (BufferCursor.writeUInt64LE P value) 8 := by
  obtain ⟨b,hb,hlength⟩ := laws.toBuffer _ h.units_lt
  rw [BufferCursor.writeUInt64LE, h.toBN, Option.bind_some, hb]
  exact (BufferCursor.writes_bytes b).stores.congr hlength

private theorem stores_vouts {vouts : List Vout} (h : ∀ vout ∈ vouts, vout.Fits) :
    Stores (vouts.forM (writeVout P)) (voutsBytes P vouts) := by
  have hloop := Stores.loop vouts (writeVout P) _ fun vout hvout =>
    (stores_amount laws (h vout hvout).value).seq (stores_sized laws (h vout hvout).script)
  refine hloop.congr ?_
  rw [voutsBytes, List.foldl_map, foldl_sum vouts _ _ (fun vout _ sum => ?_), Nat.zero_add]
  omega

end Parts

namespace P2pkh

def txWrites (P : Packages) (tx : Tx) : CellWriter UInt8 Unit := do
  BufferCursor.writeInt32LE tx.version
  BufferCursor.writeBytes (P.encode tx.vins.length)
  tx.vins.forM (writeVin P)
  BufferCursor.writeBytes (P.encode tx.vouts.length)
  tx.vouts.forM (writeVout P)
  BufferCursor.writeUInt32LE tx.locktime

private theorem txToBuffer_writes (P : Packages) (tx : Tx) : txToBuffer P tx =
    (serialized (calcTxBytes P tx.vins tx.vouts) (txWrites P tx)).map Cursor.buffer :=
  (Option.map_eq_bind ..).symm

variable {P : Packages} (laws : LengthLaws P)
include laws

private theorem stores_vin {vin : Vin} (h : vin.Fits) : Stores (writeVin P vin)
    (40 + P.encodingLength (vin.scriptSig.getD vin.script).length +
      (vin.scriptSig.getD vin.script).length) := by
  have hparts := (BufferCursor.writes_bytes vin.hash).stores.seq <|
    (BufferCursor.writes_uint32LE h.vout).stores.seq <| (stores_sized laws (script_length h)).seq
    (BufferCursor.writes_uint32LE h.sequence).stores
  unfold writeVin
  refine Stores.congr (m := vin.hash.length + (4 + (P.encodingLength
    (vin.scriptSig.getD vin.script).length + (vin.scriptSig.getD vin.script).length + 4))) ?_
    (by rw [h.hash]; omega)
  simp only [leBytes_length] at hparts
  cases hsig : vin.scriptSig with
  | some scriptSig => rwa [hsig] at hparts
  | none => rwa [hsig] at hparts

/-- The size of the legacy format is the number of bytes written. -/
theorem stores_tx {tx : Tx} (h : tx.Fits) :
    Stores (txWrites P tx) (calcTxBytes P tx.vins tx.vouts) := by
  have hvins := Stores.loop tx.vins (writeVin P) _ fun vin hvin => stores_vin laws (h.vins vin hvin)
  have hparts := (BufferCursor.writes_int32LE h.version.1 h.version.2).stores.seq <|
    (stores_count laws h.counts.1).seq <| hvins.seq <| (stores_count laws h.counts.2).seq <|
    (stores_vouts laws h.vouts).seq (BufferCursor.writes_uint32LE h.locktime).stores
  refine hparts.congr ?_
  rw [calcTxBytes, vinsBytes_sum P tx.vins fun vin => vin.scriptSig.getD vin.script, int32Bytes_length,
    leBytes_length]
  omega

end P2pkh
namespace P2wpkhSpend

def txWrites (P : Packages) (tx : Tx) : CellWriter UInt8 Unit := do
  BufferCursor.writeInt32LE tx.version
  writeFlags (hasWitness tx.vins)
  BufferCursor.writeBytes (P.encode tx.vins.length)
  tx.vins.forM (writeVin P)
  BufferCursor.writeBytes (P.encode tx.vouts.length)
  tx.vouts.forM (writeVout P)
  tx.vins.forM (writeWitness P)
  BufferCursor.writeUInt32LE tx.locktime

private theorem txToBuffer_writes (P : Packages) (tx : Tx) : txToBuffer P tx =
    (serialized (calcTxBytes P tx.vins tx.vouts) (txWrites P tx)).map Cursor.buffer :=
  (Option.map_eq_bind ..).symm

private theorem stores_flags (marked : Bool) : Stores (writeFlags marked) (if marked then 2 else 0) := by
  cases marked with
  | false => exact (writes_flags false).stores
  | true => exact (writes_flags true).stores

def stackLength (P : Packages) (witness : List Bytes) : Nat :=
  P.encodingLength witness.length + (witness.map fun d => P.encodingLength d.length + d.length).sum

private theorem witnessLength_sum (P : Packages) (vins : List Vin) : witnessLength P vins =
    (vins.map fun vin => (vin.witness.map (stackLength P)).getD 0).sum := by
  have hstack (witness : List Bytes) : witness.foldl
      (fun dsum d => dsum + P.encodingLength d.length + d.length) 0 =
        (witness.map fun d => P.encodingLength d.length + d.length).sum := by
    refine (foldl_sum witness _ _ (fun d _ dsum => ?_) 0).trans (Nat.zero_add _)
    exact Nat.add_assoc dsum _ _
  have hsum : witnessLength P vins = ((vins.filterMap Vin.witness).map (stackLength P)).sum :=
    (foldl_sum _ (stackLength P) _ (fun witness _ sum => by
      rw [hstack, stackLength, Nat.add_assoc]) 0).trans (Nat.zero_add _)
  rw [hsum]
  clear hsum
  induction vins with
  | nil => rfl
  | cons vin vins ih =>
    cases hwit : vin.witness with
    | none => simpa [hwit] using ih
    | some witness => simpa [hwit] using ih

variable {P : Packages} (laws : LengthLaws P)
include laws

/-- An input with a witness has an empty script, in both passes. -/
theorem stores_vin {vin : Vin} (h : vin.Fits) (hvalue : vin.value.getD 0 < 2 ^ 32) :
    Stores (writeVin P vin) (40 + P.encodingLength (scriptOf vin).length + (scriptOf vin).length) := by
  have hparts {w : CellWriter UInt8 Unit}
      (hw : Stores w (P.encodingLength (scriptOf vin).length + (scriptOf vin).length)) :=
    (BufferCursor.writes_bytes vin.hash).stores.seq <|
    (BufferCursor.writes_uint32LE hvalue).stores.seq <| hw.seq
    (BufferCursor.writes_uint32LE h.sequence).stores
  simp only [leBytes_length] at hparts
  unfold writeVin
  refine Stores.congr (m := vin.hash.length + (4 + (P.encodingLength (scriptOf vin).length +
    (scriptOf vin).length + 4))) ?_ (by rw [h.hash]; omega)
  cases hwit : vin.witness with
  | some witness =>
    have hempty : scriptOf vin = [] := by simp [scriptOf, hwit]
    exact hparts (by rw [hempty]; exact stores_count laws (by decide))
  | none =>
    cases hsig : vin.scriptSig with
    | some scriptSig =>
      have hscript : scriptOf vin = scriptSig := by simp [scriptOf, hwit, hsig]
      exact hparts (by rw [hscript]; exact stores_sized laws (h.scriptSig scriptSig hsig))
    | none =>
      have hscript : scriptOf vin = vin.script := by simp [scriptOf, hwit, hsig]
      exact hparts (by rw [hscript]; exact stores_sized laws h.script)

private theorem stores_witness {vin : Vin} (h : vin.Fits) :
    Stores (writeWitness P vin) ((vin.witness.map (stackLength P)).getD 0) := by
  unfold writeWitness
  cases hwit : vin.witness with
  | none => exact Writes.skip.stores
  | some witness =>
    obtain ⟨hcount,hdata⟩ := h.witness witness hwit
    exact (stores_count laws hcount).seq <| Stores.loop witness _ _ fun d hd =>
      stores_sized laws (hdata d hd)

/-- The size of the segwit format is the number of bytes written. -/
theorem stores_tx {tx : Tx} (h : tx.Fits) (hvalues : ∀ vin ∈ tx.vins, vin.value.getD 0 < 2 ^ 32) :
    Stores (txWrites P tx) (calcTxBytes P tx.vins tx.vouts) := by
  have hvins := Stores.loop tx.vins (writeVin P) _ fun vin hvin =>
    stores_vin laws (h.vins vin hvin) (hvalues vin hvin)
  have hwitnesses := Stores.loop tx.vins (writeWitness P) _ fun vin hvin =>
    stores_witness laws (h.vins vin hvin)
  have hparts := (BufferCursor.writes_int32LE h.version.1 h.version.2).stores.seq <|
    (stores_flags (hasWitness tx.vins)).seq <| (stores_count laws h.counts.1).seq <| hvins.seq <|
    (stores_count laws h.counts.2).seq <| (stores_vouts laws h.vouts).seq <| hwitnesses.seq
    (BufferCursor.writes_uint32LE h.locktime).stores
  rw [← witnessLength_sum] at hparts
  refine hparts.congr ?_
  rw [calcTxBytes, vinsBytes_sum P tx.vins scriptOf, int32Bytes_length, leBytes_length]
  cases hmark : hasWitness tx.vins with
  | true => simp only [if_true]; omega
  | false =>
    have hnone : witnessLength P tx.vins = 0 := by
      rw [witnessLength, filterMap_witness_of_none hmark]
      rfl
    simp only [hnone, Bool.false_eq_true, if_false]
    omega

end P2wpkhSpend

/-- Both encoders fill exactly the buffer that they have sized. -/
theorem transaction_sizes_exact {P : Packages} (laws : LengthLaws P) {tx : Tx} (h : tx.Fits)
    (hvalues : ∀ vin ∈ tx.vins, vin.value.getD 0 < 2 ^ 32) :
    FilledExactly (P2pkh.calcTxBytes P tx.vins tx.vouts) (P2pkh.txWrites P tx)
        (P2pkh.txToBuffer P tx) ∧
      FilledExactly (P2wpkhSpend.calcTxBytes P tx.vins tx.vouts) (P2wpkhSpend.txWrites P tx)
        (P2wpkhSpend.txToBuffer P tx) :=
  ⟨filledExactly_of_stores (P2pkh.stores_tx laws h) (P2pkh.txToBuffer_writes P tx),
    filledExactly_of_stores (P2wpkhSpend.stores_tx laws h hvalues) (P2wpkhSpend.txToBuffer_writes P tx)⟩

/-- The worked transaction, whose input has a witness: 72 bytes with it, 68 without. -/
theorem transaction_sizes_worked :
    FilledExactly 68 (P2pkh.txWrites wirePackages (P2wpkhSpend.workedTx 1))
        (P2pkh.txToBuffer wirePackages (P2wpkhSpend.workedTx 1)) ∧
      FilledExactly 72 (P2wpkhSpend.txWrites wirePackages (P2wpkhSpend.workedTx 1))
        (P2wpkhSpend.txToBuffer wirePackages (P2wpkhSpend.workedTx 1)) :=
  transaction_sizes_exact wirePackages_laws.lengths (P2wpkhSpend.workedTx_fits (by decide))
    (by simp [P2wpkhSpend.workedTx, P2wpkhSpend.workedVin])

end CryptoPlaypen.Bitcoin
