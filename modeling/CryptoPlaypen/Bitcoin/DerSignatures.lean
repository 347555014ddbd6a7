import CryptoPlaypen.Bitcoin.LegacySighash
import CryptoPlaypen.Buffer.HexStrings
import Mathlib.Data.Nat.Bitwise

/-! The encoding of signatures. `toDER` gives the shortest integer that is not negative, so
`bip66.encode` never throws, and the encoded signature can be read back. -/
namespace CryptoPlaypen.Bitcoin
open Buffer

/-- An integer as DER has it: the sign bit is clear, and a zero byte stands in front only
where it has to. -/
structure DerInteger (r : Bytes) : Prop where
  nonempty : r ≠ []
  positive : r.getD 0 0 < 0x80
  minimal : 1 < r.length → r.getD 0 0 = 0 → 0x80 ≤ r.getD 1 0

/-- The checks of `bip66.encode` on either argument. -/
structure Bip66Checks (r : Bytes) : Prop extends DerInteger r where
  short : r.length ≤ 33

instance : DecidablePred Bip66Checks := fun r =>
  decidable_of_iff (r ≠ [] ∧ r.getD 0 0 < 0x80 ∧ (1 < r.length → r.getD 0 0 = 0 → 0x80 ≤ r.getD 1 0) ∧
    r.length ≤ 33) ⟨fun ⟨h1,h2,h3,h4⟩ => ⟨⟨h1,h2,h3⟩,h4⟩,fun h => ⟨h.nonempty,h.positive,h.minimal,h.short⟩⟩

def AcceptsType (hashType : Int) : Prop := hashTypeMod hashType ≠ 0 ∧ hashTypeMod hashType < 4

instance : DecidablePred AcceptsType := fun hashType =>
  inferInstanceAs (Decidable (hashTypeMod hashType ≠ 0 ∧ hashTypeMod hashType < 4))

def bip66Bytes (r s : Bytes) : Bytes :=
  [0x30, UInt8.ofNat (4 + r.length + s.length), 0x02, UInt8.ofNat r.length] ++ r ++
    [0x02, UInt8.ofNat s.length] ++ s

/-- The package as documented, on arguments that pass its checks. -/
def Bip66Laws (S : Signing) : Prop :=
  ∀ r s, Bip66Checks r → Bip66Checks s → S.encode r s = some (bip66Bytes r s)

section Integers

private theorem beValue_dropWhile (x : Bytes) : beValue (x.dropWhile (· == 0)) = beValue x := by
  induction x with
  | nil => rfl
  | cons b x ih =>
    by_cases hb : b = 0
    · subst hb
      rw [List.dropWhile_cons_of_pos (by rfl), ih, beValue_cons]
      simp
    · rw [List.dropWhile_cons_of_neg (by simpa using hb)]

/-- What is left after the leading zeros does not start with another. -/
theorem dropWhile_head {x rest : Bytes} {b : UInt8} (h : x.dropWhile (· == 0) = b :: rest) : b ≠ 0 := by
  have hhead := List.head?_dropWhile_not (· == 0) x
  rw [h] at hhead
  simpa using hhead

private theorem signBit_clear (b : UInt8) : b &&& 0x80 = 0 ↔ b < 0x80 := by
  have hb := b.toNat_lt
  have hand : 2 ^ 7 &&& b.toNat = 2 ^ 7 * (b.toNat / 2 ^ 7 % 2) := by
    rw [Nat.two_pow_and, Nat.testBit_eq_decide_div_mod_eq]
    rcases Nat.mod_two_eq_zero_or_one (b.toNat / 2 ^ 7) with hbit | hbit <;>
      · rw [hbit]
        rfl
  rw [← UInt8.toNat_inj, UInt8.lt_iff_toNat_lt]
  change b.toNat &&& 2 ^ 7 = 0 ↔ b.toNat < 128
  rw [Nat.land_comm, hand]
  omega

private theorem toDER_integer (x : Bytes) : DerInteger (toDER x) := by
  unfold toDER
  cases h : x.dropWhile (· == 0) with
  | nil => exact ⟨by simp,by decide,by simp⟩
  | cons b rest =>
    by_cases hsign : b &&& 0x80 = 0
    · have hclear := (signBit_clear b).mp hsign
      simp only [hsign, ne_eq, not_true_eq_false, if_false]
      exact ⟨by simp,hclear,fun _ hzero => absurd hzero (dropWhile_head h)⟩
    · have hset : 0x80 ≤ b := UInt8.not_lt.mp (mt (signBit_clear b).mpr hsign)
      simp only [ne_eq, hsign, not_false_eq_true, if_true]
      exact ⟨by simp,show (0 : UInt8) < 0x80 by decide,fun _ _ => hset⟩

private theorem beValue_toDER (x : Bytes) : beValue (toDER x) = beValue x := by
  rw [← beValue_dropWhile x, toDER]
  cases x.dropWhile (· == 0) with
  | nil => rfl
  | cons b rest =>
    dsimp only
    split
    · rw [beValue_cons 0]
      simp
    · rfl

/-- At most a byte is added. -/
theorem toDER_length (x : Bytes) : (toDER x).length ≤ x.length + 1 := by
  have hdrop := (List.dropWhile_sublist (fun b : UInt8 => b == 0) (l := x)).length_le
  unfold toDER
  cases h : x.dropWhile (· == 0) with
  | nil => simp
  | cons b rest =>
    rw [h] at hdrop
    dsimp only
    split
    · simpa using hdrop
    · exact hdrop.trans (Nat.le_succ _)

private theorem toDER_checks {x : Bytes} (h : x.length ≤ 32) : Bip66Checks (toDER x) :=
  ⟨toDER_integer x,(toDER_length x).trans (Nat.succ_le_succ h)⟩

end Integers

section Signatures

/-- The lengths of the two integers say where each of them ends. -/
theorem bip66Bytes_injective {r s r' s' : Bytes} (hr : r.length ≤ 33) (hr' : r'.length ≤ 33)
    (h : bip66Bytes r s = bip66Bytes r' s') : r = r' ∧ s = s' := by
  simp only [bip66Bytes, List.append_assoc, List.cons_append, List.nil_append, List.cons.injEq,
    true_and] at h
  obtain ⟨_,hlength,hrest⟩ := h
  have hcount : r.length = r'.length := by
    have hbyte := congrArg UInt8.toNat hlength
    rwa [UInt8.toNat_ofNat_of_lt' (Nat.lt_of_le_of_lt hr (by decide)),
      UInt8.toNat_ofNat_of_lt' (Nat.lt_of_le_of_lt hr' (by decide))] at hbyte
  obtain ⟨heq,htail⟩ := List.append_inj hrest hcount
  simp only [List.cons.injEq, true_and] at htail
  exact ⟨heq,htail.2⟩

private theorem toDER_injective {x y : Bytes} (hlength : x.length = y.length) (h : toDER x = toDER y) : x = y :=
  beValue_injective hlength (by rw [← beValue_toDER x, h, beValue_toDER])

variable {S : Signing} {signature : Bytes}

theorem half_checks (signature : Bytes) : Bip66Checks (toDER (slice signature 0 32)) ∧
    Bip66Checks (toDER (slice signature 32 64)) :=
  ⟨toDER_checks (slice_length_le _ _ _),toDER_checks (slice_length_le _ _ _)⟩

theorem encodeSig_eq (laws : Bip66Laws S) (signature : Bytes) {hashType : Int}
    (htype : AcceptsType hashType) : encodeSig S signature hashType =
      some (bip66Bytes (toDER (slice signature 0 32)) (toDER (slice signature 32 64)) ++
        [UInt8.ofInt hashType]) := by
  obtain ⟨hr,hs⟩ := half_checks signature
  have htypes : ¬ (hashTypeMod hashType = 0 ∨ 4 ≤ hashTypeMod hashType) := by
    rw [AcceptsType] at htype
    omega
  rw [encodeSig, if_neg htypes, laws _ _ hr hs]
  rfl

private theorem acceptsType_of_some {hashType : Int} {encoded : Bytes}
    (h : encodeSig S signature hashType = some encoded) : AcceptsType hashType := by
  by_contra htype
  rw [encodeSig, if_pos (by rw [AcceptsType] at htype; omega)] at h
  cases h

/-- Encoded signatures of 64 bytes give their halves back. -/
theorem encodeSig_injective (laws : Bip66Laws S) {signature' encoded : Bytes} {hashType hashType' : Int}
    (hlength : signature.length = 64) (hlength' : signature'.length = 64)
    (h : encodeSig S signature hashType = some encoded)
    (h' : encodeSig S signature' hashType' = some encoded) :
    slice signature 0 32 = slice signature' 0 32 ∧ slice signature 32 64 = slice signature' 32 64 := by
  have hbytes := h
  rw [encodeSig_eq laws signature (acceptsType_of_some h), ← h',
    encodeSig_eq laws signature' (acceptsType_of_some h')] at hbytes
  have hder := (List.append_inj' (Option.some.inj hbytes) rfl).1
  obtain ⟨hr,hs⟩ := bip66Bytes_injective (half_checks signature).1.short
    (half_checks signature').1.short hder
  exact ⟨toDER_injective (by simp [slice, hlength, hlength']) hr,
    toDER_injective (by simp [slice, hlength, hlength']) hs⟩

/-- `toDER` is canonical for every string, and for 64 bytes `encodeSig` passes what
`bip66.encode` takes, and nothing is lost. -/
theorem der_signatures (laws : Bip66Laws S) :
    (∀ x, DerInteger (toDER x) ∧ beValue (toDER x) = beValue x) ∧
    (∀ (signature : Bytes) (hashType : Int), signature.length = 64 → AcceptsType hashType →
      Bip66Checks (toDER (slice signature 0 32)) ∧ Bip66Checks (toDER (slice signature 32 64)) ∧
      encodeSig S signature hashType =
        some (bip66Bytes (toDER (slice signature 0 32)) (toDER (slice signature 32 64)) ++
          [UInt8.ofInt hashType])) ∧
    ∀ (signature signature' encoded : Bytes) (hashType hashType' : Int), signature.length = 64 →
      signature'.length = 64 → encodeSig S signature hashType = some encoded →
      encodeSig S signature' hashType' = some encoded →
      slice signature 0 32 = slice signature' 0 32 ∧ slice signature 32 64 = slice signature' 32 64 := by
  refine ⟨fun x => ⟨toDER_integer x,beValue_toDER x⟩,?_,?_⟩
  · intro signature hashType _ htype
    obtain ⟨hr,hs⟩ := half_checks signature
    exact ⟨hr,hs,encodeSig_eq laws signature htype⟩
  · intro signature signature' encoded hashType hashType' hlength hlength' h h'
    exact encodeSig_injective laws hlength hlength' h h'

def bip66Signing : Signing where
  sign _ _ := none
  encode r s := if Bip66Checks r ∧ Bip66Checks s then some (bip66Bytes r s) else none

theorem bip66Signing_laws : Bip66Laws bip66Signing := fun _ _ hr hs => if_pos ⟨hr,hs⟩

/-- A sign byte before the first integer, and 31 zeros off the second. -/
theorem der_signatures_signByte :
    encodeSig bip66Signing (0x80 :: zeros 62 ++ [7]) 0x81 =
      some ([0x30, 0x26, 0x02, 0x21, 0x00, 0x80] ++ zeros 31 ++ [0x02, 0x01, 0x07, 0x81]) :=
  ((der_signatures bip66Signing_laws).2.1 (0x80 :: zeros 62 ++ [7]) 0x81 (by decide)
    (by decide)).2.2.trans (by decide)

end Signatures
end CryptoPlaypen.Bitcoin
