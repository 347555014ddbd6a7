import Mathlib.Analysis.SpecialFunctions.Pow.Real
import Mathlib.Data.Nat.Sqrt
import Mathlib.FieldTheory.Finite.Basic

/-! Two facts of arithmetic: near factors lie on both sides of the square root of
their product, and exponents of primes count modulo one less than the prime. -/
namespace CryptoPlaypen.Primes

/-- Two numbers of equal parity are at an even distance. -/
theorem exists_distance {a b : ℕ} (hlt : a < b) (hparity : a % 2 = b % 2) :
    ∃ c, 0 < c ∧ b = a + 2 * c := ⟨(b - a) / 2,by omega,by omega⟩

theorem exists_distance_of_odd {p q : ℕ} (hp : Odd p) (hq : Odd q) (hlt : p < q) :
    ∃ b, 0 < b ∧ q = p + 2 * b :=
  exists_distance hlt ((Nat.odd_iff.mp hp).trans (Nat.odd_iff.mp hq).symm)

/-- A bound by a fourth root as one on integers. -/
theorem pow_four_lt_of_lt_root {c d n : ℕ} (h : (d : ℝ) < c * (n : ℝ) ^ (1 / 4 : ℝ)) :
    d ^ 4 < c ^ 4 * n := by
  have hroot : ((n : ℝ) ^ (1 / 4 : ℝ)) ^ 4 = n := by
    rw [← Real.rpow_natCast, ← Real.rpow_mul (Nat.cast_nonneg _)]
    norm_num
  have hpow := pow_lt_pow_left₀ h (Nat.cast_nonneg d) (show 4 ≠ 0 by omega)
  rw [mul_pow, hroot] at hpow
  exact_mod_cast hpow

theorem pow_four_lt_of_near {p q : ℕ} (hle : p ≤ q)
    (hnear : (q : ℝ) - p < 2 * ((p * q : ℕ) : ℝ) ^ (1 / 4 : ℝ)) : (q - p) ^ 4 < 16 * (p * q) := by
  rw [← Nat.cast_sub hle] at hnear
  exact pow_four_lt_of_lt_root (c := 2) hnear

/-- The mean of two factors, if they are near, is the first integer above the root. -/
theorem sqrt_near {p b : ℕ} (hb : 0 < b) (hnear : b ^ 4 < p * (p + 2 * b)) :
    Nat.sqrt (p * (p + 2 * b)) + 1 = p + b := by
  have hsquare : p * (p + 2 * b) + b * b = (p + b) * (p + b) := by ring
  have hsmall : b * b < p + b := by
    by_contra hge
    have hmul := Nat.mul_le_mul (Nat.not_lt.mp hge) (Nat.not_lt.mp hge)
    have hfour : b * b * (b * b) = b ^ 4 := by ring
    omega
  obtain ⟨s,hs⟩ : ∃ s, p + b = s + 1 := ⟨p + b - 1,by omega⟩
  rw [hs] at hsquare hsmall
  have hnext : (s + 1) * (s + 1) = s * s + 2 * s + 1 := by ring
  have hpos : 0 < b * b := Nat.mul_pos hb hb
  have hroot : s = Nat.sqrt (p * (p + 2 * b)) := Nat.eq_sqrt.mpr ⟨by omega,by omega⟩
  rw [← hroot, hs]

/-- A power with such an exponent is the base itself, also if the prime divides it. -/
theorem pow_modEq_self {p k : ℕ} (hp : p.Prime) (hk : k ≡ 1 [MOD p - 1]) (hpos : k ≠ 0) (m : ℕ) :
    m ^ k ≡ m [MOD p] := by
  have := Fact.mk hp
  rw [← ZMod.natCast_eq_natCast_iff, Nat.cast_pow]
  by_cases hm : (m : ZMod p) = 0
  · rw [hm, zero_pow hpos]
  · obtain ⟨j,hj⟩ := (Nat.modEq_iff_dvd' (by omega)).mp hk.symm
    have hsplit : k = (p - 1) * j + 1 := by omega
    rw [hsplit, pow_succ, pow_mul, ZMod.pow_card_sub_one_eq_one hm, one_pow, one_mul]

end CryptoPlaypen.Primes
