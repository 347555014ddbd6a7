import CryptoPlaypen.Primes.RsaBreak
import Mathlib.Data.Sym.Sym2

/-! Factors in the ratio of about two to three, from the root of 24 times their product. They are
found if the lesser of `3p` and `2q` is `3p`. -/
namespace CryptoPlaypen.Primes
open Go

def skewFactors (N : Int) : Option (Int × Int) := do
  let N24 := N * 24
  let A ← BigInt.sqrt N24
  let A := A + 1
  let x := A * A
  let x := x - N24
  let x ← BigInt.sqrt x
  let p := A - x
  let p := p / 6
  let q := A + x
  let q := q / 4
  pure (p,q)

/-- Primes for which the root is to work, on either side. -/
structure SkewPrimes (p q : ℕ) : Prop where
  prime : p.Prime ∧ q.Prime
  ne : p ≠ q
  five_le : 5 ≤ p ∧ 5 ≤ q
  near : |3 * (p : ℝ) - 2 * q| < ((p * q : ℕ) : ℝ) ^ (1 / 4 : ℝ)

/-- The factors are those of the product with 24, divided. -/
theorem skewFactors_eq (N : Int) : skewFactors N = (factor (N * 24)).map fun r => (r.1 / 6,r.2 / 4) := by
  simp only [skewFactors, factor, Option.bind_eq_bind, Option.map_bind, Function.comp_def]
  rfl

/-- Which of the two is the lesser decides what is divided by 6 and what by 4. -/
theorem skewFactors_of_mean {u b N : ℕ} (hb : 0 < b) (hnear : b ^ 4 < N) (hN : N * 24 = u * (u + 2 * b)) :
    skewFactors N = some (((u / 6 : ℕ) : Int),(((u + 2 * b) / 4 : ℕ) : Int)) := by
  have hfactor := factor_mean hb (show b ^ 4 < u * (u + 2 * b) by omega)
  rw [← hN] at hfactor
  rw [skewFactors_eq]
  have hcast : (N : Int) * 24 = (N * 24 : ℕ) := by push_cast; rfl
  rw [hcast, hfactor]
  rfl

section Cases
variable {p q : ℕ}

private theorem skewFactors_found (hlt : 3 * p < 2 * q) (hnear : (2 * q - 3 * p) ^ 4 < p * q) :
    skewFactors (p * q : ℕ) = some ((p : Int),(q : Int)) := by
  obtain ⟨b,hb⟩ := Nat.exists_eq_add_of_lt hlt
  have hdiff : 2 * q - 3 * p = b + 1 := by omega
  rw [hdiff] at hnear
  have hsum : 6 * p + 2 * (b + 1) = 4 * q := by omega
  have hrun := skewFactors_of_mean (u := 6 * p) (Nat.succ_pos b) hnear (by rw [hsum]; ring)
  rw [hrun, hsum, Nat.mul_div_cancel_left p (by omega), Nat.mul_div_cancel_left q (by omega)]

/-- On the other side the roles are swapped: the second factor is divided by 6, the first by 4. -/
theorem skewFactors_swapped (hlt : 2 * q < 3 * p) (hnear : (3 * p - 2 * q) ^ 4 < p * q) :
    skewFactors (p * q : ℕ) = some (((2 * q / 3 : ℕ) : Int),((3 * p / 2 : ℕ) : Int)) := by
  obtain ⟨b,hb⟩ := Nat.exists_eq_add_of_lt hlt
  have hdiff : 3 * p - 2 * q = b + 1 := by omega
  rw [hdiff] at hnear
  have hsum : 4 * q + 2 * (b + 1) = 6 * p := by omega
  have hrun := skewFactors_of_mean (u := 4 * q) (Nat.succ_pos b) hnear (by rw [hsum]; ring)
  have hsixth : 4 * q / 6 = 2 * q / 3 := by omega
  have hquarter : 6 * p / 4 = 3 * p / 2 := by omega
  rw [hrun, hsum, hsixth, hquarter]

theorem SkewPrimes.odd (h : SkewPrimes p q) : Odd p := by
  have hfive := h.five_le.1
  exact h.prime.1.odd_of_ne_two (by omega)

/-- An odd number is not even, so one of the two is the lesser, and the bound is one on integers. -/
theorem SkewPrimes.cases (h : SkewPrimes p q) : 3 * p < 2 * q ∧ (2 * q - 3 * p) ^ 4 < p * q ∨
    2 * q < 3 * p ∧ (3 * p - 2 * q) ^ 4 < p * q := by
  obtain ⟨k,hk⟩ := h.odd
  have hbound {d : ℕ} (hd : (d : ℝ) ≤ |3 * (p : ℝ) - 2 * q|) : d ^ 4 < p * q := by
    have hlt := hd.trans_lt h.near
    have hpow := pow_four_lt_of_lt_root (c := 1) (d := d) (n := p * q) (by rwa [Nat.cast_one, one_mul])
    rwa [one_pow, one_mul] at hpow
  rcases Nat.lt_or_ge (3 * p) (2 * q) with hlt | hge
  · refine .inl ⟨hlt,hbound ?_⟩
    rw [Nat.cast_sub hlt.le, abs_sub_comm]
    push_cast
    exact le_abs_self _
  · refine .inr ⟨by omega,hbound ?_⟩
    rw [Nat.cast_sub hge]
    push_cast
    exact le_abs_self _

end Cases

/-- The primes are found exactly if `3p` is less than `2q`. -/
theorem skew_factors_iff {p q : ℕ} (h : SkewPrimes p q) :
    (∃ p' q', skewFactors (p * q : ℕ) = some (p',q') ∧ p' * q' = (p * q : ℕ) ∧
      s(p',q') = s((p : Int),(q : Int))) ↔ 3 * p < 2 * q := by
  have hfive := h.five_le
  obtain ⟨k,hk⟩ := h.odd
  rcases h.cases with ⟨hlt,hnear⟩ | ⟨hlt,hnear⟩
  · exact ⟨fun _ => hlt,fun _ => ⟨_,_,skewFactors_found hlt hnear,by push_cast; rfl,rfl⟩⟩
  · refine ⟨?_,fun hle => absurd hle (by omega)⟩
    rintro ⟨p',q',hrun,_,hpair⟩
    obtain ⟨rfl,rfl⟩ := Prod.mk.inj (Option.some.inj ((skewFactors_swapped hlt hnear).symm.trans hrun))
    rcases Sym2.eq_iff.mp hpair with ⟨hp,hq⟩ | ⟨hp,hq⟩
    · -- `3p` is odd, so `2q` would be one less, and a third of it less than `p`
      omega
    · -- `p` would be half of `3p`
      omega

private theorem skewPrimes_of_abs_eq_one {p q : ℕ} (hprime : p.Prime ∧ q.Prime) (hne : p ≠ q)
    (hfive : 5 ≤ p ∧ 5 ≤ q) (hone : |3 * (p : ℝ) - 2 * q| = 1) : SkewPrimes p q := by
  refine ⟨hprime,hne,hfive,?_⟩
  have hmul := Nat.mul_le_mul hfive.1 hfive.2
  rw [hone]
  exact Real.one_lt_rpow (Nat.one_lt_cast.mpr (by omega)) (by norm_num)

theorem skew_factors_seven_eleven : ∃ p' q', skewFactors (7 * 11 : ℕ) = some (p',q') ∧
    p' * q' = (7 * 11 : ℕ) ∧ s(p',q') = s(((7 : ℕ) : Int),((11 : ℕ) : Int)) :=
  (skew_factors_iff (skewPrimes_of_abs_eq_one ⟨by norm_num,by norm_num⟩ (by decide)
    ⟨by decide,by decide⟩ (by norm_num))).mpr (by decide)

/-- Of 35 the values are 4 and 7. -/
theorem skew_factors_five_seven : SkewPrimes 5 7 ∧ skewFactors (5 * 7 : ℕ) = some (4,7) ∧
    ¬ ∃ p' q', skewFactors (5 * 7 : ℕ) = some (p',q') ∧ p' * q' = (5 * 7 : ℕ) := by
  have hprimes : SkewPrimes 5 7 := skewPrimes_of_abs_eq_one ⟨by norm_num,by norm_num⟩ (by decide)
    ⟨by decide,by decide⟩ (by norm_num)
  have hrun : skewFactors (5 * 7 : ℕ) = some (4,7) := skewFactors_swapped (by decide) (by decide)
  refine ⟨hprimes,hrun,?_⟩
  rintro ⟨p',q',hsame,hproduct⟩
  obtain ⟨rfl,rfl⟩ := Prod.mk.inj (Option.some.inj (hrun.symm.trans hsame))
  cases hproduct

end CryptoPlaypen.Primes
