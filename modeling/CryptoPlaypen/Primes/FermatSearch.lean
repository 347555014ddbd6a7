import CryptoPlaypen.Primes.RsaBreak

/-! Factoring from the root of the product: by one step, and by a search without a bound. The search
meets the means of two factors of equal parity, in their order, and no other number stops it. -/
namespace CryptoPlaypen.Primes
open Go

namespace Test1

structure Output where
  A : Int
  x : Int
  p : Int
  q : Int
  pq : Int

def main (N : Int) : Option Output := do
  let A ← BigInt.sqrt N
  let A := A + 1
  let x := A * A
  let x := x - N
  let x ← BigInt.sqrt x
  let p := A - x
  let q := A + x
  let pq := p * q
  pure ⟨A,x,p,q,pq⟩

/-- `factor` takes the same steps. -/
theorem factor_eq (N : Int) : factor N = (main N).map fun r => (r.A - r.x,r.A + r.x) := by
  simp only [factor, main, Option.bind_eq_bind, Option.map_bind, Function.comp_def]
  rfl

private theorem main_mean {p b : ℕ} (hb : 0 < b) (hnear : b ^ 4 < p * (p + 2 * b)) :
    main (p * (p + 2 * b) : ℕ) = some ⟨((p + b : ℕ) : Int),b,p,((p + 2 * b : ℕ) : Int),
      ((p * (p + 2 * b) : ℕ) : Int)⟩ := by
  have hA : (Nat.sqrt (p * (p + 2 * b)) : Int) + 1 = ((p + b : ℕ) : Int) := by
    exact_mod_cast sqrt_near hb hnear
  have hx : ((p + b : ℕ) : Int) * ((p + b : ℕ) : Int) - (p * (p + 2 * b) : ℕ) = (b * b : ℕ) := by
    push_cast
    ring
  have hsub : ((p + b : ℕ) : Int) - b = p := by rw [Nat.cast_add, add_sub_cancel_right]
  have hadd : ((p + b : ℕ) : Int) + b = (p + 2 * b : ℕ) := by
    push_cast
    ring
  have hmul : (p : Int) * ((p + 2 * b : ℕ) : Int) = (p * (p + 2 * b) : ℕ) := (Nat.cast_mul _ _).symm
  simp only [main, BigInt.sqrt_natCast, Option.bind_eq_bind, Option.bind_some, hA, hx, Nat.sqrt_eq,
    hsub, hadd, hmul]
  rfl

end Test1

/-- Of odd near factors the mean and half the difference are found in one step, and so are the
factors, by `factor` too. -/
theorem one_step_factors {p q : ℕ} (hp : Odd p) (hq : Odd q) (hlt : p < q)
    (hnear : (q : ℝ) - p < 2 * ((p * q : ℕ) : ℝ) ^ (1 / 4 : ℝ)) :
    ∃ A x : Int, 2 * A = p + q ∧ 2 * x = q - p ∧
      Test1.main (p * q : ℕ) = some ⟨A,x,p,q,((p * q : ℕ) : Int)⟩ ∧
      factor (p * q : ℕ) = some (A - x,A + x) ∧ A - x = p ∧ A + x = q := by
  obtain ⟨b,hb,rfl⟩ := exists_distance_of_odd hp hq hlt
  have hfour := pow_four_lt_of_near hlt.le hnear
  rw [Nat.add_sub_cancel_left, mul_pow] at hfour
  have hmain := Test1.main_mean hb (show b ^ 4 < p * (p + 2 * b) by omega)
  refine ⟨((p + b : ℕ) : Int),b,?_,?_,hmain,?_,?_,?_⟩
  · push_cast
    ring
  · push_cast
    ring
  · rw [Test1.factor_eq, hmain]
    rfl
  · push_cast
    ring
  · push_cast
    ring

/-- The first numbers of the documentation. -/
theorem one_step_factors_2491 : ∃ A x : Int, 2 * A = (47 : ℕ) + (53 : ℕ) ∧
    2 * x = (53 : ℕ) - (47 : ℕ) ∧
    Test1.main (47 * 53 : ℕ) = some ⟨A,x,(47 : ℕ),(53 : ℕ),((47 * 53 : ℕ) : Int)⟩ ∧
    factor (47 * 53 : ℕ) = some (A - x,A + x) ∧ A - x = (47 : ℕ) ∧ A + x = (53 : ℕ) := by
  have hroot : (3 : ℝ) < ((47 * 53 : ℕ) : ℝ) ^ (1 / 4 : ℝ) := by
    rw [one_div, Real.lt_rpow_inv_iff_of_pos (by norm_num) (by norm_num) (by norm_num)]
    norm_num
  exact one_step_factors ⟨23,rfl⟩ ⟨26,rfl⟩ (by norm_num) (by push_cast at hroot ⊢; linarith)

namespace Test2

def findX (A N : Int) : Option Int :=
  let x := A * A
  let x := x - N
  BigInt.sqrt x

inductive State where
  | running (A : Int)
  | stopped (p q pq : Int)
  | panicked

def start (N : Int) : State :=
  match BigInt.sqrt N with
  | none => .panicked
  | some A => .running A

def step (N : Int) : State → State
  | .running A =>
    let A := A + 1
    match findX A N with
    | none => .panicked
    | some x =>
      let p := A - x
      let q := A + x
      let pq := p * q
      if pq = N then .stopped p q pq else .running A
  | ended => ended

def after (N : Int) (n : ℕ) : State := (step N)^[n] (start N)

def Stops (N : Int) : Prop := ∃ n p q pq, after N n = .stopped p q pq

/-- A mean of two factors: its square is more than `N` by a square. -/
def IsMean (N A : ℕ) : Prop := ∃ b, N + b * b = A * A

section Rounds
variable {N : ℕ}

private theorem findX_natCast {A : ℕ} (h : N ≤ A * A) : findX A N = some (Nat.sqrt (A * A - N) : Int) := by
  have hsub : (A : Int) * A - N = (A * A - N : ℕ) := by
    rw [Nat.cast_sub h, Nat.cast_mul]
  rw [findX, hsub, BigInt.sqrt_natCast]

/-- The product is that of the two factors only if the root is exact. -/
theorem product_eq_iff (A x : ℕ) : ((A : Int) - x) * (A + x) = N ↔ N + x * x = A * A := by
  have hproduct : ((A : Int) - x) * (A + x) = A * A - x * x := by ring
  rw [hproduct]
  constructor
  · intro h
    have hcast : ((N + x * x : ℕ) : Int) = (A * A : ℕ) := by
      push_cast
      linarith
    exact_mod_cast hcast
  · intro h
    have hcast : ((N + x * x : ℕ) : Int) = (A * A : ℕ) := congrArg _ h
    push_cast at hcast
    linarith

private theorem step_mean {A b : ℕ} (h : N + b * b = (A + 1) * (A + 1)) :
    step N (.running A) = .stopped ((A + 1 : ℕ) - b) ((A + 1 : ℕ) + b) N := by
  have hroot : Nat.sqrt ((A + 1) * (A + 1) - N) = b := by
    rw [← h, Nat.add_sub_cancel_left, Nat.sqrt_eq]
  have hfind := findX_natCast (N := N) (A := A + 1) (by omega)
  have hproduct := (product_eq_iff (A + 1) b).mpr h
  rw [hroot] at hfind
  push_cast at hfind hproduct ⊢
  simp only [step, hfind, hproduct, if_true]

/-- A root that is rounded does not pass. -/
theorem step_not_mean {A : ℕ} (hle : N ≤ (A + 1) * (A + 1)) (h : ¬ IsMean N (A + 1)) :
    step N (.running A) = .running ((A + 1 : ℕ) : Int) := by
  have hfind := findX_natCast hle
  have hproduct : ¬ (((A + 1 : ℕ) : Int) - (Nat.sqrt ((A + 1) * (A + 1) - N) : ℕ)) *
      ((A + 1 : ℕ) + (Nat.sqrt ((A + 1) * (A + 1) - N) : ℕ)) = N :=
    fun heq => h ⟨_,(product_eq_iff _ _).mp heq⟩
  push_cast at hfind hproduct ⊢
  simp only [step, hfind, if_neg hproduct]

private theorem start_natCast (N : ℕ) : start N = .running (Nat.sqrt N : Int) := by
  rw [start, BigInt.sqrt_natCast]

private theorem after_succ (N : Int) (n : ℕ) : after N (n + 1) = step N (after N n) :=
  Function.iterate_succ_apply' _ _ _

private theorem lt_square_of_sqrt_lt {A : ℕ} (h : Nat.sqrt N < A) : N < A * A := Nat.sqrt_lt.mp h

/-- As long as no mean is met the search goes on. -/
theorem after_running {n : ℕ} (h : ∀ j, j < n → ¬ IsMean N (Nat.sqrt N + j + 1)) :
    after N n = .running ((Nat.sqrt N + n : ℕ) : Int) := by
  induction n with
  | zero => exact start_natCast N
  | succ n ih =>
    have hlt := lt_square_of_sqrt_lt (show Nat.sqrt N < Nat.sqrt N + n + 1 by omega)
    rw [after_succ, ih fun j hj => h j (hj.trans (Nat.lt_succ_self n))]
    exact step_not_mean hlt.le (h n (Nat.lt_succ_self n))

/-- The first mean above the root stops it. -/
theorem after_stopped {n b : ℕ} (h : ∀ j, j < n → ¬ IsMean N (Nat.sqrt N + j + 1))
    (hmean : N + b * b = (Nat.sqrt N + n + 1) * (Nat.sqrt N + n + 1)) :
    after N (n + 1) = .stopped ((Nat.sqrt N + n + 1 : ℕ) - b) ((Nat.sqrt N + n + 1 : ℕ) + b) N := by
  rw [after_succ, after_running h]
  exact step_mean hmean

/-- Two different factors of equal parity have a mean above the root. -/
theorem mean_of_factors {p b : ℕ} (hb : 0 < b) (hN : p * (p + 2 * b) = N) :
    N + b * b = (p + b) * (p + b) ∧ Nat.sqrt N < p + b := by
  have hsquare : N + b * b = (p + b) * (p + b) := by
    rw [← hN]
    ring
  have hpos := Nat.mul_pos hb hb
  exact ⟨hsquare,Nat.sqrt_lt.mpr (by omega)⟩

/-- A mean above the root is one of two different factors. -/
theorem factors_of_mean {A b : ℕ} (hlt : Nat.sqrt N < A) (hmean : N + b * b = A * A) (hN : 0 < N) :
    0 < b ∧ b < A ∧ (A - b) * (A - b + 2 * b) = N := by
  have hsquare := lt_square_of_sqrt_lt hlt
  have hb : 0 < b := by
    rcases Nat.eq_zero_or_pos b with rfl | hb
    · omega
    · exact hb
  have hbA : b < A := Nat.mul_self_lt_mul_self_iff.mp (by omega)
  refine ⟨hb,hbA,?_⟩
  obtain ⟨p,rfl⟩ := Nat.exists_eq_add_of_lt hbA
  have hsub : b + p + 1 - b = p + 1 := by omega
  rw [hsub]
  have hexpand : (b + p + 1) * (b + p + 1) = (p + 1) * (p + 1 + 2 * b) + b * b := by ring
  omega

/-- Numbers above the root by how far they are. -/
theorem isMean_above {A : ℕ} (hlt : Nat.sqrt N < A) (h : IsMean N A) :
    IsMean N (Nat.sqrt N + (A - Nat.sqrt N - 1) + 1) := by
  have hA : Nat.sqrt N + (A - Nat.sqrt N - 1) + 1 = A := by omega
  rwa [hA]

/-- If there is a mean above the root, the search stops at the least. -/
theorem exists_stopped {A : ℕ} (hlt : Nat.sqrt N < A) (hmean : IsMean N A) (hN : 0 < N) :
    ∃ n p q : ℕ, after N n = .stopped p q N ∧ p < q ∧ p * q = N ∧
      ∀ A', Nat.sqrt N < A' → IsMean N A' → p + q ≤ 2 * A' := by
  classical
  have hexists : ∃ j, IsMean N (Nat.sqrt N + j + 1) := ⟨_,isMean_above hlt hmean⟩
  obtain ⟨k,hk⟩ : ∃ k, k = Nat.find hexists := ⟨_,rfl⟩
  obtain ⟨b,hb⟩ : IsMean N (Nat.sqrt N + k + 1) := hk ▸ Nat.find_spec hexists
  have hstop := after_stopped (fun j hj => Nat.find_min hexists (hk ▸ hj)) hb
  obtain ⟨hpos,hle,hproduct⟩ := factors_of_mean (by omega) hb hN
  refine ⟨k + 1,Nat.sqrt N + k + 1 - b,Nat.sqrt N + k + 1 - b + 2 * b,?_,by omega,hproduct,?_⟩
  · have hsum : Nat.sqrt N + k + 1 - b + 2 * b = Nat.sqrt N + k + 1 + b := by omega
    rw [hstop, hsum, Nat.cast_sub hle.le, Nat.cast_add _ b]
  · intro A' hlt' hmean'
    have hfirst := Nat.find_min' hexists (isMean_above hlt' hmean')
    omega

/-- Without one it never stops. -/
theorem not_stops_of_no_mean (h : ∀ A, Nat.sqrt N < A → ¬ IsMean N A) : ¬ Stops N := by
  rintro ⟨n,p,q,pq,hstop⟩
  rw [after_running fun j _ => h _ (by omega)] at hstop
  cases hstop

/-- The search stops exactly if two different factors have equal parity. -/
theorem stops_iff (hN : 0 < N) : Stops N ↔ ∃ a b : ℕ, a < b ∧ a * b = N ∧ a % 2 = b % 2 := by
  constructor
  · intro hstop
    by_contra hnone
    apply not_stops_of_no_mean _ hstop
    rintro A hlt ⟨b,hmean⟩
    obtain ⟨hb,_,hproduct⟩ := factors_of_mean hlt hmean hN
    exact hnone ⟨A - b,A - b + 2 * b,by omega,hproduct,by omega⟩
  · rintro ⟨a,b,hlt,hproduct,hparity⟩
    obtain ⟨c,hc,rfl⟩ := exists_distance hlt hparity
    obtain ⟨hmean,hroot⟩ := mean_of_factors hc hproduct
    obtain ⟨n,p,q,hstop,_⟩ := exists_stopped hroot ⟨c,hmean⟩ hN
    exact ⟨n,p,q,N,hstop⟩

end Rounds

/-- Factors of an odd number are odd. -/
theorem parity_of_odd {N a b : ℕ} (hodd : Odd N) (h : a * b = N) : a % 2 = b % 2 := by
  rw [← h] at hodd
  obtain ⟨ha,hb⟩ := Nat.odd_mul.mp hodd
  rw [Nat.odd_iff.mp ha, Nat.odd_iff.mp hb]

/-- Of an odd number the closest factors are found. -/
theorem exists_closest {N : ℕ} (hodd : Odd N) (hN : 3 ≤ N) : ∃ n p q : ℕ, after N n = .stopped p q N ∧
    p < q ∧ p * q = N ∧ ∀ a b : ℕ, a ≠ b → a * b = N → p + q ≤ a + b := by
  have hmean {a b : ℕ} (hlt : a < b) (hproduct : a * b = N) :
      ∃ A, Nat.sqrt N < A ∧ IsMean N A ∧ 2 * A = a + b := by
    obtain ⟨c,hc,rfl⟩ := exists_distance hlt (parity_of_odd hodd hproduct)
    obtain ⟨hsquare,hroot⟩ := mean_of_factors hc hproduct
    exact ⟨a + c,hroot,⟨c,hsquare⟩,by omega⟩
  obtain ⟨A,hroot,hA,_⟩ := hmean (a := 1) (b := N) (by omega) (Nat.one_mul N)
  obtain ⟨n,p,q,hrun,hpq,hproduct,hleast⟩ := exists_stopped hroot hA (by omega)
  refine ⟨n,p,q,hrun,hpq,hproduct,fun a b hne hab => ?_⟩
  rcases Nat.lt_or_gt_of_ne hne with hlt | hlt
  · obtain ⟨A',hroot',hA',hsum⟩ := hmean hlt hab
    exact (hleast A' hroot' hA').trans_eq hsum
  · obtain ⟨A',hroot',hA',hsum⟩ := hmean hlt ((Nat.mul_comm b a).trans hab)
    exact (hleast A' hroot' hA').trans_eq (hsum.trans (Nat.add_comm b a))

/-- A product of two primes has no closer factors than these. -/
theorem eq_of_closest {p q p' q' : ℕ} (hp : p.Prime) (hq : q.Prime) (hlt : p < q) (hlt' : p' < q')
    (hproduct : p' * q' = p * q) (hsum : p' + q' ≤ p + q) : p' = p ∧ q' = q := by
  have htwo := hp.two_le
  rcases (Nat.Prime.dvd_mul hp).mp (hproduct ▸ Nat.dvd_mul_right p q) with ⟨c,rfl⟩ | ⟨c,rfl⟩
  · have hc : c * q' = q := by
      apply Nat.eq_of_mul_eq_mul_left hp.pos
      rw [← hproduct, Nat.mul_assoc]
    rcases (Nat.dvd_prime hq).mp ⟨q',hc.symm⟩ with rfl | rfl
    · exact ⟨Nat.mul_one p,by rw [← hc, Nat.one_mul]⟩
    · have hone : q' = 1 := Nat.eq_of_mul_eq_mul_left hq.pos (hc.trans (Nat.mul_one _).symm)
      have hpos := Nat.mul_pos hp.pos hq.pos
      omega
  · have hc : p' * c = q := by
      apply Nat.eq_of_mul_eq_mul_left hp.pos
      rw [← hproduct, Nat.mul_left_comm]
    rcases (Nat.dvd_prime hq).mp ⟨c,hc.symm⟩ with rfl | rfl
    · -- one and the product: their sum is greater
      rw [Nat.one_mul] at hc
      subst hc
      obtain ⟨a,rfl⟩ := Nat.exists_eq_add_of_le htwo
      obtain ⟨b,rfl⟩ := Nat.exists_eq_add_of_le hq.two_le
      have hexpand : (2 + a) * (2 + b) = 4 + 2 * a + 2 * b + a * b := by ring
      omega
    · have hone : c = 1 := Nat.eq_of_mul_eq_mul_left hq.pos (hc.trans (Nat.mul_one _).symm)
      subst hone
      omega

/-- The search of an odd number ends with its closest factors, and so with the primes of a product. -/
theorem search_closest {N : ℕ} (hodd : Odd N) (hN : 3 ≤ N) :
    (∃ n p q : ℕ, after N n = .stopped p q N ∧ p < q ∧ p * q = N ∧
      ∀ a b : ℕ, a ≠ b → a * b = N → p + q ≤ a + b) ∧
    ∀ p q : ℕ, p.Prime → q.Prime → p < q → N = p * q → ∃ n, after N n = .stopped p q N := by
  refine ⟨exists_closest hodd hN,fun p q hp hq hlt hproduct => ?_⟩
  obtain ⟨n,p',q',hrun,hlt',hproduct',hleast⟩ := exists_closest hodd hN
  obtain ⟨rfl,rfl⟩ := eq_of_closest hp hq hlt hlt' (hproduct'.trans hproduct)
    (hleast p q hlt.ne hproduct.symm)
  exact ⟨n,hrun⟩

theorem search_closest_45 : (∃ n p q : ℕ, after (45 : ℕ) n = .stopped p q (45 : ℕ) ∧ p < q ∧
      p * q = 45 ∧ ∀ a b : ℕ, a ≠ b → a * b = 45 → p + q ≤ a + b) ∧
    ∀ p q : ℕ, p.Prime → q.Prime → p < q → 45 = p * q →
      ∃ n, after (45 : ℕ) n = .stopped p q (45 : ℕ) :=
  search_closest ⟨22,rfl⟩ (by decide)

/-- An even product of two primes has no two different factors of equal parity. -/
theorem parity_ne_of_two {q a b : ℕ} (hq : q.Prime) (hlt : a < b) (h : a * b = 2 * q) :
    a % 2 ≠ b % 2 := by
  intro hparity
  have heven : Even (a * b) := h ▸ even_two_mul q
  have hboth : a % 2 = 0 ∧ b % 2 = 0 := by
    rcases Nat.even_mul.mp heven with ha | hb
    · exact ⟨Nat.even_iff.mp ha,hparity ▸ Nat.even_iff.mp ha⟩
    · exact ⟨hparity ▸ Nat.even_iff.mp hb,Nat.even_iff.mp hb⟩
  obtain ⟨c,rfl⟩ := Nat.dvd_of_mod_eq_zero hboth.1
  rw [Nat.mul_assoc] at h
  have hcb : c * b = q := Nat.eq_of_mul_eq_mul_left Nat.two_pos h
  rcases (Nat.dvd_prime hq).mp ⟨b,hcb.symm⟩ with rfl | rfl
  · -- the even one is prime, so it is not more than the other, which is two
    rw [Nat.one_mul] at hcb
    subst hcb
    have htwo := hq.eq_two_or_odd
    omega
  · have hone : b = 1 := Nat.eq_of_mul_eq_mul_left hq.pos (hcb.trans (Nat.mul_one _).symm)
    omega

private theorem not_stops_two_mul {q : ℕ} (hq : q.Prime) : ¬ Stops (2 * q : ℕ) := by
  rw [stops_iff (Nat.mul_pos Nat.two_pos hq.pos)]
  rintro ⟨a,b,hlt,hproduct,hparity⟩
  exact parity_ne_of_two hq hlt hproduct hparity

/-- The search of a product of two primes ends exactly if it is odd. -/
theorem semiprime_search_stops_iff {p q : ℕ} (hp : p.Prime) (hq : q.Prime) (hle : p ≤ q) :
    Stops (p * q : ℕ) ↔ p ≠ 2 := by
  constructor
  · rintro hstop rfl
    exact not_stops_two_mul hq hstop
  · intro hne
    have htwo := hp.two_le
    have hodd : Odd (p * q) := (hp.odd_of_ne_two hne).mul (hq.odd_of_ne_two (by omega))
    have hbig := Nat.mul_le_mul htwo hq.one_le
    exact (stops_iff (by omega)).mpr ⟨1,p * q,by omega,Nat.one_mul _,parity_of_odd hodd (Nat.one_mul _)⟩

theorem semiprime_search_nine : Stops (3 * 3 : ℕ) ↔ 3 ≠ 2 :=
  semiprime_search_stops_iff Nat.prime_three Nat.prime_three le_rfl

/-- Of 4 the mean 2 is passed over, and of 6 there is none. -/
theorem semiprime_search_forever : Nat.Prime 2 ∧ Nat.Prime 3 ∧ ¬ Stops (2 * 2 : ℕ) ∧
    ¬ Stops (2 * 3 : ℕ) :=
  ⟨Nat.prime_two,Nat.prime_three,not_stops_two_mul Nat.prime_two,not_stops_two_mul Nat.prime_three⟩

end Test2

end CryptoPlaypen.Primes
