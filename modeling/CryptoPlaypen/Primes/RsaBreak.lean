import CryptoPlaypen.Go.BigInt
import CryptoPlaypen.Primes.NearFactors
import Mathlib.Tactic.NormNum.Prime

/-! Recovering a message from the public key and the ciphertext, when the factors are near. -/
namespace CryptoPlaypen.Primes
open Go

def factor (N : Int) : Option (Int × Int) := do
  let A ← BigInt.sqrt N
  let A := A + 1
  let x := A * A
  let x := x - N
  let x ← BigInt.sqrt x
  pure (A - x,A + x)

def recoverMessage (N e c : Int) : Option Int := do
  let (p, q) ← factor N
  let phi := N - p
  let phi := phi - q
  let phi := phi + 1
  let d ← BigInt.modInverse 0 e phi
  pure (BigInt.exp 0 c d N)

/-- The mean of near factors is found at once, and half their difference is a root. -/
theorem factor_mean {p b : ℕ} (hb : 0 < b) (hnear : b ^ 4 < p * (p + 2 * b)) :
    factor (p * (p + 2 * b) : ℕ) = some ((p : Int),((p + 2 * b : ℕ) : Int)) := by
  have hA : (Nat.sqrt (p * (p + 2 * b)) : Int) + 1 = p + b := by exact_mod_cast sqrt_near hb hnear
  have hx : ((p : Int) + b) * (p + b) - (p * (p + 2 * b) : ℕ) = (b * b : ℕ) := by
    push_cast
    ring
  simp only [factor, BigInt.sqrt_natCast, Option.bind_eq_bind, Option.bind_some, hA, hx, Nat.sqrt_eq]
  have hsub : (p : Int) + b - b = p := by ring
  have hadd : (p : Int) + b + b = (p + 2 * b : ℕ) := by
    push_cast
    ring
  rw [hsub, hadd]
  rfl

/-- Odd factors have a mean. -/
theorem factor_near {p q : ℕ} (hp : Odd p) (hq : Odd q) (hlt : p < q)
    (hnear : (q - p) ^ 4 < 16 * (p * q)) : factor (p * q : ℕ) = some ((p : Int),(q : Int)) := by
  obtain ⟨b,hb,rfl⟩ := exists_distance_of_odd hp hq hlt
  apply factor_mean hb
  rw [Nat.add_sub_cancel_left, mul_pow] at hnear
  omega

/-- The exponents cancel modulo both factors, so modulo their product. -/
theorem decrypt_encrypt {p q e d m : ℕ} (hp : p.Prime) (hq : q.Prime) (hne : p ≠ q) (hpos : e * d ≠ 0)
    (hed : e * d ≡ 1 [MOD (p - 1) * (q - 1)]) (hm : m < p * q) :
    (m ^ e % (p * q)) ^ d % (p * q) = m := by
  have hpair : m ^ (e * d) ≡ m [MOD p * q] :=
    (Nat.modEq_and_modEq_iff_modEq_mul ((Nat.coprime_primes hp hq).mpr hne)).mp
      ⟨pow_modEq_self hp hed.of_mul_right hpos m,pow_modEq_self hq hed.of_mul_left hpos m⟩
  rw [← Nat.pow_mod, ← pow_mul, hpair, Nat.mod_eq_of_lt hm]

/-- The factors give the exponent, and the exponent the message. -/
theorem recoverMessage_near {p q e m : ℕ} (hp : p.Prime) (hq : q.Prime) (hodd : Odd p) (hlt : p < q)
    (hnear : (q - p) ^ 4 < 16 * (p * q)) (he : Nat.gcd e ((p - 1) * (q - 1)) = 1) (hm : m < p * q) :
    recoverMessage (p * q : ℕ) e (m ^ e % (p * q) : ℕ) = some (m : Int) := by
  have hp3 : 3 ≤ p := by
    obtain ⟨k,rfl⟩ := hodd
    have htwo := hp.two_le
    omega
  have hqodd : Odd q := hq.odd_of_ne_two (by omega)
  have hfactor := factor_near hodd hqodd hlt hnear
  have hphi : ((p * q : ℕ) : Int) - p - q + 1 = ((p - 1) * (q - 1) : ℕ) := by
    rw [Nat.cast_mul, Nat.cast_mul, Nat.cast_sub hp.one_le, Nat.cast_sub hq.one_le]
    ring
  have hbig : 1 < (p - 1) * (q - 1) :=
    lt_of_lt_of_le (by omega) (Nat.mul_le_mul (show 2 ≤ p - 1 by omega) (show 1 ≤ q - 1 by omega))
  obtain ⟨d,hd,hinverse⟩ := BigInt.modInverse_spec (g := e) (n := ((p - 1) * (q - 1) : ℕ))
    (by omega) he 0
  have hed : e * d ≡ 1 [MOD (p - 1) * (q - 1)] := by exact_mod_cast hinverse
  have hpos : e * d ≠ 0 := by
    intro hzero
    rw [hzero, Nat.ModEq, Nat.zero_mod, Nat.mod_eq_of_lt hbig] at hed
    cases hed
  have hmessage := decrypt_encrypt hp hq hlt.ne hpos hed hm
  simp only [recoverMessage, hfactor, Option.bind_eq_bind, Option.bind_some, hphi, hd]
  rw [BigInt.exp_natCast (by omega), hmessage]
  rfl

/-- From a public key with near factors and any ciphertext the message is recovered. -/
theorem recoverMessage_eq {p q e m : ℕ} (hp : p.Prime) (hq : q.Prime) (hodd : Odd p) (hlt : p < q)
    (hnear : (q : ℝ) - p < 2 * ((p * q : ℕ) : ℝ) ^ (1 / 4 : ℝ))
    (he : Nat.gcd e ((p - 1) * (q - 1)) = 1) (hm : m < p * q) :
    recoverMessage (p * q : ℕ) e (m ^ e % (p * q) : ℕ) = some (m : Int) :=
  recoverMessage_near hp hq hodd hlt (pow_four_lt_of_near hlt.le hnear) he hm

/-- A message that the lesser factor divides. -/
theorem recoverMessage_multiple : recoverMessage (47 * 53 : ℕ) 3 (94 ^ 3 % (47 * 53) : ℕ) = some 94 := by
  have hroot : (3 : ℝ) < ((47 * 53 : ℕ) : ℝ) ^ (1 / 4 : ℝ) := by
    rw [one_div, Real.lt_rpow_inv_iff_of_pos (by norm_num) (by norm_num) (by norm_num)]
    norm_num
  exact recoverMessage_eq (e := 3) (m := 94) (by norm_num) (by norm_num) ⟨23,rfl⟩ (by norm_num)
    (by push_cast at hroot ⊢; linarith) (by decide) (by norm_num)

end CryptoPlaypen.Primes
