import CryptoPlaypen.Buffer.HexStrings
import Mathlib.Data.Int.GCD
import Mathlib.Data.Int.ModEq
import Mathlib.Data.Nat.Digits.Lemmas
import Mathlib.Data.Nat.Sqrt
import Mathlib.Tactic.Ring

/-! The methods of `big.Int` on integers. The receiver is a parameter where a call may leave
it as it was, and a call that panics is `none`. -/
namespace CryptoPlaypen.Go.BigInt
open Buffer

def sqrt (x : Int) : Option Int := if x < 0 then none else some (Nat.sqrt x.toNat)

/-- The inverse of `g` in the ring of integers modulo `n`, if there is one. A negative `g` is
reduced first, which panics for zero. -/
def modInverse (z g n : Int) : Option Int :=
  if n = 0 ∧ g < 0 then none else some (if Int.gcd g n = 1 then Int.gcdA g n % n else z)

def exp (z x y m : Int) : Int :=
  if m = 0 then if y ≤ 0 then 1 else x ^ y.toNat
  else if 0 ≤ y then x ^ y.toNat % m
  else if Int.gcd x m = 1 then (Int.gcdA x m % m) ^ (-y).toNat % m
  else z

/-- The absolute value, most significant byte first and without leading zeros. -/
def bytes (x : Int) : Bytes := ((Nat.digits 256 x.natAbs).map UInt8.ofNat).reverse

/-- The low-order 64 bits, if the value has more. -/
def int64 (x : Int) : Int := x.bmod (2 ^ 64)

theorem sqrt_natCast (n : Nat) : sqrt n = some (Nat.sqrt n : Int) := by
  rw [sqrt, if_neg (by omega), Int.toNat_natCast]

/-- An inverse is not negative, and the product is one modulo `n`. -/
theorem modInverse_spec {g n : Int} (hn : 0 < n) (h : Int.gcd g n = 1) (z : Int) :
    ∃ d : Nat, modInverse z g n = some (d : Int) ∧ g * d ≡ 1 [ZMOD n] := by
  have hd : 0 ≤ Int.gcdA g n % n := Int.emod_nonneg _ (by omega)
  refine ⟨(Int.gcdA g n % n).toNat,?_,?_⟩
  · rw [modInverse, if_neg (by omega), if_pos h, Int.toNat_of_nonneg hd]
  · have hbezout := Int.gcd_eq_gcd_ab g n
    rw [h] at hbezout
    rw [Int.toNat_of_nonneg hd]
    calc
      g * (Int.gcdA g n % n) ≡ g * Int.gcdA g n [ZMOD n] := (Int.mod_modEq _ _).mul_left g
      _ ≡ 1 [ZMOD n] := by
        rw [Int.modEq_iff_dvd, ← Nat.cast_one, hbezout]
        exact ⟨Int.gcdB g n,by ring⟩

theorem exp_natCast {m : Nat} (hm : m ≠ 0) (z : Int) (x y : Nat) :
    exp z x y m = ((x ^ y % m : Nat) : Int) := by
  rw [exp, if_neg (by omega), if_pos (by omega), Int.toNat_natCast]
  push_cast
  rfl

private theorem leValue_eq_ofDigits (bs : Bytes) : leValue bs = Nat.ofDigits 256 (bs.map UInt8.toNat) := by
  induction bs with
  | nil => rfl
  | cons b bs ih => rw [leValue, ih, List.map_cons, Nat.ofDigits_cons]

private theorem beValue_bytes (n : Nat) : beValue (bytes n) = n := by
  have hdigits : ((Nat.digits 256 n).map UInt8.ofNat).map UInt8.toNat = Nat.digits 256 n := by
    rw [List.map_map]
    refine (List.map_congr_left fun d hd => ?_).trans (List.map_id _)
    exact UInt8.toNat_ofNat_of_lt' (Nat.digits_lt_base (show 1 < 256 by omega) hd)
  rw [beValue, bytes, List.reverse_reverse, Int.natAbs_natCast, leValue_eq_ofDigits, hdigits,
    Nat.ofDigits_digits]

/-- A string that starts with another byte than 0 is that of its value. -/
theorem bytes_beValue {x : UInt8} (hx : x ≠ 0) (bs : Bytes) : bytes (beValue (x :: bs)) = x :: bs := by
  have hdigits : Nat.digits 256 (beValue (x :: bs)) = (x :: bs).reverse.map UInt8.toNat := by
    rw [beValue, leValue_eq_ofDigits]
    apply Nat.digits_ofDigits 256 (by omega)
    · intro d hd
      obtain ⟨b,_,rfl⟩ := List.mem_map.mp hd
      exact b.toNat_lt
    · intro hne
      have hlast : ((x :: bs).reverse.map UInt8.toNat).getLast hne = x.toNat := by simp
      rw [hlast]
      exact fun hzero => hx (UInt8.toNat_inj.mp hzero)
  have hback (l : Bytes) : (l.map UInt8.toNat).map UInt8.ofNat = l := by
    rw [List.map_map]
    exact List.map_id'' (fun b => UInt8.ofNat_toNat) l
  rw [bytes, Int.natAbs_natCast, hdigits, hback, List.reverse_reverse]

theorem lt_length_bytes_iff {n k : Nat} : k < (bytes n).length ↔ 256 ^ k ≤ n := by
  rw [bytes, List.length_reverse, List.length_map, Int.natAbs_natCast]
  exact Nat.lt_digits_length_iff (by omega) n

/-- Different numbers have different texts. -/
theorem hex_bytes_injective {m n : Nat} (h : hex (bytes m) = hex (bytes n)) : m = n := by
  have hvalue (k : Nat) : hexValue 0 (hex (bytes k)) = some k := by
    rw [hexValue_hex, beValue_bytes, Nat.zero_mul, Nat.zero_add]
  rw [← Option.some_inj, ← hvalue m, ← hvalue n, h]

theorem int64_natCast {n : Nat} (hn : n < 2 ^ 63) : int64 n = n :=
  Int.bmod_eq_of_le (by omega) (by omega)

end CryptoPlaypen.Go.BigInt
