import Mathlib.Data.List.Basic
import Mathlib.Tactic.Ring

/-! Fixed-width integers as byte strings, in both byte orders. -/
namespace CryptoPlaypen.Buffer

abbrev Bytes := List UInt8

/-- The w low-order bytes of n, least significant first. -/
def leBytes : Nat → Nat → Bytes
  | 0, _ => []
  | w + 1, n => UInt8.ofNat n :: leBytes w (n / 256)

def leValue : Bytes → Nat
  | [] => 0
  | b :: bs => b.toNat + 256 * leValue bs

/-- The w low-order bytes of n, most significant first. -/
def beBytes (w n : Nat) : Bytes := (leBytes w n).reverse

def beValue (bs : Bytes) : Nat := leValue bs.reverse

def zeros (n : Nat) : Bytes := List.replicate n 0

@[simp] theorem leBytes_length (w n : Nat) : (leBytes w n).length = w := by
  induction w generalizing n with
  | zero => rfl
  | succ w ih => simp [leBytes, ih]

@[simp] theorem beBytes_length (w n : Nat) : (beBytes w n).length = w := by simp [beBytes]

@[simp] theorem zeros_length (n : Nat) : (zeros n).length = n := by simp [zeros]

@[simp] theorem leValue_leBytes (w n : Nat) : leValue (leBytes w n) = n % 256 ^ w := by
  induction w generalizing n with
  | zero => simp [leBytes, leValue, Nat.mod_one]
  | succ w ih =>
    have hpow : 256 ^ (w + 1) = 256 * 256 ^ w := Nat.pow_succ'
    simp only [leBytes, leValue, ih, UInt8.toNat_ofNat', hpow, Nat.mod_mul, Nat.reducePow]

@[simp] theorem beValue_beBytes (w n : Nat) : beValue (beBytes w n) = n % 256 ^ w := by
  simp [beValue, beBytes]

theorem leBytes_injective {w n k : Nat} (hn : n < 256 ^ w) (hk : k < 256 ^ w)
    (h : leBytes w n = leBytes w k) : n = k := by
  have := congrArg leValue h
  simpa [Nat.mod_eq_of_lt hn, Nat.mod_eq_of_lt hk] using this

theorem leValue_lt (b : Bytes) : leValue b < 256 ^ b.length := by
  induction b with
  | nil => simp [leValue]
  | cons x b ih =>
    have hx := x.toNat_lt
    rw [leValue, List.length_cons, Nat.pow_succ']
    omega

theorem beValue_lt (b : Bytes) : beValue b < 256 ^ b.length := by
  have hlt := leValue_lt b.reverse
  rwa [List.length_reverse] at hlt

/-- Of strings of one length the value tells which it is. -/
theorem leValue_injective {a b : Bytes} (hlength : a.length = b.length)
    (h : leValue a = leValue b) : a = b := by
  induction a generalizing b with
  | nil => exact (List.length_eq_zero_iff.mp hlength.symm).symm
  | cons x a ih =>
    cases b with
    | nil => cases hlength
    | cons y b =>
      have hx := x.toNat_lt
      have hy := y.toNat_lt
      rw [leValue, leValue] at h
      have hhead : x = y := UInt8.toNat_inj.mp (by omega)
      rw [hhead, ih (Nat.succ.inj hlength) (by omega)]

theorem beValue_injective {a b : Bytes} (hlength : a.length = b.length)
    (h : beValue a = beValue b) : a = b :=
  List.reverse_injective (leValue_injective (by simpa using hlength) h)

end CryptoPlaypen.Buffer
