import CryptoPlaypen.Lightning.NoiseTransport

/-! Transport keys by their number. A rotation derives the next key from the last one and from
whatever chaining key the endpoint holds then. -/
namespace CryptoPlaypen.Lightning
open Buffer

/-- Each of the keys up to number `n` is derived from the one before it. -/
def Chained (P : Primitives) (key : Nat → Bytes) (n : Nat) : Prop :=
  ∀ e < n, ∃ C, key (e + 1) = (hkdf P C (key e)).drop 32

def extendKeys (key : Nat → Bytes) (n : Nat) (K : Bytes) (e : Nat) : Bytes :=
  if e ≤ n then key e else K

section Keys
variable {P : Primitives} {key : Nat → Bytes} {n : Nat}

theorem extendKeys_le {e : Nat} (h : e ≤ n) (K : Bytes) : extendKeys key n K e = key e := if_pos h

theorem extendKeys_next (K : Bytes) : extendKeys key n K (n + 1) = K := if_neg (by omega)

theorem chained_zero : Chained P key 0 := fun _ h => absurd h (Nat.not_lt_zero _)

/-- A rotation adds one key. -/
theorem Chained.rotate (h : Chained P key n) (C : Bytes) :
    Chained P (extendKeys key n (rotate P (C,key n)).2) (n + 1) := by
  intro e he
  rcases Nat.lt_succ_iff_lt_or_eq.mp he with hlt | rfl
  · rw [extendKeys_le hlt, extendKeys_le (Nat.le_of_lt hlt)]
    exact h e hlt
  · rw [extendKeys_next, extendKeys_le (Nat.le_refl e)]
    exact ⟨C,rfl⟩

end Keys
end CryptoPlaypen.Lightning
