import Mathlib.Data.List.Basic

/-! What equal hashes say when nothing is assumed of the hash function: that the hashed values are
equal, or that two among them collide. -/
namespace CryptoPlaypen.Hashing
variable {α β : Type} {hash : α → β} {xs ys : List α}

/-- Two of these values differ and have one hash. -/
def Collision (hash : α → β) (xs : List α) : Prop := ∃ x ∈ xs, ∃ y ∈ xs, x ≠ y ∧ hash x = hash y

theorem Collision.mono (h : Collision hash xs) (hsub : xs ⊆ ys) : Collision hash ys := by
  obtain ⟨x,hx,y,hy,hne,heq⟩ := h
  exact ⟨x,hsub hx,y,hsub hy,hne,heq⟩

private theorem eq_or_collision {x y : α} (h : hash x = hash y) (hx : x ∈ xs) (hy : y ∈ xs) :
    x = y ∨ Collision hash xs := by
  by_cases hxy : x = y
  · exact .inl hxy
  · exact .inr ⟨x,hx,y,hy,hxy,h⟩

/-- Lists with the same hashes are the same, but for a collision. -/
theorem map_eq_or_collision (h : xs.map hash = ys.map hash) : xs = ys ∨ Collision hash (xs ++ ys) := by
  induction xs generalizing ys with
  | nil => exact .inl (List.map_eq_nil_iff.mp h.symm).symm
  | cons x xs ih =>
    cases ys with
    | nil => cases h
    | cons y ys =>
      obtain ⟨hhead,htail⟩ := List.cons.inj h
      have hsplit : x = y ∨ Collision hash ((x :: xs) ++ (y :: ys)) :=
        eq_or_collision hhead (by simp) (by simp)
      rcases hsplit with rfl | hcollision
      · rcases ih htail with rfl | hcollision
        · exact .inl rfl
        · refine .inr (hcollision.mono fun z hz => ?_)
          rcases List.mem_append.mp hz with hz | hz <;> simp [hz]
      · exact .inr hcollision

end CryptoPlaypen.Hashing
