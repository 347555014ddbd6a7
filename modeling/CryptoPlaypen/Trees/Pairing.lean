import Mathlib.Data.Nat.Log
import Mathlib.Data.List.Basic

/-! Trees over a list whose elements are joined in pairs, level by level. A level of odd width
is completed with its last node once more. -/
namespace CryptoPlaypen.Trees
variable {α β γ : Type}

def completed (xs : List α) : List α :=
  if xs.length % 2 = 0 then xs else xs ++ xs.getLast?.toList

def pairs (f : α → α → β) : List α → List β
  | a :: b :: rest => f a b :: pairs f rest
  | _ => []

def width (n : Nat) : Nat → Nat
  | 0 => n
  | k + 1 => (width n k + 1) / 2

/-- Node `i` of level `k`, over the leaves `leaf 0` to `leaf (n - 1)`. -/
def node (f : α → α → α) (n : Nat) (leaf : Nat → α) : Nat → Nat → α
  | 0, i => leaf i
  | k + 1, i => f (node f n leaf k (min (2 * i) (width n k - 1)))
      (node f n leaf k (min (2 * i + 1) (width n k - 1)))

abbrev parents (f : α → α → β) (xs : List α) : List β := pairs f (completed xs)

theorem completed_length (xs : List α) : (completed xs).length = 2 * ((xs.length + 1) / 2) := by
  unfold completed
  split
  · omega
  · rename_i hodd
    have hne : xs ≠ [] := by rintro rfl; exact hodd rfl
    rw [List.getLast?_eq_some_getLast hne]
    simp only [Option.toList, List.length_append, List.length_singleton]
    omega

/-- Only an even level is complete. -/
theorem completed_eq_self_iff (xs : List α) : completed xs = xs ↔ xs.length % 2 = 0 := by
  constructor
  · intro h
    have hlength := completed_length xs
    rw [h] at hlength
    omega
  · intro heven
    rw [completed, if_pos heven]

theorem completed_completed (xs : List α) : completed (completed xs) = completed xs := by
  rw [completed_eq_self_iff, completed_length]
  exact Nat.mul_mod_right 2 _

private theorem pairs_length (f : α → α → β) (xs : List α) : (pairs f xs).length = xs.length / 2 := by
  fun_induction pairs f xs with
  | case1 a b rest ih => simp only [List.length_cons, ih]; omega
  | case2 xs hshort =>
    rcases xs with _ | ⟨a,_ | ⟨b,rest⟩⟩
    · simp
    · simp
    · exact absurd rfl (hshort a b rest)

theorem parents_length (f : α → α → β) (xs : List α) :
    (parents f xs).length = (xs.length + 1) / 2 := by
  rw [pairs_length, completed_length]
  omega

theorem pairs_map (g : β → γ) (f : α → α → β) (xs : List α) :
    (pairs f xs).map g = pairs (fun a b => g (f a b)) xs := by
  fun_induction pairs f xs with
  | case1 a b rest ih => rw [List.map_cons, ih, pairs]
  | case2 xs hshort => rw [pairs.eq_2 _ _ hshort, List.map_nil]

private theorem pairs_getElem? (f : α → α → β) (xs : List α) (i : Nat) :
    (pairs f xs)[i]? = xs[2 * i]?.bind fun a => xs[2 * i + 1]?.map (f a) := by
  induction xs using pairs.induct generalizing i with
  | case1 a b rest ih =>
    cases i with
    | zero => rfl
    | succ i => simpa [pairs, Nat.mul_succ] using ih i
  | case2 xs hshort =>
    rw [pairs.eq_2 _ _ hshort]
    rcases xs with _ | ⟨a,_ | ⟨b,rest⟩⟩
    · rfl
    · cases i <;> rfl
    · exact absurd rfl (hshort a b rest)

/-- Beyond the end stands the last element. -/
theorem completed_getElem? {xs : List α} {j : Nat} (hj : j < (completed xs).length) :
    (completed xs)[j]? = xs[min j (xs.length - 1)]? := by
  have hlength := completed_length xs
  by_cases hin : j < xs.length
  · have hmin : min j (xs.length - 1) = j := by omega
    rw [hmin, completed]
    split
    · rfl
    · exact List.getElem?_append_left hin
  · have hodd : ¬ xs.length % 2 = 0 := by omega
    have hmin : min j (xs.length - 1) = xs.length - 1 := by omega
    have hj : j = xs.length := by omega
    have hne : xs ≠ [] := by rintro rfl; exact hodd rfl
    rw [hmin, completed, if_neg hodd, hj, List.getElem?_append_right le_rfl, Nat.sub_self,
      List.getLast?_eq_some_getLast hne, ← List.getLast?_eq_getElem?,
      List.getLast?_eq_some_getLast hne]
    rfl

/-- Each node of a level lies over two of the level below, or over the last one twice. -/
theorem parents_getD (f : α → α → α) {xs : List α} (d : α) {i : Nat} (hi : i < (xs.length + 1) / 2) :
    (parents f xs).getD i d =
      f (xs.getD (min (2 * i) (xs.length - 1)) d) (xs.getD (min (2 * i + 1) (xs.length - 1)) d) := by
  have hlength := completed_length xs
  have hleft : min (2 * i) (xs.length - 1) < xs.length := by omega
  have hright : min (2 * i + 1) (xs.length - 1) < xs.length := by omega
  rw [List.getD_eq_getElem?_getD, pairs_getElem?, completed_getElem? (by omega),
    completed_getElem? (by omega), List.getElem?_eq_getElem hleft, List.getElem?_eq_getElem hright]
  simp [List.getD_eq_getElem?_getD, List.getElem?_eq_getElem hleft, List.getElem?_eq_getElem hright]

theorem width_succ (n k : Nat) : width n (k + 1) = width ((n + 1) / 2) k := by
  induction k with
  | zero => rfl
  | succ k ih =>
    have hstep : width n (k + 2) = (width n (k + 1) + 1) / 2 := rfl
    rw [hstep, ih, width]

/-- The tree over a level's parents is what lies above the leaves. -/
theorem node_parents (f : α → α → α) (xs : List α) (d : α) {k i : Nat}
    (hi : i < width xs.length (k + 1)) :
    node f (parents f xs).length (fun j => (parents f xs).getD j d) k i =
      node f xs.length (fun j => xs.getD j d) (k + 1) i := by
  induction k generalizing i with
  | zero => exact parents_getD f d hi
  | succ k ih =>
    have hwidth : width (parents f xs).length k = width xs.length (k + 1) := by
      rw [parents_length, width_succ]
    change i < (width xs.length (k + 1) + 1) / 2 at hi
    rw [node, hwidth, ih (by omega), ih (by omega)]
    rfl

/-- A join that tells pairs of nodes apart tells levels apart. -/
theorem pairs_injective {f : α → α → β} {P : α → Prop}
    (hf : ∀ a b c d, P a → P b → P c → P d → f a b = f c d → a = c ∧ b = d) {xs ys : List α}
    (hlength : xs.length = ys.length) (heven : xs.length % 2 = 0) (hxs : ∀ x ∈ xs, P x)
    (hys : ∀ y ∈ ys, P y) (h : pairs f xs = pairs f ys) : xs = ys := by
  induction xs using pairs.induct generalizing ys with
  | case1 a b rest ih =>
    rcases ys with _ | ⟨c,_ | ⟨d,rest'⟩⟩
    · cases hlength
    · cases hlength
    · obtain ⟨hjoin,hrest⟩ := List.cons.inj h
      obtain ⟨rfl,rfl⟩ := hf a b c d (hxs _ (by simp)) (hxs _ (by simp)) (hys _ (by simp))
        (hys _ (by simp)) hjoin
      rw [ih (by simpa using hlength) (by simp only [List.length_cons] at heven; omega)
        (fun x hx => hxs x (by simp [hx])) (fun y hy => hys y (by simp [hy])) hrest]
  | case2 xs hshort =>
    rcases xs with _ | ⟨a,_ | ⟨b,rest⟩⟩
    · exact (List.length_eq_zero_iff.mp hlength.symm).symm
    · cases heven
    · exact absurd rfl (hshort a b rest)

theorem completed_injective {xs ys : List α} (hlength : xs.length = ys.length)
    (h : completed xs = completed ys) : xs = ys := by
  have htake (zs : List α) : (completed zs).take zs.length = zs := by
    unfold completed
    split
    · exact List.take_length
    · exact List.take_left
  rw [← htake xs, h, hlength, htake]

theorem mem_completed {x : α} {xs : List α} (h : x ∈ completed xs) : x ∈ xs := by
  unfold completed at h
  split at h
  · exact h
  · rcases List.mem_append.mp h with h | h
    · exact h
    · exact List.mem_of_getLast? (Option.mem_toList.mp h)

end CryptoPlaypen.Trees
