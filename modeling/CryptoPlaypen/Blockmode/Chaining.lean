import Mathlib.Data.List.Basic

/-! Cipher block chaining over any type with an operation that undoes itself. -/
namespace CryptoPlaypen.Blockmode

section Chaining
variable {α : Type} (x : α → α → α)

/-- Every item is combined with the image of the item before it, and then mapped. -/
def chain (f : α → α) : α → List α → List α
  | _, [] => []
  | prev, m :: ms => f (x prev m) :: chain f (f (x prev m)) ms

def unchain (g : α → α) : α → List α → List α
  | _, [] => []
  | prev, c :: cs => x (g c) prev :: unchain g c cs

variable {x}

@[simp] theorem chain_length (f : α → α) (prev : α) (ms : List α) :
    (chain x f prev ms).length = ms.length := by
  induction ms generalizing prev with
  | nil => rfl
  | cons m ms ih => simp [chain, ih]

@[simp] theorem unchain_length (g : α → α) (prev : α) (cs : List α) :
    (unchain x g prev cs).length = cs.length := by
  induction cs generalizing prev with
  | nil => rfl
  | cons c cs ih => simp [unchain, ih]

/-- Unchaining with the inverse map gives the items back. -/
theorem unchain_chain {f g : α → α} (hfg : ∀ a, g (f a) = a) (hx : ∀ a b, x (x a b) a = b) (prev : α)
    (ms : List α) : unchain x g prev (chain x f prev ms) = ms := by
  induction ms generalizing prev with
  | nil => rfl
  | cons m ms ih => simp only [chain, unchain, hfg, hx, ih]

/-- Whatever is unchained is the chain of what it gives. -/
theorem chain_unchain {f g : α → α} (hfg : ∀ a, f (g a) = a) (hx : ∀ a b, x a (x b a) = b) (prev : α)
    (cs : List α) : chain x f prev (unchain x g prev cs) = cs := by
  induction cs generalizing prev with
  | nil => rfl
  | cons c cs ih => simp only [unchain, chain, hfg, hx, ih]

/-- The last result, or what the chain began with. -/
theorem chain_getLastD (f : α → α) (prev : α) (ms : List α) :
    (chain x f prev ms).getLastD prev = ms.foldl (fun c m => f (x c m)) prev := by
  induction ms generalizing prev with
  | nil => rfl
  | cons m ms ih => rw [chain, List.getLastD_cons, ih, List.foldl_cons]

theorem unchain_append (g : α → α) (prev : α) (cs ds : List α) :
    unchain x g prev (cs ++ ds) = unchain x g prev cs ++ unchain x g (cs.getLastD prev) ds := by
  induction cs generalizing prev with
  | nil => rfl
  | cons c cs ih =>
    rw [List.cons_append, unchain, unchain, ih, List.getLastD_cons]
    rfl

end Chaining
end CryptoPlaypen.Blockmode
