import Mathlib.Order.Defs.Unbundled

/-! Methods of a mutable object that may throw. An assignment made before an
exception stays made, as in the languages of the repository. -/
namespace CryptoPlaypen.Objects

inductive Outcome (α : Type) where
  | returned : α → Outcome α
  | threw : Outcome α
  deriving DecidableEq, Repr

/-- `none` is an exception. -/
def Outcome.ofOption {α : Type} : Option α → Outcome α
  | some a => returned a
  | none => threw

def Method (σ α : Type) := σ → Outcome α × σ

namespace Method
variable {σ α β : Type}

def run (m : Method σ α) (s : σ) : Outcome α × σ := m s

instance : Monad (Method σ) where
  pure a := fun s => (.returned a, s)
  bind m f := fun s => match m s with
    | (.returned a, t) => f a t
    | (.threw, t) => (.threw, t)

instance : LawfulMonad (Method σ) := LawfulMonad.mk' (Method σ)
  (fun m => by
    funext s
    change (match m s with | (.returned a, t) => (.returned a, t) | (.threw, t) => (.threw, t)) = m s
    rcases m s with ⟨_ | _,t⟩ <;> rfl)
  (fun _ _ => rfl)
  (fun m f g => by
    funext s
    change (match (match m s with | (.returned a, t) => f a t | (.threw, t) => (.threw, t)) with
      | (.returned b, t) => g b t | (.threw, t) => (.threw, t)) = match m s with
      | (.returned a, t) => (match f a t with
        | (.returned b, u) => g b u | (.threw, u) => (.threw, u))
      | (.threw, t) => (.threw, t)
    rcases m s with ⟨_ | _,t⟩ <;> rfl)

def self : Method σ σ := fun s => (.returned s, s)

def assign (f : σ → σ) : Method σ Unit := fun s => (.returned (), f s)

def raise : Method σ α := fun s => (.threw, s)

def attempt : Option α → Method σ α
  | some a => fun s => (.returned a, s)
  | none => raise

def raiseIf (p : Prop) [Decidable p] : Method σ Unit := if p then raise else pure ()

@[simp] theorem run_pure (a : α) (s : σ) : (pure a : Method σ α).run s = (.returned a, s) := rfl
@[simp] theorem run_self (s : σ) : (self : Method σ σ).run s = (.returned s, s) := rfl
@[simp] theorem run_assign (f : σ → σ) (s : σ) : (assign f).run s = (.returned (), f s) := rfl
@[simp] theorem run_attempt_some (a : α) (s : σ) :
    (attempt (some a)).run s = (.returned a, s) := rfl
@[simp] theorem run_attempt_none (s : σ) :
    (attempt (none : Option α)).run s = (.threw, s) := rfl

theorem run_attempt (a : Option α) (s : σ) : (attempt a).run s = (Outcome.ofOption a, s) := by
  cases a <;> rfl

theorem run_raiseIf (p : Prop) [Decidable p] (s : σ) :
    (raiseIf p : Method σ Unit).run s = (if p then .threw else .returned (), s) := by
  unfold raiseIf
  split <;> rfl

theorem run_bind (m : Method σ α) (f : α → Method σ β) (s : σ) :
    (m >>= f).run s = match m.run s with
      | (.returned a, t) => (f a).run t
      | (.threw, t) => (.threw, t) := rfl

theorem run_bind_returned {m : Method σ α} {s t : σ} {a : α} (h : m.run s = (.returned a, t))
    (f : α → Method σ β) : (m >>= f).run s = (f a).run t := by rw [run_bind, h]

theorem run_bind_threw {m : Method σ α} {s t : σ} (h : m.run s = (.threw, t))
    (f : α → Method σ β) : (m >>= f).run s = (.threw, t) := by rw [run_bind, h]

/-- A call that may throw, before steps that leave no trace but their outcome. -/
theorem run_attempt_then {a : Option α} {f : α → Method σ β} {g : α → Option β} {s : σ}
    (h : ∀ x, (f x).run s = (.ofOption (g x), s)) :
    (attempt a >>= f).run s = (.ofOption (a.bind g), s) := by
  cases a with
  | none => rfl
  | some x => exact h x

/-- A loop that collects results, where step `i` of it finds `I i` and gives `o i`. -/
theorem run_mapM_range' {f : Nat → Method σ β} {o : Nat → Option β} {I : Nat → σ → Prop} {stop : Nat}
    (hstep : ∀ i s, i < stop → I i s → ∃ t, (f i).run s = (.ofOption (o i), t) ∧ I (i + 1) t)
    {k n : Nat} (hn : k + n ≤ stop) {s : σ} (hs : I k s) :
    ∃ t, ((List.range' k n).mapM f).run s = (.ofOption ((List.range' k n).mapM o), t) := by
  induction n generalizing k s with
  | zero => exact ⟨s,rfl⟩
  | succ n ih =>
    obtain ⟨t,hrun,ht⟩ := hstep k s (by omega) hs
    rw [List.range'_succ, List.mapM_cons, List.mapM_cons]
    cases hk : o k with
    | none => exact ⟨t,run_bind_threw (by rw [hrun, hk]; rfl) _⟩
    | some b =>
      obtain ⟨u,hrest⟩ := ih (by omega) ht
      refine ⟨u,?_⟩
      rw [run_bind_returned (by rw [hrun, hk]; rfl)]
      cases hbs : (List.range' (k + 1) n).mapM o with
      | none => exact run_bind_threw (by rw [hrest, hbs]; rfl) _
      | some bs => exact run_bind_returned (by rw [hrest, hbs]; rfl) _

/-- Every run, also one that throws, relates the object before to the object after. -/
def Within (R : σ → σ → Prop) (m : Method σ α) : Prop := ∀ s, R s (m.run s).2

section Within
variable {R : σ → σ → Prop}

theorem Within.pure [Std.Refl R] (a : α) : Within R (pure a) := fun s => refl s

theorem Within.self [Std.Refl R] : Within R (self : Method σ σ) := fun s => refl s

theorem Within.attempt [Std.Refl R] (a : Option α) : Within R (attempt a) := by
  intro s
  cases a <;> exact refl s

theorem Within.raiseIf [Std.Refl R] (p : Prop) [Decidable p] : Within R (raiseIf p : Method σ Unit) := by
  intro s
  rw [run_raiseIf]
  exact refl s

theorem Within.assign {f : σ → σ} (h : ∀ s, R s (f s)) : Within R (assign f) := h

theorem Within.bind [IsTrans σ R] {m : Method σ α} {f : α → Method σ β} (hm : Within R m)
    (hf : ∀ a, Within R (f a)) : Within R (m >>= f) := by
  intro s
  have hfirst := hm s
  rw [run_bind]
  rcases h : m.run s with ⟨_ | _,t⟩
  · rw [h] at hfirst
    exact Trans.trans hfirst (hf _ t)
  · rw [h] at hfirst
    exact hfirst

theorem Within.cond {c : Prop} [Decidable c] {m n : Method σ α} (hm : Within R m)
    (hn : Within R n) : Within R (if c then m else n) := by
  split
  · exact hm
  · exact hn

end Within

/-- A property of the object that survives a step, as a relation. -/
def Keeps (I : σ → Prop) (s t : σ) : Prop := I s → I t

instance (I : σ → Prop) : Std.Refl (Keeps I) := ⟨fun _ h => h⟩

instance (I : σ → Prop) : IsTrans σ (Keeps I) := ⟨fun _ _ _ h k hs => k (h hs)⟩

end Method
end CryptoPlaypen.Objects
