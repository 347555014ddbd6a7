import CryptoPlaypen.Objects.Method

/-! Pre- and postconditions of methods that may throw: what holds of the object when the method
returns, and what holds of it when it throws. -/
namespace CryptoPlaypen.Objects.Method
variable {σ α β : Type} {I J E : σ → Prop}

/-- From an object in `I` the method returns into `Q`, or throws into `E`. -/
def Triple (I : σ → Prop) (m : Method σ α) (Q : α → σ → Prop) (E : σ → Prop) : Prop :=
  ∀ s, I s → match m.run s with
    | (.returned a, t) => Q a t
    | (.threw, t) => E t

theorem Triple.bind {m : Method σ α} {f : α → Method σ β} {Q : α → σ → Prop} {R : β → σ → Prop}
    (hm : Triple I m Q E) (hf : ∀ a, Triple (Q a) (f a) R E) : Triple I (m >>= f) R E := by
  intro s hs
  have hfirst := hm s hs
  rw [run_bind]
  rcases hrun : m.run s with ⟨a | _,t⟩
  · rw [hrun] at hfirst
    exact hf a t hfirst
  · rw [hrun] at hfirst
    exact hfirst

theorem Triple.pure {Q : α → σ → Prop} {a : α} (h : ∀ s, I s → Q a s) : Triple I (pure a) Q E := h

theorem Triple.self : Triple I self (fun _ => I) E := fun _ h => h

/-- The method that reads the object gives back the object that it leaves. -/
theorem Triple.self_eq : Triple I Method.self (fun a s => I s ∧ a = s) E := fun _ h => ⟨h,rfl⟩

theorem Triple.assign {f : σ → σ} (h : ∀ s, I s → J (f s)) : Triple I (assign f) (fun _ => J) E := h

theorem Triple.attempt {a : Option α} (hE : ∀ s, I s → E s) : Triple I (attempt a) (fun _ => I) E := by
  intro s hs
  cases a with
  | none => exact hE s hs
  | some a => exact hs

/-- What has not thrown was there. -/
theorem Triple.attempt_some {a : Option α} (hE : ∀ s, I s → E s) :
    Triple I (Method.attempt a) (fun x s => I s ∧ a = some x) E := by
  intro s hs
  cases a with
  | none => exact hE s hs
  | some a => exact ⟨hs,rfl⟩

theorem Triple.raiseIf (p : Prop) [Decidable p] (hE : ∀ s, I s → E s) :
    Triple I (raiseIf p) (fun _ => I) E := by
  intro s hs
  rw [run_raiseIf]
  split
  · rename_i h
    split at h <;> cases h
    exact hs
  · rename_i h
    split at h <;> cases h
    exact hE s hs

theorem Triple.cond {c : Prop} [Decidable c] {m n : Method σ α} {Q : α → σ → Prop}
    (hm : Triple I m Q E) (hn : Triple I n Q E) : Triple I (if c then m else n) Q E := by
  split
  · exact hm
  · exact hn

/-- The rule of consequence for what the method leaves. -/
theorem Triple.mono {F : σ → Prop} {m : Method σ α} {Q R : α → σ → Prop} (h : Triple I m Q F)
    (hQ : ∀ a s, Q a s → R a s) (hE : ∀ s, F s → E s) : Triple I m R E := by
  intro s hs
  have hall := h s hs
  rcases hrun : m.run s with ⟨a | _,t⟩
  · rw [hrun] at hall
    exact hQ a t hall
  · rw [hrun] at hall
    exact hE t hall

/-- If it does not matter whether the method threw. -/
theorem Triple.after {m : Method σ α} (h : Triple I m (fun _ => E) E) {s : σ} (hs : I s) : E (m.run s).2 := by
  have hall := h s hs
  rcases hrun : m.run s with ⟨_ | _,t⟩ <;> rw [hrun] at hall <;> exact hall

end CryptoPlaypen.Objects.Method
