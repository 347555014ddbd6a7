import Mathlib.Data.List.Basic

/-! Readers that consume a token list from the front. `Reads` is the rule of a
reader on exactly the tokens it consumes, whatever follows them. -/
namespace CryptoPlaypen.Buffer

abbrev Reader (τ α : Type) := StateT (List τ) Option α

/-- The reader consumes exactly `input` and returns `a`, whatever comes after. -/
def Reads {τ α : Type} (r : Reader τ α) (input : List τ) (a : α) : Prop :=
  ∀ rest, r.run (input ++ rest) = some (a, rest)

/-- Every success of the reader consumes at least `k` tokens. -/
def Consumes {τ α : Type} (r : Reader τ α) (k : Nat) : Prop :=
  ∀ input a rest, r.run input = some (a, rest) → rest.length + k ≤ input.length

/-- A bind that succeeds has run both of its parts. -/
theorem run_bind_some {σ α β : Type} {r : StateT σ Option α} {f : α → StateT σ Option β} {s t : σ}
    {b : β} : (r >>= f).run s = some (b, t) ↔
      ∃ a mid, r.run s = some (a, mid) ∧ (f a).run mid = some (b, t) := by
  rw [StateT.run_bind]
  cases h : r.run s with
  | none => simp
  | some p => exact ⟨fun hb => ⟨p.1,p.2,rfl,hb⟩,by rintro ⟨a,mid,he,hb⟩; cases he; exact hb⟩

namespace Reader
variable {τ α β : Type}

def token : Reader τ τ := fun input =>
  match input with
  | [] => none
  | t :: rest => some (t, rest)

def times : Nat → Reader τ α → Reader τ (List α)
  | 0, _ => pure []
  | n + 1, r => do
    let a ← r
    let rest ← times n r
    pure (a :: rest)

theorem times_add (n k : Nat) (r : Reader τ α) :
    times (n + k) r = (do
      let first ← times n r
      let second ← times k r
      pure (first ++ second)) := by
  induction n with
  | zero => simp [times]
  | succ n ih => simp [Nat.succ_add, times, ih]

/-- Read records until the input is used up, at most `fuel` of them. -/
def untilEnd (r : Reader τ α) : Nat → List τ → Option (List α)
  | _, [] => some []
  | 0, _ :: _ => none
  | fuel + 1, t :: input => do
    let (a, rest) ← r.run (t :: input)
    let others ← untilEnd r fuel rest
    pure (a :: others)

end Reader

section Rules
variable {τ α β : Type}

theorem Reads.pure (a : α) : Reads (pure a : Reader τ α) [] a := fun _ => rfl

theorem Reads.bind {r : Reader τ α} {f : α → Reader τ β} {xs ys : List τ} {a : α} {b : β}
    (hr : Reads r xs a) (hf : Reads (f a) ys b) : Reads (r >>= f) (xs ++ ys) b := by
  intro rest
  rw [run_bind_some]
  exact ⟨a,ys ++ rest,by rw [List.append_assoc]; exact hr _,hf rest⟩

/-- A reader that has read its input hands the rest to what follows. -/
theorem Reads.run_bind {r : Reader τ α} {f : α → Reader τ β} {xs rest : List τ} {a : α}
    (hr : Reads r xs a) : (r >>= f).run (xs ++ rest) = (f a).run rest := by
  rw [StateT.run_bind, hr rest]
  rfl

/-- A last step that only computes consumes nothing more. -/
theorem Reads.map {r : Reader τ α} {xs : List τ} {a : α} (g : α → β) (hr : Reads r xs a) :
    Reads (do let x ← r; Pure.pure (g x)) xs (g a) := by
  simpa using hr.bind (f := fun x => Pure.pure (g x)) (Reads.pure (g a))

theorem Reads.token (t : τ) : Reads Reader.token [t] t := fun _ => rfl

/-- Reading as many records as were written returns them in order. -/
theorem Reads.times {γ : Type} {r : Reader τ α} (items : List γ) (enc : γ → List τ) (out : γ → α)
    (hr : ∀ c ∈ items, Reads r (enc c) (out c)) :
    Reads (Reader.times items.length r) (items.flatMap enc) (items.map out) := by
  induction items with
  | nil => exact Reads.pure []
  | cons c items ih =>
    have htail := ih fun d hd => hr d (List.mem_cons_of_mem _ hd)
    exact (hr c List.mem_cons_self).bind (htail.map (out c :: ·))

/-- Records that are not empty are read to the end when each of them is read back. -/
theorem Reads.untilEnd {γ : Type} {r : Reader τ α} (items : List γ) (enc : γ → List τ) (out : γ → α)
    (hr : ∀ c ∈ items, Reads r (enc c) (out c)) (hne : ∀ c ∈ items, enc c ≠ []) (fuel : Nat)
    (hfuel : (items.flatMap enc).length ≤ fuel) :
    Reader.untilEnd r fuel (items.flatMap enc) = some (items.map out) := by
  induction items generalizing fuel with
  | nil =>
    rw [List.flatMap_nil, Reader.untilEnd]
    rfl
  | cons c items ih =>
    have hread := hr c List.mem_cons_self (items.flatMap enc)
    obtain ⟨t,ts,henc⟩ := List.exists_cons_of_ne_nil (hne c List.mem_cons_self)
    rw [List.flatMap_cons, henc] at hfuel ⊢
    rw [henc] at hread
    cases fuel with
    | zero => cases hfuel
    | succ fuel =>
      have htail := ih (fun d hd => hr d (List.mem_cons_of_mem _ hd))
        (fun d hd => hne d (List.mem_cons_of_mem _ hd)) fuel (by
          rw [List.length_append, List.length_cons] at hfuel
          omega)
      rw [List.cons_append] at hread ⊢
      rw [Reader.untilEnd, hread]
      change (Reader.untilEnd r fuel (items.flatMap enc)).bind _ = _
      rw [htail]
      rfl

theorem Reads.run_all {r : Reader τ α} {xs : List τ} {a : α} (hr : Reads r xs a) :
    r.run xs = some (a, []) := by simpa using hr []

theorem Consumes.pure (a : α) : Consumes (pure a : Reader τ α) 0 := by
  rintro input b rest h
  cases h
  exact Nat.le_refl _

theorem Consumes.bind {r : Reader τ α} {f : α → Reader τ β} {j k : Nat}
    (hr : Consumes r j) (hf : ∀ a, Consumes (f a) k) : Consumes (r >>= f) (j + k) := by
  intro input b rest h
  obtain ⟨a,mid,ha,hb⟩ := run_bind_some.mp h
  have hj := hr input a mid ha
  have hk := hf a mid b rest hb
  omega

theorem Consumes.mono {r : Reader τ α} {j k : Nat} (hr : Consumes r k) (h : j ≤ k) :
    Consumes r j := by
  intro input a rest he
  have := hr input a rest he
  omega

theorem Consumes.token : Consumes (Reader.token : Reader τ τ) 1 := by
  intro input a rest h
  cases input with
  | nil => cases h
  | cons t input => cases h; exact Nat.le_refl _

theorem Consumes.times {r : Reader τ α} {k : Nat} (hr : Consumes r k) (n : Nat) :
    Consumes (Reader.times n r) (n * k) := by
  induction n with
  | zero => exact (Consumes.pure []).mono (by omega)
  | succ n ih =>
    have hstep := hr.bind fun a => ih.bind fun rest => Consumes.pure (a :: rest)
    exact hstep.mono (by rw [Nat.succ_mul]; omega)

end Rules
end CryptoPlaypen.Buffer
