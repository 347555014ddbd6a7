import CryptoPlaypen.Buffer.SequentialReads

/-! Readers that look at nothing beyond what they consume. Such a reader returns the same whatever
follows, and fails on anything shorter. -/
namespace CryptoPlaypen.Buffer
variable {τ α β : Type}

/-- Every success comes from the tokens it consumed, and from no other. -/
def Prefixed (r : Reader τ α) : Prop :=
  ∀ input a rest, r.run input = some (a, rest) → ∃ used, input = used ++ rest ∧ Reads r used a

theorem Prefixed.pure (a : α) : Prefixed (pure a : Reader τ α) := by
  intro input b rest h
  cases h
  exact ⟨[],rfl,Reads.pure a⟩

theorem Prefixed.token : Prefixed (Reader.token : Reader τ τ) := by
  intro input a rest h
  cases input with
  | nil => cases h
  | cons t input =>
    cases h
    exact ⟨[a],rfl,Reads.token a⟩

theorem Prefixed.bind {r : Reader τ α} {f : α → Reader τ β} (hr : Prefixed r)
    (hf : ∀ a, Prefixed (f a)) : Prefixed (r >>= f) := by
  intro input b rest h
  obtain ⟨a,mid,ha,hb⟩ := run_bind_some.mp h
  obtain ⟨first,rfl,hfirst⟩ := hr _ _ _ ha
  obtain ⟨second,rfl,hsecond⟩ := hf a _ _ _ hb
  exact ⟨first ++ second,(List.append_assoc _ _ _).symm,hfirst.bind hsecond⟩

theorem Prefixed.times {r : Reader τ α} (hr : Prefixed r) (n : Nat) :
    Prefixed (Reader.times n r) := by
  induction n with
  | zero => exact Prefixed.pure []
  | succ n ih => exact hr.bind fun a => ih.bind fun others => Prefixed.pure (a :: others)

/-- A part of what a success consumes is too little. -/
theorem Prefixed.run_take {r : Reader τ α} (hr : Prefixed r) {used : List τ} {a : α}
    (hused : Reads r used a) {k : Nat} (hk : k < used.length) : r.run (used.take k) = none := by
  cases hrun : r.run (used.take k) with
  | none => rfl
  | some result =>
    obtain ⟨b,rest⟩ := result
    obtain ⟨first,hfirst,hreads⟩ := hr _ _ _ hrun
    -- the shorter success is one on the whole input too, and leaves more of it
    have hwhole := hreads (rest ++ used.drop k)
    rw [← List.append_assoc, ← hfirst, List.take_append_drop, hused.run_all] at hwhole
    have hrest := congrArg (fun result => result.2.length) (Option.some.inj hwhole)
    simp only [List.length_nil, List.length_append, List.length_drop] at hrest
    omega

/-- As many tokens as were asked for, and they are the ones consumed. -/
theorem run_times_token {n : Nat} {input out rest : List τ}
    (h : (Reader.times n (Reader.token : Reader τ τ)).run input = some (out, rest)) :
    out.length = n ∧ input = out ++ rest := by
  induction n generalizing input out with
  | zero =>
    cases h
    exact ⟨rfl,rfl⟩
  | succ n ih =>
    obtain ⟨t,mid,ht,hmore⟩ := run_bind_some.mp h
    obtain ⟨others,last,hothers,hout⟩ := run_bind_some.mp hmore
    cases hout
    cases input with
    | nil => cases ht
    | cons u input =>
      cases ht
      obtain ⟨hlength,rfl⟩ := ih hothers
      exact ⟨congrArg Nat.succ hlength,rfl⟩

end CryptoPlaypen.Buffer
