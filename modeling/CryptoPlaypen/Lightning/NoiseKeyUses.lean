import CryptoPlaypen.Lightning.NoiseOverlap
import Mathlib.Data.List.Perm.Basic

/-! The sequence of sending-key uses under overlapping calls. It is kept by every
stretch except the start of a message while a rotation is under way. -/
namespace CryptoPlaypen.Lightning
open Buffer Objects Method NoiseState

section Sequence

/-- The two uses of one more message, at the next two places of the sequence. -/
def nextUses (call n : Nat) : List Use :=
  [⟨call, .length, n / 1000, nonce (n % 1000)⟩, ⟨call, .body, n / 1000, nonce (n % 1000 + 1)⟩]

private theorem call_of_mem_nextUses {call n : Nat} {u : Use} (hu : u ∈ nextUses call n) : u.call = call := by
  rcases List.mem_cons.mp hu with rfl | hu
  · rfl
  · rw [List.mem_singleton.mp hu]

/-- The first two properties follow from the sequence alone. -/
theorem distinct_of_sequence {uses : List Use}
    (h : ∀ (i : Nat) (u : Use), uses[i]? = some u → u.epoch = i / 1000 ∧ u.sn = nonce (i % 1000))
    (i j : Nat) (u v : Use) (hu : uses[i]? = some u) (hv : uses[j]? = some v)
    (hepoch : u.epoch = v.epoch) (hsn : u.sn = v.sn) : i = j := by
  obtain ⟨hue,hun⟩ := h i u hu
  obtain ⟨hve,hvn⟩ := h j v hv
  have hcounter : i % 1000 = j % 1000 :=
    nonce_injective (by omega) (by omega) (hun.symm.trans (hsn.trans hvn))
  omega

private theorem getElem?_snoc_two {α : Type} (xs : List α) (a b : α) (i : Nat) (u : α) :
    (xs ++ [a, b])[i]? = some u ↔
      xs[i]? = some u ∨ (i = xs.length ∧ u = a) ∨ (i = xs.length + 1 ∧ u = b) := by
  rcases Nat.lt_or_ge i xs.length with hlt | hge
  · rw [List.getElem?_append_left hlt]
    constructor
    · exact .inl
    · rintro (h | h | h)
      · exact h
      · omega
      · omega
  · rw [List.getElem?_append_right hge, List.getElem?_eq_none hge]
    rcases hk : i - xs.length with _ | _ | k
    · have hi : i = xs.length := by omega
      simp [hi, eq_comm]
    · have hi : i = xs.length + 1 := by omega
      simp [hi, eq_comm]
    · refine iff_of_false (by simp) ?_
      rintro (h | ⟨h,_⟩ | ⟨h,_⟩)
      · cases h
      · omega
      · omega

theorem WellUsed.nil : WellUsed [] := ⟨nofun,nofun,nofun,nofun⟩

theorem WellUsed.next {uses : List Use} {call : Nat} (h : WellUsed uses)
    (heven : uses.length % 2 = 0) (hfresh : ∀ u ∈ uses, u.call < call) :
    WellUsed (uses ++ nextUses call uses.length) := by
  have hseq : ∀ (i : Nat) (u : Use), (uses ++ nextUses call uses.length)[i]? = some u →
      u.epoch = i / 1000 ∧ u.sn = nonce (i % 1000) := by
    intro i u hu
    rcases (getElem?_snoc_two _ _ _ _ _).mp hu with hu | ⟨rfl,rfl⟩ | ⟨rfl,rfl⟩
    · exact h.sequence i u hu
    · exact ⟨rfl,rfl⟩
    · exact ⟨by change uses.length / 1000 = _; omega,congrArg nonce (by omega)⟩
  refine ⟨hseq,distinct_of_sequence hseq,?_,?_⟩
  · intro i j u v hu hv hcall hpart
    rcases (getElem?_snoc_two _ _ _ _ _).mp hu with hu | ⟨rfl,rfl⟩ | ⟨rfl,rfl⟩ <;>
    rcases (getElem?_snoc_two _ _ _ _ _).mp hv with hv | ⟨rfl,rfl⟩ | ⟨rfl,rfl⟩
    · exact h.once i j u v hu hv hcall hpart
    · have := hfresh u (List.mem_of_getElem? hu)
      simp only at hcall
      omega
    · have := hfresh u (List.mem_of_getElem? hu)
      simp only at hcall
      omega
    · have := hfresh v (List.mem_of_getElem? hv)
      simp only at hcall
      omega
    · rfl
    · cases hpart
    · have := hfresh v (List.mem_of_getElem? hv)
      simp only at hcall
      omega
    · cases hpart
    · rfl
  · intro i u hu hpart
    rcases (getElem?_snoc_two _ _ _ _ _).mp hu with hu | ⟨rfl,rfl⟩ | ⟨rfl,rfl⟩
    · obtain ⟨v,hv,hbody,hcall⟩ := h.paired i u hu hpart
      exact ⟨v,(getElem?_snoc_two _ _ _ _ _).mpr (.inl hv),hbody,hcall⟩
    · exact ⟨_,(getElem?_snoc_two _ _ _ _ _).mpr (.inr (.inr ⟨rfl,rfl⟩)),rfl,rfl⟩
    · cases hpart

end Sequence

section Growth
variable {P : Primitives} {α : Type}

def Extends (o o' : Overlap) : Prop := o.uses <+: o'.uses

instance : Std.Refl Extends := ⟨fun _ => List.prefix_refl _⟩

instance : IsTrans Overlap Extends := ⟨fun _ _ _ => List.IsPrefix.trans⟩

private theorem within_onNode (m : Method NoiseState α) : Within Extends (Overlap.onNode m) :=
  fun _ => List.prefix_refl _

private theorem within_encryptPart (call : Nat) (part : Part) (m : Bytes) :
    Within Extends (Overlap.encryptPart P call part m) :=
  Within.self.bind fun _ => (Within.attempt _).bind fun _ =>
    (Within.assign fun _ => by exact List.prefix_append _ _).bind fun _ => Within.pure _

private theorem within_beginRotation (call : Nat) (after : After) :
    Within Extends (Overlap.beginRotation P call after) :=
  Within.self.bind fun _ => (Within.attempt _).bind fun _ => (Within.attempt _).bind fun _ =>
    Within.assign fun _ => by exact List.prefix_refl _

private theorem within_finish (call : Nat) (result : Bytes) : Within Extends (Overlap.finish call result) :=
  Within.assign fun _ => by exact List.prefix_refl _

private theorem within_encryptBody (call : Nat) (lc m : Bytes) : Within Extends (Overlap.encryptBody P call lc m) :=
  (within_encryptPart _ _ _).bind fun _ => (within_onNode _).bind fun _ =>
    (within_beginRotation _ _).cond (within_finish _ _)

private theorem within_start (m : Bytes) : Within Extends (Overlap.start P m) :=
  Within.self.bind fun _ => (Within.assign fun _ => by exact List.prefix_refl _).bind fun _ =>
    (Within.attempt _).bind fun _ => (within_encryptPart _ _ _).bind fun _ =>
    (within_onNode _).bind fun _ => (within_beginRotation _ _).cond (within_encryptBody _ _ _)

private theorem within_resume (i : Nat) : Within Extends (Overlap.resume P i) := by
  refine Within.self.bind fun o => ?_
  rcases o.suspended[i]? with _ | ⟨call,after,_ | _⟩
  · exact Within.pure _
  · exact (Within.assign fun _ => by exact List.prefix_refl _).bind fun _ =>
      Within.assign fun _ => by exact List.prefix_refl _
  · refine (Within.assign fun _ => by exact List.prefix_refl _).bind fun _ => ?_
    cases after with
    | body lc m => exact within_encryptBody _ _ _
    | finish result => exact within_finish _ _

private theorem uses_foldl (o : Overlap) (acts : List OverlapAction) :
    o.uses <+: (acts.foldl (Overlap.step P) o).uses := by
  induction acts generalizing o with
  | nil => exact List.prefix_refl _
  | cons a acts ih =>
    refine List.IsPrefix.trans ?_ (ih (o.step P a))
    cases a with
    | start m => exact within_start m o
    | resume i => exact within_resume i o

end Growth

section Runs
variable {P : Primitives} {o : Overlap} {C K m : Bytes} {k : Nat}

private theorem run_encryptPart (hk : o.node.sk = some K) (call : Nat) (part : Part) (m : Bytes) :
    (Overlap.encryptPart P call part m).run o =
      (.returned (ccpEncrypt P K o.node.sn [] m),
        { o with uses := o.uses ++ [⟨call, part, o.epoch, o.node.sn⟩] }) := by
  simp only [Overlap.encryptPart, run_bind, run_self, hk, run_attempt_some, run_assign, run_pure]

private theorem run_increment (hn : o.node.sn = nonce k) (hk : k + 1 < 65536) :
    (Overlap.onNode incrementSendingNonce).run o =
      (.returned (k + 1), { o with node := { o.node with sn := nonce (k + 1) } }) := by
  have h := run_incrementSendingNonce hn hk
  change ((incrementSendingNonce.run o.node).1, _) = _
  rw [h]

private theorem run_beginRotation (hc : o.node.ck = some C) (hk : o.node.sk = some K) (call : Nat)
    (after : After) : (Overlap.beginRotation P call after).run o = (.returned (), { o with
      suspended := o.suspended ++ [⟨call, after, .rotating (hkdf P C K) (o.epoch + 1)⟩] }) := by
  simp only [Overlap.beginRotation, run_bind, run_self, hc, hk, run_attempt_some, run_assign]

/-- The state after a whole message at counter k: at the last one of a key the call
is left suspended in its rotation. -/
def afterStart (P : Primitives) (o : Overlap) (C K m : Bytes) (k : Nat) : Overlap :=
  let frame := sealedLength P K k m ++ sealedBody P K k m
  let sent : Overlap := { o with
    node := { o.node with sn := nonce (k + 2) }
    calls := o.calls + 1
    uses := o.uses ++ [⟨o.calls, .length, o.epoch, nonce k⟩, ⟨o.calls, .body, o.epoch, nonce (k + 1)⟩] }
  if 1000 ≤ k + 2 then { sent with
    suspended := o.suspended ++ [⟨o.calls, .finish frame, .rotating (hkdf P C K) (o.epoch + 1)⟩] }
  else { sent with resolved := o.resolved ++ [(o.calls, frame)] }

/-- Either way the counter, the calls and the uses have moved on by one message. -/
theorem afterStart_fields (P : Primitives) (o : Overlap) (C K m : Bytes) (k : Nat) :
    (afterStart P o C K m k).node = { o.node with sn := nonce (k + 2) } ∧
    (afterStart P o C K m k).calls = o.calls + 1 ∧
    (afterStart P o C K m k).uses = o.uses ++
      [⟨o.calls, .length, o.epoch, nonce k⟩, ⟨o.calls, .body, o.epoch, nonce (k + 1)⟩] := by
  rw [afterStart]
  split <;> exact ⟨rfl,rfl,rfl⟩

private theorem mem_afterStart_suspended {s : Suspended} (hs : s ∈ (afterStart P o C K m k).suspended) :
    s ∈ o.suspended ∨ s = ⟨o.calls, .finish (sealedLength P K k m ++ sealedBody P K k m),
      .rotating (hkdf P C K) (o.epoch + 1)⟩ := by
  rw [afterStart] at hs
  split at hs
  case isTrue => exact (List.mem_append.mp hs).imp_right List.mem_singleton.mp
  case isFalse => exact .inl hs

private theorem run_start (hc : o.node.ck = some C) (hk : o.node.sk = some K) (hn : o.node.sn = nonce k)
    (hlast : k + 1 < 1000) (hm : m.length ≤ 65535) :
    (Overlap.start P m).run o = (.returned (), afterStart P o C K m k) := by
  have hfirst := run_encryptPart (P := P) (o := { o with calls := o.calls + 1 }) hk o.calls .length
    (beBytes 2 m.length)
  have hcount := run_increment (o := { o with
    calls := o.calls + 1, uses := o.uses ++ [⟨o.calls, .length, o.epoch, o.node.sn⟩] }) hn (by omega)
  have hsecond := run_encryptPart (P := P) (o := { o with
    node := { o.node with sn := nonce (k + 1) }, calls := o.calls + 1
    uses := o.uses ++ [⟨o.calls, .length, o.epoch, o.node.sn⟩] }) hk o.calls .body m
  have hcount' := run_increment (k := k + 1) (o := { o with
    node := { o.node with sn := nonce (k + 1) }, calls := o.calls + 1
    uses := o.uses ++ [⟨o.calls, .length, o.epoch, o.node.sn⟩] ++
      [⟨o.calls, .body, o.epoch, nonce (k + 1)⟩] }) rfl (by omega)
  simp only [Overlap.start, run_bind, run_self, run_assign, writeLength hm, run_attempt_some, hfirst,
    hcount, if_neg (show ¬ 1000 ≤ k + 1 by omega), Overlap.encryptBody, hsecond, hcount']
  rw [afterStart]
  by_cases hfull : 1000 ≤ k + 2
  · rw [if_pos hfull, if_pos hfull]
    refine (run_beginRotation (by exact hc) (by exact hk) _ _).trans ?_
    simp [hn, sealedLength, sealedBody]
  · rw [if_neg hfull, if_neg hfull]
    simp [Overlap.finish, hn, sealedLength, sealedBody]

private theorem run_start_overflow (hm : 65535 < m.length) :
    (Overlap.start P m).run o = (.threw, { o with calls := o.calls + 1 }) := by
  have hw := writeUIntBE_overflow 2 (zeros 2) 0 (show 256 ^ 2 ≤ m.length by omega)
  simp only [Overlap.start, run_bind, run_self, run_assign, hw, run_attempt_none]

/-- In the rotation window a start uses the exhausted counter at once. -/
theorem uses_start_exhausted (hk : o.node.sk = some K) (hm : m.length ≤ 65535) :
    o.uses ++ [⟨o.calls, .length, o.epoch, o.node.sn⟩] <+: ((Overlap.start P m).run o).2.uses := by
  have hfirst := run_encryptPart (P := P) (o := { o with calls := o.calls + 1 }) hk o.calls .length
    (beBytes 2 m.length)
  have hrest (lc : Bytes) : Within Extends (Overlap.onNode incrementSendingNonce >>= fun newValue =>
      if 1000 ≤ newValue then Overlap.beginRotation P o.calls (.body lc m)
      else Overlap.encryptBody P o.calls lc m) :=
    (within_onNode _).bind fun _ => (within_beginRotation _ _).cond (within_encryptBody _ _ _)
  simp only [Overlap.start, run_bind_returned (run_self o), run_bind_returned (run_assign _ _),
    writeLength hm, run_bind_returned (run_attempt_some _ _), run_bind_returned hfirst]
  exact hrest _ { o with
    calls := o.calls + 1, uses := o.uses ++ [⟨o.calls, .length, o.epoch, o.node.sn⟩] }

end Runs

def Suspended.rotating (s : Suspended) : Bool :=
  match s.await with
  | .rotating _ _ => true
  | .rotated => false

/-- The invariant: every message so far has its two places, every suspended call has
only to return, and either no rotation is under way or exactly one, after a full
thousand of uses. -/
structure Orderly (o : Overlap) : Prop where
  used : WellUsed o.uses
  even : o.uses.length % 2 = 0
  fresh : ∀ u ∈ o.uses, u.call < o.calls
  chain : ∃ C, o.node.ck = some C
  key : ∃ K, o.node.sk = some K
  finishing : ∀ s ∈ o.suspended, ∃ r, s.after = .finish r
  counter :
    (o.suspended.countP Suspended.rotating = 0 ∧ o.epoch = o.uses.length / 1000 ∧
      o.node.sn = nonce (o.uses.length % 1000)) ∨
    (o.suspended.countP Suspended.rotating = 1 ∧ o.uses.length % 1000 = 0 ∧ o.node.sn = nonce 1000 ∧
      ∀ s ∈ o.suspended, ∀ r e, s.await = .rotating r e → e = o.uses.length / 1000)

section Steps
variable {P : Primitives} {o : Overlap} {m : Bytes}

private theorem calm_iff (o : Overlap) : o.Calm ↔ o.suspended.countP Suspended.rotating = 0 := by
  rw [List.countP_eq_zero]
  refine forall₂_congr fun s _ => ?_
  rcases s with ⟨_,_,_ | _⟩ <;> simp [Suspended.rotating]

theorem FreshSender.orderly (h : FreshSender o) : Orderly o where
  used := h.uses ▸ WellUsed.nil
  even := by rw [h.uses]; rfl
  fresh := by simp [h.uses]
  chain := h.chain
  key := h.key
  finishing := by simp [h.suspended]
  counter := .inl (by simp [h.suspended, h.uses, h.epoch, h.counter, nonce_zero])

theorem Orderly.start (h : Orderly o) (hcalm : o.Calm) (hm : m.length ≤ 65535) :
    Orderly (o.step P (.start m)) := by
  obtain ⟨C,hC⟩ := h.chain
  obtain ⟨K,hK⟩ := h.key
  have hcount := (calm_iff o).mp hcalm
  have heven := h.even
  obtain ⟨_,hepoch,hsn⟩ | ⟨hone,_⟩ := h.counter
  swap
  · omega
  have hrun := run_start (P := P) hC hK hsn (by omega) hm
  obtain ⟨hnode,hcalls,hstarted⟩ := afterStart_fields P o C K m (o.uses.length % 1000)
  have huses : (afterStart P o C K m (o.uses.length % 1000)).uses =
      o.uses ++ nextUses o.calls o.uses.length := by rw [hstarted, nextUses, hepoch]
  have hlen : (o.uses ++ nextUses o.calls o.uses.length).length = o.uses.length + 2 := by
    rw [List.length_append]
    rfl
  rw [Overlap.step, hrun]
  refine ⟨huses ▸ h.used.next heven h.fresh,?_,?_,⟨C,hnode ▸ hC⟩,⟨K,hnode ▸ hK⟩,?_,?_⟩
  · rw [huses, hlen]
    omega
  · rw [huses, hcalls]
    intro u hu
    rcases List.mem_append.mp hu with hu | hu
    · exact Nat.lt_succ_of_lt (h.fresh u hu)
    · rw [call_of_mem_nextUses hu]
      exact Nat.lt_succ_self _
  · intro s hs
    rcases mem_afterStart_suspended hs with hs | rfl
    · exact h.finishing s hs
    · exact ⟨_,rfl⟩
  · rw [huses, hlen, hnode]
    by_cases hfull : 1000 ≤ o.uses.length % 1000 + 2
    · refine .inr ⟨?_,by omega,congrArg nonce (by omega),?_⟩
      · rw [afterStart, if_pos hfull]
        simp [hcount, Suspended.rotating]
      · intro s hs r e he
        rcases mem_afterStart_suspended hs with hs | rfl
        · rw [hcalm s hs] at he
          cases he
        · cases he
          omega
    · refine .inl ⟨?_,?_,congrArg nonce (by omega)⟩
      · rw [afterStart, if_neg hfull]
        exact hcount
      · rw [afterStart, if_neg hfull]
        exact hepoch.trans (by omega)

theorem Orderly.start_overflow (h : Orderly o) (hm : 65535 < m.length) :
    Orderly (o.step P (.start m)) := by
  rw [Overlap.step, run_start_overflow hm]
  exact ⟨h.used,h.even,fun u hu => Nat.lt_succ_of_lt (h.fresh u hu),h.chain,h.key,h.finishing,h.counter⟩

theorem Orderly.resume (h : Orderly o) (i : Nat) : Orderly (o.step P (.resume i)) := by
  rw [Overlap.step, Overlap.resume, run_bind_returned (run_self o)]
  rcases hs : o.suspended[i]? with _ | s
  · exact h
  obtain ⟨hi,hget⟩ := List.getElem?_eq_some_iff.mp hs
  have hmem : s ∈ o.suspended := List.mem_of_getElem? hs
  have hcount := (List.getElem_cons_eraseIdx_perm hi).countP_eq Suspended.rotating
  rw [hget] at hcount
  obtain ⟨r,hafter⟩ := h.finishing s hmem
  have herase : ∀ t ∈ o.suspended.eraseIdx i, t ∈ o.suspended := fun t => List.mem_of_mem_eraseIdx
  rcases s with ⟨call,after,⟨result,epoch⟩ | _⟩
  · obtain ⟨hzero,_⟩ | ⟨hone,hfull,_,hepoch⟩ := h.counter
    · simp [List.countP_cons, Suspended.rotating, hzero] at hcount
    have hnow := hepoch _ hmem _ _ rfl
    refine ⟨h.used,h.even,h.fresh,⟨_,rfl⟩,⟨_,rfl⟩,?_,.inl ⟨?_,hnow,?_⟩⟩
    · intro t ht
      rcases List.mem_append.mp ht with ht | ht
      · exact h.finishing t (herase t ht)
      · exact ⟨r,by rw [List.mem_singleton.mp ht]; exact hafter⟩
    · change (o.suspended.eraseIdx i ++ [_]).countP _ = 0
      rw [hone, List.countP_cons] at hcount
      rw [List.countP_append, List.countP_singleton]
      simp only [Suspended.rotating, if_true] at hcount ⊢
      simpa using hcount
    · change zeros 12 = nonce (o.uses.length % 1000)
      rw [hfull, nonce_zero]
  · cases hafter
    refine ⟨h.used,h.even,h.fresh,h.chain,h.key,fun t ht => h.finishing t (herase t ht),?_⟩
    have hsame : (o.suspended.eraseIdx i).countP Suspended.rotating =
        o.suspended.countP Suspended.rotating := by
      rw [← hcount, List.countP_cons]
      simp [Suspended.rotating]
    obtain ⟨hzero,hrest⟩ | ⟨hone,hfull,hsn,hepoch⟩ := h.counter
    · exact .inl ⟨hsame.trans hzero,hrest⟩
    · exact .inr ⟨hsame.trans hone,hfull,hsn,fun t ht => hepoch t (herase t ht)⟩

/-- A start in the rotation window puts nonce 1000 into the sequence for good. -/
theorem Orderly.not_wellUsed (h : Orderly o) (hbusy : ¬ o.Calm) (hm : m.length ≤ 65535)
    (acts : List OverlapAction) : ¬ WellUsed (acts.foldl (Overlap.step P) (o.step P (.start m))).uses := by
  intro hused
  obtain ⟨hzero,_⟩ | ⟨_,hfull,hsn,_⟩ := h.counter
  · exact hbusy ((calm_iff o).mpr hzero)
  obtain ⟨K,hK⟩ := h.key
  obtain ⟨tail,htail⟩ :=
    (uses_start_exhausted (P := P) hK hm).trans (uses_foldl (P := P) (o.step P (.start m)) acts)
  have hplace := hused.sequence o.uses.length ⟨o.calls, .length, o.epoch, o.node.sn⟩ (by
    rw [← htail, List.append_assoc, List.getElem?_append_right (Nat.le_refl _), Nat.sub_self]
    rfl)
  have := nonce_injective (by omega) (by omega) (hsn.symm.trans hplace.2)
  omega

theorem Orderly.wellUsed_iff (h : Orderly o) (acts : List OverlapAction) :
    WellUsed (acts.foldl (Overlap.step P) o).uses ↔ Overlap.StartsCalm P o acts := by
  induction acts generalizing o with
  | nil => exact iff_of_true h.used trivial
  | cons a acts ih =>
    cases a with
    | start m =>
      by_cases hm : m.length ≤ 65535
      · by_cases hcalm : o.Calm
        · exact (ih (h.start hcalm hm)).trans ⟨fun hs => ⟨fun _ => hcalm,hs⟩,And.right⟩
        · exact iff_of_false (h.not_wellUsed hcalm hm acts) fun hs => hcalm (hs.1 hm)
      · exact (ih (h.start_overflow (by omega))).trans ⟨fun hs => ⟨fun hv => absurd hv hm,hs⟩,And.right⟩
    | resume i => exact ih (h.resume i)

/-- After a handshake, a schedule of overlapping calls keeps to the sequence of keys
and nonces exactly when no valid message is started during a rotation. -/
theorem overlapping_sends_iff (h : FreshSender o) (acts : List OverlapAction) :
    WellUsed (acts.foldl (Overlap.step P) o).uses ↔ Overlap.StartsCalm P o acts :=
  h.orderly.wellUsed_iff acts

end Steps

section Refinement
variable {P : Primitives} {o : Overlap} {C K m : Bytes} {k : Nat}

def alone (m : Bytes) (k : Nat) : List OverlapAction :=
  if 1000 ≤ k + 2 then [.start m, .resume 0, .resume 0] else [.start m]

/-- Run alone, the stretches add up to one completed `encryptMessage`. -/
theorem alone_eq_encryptMessage (hc : o.node.ck = some C) (hk : o.node.sk = some K)
    (hn : o.node.sn = nonce k) (hlast : k + 1 < 1000) (hm : m.length ≤ 65535)
    (hidle : o.suspended = []) :
    ∃ frame, (encryptMessage P m).run o.node =
        (.returned frame, ((alone m k).foldl (Overlap.step P) o).node) ∧
      ((alone m k).foldl (Overlap.step P) o).resolved = o.resolved ++ [(o.calls, frame)] := by
  have hstart : o.step P (.start m) = afterStart P o C K m k :=
    congrArg Prod.snd (run_start (P := P) hc hk hn hlast hm)
  refine ⟨sealedLength P K k m ++ sealedBody P K k m,?_⟩
  rw [run_encryptMessage hc hk hn hlast hm, afterSending]
  by_cases hfull : 1000 ≤ k + 2
  · rw [if_neg (by omega), alone, if_pos hfull, List.foldl_cons, hstart, afterStart, if_pos hfull, hidle]
    exact ⟨rfl,rfl⟩
  · rw [if_pos (by omega), alone, if_neg hfull, List.foldl_cons, hstart, afterStart, if_neg hfull]
    exact ⟨rfl,rfl⟩

end Refinement

section Burst
variable {P : Primitives} {o : Overlap} {m : Bytes}

private theorem startsCalm_append (o : Overlap) (front back : List OverlapAction) :
    Overlap.StartsCalm P o (front ++ back) ↔
      Overlap.StartsCalm P o front ∧ Overlap.StartsCalm P (front.foldl (Overlap.step P) o) back := by
  induction front generalizing o with
  | nil => simp [Overlap.StartsCalm]
  | cons a front ih => cases a <;> simp [Overlap.StartsCalm, ih, and_assoc]

/-- A start leaves a rotation under way exactly at the last message of a key. -/
theorem start_uses (h : Orderly o) (hcalm : o.Calm) (hm : m.length ≤ 65535) :
    (o.step P (.start m)).uses.length = o.uses.length + 2 ∧
      ((o.step P (.start m)).Calm ↔ o.uses.length % 1000 ≠ 998) := by
  obtain ⟨C,hC⟩ := h.chain
  obtain ⟨K,hK⟩ := h.key
  have heven := h.even
  have hcount := (calm_iff o).mp hcalm
  obtain ⟨_,_,hsn⟩ | ⟨hone,_⟩ := h.counter
  swap
  · omega
  have hrun := run_start (P := P) hC hK hsn (by omega) hm
  rw [calm_iff, Overlap.step, hrun, afterStart]
  by_cases hfull : 1000 ≤ o.uses.length % 1000 + 2
  · rw [if_pos hfull]
    refine ⟨by simp,iff_of_false ?_ (by omega)⟩
    simp [Suspended.rotating]
  · rw [if_neg hfull]
    exact ⟨by simp,iff_of_true hcount (by omega)⟩

private theorem start_burst (h : FreshSender o) (hm : m.length ≤ 65535) {j : Nat} (hj : j ≤ 499) :
    Orderly ((List.replicate j (.start m)).foldl (Overlap.step P) o) ∧
      ((List.replicate j (.start m)).foldl (Overlap.step P) o).uses.length = 2 * j ∧
      ((List.replicate j (.start m)).foldl (Overlap.step P) o).Calm := by
  induction j with
  | zero => exact ⟨h.orderly,by simp [h.uses],by simp [Overlap.Calm, h.suspended]⟩
  | succ j ih =>
    obtain ⟨horderly,hlen,hcalm⟩ := ih (by omega)
    obtain ⟨hnext,hstill⟩ := start_uses (P := P) horderly hcalm hm
    rw [List.replicate_succ', List.foldl_append]
    exact ⟨horderly.start hcalm hm,hnext.trans (by omega),hstill.mpr (by omega)⟩

/-- The 501st start finds the rotation of the 500th under way. -/
theorem burst_not_calm (h : FreshSender o) (hm : m.length ≤ 65535) :
    ¬ Overlap.StartsCalm P o (List.replicate 501 (.start m)) := by
  obtain ⟨horderly,hlen,hcalm⟩ := start_burst (P := P) h hm (j := 499) (by omega)
  rw [show 501 = 499 + 2 from rfl, List.replicate_add, startsCalm_append]
  rintro ⟨_,_,hlast,_⟩
  exact (start_uses (P := P) horderly hcalm hm).2.mp (hlast hm) (by omega)

def freshSender : Overlap where
  node := { (NoiseState.construct ⟨[], [], []⟩ ⟨[], [], []⟩ ⟨[], [], []⟩) with
    ck := some (List.replicate 32 1), sk := some (List.replicate 32 2) }
  epoch := 0
  calls := 0
  suspended := []
  uses := []
  resolved := []

private theorem freshSender_fresh : FreshSender freshSender :=
  ⟨⟨_,rfl⟩,⟨_,rfl⟩,rfl,rfl,rfl,rfl,rfl⟩

/-- Two messages and a resumption of nothing keep to the sequence. -/
theorem overlapping_sends_two :
    WellUsed ([.start [7], .start [8, 9], .resume 0].foldl
      (Overlap.step transparent) freshSender).uses :=
  (overlapping_sends_iff freshSender_fresh _).mpr ⟨fun _ => nofun,fun _ => nofun,trivial⟩

/-- Five hundred and one empty messages sent without awaiting any of them. -/
theorem overlapping_sends_burst :
    FreshSender freshSender ∧
      ¬ WellUsed ((List.replicate 501 (.start [])).foldl
        (Overlap.step transparent) freshSender).uses :=
  ⟨freshSender_fresh,fun h => burst_not_calm freshSender_fresh (by simp)
    ((freshSender_fresh.orderly.wellUsed_iff _).mp h)⟩

end Burst
end CryptoPlaypen.Lightning
