import Mathlib.Data.List.Basic
import Mathlib.Algebra.Ring.Nat

/-! Writers that fill a pre-sized buffer from the left, with a record of the range
of every write. `Writes` is the rule of a writer that has room: it stores its
output at the cursor, moves past it, and its writes tile the cells between. -/
namespace CryptoPlaypen.Buffer

structure Cursor (τ : Type) where
  buffer : List τ
  position : Nat
  extents : List (Nat × Nat)
  deriving DecidableEq, Repr

abbrev CellWriter (τ : Type) := StateT (Cursor τ) Option

/-- The ranges follow one another from `start` to `stop` without gap or overlap. -/
def Tiles : Nat → List (Nat × Nat) → Nat → Prop
  | start, [], stop => start = stop
  | start, (first, last) :: rest, stop => first = start ∧ first ≤ last ∧ Tiles last rest stop

/-- With enough room left, the writer stores exactly `out` at the cursor and
leaves everything before and after it alone. -/
def Writes {τ : Type} (w : CellWriter τ Unit) (out : List τ) : Prop :=
  ∀ (front back : List τ) (marks : List (Nat × Nat)), out.length ≤ back.length →
    ∃ new, Tiles front.length new (front ++ out).length ∧
      w.run ⟨front ++ back, front.length, marks⟩ =
        some ((), ⟨front ++ out ++ back.drop out.length, (front ++ out).length, marks ++ new⟩)

/-- The same for writes that name their own offsets, the first of them `start`. -/
def WritesAt {τ : Type} (start : Nat) (w : CellWriter τ Unit) (out : List τ) : Prop :=
  ∀ (front back : List τ) (position : Nat) (marks : List (Nat × Nat)),
    front.length = start → out.length ≤ back.length →
    ∃ new, Tiles start new (start + out.length) ∧
      w.run ⟨front ++ back, position, marks⟩ =
        some ((), ⟨front ++ out ++ back.drop out.length, position, marks ++ new⟩)

/-- The writer stores `n` cells, whatever they are. -/
def Stores {τ : Type} (w : CellWriter τ Unit) (n : Nat) : Prop := ∃ out, Writes w out ∧ out.length = n

/-- The writer succeeds only where `p` holds. -/
def Demands {τ : Type} (w : CellWriter τ Unit) (p : Prop) : Prop := ∀ c r, w.run c = some r → p

namespace CellWriter
variable {τ : Type}

/-- A write of `len` cells at `offset` that leaves the cursor where it is. -/
def storeAt (offset len : Nat) (f : List τ → Nat → Option (List τ)) : CellWriter τ Unit := fun c =>
  (f c.buffer offset).map fun b =>
    ((), { c with buffer := b, extents := c.extents ++ [(offset, offset + len)] })

/-- A write of `len` cells at the cursor, which moves past them. -/
def store (len : Nat) (f : List τ → Nat → Option (List τ)) : CellWriter τ Unit := fun c =>
  (f c.buffer c.position).map fun b =>
    ((), ⟨b, c.position + len, c.extents ++ [(c.position, c.position + len)]⟩)

/-- An exception later in a sequence of writes is an exception of the sequence. -/
theorem bind_failure {w : CellWriter τ Unit} : (w >>= fun _ => (failure : CellWriter τ Unit)) = failure := by
  funext c
  change (w.run c).bind (fun _ => none) = none
  exact Option.bind_fun_none _

end CellWriter

section Ranges

theorem Tiles.append {a b c : Nat} {xs ys : List (Nat × Nat)} (hx : Tiles a xs b)
    (hy : Tiles b ys c) : Tiles a (xs ++ ys) c := by
  induction xs generalizing a with
  | nil => exact hx ▸ hy
  | cons r xs ih => exact ⟨hx.1,hx.2.1,ih hx.2.2⟩

theorem Tiles.le {a b : Nat} {xs : List (Nat × Nat)} (h : Tiles a xs b) : a ≤ b := by
  induction xs generalizing a with
  | nil => exact Nat.le_of_eq h
  | cons r xs ih =>
    have hr := ih h.2.2
    have := h.1
    have := h.2.1
    omega

/-- No range of a tiling reaches past its end. -/
theorem Tiles.last_le {a b : Nat} {xs : List (Nat × Nat)} (h : Tiles a xs b) :
    ∀ r ∈ xs, r.2 ≤ b := by
  induction xs generalizing a with
  | nil => simp
  | cons r xs ih =>
    intro q hq
    rcases List.mem_cons.mp hq with rfl | hmem
    · exact h.2.2.le
    · exact ih h.2.2 q hmem

end Ranges

section Rules
variable {τ : Type}

theorem Writes.skip : Writes (pure () : CellWriter τ Unit) [] := by
  intro front back marks _
  exact ⟨[],by simp [Tiles],by simp⟩

theorem Writes.seq {v w : CellWriter τ Unit} {xs ys : List τ} (hv : Writes v xs) (hw : Writes w ys) :
    Writes (do v; w) (xs ++ ys) := by
  intro front back marks hroom
  rw [List.length_append] at hroom
  obtain ⟨first,hfirst,hrun⟩ := hv front back marks (by omega)
  obtain ⟨second,hsecond,hrun'⟩ :=
    hw (front ++ xs) (back.drop xs.length) (marks ++ first) (by simp; omega)
  refine ⟨first ++ second,?_,?_⟩
  · rw [← List.append_assoc]
    exact hfirst.append hsecond
  · rw [StateT.run_bind, hrun]
    simpa [List.append_assoc, List.drop_drop, Nat.add_assoc] using hrun'

theorem Writes.congr {w : CellWriter τ Unit} {xs ys : List τ} (hw : Writes w xs) (h : xs = ys) :
    Writes w ys := h ▸ hw

theorem Writes.loop {γ : Type} (items : List γ) (body : γ → CellWriter τ Unit) (out : γ → List τ)
    (hbody : ∀ c ∈ items, Writes (body c) (out c)) :
    Writes (items.forM body) (items.flatMap out) := by
  induction items with
  | nil => exact Writes.skip
  | cons c items ih =>
    have htail := ih fun d hd => hbody d (List.mem_cons_of_mem _ hd)
    exact (hbody c List.mem_cons_self).seq htail

/-- One write at the cursor, from what it does to a buffer with room. -/
theorem Writes.store {f : List τ → Nat → Option (List τ)} (out : List τ)
    (hf : ∀ front back : List τ, out.length ≤ back.length →
      f (front ++ back) front.length = some (front ++ out ++ back.drop out.length)) :
    Writes (CellWriter.store out.length f) out := by
  intro front back marks hroom
  refine ⟨[(front.length, front.length + out.length)],by simp [Tiles],?_⟩
  have hcell := hf front back hroom
  change Option.map _ (f (front ++ back) front.length) = _
  rw [hcell, List.length_append]
  rfl

/-- A writer whose output is as long as the buffer fills it, and stops at its end. -/
theorem Writes.fill {w : CellWriter τ Unit} {out : List τ} (hw : Writes w out) {buffer : List τ}
    (hsize : buffer.length = out.length) :
    ∃ extents, Tiles 0 extents out.length ∧
      w.run ⟨buffer, 0, []⟩ = some ((), ⟨out, out.length, extents⟩) := by
  obtain ⟨extents,htiles,hrun⟩ := hw [] buffer [] (by omega)
  refine ⟨extents,by simpa using htiles,?_⟩
  simpa [hsize, List.drop_of_length_le (Nat.le_of_eq hsize)] using hrun

theorem Writes.stores {w : CellWriter τ Unit} {out : List τ} (hw : Writes w out) :
    Stores w out.length := ⟨out,hw,rfl⟩

theorem Stores.congr {w : CellWriter τ Unit} {m n : Nat} (hw : Stores w m) (h : m = n) : Stores w n :=
  h ▸ hw

theorem Stores.seq {v w : CellWriter τ Unit} {m n : Nat} (hv : Stores v m) (hw : Stores w n) :
    Stores (do v; w) (m + n) := by
  obtain ⟨xs,hxs,rfl⟩ := hv
  obtain ⟨ys,hys,rfl⟩ := hw
  exact ⟨xs ++ ys,hxs.seq hys,List.length_append⟩

theorem Stores.loop {γ : Type} (items : List γ) (body : γ → CellWriter τ Unit) (size : γ → Nat)
    (hbody : ∀ c ∈ items, Stores (body c) (size c)) :
    Stores (items.forM body) (items.map size).sum := by
  induction items with
  | nil => exact Writes.skip.stores
  | cons c items ih =>
    have htail := ih fun d hd => hbody d (List.mem_cons_of_mem _ hd)
    exact (hbody c List.mem_cons_self).seq htail

/-- A buffer of just that many cells is filled, and the cursor stops at its end. -/
theorem Stores.fill {w : CellWriter τ Unit} {n : Nat} (hw : Stores w n) {buffer : List τ}
    (hsize : buffer.length = n) :
    ∃ c, w.run ⟨buffer, 0, []⟩ = some ((), c) ∧ c.buffer.length = n ∧ c.position = n := by
  obtain ⟨out,hout,rfl⟩ := hw
  obtain ⟨extents,_,hrun⟩ := hout.fill hsize
  exact ⟨_,hrun,rfl,rfl⟩

theorem Demands.first {v w : CellWriter τ Unit} {p : Prop} (hv : Demands v p) :
    Demands (do v; w) p := by
  intro c r h
  rw [StateT.run_bind] at h
  obtain ⟨s,hs,_⟩ := Option.bind_eq_some_iff.mp h
  exact hv c s hs

theorem Demands.second {v w : CellWriter τ Unit} {p : Prop} (hw : Demands w p) :
    Demands (do v; w) p := by
  intro c r h
  rw [StateT.run_bind] at h
  obtain ⟨s,_,hr⟩ := Option.bind_eq_some_iff.mp h
  exact hw s.2 r hr

theorem Demands.loop {γ : Type} (items : List γ) (body : γ → CellWriter τ Unit) (p : γ → Prop)
    (hbody : ∀ c, Demands (body c) (p c)) : Demands (items.forM body) (∀ c ∈ items, p c) := by
  induction items with
  | nil => exact fun _ _ _ => by simp
  | cons c items ih =>
    intro s r h
    have hfirst := (hbody c).first s r h
    have hrest := ih.second s r h
    exact List.forall_mem_cons.mpr ⟨hfirst,hrest⟩

theorem WritesAt.skip (start : Nat) : WritesAt start (pure () : CellWriter τ Unit) [] := by
  intro front back position marks _ _
  exact ⟨[],rfl,by simp⟩

theorem WritesAt.seq {start : Nat} {v w : CellWriter τ Unit} {xs ys : List τ}
    (hv : WritesAt start v xs) (hw : WritesAt (start + xs.length) w ys) :
    WritesAt start (do v; w) (xs ++ ys) := by
  intro front back position marks hstart hroom
  rw [List.length_append] at hroom
  obtain ⟨first,hfirst,hrun⟩ := hv front back position marks hstart (by omega)
  obtain ⟨second,hsecond,hrun'⟩ := hw (front ++ xs) (back.drop xs.length) position
    (marks ++ first) (by simp [hstart]) (by simp; omega)
  refine ⟨first ++ second,?_,?_⟩
  · rw [List.length_append, ← Nat.add_assoc]
    exact hfirst.append hsecond
  · rw [StateT.run_bind, hrun]
    simpa [List.append_assoc, List.drop_drop] using hrun'

theorem WritesAt.storeAt {f : List τ → Nat → Option (List τ)} (out : List τ) (start : Nat)
    (hf : ∀ front back : List τ, out.length ≤ back.length →
      f (front ++ back) front.length = some (front ++ out ++ back.drop out.length)) :
    WritesAt start (CellWriter.storeAt start out.length f) out := by
  intro front back position marks hstart hroom
  refine ⟨[(start, start + out.length)],by simp [Tiles],?_⟩
  have hcell := hf front back hroom
  rw [hstart] at hcell
  change Option.map _ (f (front ++ back) start) = _
  rw [hcell]
  rfl

/-- A loop over the items with their indexes, one cell an item. -/
theorem WritesAt.loop {γ : Type} (items : List γ) (body : γ → Nat → CellWriter τ Unit) (out : γ → τ)
    (start k : Nat) (hbody : ∀ c i, WritesAt (start + i) (body c i) [out c]) :
    WritesAt (start + k) ((items.zipIdx k).forM fun p => body p.1 p.2) (items.map out) := by
  induction items generalizing k with
  | nil => exact WritesAt.skip _
  | cons c items ih => exact (hbody c k).seq (ih (k + 1))

/-- Offset writes whose output is as long as the buffer fill it. -/
theorem WritesAt.fill {w : CellWriter τ Unit} {out : List τ} (hw : WritesAt 0 w out) {buffer : List τ}
    (hsize : buffer.length = out.length) :
    ∃ extents, Tiles 0 extents out.length ∧
      w.run ⟨buffer, 0, []⟩ = some ((), ⟨out, 0, extents⟩) := by
  obtain ⟨extents,htiles,hrun⟩ := hw [] buffer 0 [] rfl (by omega)
  refine ⟨extents,by simpa using htiles,?_⟩
  simpa [hsize, List.drop_of_length_le (Nat.le_of_eq hsize)] using hrun

end Rules
end CryptoPlaypen.Buffer
