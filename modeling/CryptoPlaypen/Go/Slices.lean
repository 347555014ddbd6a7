import CryptoPlaypen.Buffer.ByteEncoding
import CryptoPlaypen.Buffer.SequentialReads

/-! Byte slices as views of backing arrays, with an offset, a length and a capacity.
A slice can be extended up to its capacity, and `append` writes there if it can. -/
namespace CryptoPlaypen.Go
open Buffer

/-- All arrays, each at its own addresses. From `next` on nothing is allocated. -/
structure Memory where
  byte : Nat → UInt8
  next : Nat

structure Slice where
  off : Nat
  len : Nat
  cap : Nat
  len_le : len ≤ cap
  deriving DecidableEq, Repr

/-- A computation on memory, where `none` is a run-time panic. -/
abbrev Exec := StateT Memory Option

def orPanic {α : Type} (o : Option α) : Exec α := fun σ => o.map fun a => (a, σ)

namespace Memory

def window (σ : Memory) (off len : Nat) : Bytes := (List.range len).map fun i => σ.byte (off + i)

def overwrite (σ : Memory) (off : Nat) (bs : Bytes) : Memory where
  byte a := if off ≤ a ∧ a < off + bs.length then bs.getD (a - off) 0 else σ.byte a
  next := σ.next

end Memory

def Memory.Kept (σ τ : Memory) : Prop := ∀ a < σ.next, τ.byte a = σ.byte a

namespace Slice

/-- The array behind `s`, as far as its capacity goes, is allocated. -/
def Allocated (s : Slice) (σ : Memory) : Prop := s.off + s.cap ≤ σ.next

instance (s : Slice) (σ : Memory) : Decidable (s.Allocated σ) :=
  inferInstanceAs (Decidable (s.off + s.cap ≤ σ.next))

def content (s : Slice) (σ : Memory) : Bytes := σ.window s.off s.len

/-- No byte of `s` lies in what the array behind `p` has beyond the length of `p`. -/
def ClearOf (s p : Slice) : Prop := s.off + s.len ≤ p.off + p.len ∨ p.off + p.cap ≤ s.off

def read (s : Slice) : Exec Bytes := fun σ => some (s.content σ, σ)

/-- `make([]byte, 0)` -/
def empty : Exec Slice := fun σ => some (⟨σ.next,0,0,Nat.le_refl 0⟩, σ)

/-- `s[i]` -/
def get (s : Slice) (i : Nat) : Exec UInt8 := fun σ =>
  if i < s.len then some (σ.byte (s.off + i), σ) else none

/-- `s[i] = b` -/
def store (s : Slice) (i : Nat) (b : UInt8) : Exec Unit := fun σ =>
  if i < s.len then some ((), σ.overwrite (s.off + i) [b]) else none

/-- `s[lo:hi]`, where `hi` may lie beyond the length. -/
def reslice (s : Slice) (lo hi : Nat) : Exec Slice := fun σ =>
  if h : lo ≤ hi ∧ hi ≤ s.cap then
    some (⟨s.off + lo, hi - lo, s.cap - lo, Nat.sub_le_sub_right h.2 lo⟩, σ)
  else none

/-- `s[lo:]` -/
def tail (s : Slice) (lo : Nat) : Exec Slice := s.reslice lo s.len

/-- `binary.BigEndian.Uint64(s)` -/
def uint64 (s : Slice) : Exec Nat := fun σ =>
  if 8 ≤ s.len then some (beValue (σ.window s.off 8), σ) else none

/-- `binary.BigEndian.PutUint64(s, v)` -/
def putUint64 (s : Slice) (v : Nat) : Exec Unit := fun σ =>
  if 8 ≤ s.len then some ((), σ.overwrite s.off (beBytes 8 v)) else none

/-- `append(s, bs...)`; `spare` is what a new array has room for beyond its contents. -/
def append (spare : Nat → Nat → Nat) (s : Slice) (bs : Bytes) : Exec Slice := fun σ =>
  let len := s.len + bs.length
  if h : len ≤ s.cap then some (⟨s.off, len, s.cap, h⟩, σ.overwrite (s.off + s.len) bs)
  else
    let array := s.content σ ++ bs ++ zeros (spare s.cap len)
    some (⟨σ.next, len, len + spare s.cap len, Nat.le_add_right _ _⟩,
      { σ.overwrite σ.next array with next := σ.next + array.length })

end Slice

/-- What is spare in a small array: it is made twice as large as it was, and takes eight bytes or a
multiple of sixteen. -/
def smallSpare (cap len : Nat) : Nat :=
  let room := max (2 * cap) len
  (if room ≤ 8 then 8 else (room + 15) / 16 * 16) - len

section Windows
variable {σ τ : Memory}

@[simp] theorem window_length (off len : Nat) : (σ.window off len).length = len := by
  simp [Memory.window]

theorem window_getD (off : Nat) {len i : Nat} (hi : i < len) :
    (σ.window off len).getD i 0 = σ.byte (off + i) := by
  simp only [Memory.window, List.getD_eq_getElem?_getD, List.getElem?_map, List.getElem?_range hi,
    Option.map_some, Option.getD_some]

theorem window_add (off len len' : Nat) :
    σ.window off (len + len') = σ.window off len ++ σ.window (off + len) len' := by
  simp [Memory.window, List.range_add, Nat.add_assoc]

theorem window_take {off len k : Nat} (h : k ≤ len) : (σ.window off len).take k = σ.window off k := by
  obtain ⟨rest,rfl⟩ := Nat.exists_eq_add_of_le h
  rw [window_add, List.take_left' (window_length off k)]

theorem window_drop {off len k : Nat} (h : k ≤ len) :
    (σ.window off len).drop k = σ.window (off + k) (len - k) := by
  obtain ⟨rest,rfl⟩ := Nat.exists_eq_add_of_le h
  rw [window_add, List.drop_left' (window_length off k), Nat.add_sub_cancel_left]

theorem window_congr {off len : Nat} (h : ∀ i < len, σ.byte (off + i) = τ.byte (off + i)) :
    σ.window off len = τ.window off len := by
  apply List.map_congr_left
  intro i hi
  exact h i (List.mem_range.mp hi)

theorem overwrite_outside {off : Nat} {bs : Bytes} {a : Nat} (h : a < off ∨ off + bs.length ≤ a) :
    (σ.overwrite off bs).byte a = σ.byte a := if_neg (by omega)

theorem window_overwrite (off : Nat) (bs : Bytes) : (σ.overwrite off bs).window off bs.length = bs := by
  apply List.ext_getElem
  · simp
  · intro i hi hi'
    simp [Memory.window, Memory.overwrite, hi']

/-- What has been written elsewhere is not seen. -/
theorem window_overwrite_disjoint {off off' len : Nat} {bs : Bytes}
    (h : off' + len ≤ off ∨ off + bs.length ≤ off') :
    (σ.overwrite off bs).window off' len = σ.window off' len := by
  apply window_congr
  intro i hi
  exact overwrite_outside (by omega)

@[simp] theorem overwrite_nil (off : Nat) : σ.overwrite off [] = σ := by
  have hbyte : (σ.overwrite off []).byte = σ.byte := by
    funext a
    exact overwrite_outside (by simp; omega)
  change Memory.mk (σ.overwrite off []).byte σ.next = σ
  rw [hbyte]

/-- Writing what is there already. -/
theorem overwrite_same {off : Nat} {bs : Bytes} (h : σ.window off bs.length = bs) :
    σ.overwrite off bs = σ := by
  have hbyte : (σ.overwrite off bs).byte = σ.byte := by
    funext a
    by_cases ha : off ≤ a ∧ a < off + bs.length
    · have hget := window_getD (σ := σ) off (show a - off < bs.length by omega)
      rw [h, Nat.add_sub_cancel' ha.1] at hget
      exact (if_pos ha).trans hget
    · exact if_neg ha
  exact congrArg (fun byte => Memory.mk byte σ.next) hbyte

theorem Memory.Kept.trans {ρ : Memory} (h : σ.Kept ρ) (h' : ρ.Kept τ) (hnext : σ.next ≤ ρ.next) :
    σ.Kept τ := by
  intro a ha
  rw [h' a (Nat.lt_of_lt_of_le ha hnext), h a ha]

/-- Kept bytes make a kept window. -/
theorem Memory.Kept.window_eq (h : σ.Kept τ) {off len : Nat} (hlen : off + len ≤ σ.next) :
    τ.window off len = σ.window off len := by
  apply window_congr
  intro i hi
  exact h _ (by omega)

/-- A write that is kept has written what was there. -/
theorem Memory.Kept.overwrite_eq {off : Nat} {bs : Bytes} (h : σ.Kept (τ.overwrite off bs))
    (hlen : off + bs.length ≤ σ.next) : σ.window off bs.length = bs := by
  rw [← h.window_eq hlen, window_overwrite]

theorem kept_overwrite_iff (off : Nat) (bs : Bytes) (hlen : off + bs.length ≤ σ.next) :
    σ.Kept (σ.overwrite off bs) ↔ σ.window off bs.length = bs := by
  refine ⟨fun h => h.overwrite_eq hlen,fun h => ?_⟩
  rw [overwrite_same h]
  exact fun _ _ => rfl

/-- A write in two parts. -/
theorem overwrite_append (off : Nat) (bs cs : Bytes) :
    (σ.overwrite (off + bs.length) cs).overwrite off bs = σ.overwrite off (bs ++ cs) := by
  have hbyte : ((σ.overwrite (off + bs.length) cs).overwrite off bs).byte =
      (σ.overwrite off (bs ++ cs)).byte := by
    funext a
    simp only [Memory.overwrite, List.length_append, List.getD_eq_getElem?_getD, List.getElem?_append]
    by_cases hfirst : off ≤ a ∧ a < off + bs.length
    · rw [if_pos hfirst, if_pos (by omega), if_pos (by omega)]
    · rw [if_neg hfirst]
      by_cases hsecond : off + bs.length ≤ a ∧ a < off + bs.length + cs.length
      · rw [if_pos hsecond, if_pos (by omega), if_neg (by omega), Nat.sub_sub]
      · rw [if_neg hsecond, if_neg (by omega)]
  exact congrArg (fun byte => Memory.mk byte σ.next) hbyte

end Windows

section Runs
variable {α β : Type} {σ τ : Memory} {s : Slice}

theorem run_then {x : Exec α} {a : α} (h : x.run σ = some (a, τ)) (f : α → Exec β) :
    (x >>= f).run σ = (f a).run τ := by
  rw [StateT.run_bind, h]
  rfl

theorem run_panic {x : Exec α} (h : x.run σ = none) (f : α → Exec β) : (x >>= f).run σ = none := by
  rw [StateT.run_bind, h]
  rfl

/-- Of a loop that ends every round has ended. -/
theorem foldlM_range'_some {f : β → Nat → Exec β} {P : Nat → Prop}
    (hround : ∀ i b σ r, (f b i).run σ = some r → P i) {i n : Nat} {b : β} {r : β × Memory}
    (h : ((List.range' i n).foldlM f b).run σ = some r) : ∀ j, i ≤ j → j < i + n → P j := by
  induction n generalizing i b σ with
  | zero => omega
  | succ n ih =>
    rw [List.range'_succ, List.foldlM_cons] at h
    obtain ⟨next,ρ,hfirst,hrest⟩ := run_bind_some.mp h
    intro j hj hlt
    rcases Nat.eq_or_lt_of_le hj with rfl | hlater
    · exact hround i b σ _ hfirst
    · exact ih hrest j hlater (by omega)

/-- What holds after `i` rounds holds after the last. -/
theorem foldlM_range'_invariant {f : β → Nat → Exec β} {I : Nat → Memory → Prop}
    (hround : ∀ i b ρ r, I i ρ → (f b i).run ρ = some r → I (i + 1) r.2) {i n : Nat} {b : β}
    {r : β × Memory} (hstart : I i σ) (h : ((List.range' i n).foldlM f b).run σ = some r) :
    I (i + n) r.2 := by
  induction n generalizing i b σ with
  | zero =>
    cases Option.some.inj h
    exact hstart
  | succ n ih =>
    rw [List.range'_succ, List.foldlM_cons] at h
    obtain ⟨next,ρ,hfirst,hrest⟩ := run_bind_some.mp h
    have hlast := ih (hround i b σ _ hstart hfirst) hrest
    rwa [Nat.add_right_comm, Nat.add_assoc] at hlast

/-- A loop whose rounds end, each with the value that belongs to it. -/
theorem mapM_run {f : β → Exec α} {g : β → α} {I : Memory → Prop} {xs : List β}
    (hround : ∀ x ∈ xs, ∀ ρ, I ρ → ∃ τ, (f x).run ρ = some (g x,τ) ∧ I τ) (hstart : I σ) :
    ∃ τ, (xs.mapM f).run σ = some (xs.map g,τ) ∧ I τ := by
  induction xs generalizing σ with
  | nil => exact ⟨σ,rfl,hstart⟩
  | cons x xs ih =>
    obtain ⟨ρ,hfirst,hρ⟩ := hround x List.mem_cons_self σ hstart
    obtain ⟨τ,hrest,hτ⟩ := ih (fun y hy => hround y (List.mem_cons_of_mem x hy)) hρ
    refine ⟨τ,?_,hτ⟩
    rw [List.mapM_cons, run_then hfirst, run_then hrest]
    rfl

/-- What each round that ends keeps of its index. -/
theorem mapM_index {f : β → Exec α} (index : α → β) (hround : ∀ x σ r, (f x).run σ = some r → index r.1 = x)
    {xs : List β} {r : List α × Memory} (h : (xs.mapM f).run σ = some r) : r.1.map index = xs := by
  induction xs generalizing σ r with
  | nil =>
    cases Option.some.inj h
    rfl
  | cons x xs ih =>
    rw [List.mapM_cons] at h
    obtain ⟨a,ρ,hfirst,h⟩ := run_bind_some.mp h
    obtain ⟨as,τ,hrest,h⟩ := run_bind_some.mp h
    have hvalue : a :: as = r.1 := congrArg Prod.fst (Option.some.inj h)
    rw [← hvalue]
    exact congrArg₂ List.cons (hround x σ _ hfirst) (ih hrest)

/-- No run that ends has changed memory. -/
def Quiet (x : Exec α) : Prop := ∀ σ r, x.run σ = some r → r.2 = σ

theorem Quiet.pure (a : α) : Quiet (pure a : Exec α) := by
  intro σ r h
  rw [← Option.some.inj h]

theorem Quiet.orPanic (o : Option α) : Quiet (orPanic o) := by
  intro σ r h
  obtain ⟨a,_,rfl⟩ := Option.map_eq_some_iff.mp h
  rfl

theorem Quiet.read (s : Slice) : Quiet s.read := by
  intro σ r h
  rw [← Option.some.inj h]

theorem Quiet.reslice (s : Slice) (lo hi : Nat) : Quiet (s.reslice lo hi) := by
  intro σ r h
  by_cases hbounds : lo ≤ hi ∧ hi ≤ s.cap
  · rw [← Option.some.inj ((dif_pos hbounds).symm.trans h)]
  · cases (dif_neg hbounds).symm.trans h

theorem Quiet.tail (s : Slice) (lo : Nat) : Quiet (s.tail lo) := Quiet.reslice s lo s.len

theorem Quiet.bind {x : Exec α} {f : α → Exec β} (hx : Quiet x) (hf : ∀ a, Quiet (f a)) :
    Quiet (x >>= f) := by
  intro σ r h
  obtain ⟨a,τ,hfirst,hrest⟩ := run_bind_some.mp h
  rw [hf a τ r hrest]
  exact hx σ _ hfirst

theorem Quiet.cond {p : Prop} [Decidable p] {x y : Exec α} (hx : Quiet x) (hy : Quiet y) :
    Quiet (if p then x else y) := by
  split
  · exact hx
  · exact hy

theorem Quiet.foldlM {f : β → Nat → Exec β} (hf : ∀ b i, Quiet (f b i)) (i n : Nat) (b : β) :
    Quiet ((List.range' i n).foldlM f b) := by
  intro σ r h
  exact foldlM_range'_invariant (I := fun _ ρ => ρ = σ)
    (fun i b ρ r hρ hround => (hf b i ρ r hround).trans hρ) rfl h

theorem eq_some_of_orPanic {o : Option α} {r : α × Memory} (h : (orPanic o).run σ = some r) :
    o = some r.1 := by
  obtain ⟨a,ha,rfl⟩ := Option.map_eq_some_iff.mp h
  exact ha

@[simp] theorem run_orPanic_some (a : α) : (orPanic (some a)).run σ = some (a, σ) := rfl

@[simp] theorem Slice.run_read : s.read.run σ = some (s.content σ, σ) := rfl

@[simp] theorem Slice.content_length : (s.content σ).length = s.len := window_length _ _

theorem Slice.run_get {i : Nat} (hi : i < s.len) : (s.get i).run σ = some (σ.byte (s.off + i), σ) :=
  if_pos hi

theorem Slice.byte_of_content (h : s.content τ = s.content σ) {i : Nat} (hi : i < s.len) :
    τ.byte (s.off + i) = σ.byte (s.off + i) := by
  rw [← window_getD s.off hi, ← window_getD s.off hi]
  exact congrArg (fun bs => bs.getD i 0) h

theorem Slice.run_store {i : Nat} (hi : i < s.len) (b : UInt8) :
    (s.store i b).run σ = some ((), σ.overwrite (s.off + i) [b]) := if_pos hi

theorem Slice.run_reslice {lo hi : Nat} (h : lo ≤ hi ∧ hi ≤ s.cap) : (s.reslice lo hi).run σ =
    some (⟨s.off + lo, hi - lo, s.cap - lo, Nat.sub_le_sub_right h.2 lo⟩, σ) := dif_pos h

theorem Slice.run_tail {lo : Nat} (h : lo ≤ s.len) : (s.tail lo).run σ =
    some (⟨s.off + lo, s.len - lo, s.cap - lo, Nat.sub_le_sub_right s.len_le lo⟩, σ) :=
  Slice.run_reslice ⟨h,s.len_le⟩

theorem Slice.length_of_read {r : Bytes × Memory} (h : s.read.run σ = some r) : r.1.length = s.len := by
  rw [← Option.some.inj h, Slice.content_length]

/-- A part that is cut lies in the bounds. -/
theorem Slice.bounds_of_reslice {lo hi : Nat} {r : Slice × Memory}
    (h : (s.reslice lo hi).run σ = some r) : lo ≤ hi ∧ hi ≤ s.cap := by
  by_contra hbounds
  cases (dif_neg hbounds).symm.trans h

theorem Slice.len_of_reslice {lo hi : Nat} {r : Slice × Memory} (h : (s.reslice lo hi).run σ = some r) :
    r.1.len = hi - lo := by
  rw [Slice.run_reslice (Slice.bounds_of_reslice h)] at h
  rw [← Option.some.inj h]

theorem Slice.allocated_of_reslice {lo hi : Nat} {r : Slice × Memory} (hs : s.Allocated σ)
    (h : (s.reslice lo hi).run σ = some r) : r.1.Allocated σ := by
  have hbounds := Slice.bounds_of_reslice h
  rw [Slice.run_reslice hbounds] at h
  rw [← Option.some.inj h]
  rw [Slice.Allocated] at hs ⊢
  dsimp only
  omega

theorem Slice.run_uint64 (h : 8 ≤ s.len) : s.uint64.run σ = some (beValue (σ.window s.off 8), σ) :=
  if_pos h

theorem Slice.run_putUint64 (h : 8 ≤ s.len) (v : Nat) :
    (s.putUint64 v).run σ = some ((), σ.overwrite s.off (beBytes 8 v)) := if_pos h

theorem Slice.run_append_room (spare : Nat → Nat → Nat) (bs : Bytes) (h : s.len + bs.length ≤ s.cap) :
    (s.append spare bs).run σ =
      some (⟨s.off,s.len + bs.length,s.cap,h⟩,σ.overwrite (s.off + s.len) bs) := dif_pos h

/-- Without room for them, the bytes go to a new array. -/
theorem Slice.run_append_fresh (spare : Nat → Nat → Nat) (bs : Bytes) (h : s.cap < s.len + bs.length) :
    ∃ t τ, (s.append spare bs).run σ = some (t,τ) ∧ σ.Kept τ :=
  ⟨_,_,dif_neg (Nat.not_le.mpr h),fun _ ha => overwrite_outside (.inl ha)⟩

theorem Slice.kept_append_fresh (spare : Nat → Nat → Nat) {bs : Bytes} (h : s.cap < s.len + bs.length)
    (hnext : τ.next = σ.next) {r : Slice × Memory} (hrun : (s.append spare bs).run τ = some r) :
    σ.Kept r.2 ↔ σ.Kept τ := by
  obtain ⟨t,υ,hfresh,hkept⟩ := Slice.run_append_fresh (σ := τ) spare bs h
  obtain rfl := Option.some.inj (hfresh.symm.trans hrun)
  have hsame (a : Nat) (ha : a < σ.next) : υ.byte a = τ.byte a := hkept a (hnext ▸ ha)
  exact ⟨fun hσ a ha => (hsame a ha).symm.trans (hσ a ha),fun hσ a ha => (hsame a ha).trans (hσ a ha)⟩

/-- Wherever the result of `append` lies, it reads as both parts, and up to its end the slice
has not changed. -/
theorem Slice.run_append_frame (spare : Nat → Nat → Nat) (bs : Bytes) :
    ∃ t τ, (s.append spare bs).run σ = some (t, τ) ∧ t.content τ = s.content σ ++ bs ∧
      (∀ a < s.off + s.len, a < σ.next → τ.byte a = σ.byte a) ∧ σ.next ≤ τ.next := by
  by_cases hroom : s.len + bs.length ≤ s.cap
  · refine ⟨⟨s.off,s.len + bs.length,s.cap,hroom⟩,σ.overwrite (s.off + s.len) bs,dif_pos hroom,?_,
      fun a ha _ => overwrite_outside (.inl ha),Nat.le_refl _⟩
    rw [Slice.content, Slice.content, window_add, window_overwrite,
      window_overwrite_disjoint (.inl (Nat.le_refl _))]
  · let array := s.content σ ++ bs ++ zeros (spare s.cap (s.len + bs.length))
    have hlength : array.length = s.len + bs.length + spare s.cap (s.len + bs.length) := by
      simp [array, Nat.add_assoc]
    have hwindow := window_overwrite (σ := σ) σ.next array
    rw [hlength, window_add] at hwindow
    exact ⟨_,_,dif_neg hroom,(List.append_inj hwindow (by simp)).1,
      fun a _ ha => overwrite_outside (.inl ha),Nat.le_add_right _ _⟩

/-- A slice that lies above an address stays there, and nothing below is written for it. -/
theorem Slice.run_append_above (spare : Nat → Nat → Nat) (bs : Bytes) {base : Nat} (hoff : base ≤ s.off)
    (hs : s.Allocated σ) : ∃ t τ, (s.append spare bs).run σ = some (t, τ) ∧
      t.content τ = s.content σ ++ bs ∧ (∀ a < base, τ.byte a = σ.byte a) ∧ base ≤ t.off ∧
      t.Allocated τ := by
  have hnext : base ≤ σ.next := by
    rw [Slice.Allocated] at hs
    omega
  obtain ⟨t,τ,hrun,hcontent,hframe,_⟩ := Slice.run_append_frame (σ := σ) (s := s) spare bs
  refine ⟨t,τ,hrun,hcontent,fun a ha => hframe a (by omega) (by omega),?_⟩
  by_cases hroom : s.len + bs.length ≤ s.cap
  · obtain ⟨rfl,rfl⟩ := Prod.mk.inj (Option.some.inj ((dif_pos hroom).symm.trans hrun))
    exact ⟨hoff,hs⟩
  · obtain ⟨rfl,rfl⟩ := Prod.mk.inj (Option.some.inj ((dif_neg hroom).symm.trans hrun))
    refine ⟨hnext,?_⟩
    simp [Slice.Allocated, Nat.add_assoc]

theorem Slice.run_append (spare : Nat → Nat → Nat) (bs : Bytes) :
    ∃ t τ, (s.append spare bs).run σ = some (t, τ) ∧ t.content τ = s.content σ ++ bs := by
  obtain ⟨t,τ,hrun,hcontent,_⟩ := Slice.run_append_frame (σ := σ) (s := s) spare bs
  exact ⟨t,τ,hrun,hcontent⟩

end Runs
end CryptoPlaypen.Go
