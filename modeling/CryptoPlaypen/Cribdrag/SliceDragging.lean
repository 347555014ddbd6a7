import CryptoPlaypen.Cribdrag.TwoTimePad

/-! The program that drags a crib over slices. Its loop goes on to the last byte, where the crib
does not fit any more, and then the slice is cut beyond its length or not at all. -/
namespace CryptoPlaypen.Cribdrag
open Buffer Go
open Blockmode (xorBytes xorBytes_length)

def xorRound (spare : Nat → Nat → Nat) (buf1 buf2 result : Slice) (i : Nat) : Exec Slice := do
  let a ← buf1.get i
  let b ← buf2.get i
  result.append spare [a ^^^ b]

/-- The length of `buf1` is the number of rounds. -/
def xor (spare : Nat → Nat → Nat) (buf1 buf2 : Slice) : Exec Slice := do
  let result ← Slice.empty
  (List.range buf1.len).foldlM (xorRound spare buf1 buf2) result

/-- The class `[a-zA-Z .()]`. -/
def inClass (b : UInt8) : Bool :=
  (0x61 ≤ b && b ≤ 0x7a) || (0x41 ≤ b && b ≤ 0x5a) || b == 0x20 || b == 0x2e || b == 0x28 || b == 0x29

/-- A match of the class repeated `k` times starts anywhere. -/
def search (k : Nat) : Bytes → Bool
  | [] => k == 0
  | b :: bs => (k ≤ (b :: bs).length && ((b :: bs).take k).all inClass) || search k bs

/-- An expression that repeats more than 1000 times does not compile, and the error panics. -/
def possibleMatch (buf : Bytes) : Option Bool :=
  if buf.length > 1000 then none else some (search buf.length buf)

structure Round where
  examined : Examined
  printed : Option Bytes
  deriving DecidableEq

def dragRound (spare : Nat → Nat → Nat) (c1c2 test : Slice) (i : Nat) : Exec Round := do
  let window ← c1c2.reslice i (i + test.len)
  let result ← xor spare window test
  let text ← result.read
  let matched ← orPanic (possibleMatch text)
  if matched then do
    let head ← result.reslice 0 test.len
    let shown ← head.read
    pure ⟨⟨i,text⟩,some shown⟩
  else pure ⟨⟨i,text⟩,none⟩

def cribdrag (spare : Nat → Nat → Nat) (cipher1 cipher2 test : Slice) : Exec (List Round) := do
  let c1c2 ← xor spare cipher1 cipher2
  (List.range cipher1.len).mapM (dragRound spare c1c2 test)

/-- The loop comes to its end with just the offsets that fit, and prints what may be a match. -/
def GoCovers (spare : Nat → Nat → Nat) (σ : Memory) (cipher1 cipher2 test : Slice) : Prop :=
  ∃ rounds τ, (cribdrag spare cipher1 cipher2 test).run σ = some (rounds,τ) ∧
    Covers (cipher1.content σ) (cipher2.content σ) (test.content σ) (rounds.map Round.examined) ∧
    ∀ r ∈ rounds, r.examined.text.all inClass = true → r.printed = some r.examined.text

def DragsCover (spare : Nat → Nat → Nat) (σ : Memory) (cipher1 cipher2 test : Slice) : Prop :=
  Covers (cipher1.content σ) (cipher2.content σ) (test.content σ)
      (Q2.drag cipher1.len (cipher1.content σ) (cipher2.content σ) (test.content σ)) ∧
    GoCovers spare σ cipher1 cipher2 test

/-- In fewer bytes there is no match. -/
theorem search_short {k : Nat} {bs : Bytes} (h : bs.length < k) : search k bs = false := by
  induction bs with
  | nil =>
    rw [search, beq_eq_false_iff_ne]
    exact Nat.ne_of_gt h
  | cons b bs ih =>
    rw [search, ih (by rw [List.length_cons] at h; omega), Bool.or_false, Bool.and_eq_false_iff]
    exact .inl (decide_eq_false (Nat.not_le.mpr h))

/-- The expression for the whole length matches only all the bytes. -/
theorem search_all (bs : Bytes) : search bs.length bs = bs.all inClass := by
  cases bs with
  | nil => rfl
  | cons b bs =>
    have hshort : search (b :: bs).length bs = false := search_short (Nat.lt_succ_self _)
    rw [search, hshort, Bool.or_false, List.take_length, decide_eq_true le_rfl, Bool.true_and]

section Xor
variable {spare : Nat → Nat → Nat} {σ : Memory} {buf1 buf2 : Slice}

private theorem take_succ_xorBytes {a b : Bytes} {i : Nat} (ha : i < a.length) (hb : i < b.length) :
    (xorBytes a b).take (i + 1) = (xorBytes a b).take i ++ [a.getD i 0 ^^^ b.getD i 0] := by
  rw [List.take_add_one]
  simp [xorBytes, ha, hb]

/-- So many rounds, on a result that lies above all that was allocated. -/
theorem run_xorRounds (spare : Nat → Nat → Nat) (hlen : buf1.len ≤ buf2.len)
    (h1 : buf1.off + buf1.len ≤ σ.next) (h2 : buf2.off + buf2.len ≤ σ.next) {n : Nat}
    (hn : n ≤ buf1.len) :
    ∃ t τ, ((List.range n).foldlM (xorRound spare buf1 buf2) ⟨σ.next,0,0,Nat.le_refl 0⟩).run σ =
        some (t,τ) ∧ t.content τ = (xorBytes (buf1.content σ) (buf2.content σ)).take n ∧ σ.Kept τ ∧
      σ.next ≤ t.off ∧ t.Allocated τ := by
  induction n with
  | zero => exact ⟨_,σ,rfl,rfl,fun _ _ => rfl,le_rfl,le_rfl⟩
  | succ n ih =>
    obtain ⟨t,τ,hrun,hcontent,hkept,hoff,ht⟩ := ih (Nat.le_of_succ_le hn)
    obtain ⟨u,υ,happend,hmore,hsame,hoff',hu⟩ := Slice.run_append_above (σ := τ) (s := t) spare
      [σ.byte (buf1.off + n) ^^^ σ.byte (buf2.off + n)] hoff ht
    have hround : (xorRound spare buf1 buf2 t n).run τ = some (u,υ) := by
      rw [xorRound, run_then (Slice.run_get (by omega)), run_then (Slice.run_get (by omega)),
        hkept _ (by omega), hkept _ (by omega)]
      exact happend
    refine ⟨u,υ,?_,?_,fun a ha => (hsame a ha).trans (hkept a ha),hoff',hu⟩
    · rw [List.range_succ, List.foldlM_append, run_then hrun, List.foldlM_cons, run_then hround]
      rfl
    · rw [hmore, hcontent, take_succ_xorBytes (by rw [Slice.content_length]; omega)
        (by rw [Slice.content_length]; omega), Slice.content, window_getD _ (by omega), Slice.content,
        window_getD _ (by omega)]

/-- The result is a new slice, and nothing that was allocated is written. -/
theorem run_xor (spare : Nat → Nat → Nat) {buf1 buf2 : Slice} (hlen : buf1.len ≤ buf2.len)
    (h1 : buf1.off + buf1.len ≤ σ.next) (h2 : buf2.off + buf2.len ≤ σ.next) :
    ∃ t τ, (xor spare buf1 buf2).run σ = some (t,τ) ∧
      t.content τ = xorBytes (buf1.content σ) (buf2.content σ) ∧ σ.Kept τ ∧ σ.next ≤ t.off ∧
      t.Allocated τ := by
  obtain ⟨t,τ,hrun,hcontent,hrest⟩ := run_xorRounds spare hlen h1 h2 le_rfl
  refine ⟨t,τ,hrun,?_,hrest⟩
  rw [hcontent]
  apply List.take_of_length_le
  rw [xorBytes_length, Slice.content_length]
  exact Nat.min_le_left _ _

end Xor

def fitting (combined crib : Bytes) (i : Nat) : Round :=
  let text := xorBytes (slice combined i (i + crib.length)) crib
  ⟨⟨i,text⟩,if text.all inClass then some text else none⟩

section Rounds
variable {spare : Nat → Nat → Nat} {σ : Memory} {c1c2 test : Slice}

private theorem exists_cut (s : Slice) (σ : Memory) {i k : Nat} (h : i + k ≤ s.len) :
    ∃ t, (s.reslice i (i + k)).run σ = some (t,σ) ∧ t.off = s.off + i ∧ t.len = k ∧
      t.content σ = slice (s.content σ) i (i + k) := by
  have hlen : i + k - i = k := Nat.add_sub_cancel_left ..
  refine ⟨_,Slice.run_reslice ⟨Nat.le_add_right _ _,h.trans s.len_le⟩,rfl,hlen,?_⟩
  rw [slice, Slice.content, Slice.content, window_take h, window_drop (Nat.le_add_right i k)]

private theorem run_possibleMatch {bs : Bytes} (h : bs.length ≤ 1000) (σ : Memory) :
    (orPanic (possibleMatch bs)).run σ = some (bs.all inClass,σ) := by
  rw [possibleMatch, if_neg (Nat.not_lt.mpr h), search_all]
  rfl

/-- Where the crib fits, the round ends as it should, and changes nothing that was allocated. -/
theorem run_dragRound (spare : Nat → Nat → Nat) (c1c2 test : Slice) {i : Nat}
    (hfits : i + test.len ≤ c1c2.len)
    (hk : test.len ≤ 1000) (h1 : c1c2.off + c1c2.len ≤ σ.next) (h2 : test.off + test.len ≤ σ.next) :
    ∃ τ, (dragRound spare c1c2 test i).run σ = some (fitting (c1c2.content σ) (test.content σ) i,τ) ∧
      σ.Kept τ ∧ σ.next ≤ τ.next := by
  obtain ⟨window,hcut,hoff,hlen,hwindow⟩ := exists_cut c1c2 σ hfits
  obtain ⟨result,τ,hxor,hcontent,hkept,habove,hresult⟩ := run_xor spare hlen.le
    (show window.off + window.len ≤ σ.next by omega) h2
  have htext : (result.content τ).length = test.len := by
    rw [hcontent, xorBytes_length, Slice.content_length, Slice.content_length, hlen, Nat.min_self]
  rw [Slice.content_length] at htext
  rw [Slice.Allocated] at hresult
  refine ⟨τ,?_,hkept,by omega⟩
  rw [dragRound, run_then hcut, run_then hxor, run_then Slice.run_read,
    run_then (run_possibleMatch (by rw [Slice.content_length, htext]; exact hk) τ), fitting, hcontent,
    hwindow, Slice.content_length]
  split
  · -- the result is as long as the crib, so all of it is shown
    obtain ⟨head,hhead,_,_,hshown⟩ := exists_cut result τ (i := 0) (k := test.len) (by omega)
    rw [Nat.zero_add] at hhead hshown
    have hall : slice (result.content τ) 0 test.len = result.content τ := by
      rw [slice, List.drop_zero, List.take_of_length_le (by rw [Slice.content_length, htext])]
    rw [run_then hhead, run_then Slice.run_read, hshown, hall, hcontent, hwindow]
    rfl
  · rfl

/-- So it does later, as long as what was allocated before is kept. -/
theorem run_dragRound_later (spare : Nat → Nat → Nat) {υ : Memory} (hsame : σ.Kept υ)
    (hnext : σ.next ≤ υ.next) {i : Nat} (hfits : i + test.len ≤ c1c2.len) (hk : test.len ≤ 1000)
    (h1 : c1c2.off + c1c2.len ≤ σ.next) (h2 : test.off + test.len ≤ σ.next) :
    ∃ τ, (dragRound spare c1c2 test i).run υ = some (fitting (c1c2.content σ) (test.content σ) i,τ) ∧
      σ.Kept τ ∧ σ.next ≤ τ.next := by
  obtain ⟨τ,hrun,hkeep,hmore⟩ := run_dragRound (σ := υ) spare c1c2 test hfits hk (h1.trans hnext)
    (h2.trans hnext)
  have hcombined : c1c2.content υ = c1c2.content σ := hsame.window_eq h1
  have hcrib : test.content υ = test.content σ := hsame.window_eq h2
  rw [hcombined, hcrib] at hrun
  exact ⟨τ,hrun,hsame.trans hkeep hnext,hnext.trans hmore⟩

private theorem dragRound_offset {i : Nat} {r : Round × Memory}
    (h : (dragRound spare c1c2 test i).run σ = some r) :
    r.1.examined.offset = i := by
  obtain ⟨window,ρ,_,h⟩ := run_bind_some.mp h
  obtain ⟨result,τ,_,h⟩ := run_bind_some.mp h
  obtain ⟨text,υ,_,h⟩ := run_bind_some.mp h
  obtain ⟨matched,φ,_,h⟩ := run_bind_some.mp h
  cases matched with
  | true =>
    obtain ⟨head,χ,_,h⟩ := run_bind_some.mp h
    obtain ⟨shown,ψ,_,h⟩ := run_bind_some.mp h
    rw [← congrArg Prod.fst (Option.some.inj h)]
  | false => rw [← congrArg Prod.fst (Option.some.inj h)]

end Rounds

section Programs
variable {spare : Nat → Nat → Nat} {σ : Memory} {cipher1 cipher2 test : Slice}

/-- As far as the crib fits, the rounds of the loop are as they should be. -/
theorem run_fitting (spare : Nat → Nat → Nat) (h1 : cipher1.Allocated σ) (h2 : cipher2.Allocated σ)
    (htest : test.Allocated σ) (hlen : cipher1.len = cipher2.len) (hk : test.len ≤ 1000) :
    ∃ c1c2 ρ, (xor spare cipher1 cipher2).run σ = some (c1c2,ρ) ∧ ∀ n, n + test.len ≤ cipher1.len + 1 →
      ∃ τ, ((List.range n).mapM (dragRound spare c1c2 test)).run ρ = some ((List.range n).map
        (fitting (xorBytes (cipher1.content σ) (cipher2.content σ)) (test.content σ)),τ) := by
  have hend (s : Slice) (hs : s.Allocated σ) : s.off + s.len ≤ σ.next := by
    have hcap := s.len_le
    rw [Slice.Allocated] at hs
    omega
  obtain ⟨c1c2,ρ,hxor,hcontent,hkept,_,hc⟩ := run_xor spare hlen.le (hend cipher1 h1)
    (hend cipher2 h2)
  have hlength : c1c2.len = cipher1.len := by
    rw [← Slice.content_length (σ := ρ), hcontent, xorBytes_length, Slice.content_length,
      Slice.content_length, ← hlen, Nat.min_self]
  have hcap := c1c2.len_le
  have htestend := hend test htest
  have hcrib : test.content ρ = test.content σ := hkept.window_eq htestend
  rw [Slice.Allocated] at hc
  refine ⟨c1c2,ρ,hxor,fun n hn => ?_⟩
  rw [← hcontent, ← hcrib]
  have hround (i : Nat) (hi : i ∈ List.range n) (υ : Memory) (hυ : ρ.Kept υ ∧ ρ.next ≤ υ.next) :
      ∃ τ, (dragRound spare c1c2 test i).run υ = some (fitting (c1c2.content ρ) (test.content ρ) i,τ) ∧
        ρ.Kept τ ∧ ρ.next ≤ τ.next := by
    have hlt := List.mem_range.mp hi
    exact run_dragRound_later spare hυ.1 hυ.2 (by omega) hk (by omega) (by omega)
  obtain ⟨τ,hrun,_⟩ := mapM_run hround ⟨fun _ _ => rfl,le_rfl⟩
  exact ⟨τ,hrun⟩

private theorem mem_examined {combined crib : Bytes} {n : Nat} {x : Examined}
    (hx : x ∈ ((List.range n).map (fitting combined crib)).map Round.examined) :
    x.offset < n ∧ x = ⟨x.offset,xorBytes (slice combined x.offset (x.offset + crib.length)) crib⟩ := by
  obtain ⟨r,hr,rfl⟩ := List.mem_map.mp hx
  obtain ⟨i,hi,rfl⟩ := List.mem_map.mp hr
  exact ⟨List.mem_range.mp hi,rfl⟩

/-- With a crib of one byte the slice is never cut beyond its length. -/
theorem goCovers_single (spare : Nat → Nat → Nat) (h1 : cipher1.Allocated σ) (h2 : cipher2.Allocated σ)
    (htest : test.Allocated σ) (hlen : cipher1.len = cipher2.len) (hpos : 1 ≤ cipher1.len)
    (hone : test.len = 1) : GoCovers spare σ cipher1 cipher2 test := by
  obtain ⟨c1c2,ρ,hxor,hrounds⟩ := run_fitting spare h1 h2 htest hlen (by omega)
  obtain ⟨τ,hrun⟩ := hrounds cipher1.len (by omega)
  have hfits {i : Nat} (hi : i < cipher1.len) :
      i + (test.content σ).length ≤ (cipher1.content σ).length := by
    rw [Slice.content_length, Slice.content_length, hone]
    exact hi
  refine ⟨_,τ,(run_then hxor _).trans hrun,⟨?_,?_,?_⟩,?_⟩
  · rw [Slice.content_length, Slice.content_length, hone, Nat.sub_add_cancel hpos, List.map_map,
      List.map_map]
    exact List.map_id _
  · intro x hx
    exact hfits (mem_examined hx).1
  · intro x hx
    obtain ⟨hi,heq⟩ := mem_examined hx
    rw [heq]
    exact reveals_of_fits (hfits hi)
  · intro r hr hall
    obtain ⟨i,_,rfl⟩ := List.mem_map.mp hr
    exact if_pos hall

/-- Where the loop of slices ends, it has gone to the last byte. -/
theorem offsets_of_run {rounds : List Round} {τ : Memory}
    (h : (cribdrag spare cipher1 cipher2 test).run σ = some (rounds,τ)) :
    (rounds.map Round.examined).map Examined.offset = List.range cipher1.len := by
  obtain ⟨c1c2,ρ,_,h⟩ := run_bind_some.mp h
  rw [List.map_map]
  exact mapM_index (fun r : Round => r.examined.offset) (fun i σ r hr => dragRound_offset hr) h

private theorem goCovers_iff (spare : Nat → Nat → Nat) (h1 : cipher1.Allocated σ) (h2 : cipher2.Allocated σ)
    (htest : test.Allocated σ) (hlen : cipher1.len = cipher2.len) (hpos : 1 ≤ test.len)
    (hfits : test.len ≤ cipher1.len) : GoCovers spare σ cipher1 cipher2 test ↔ test.len = 1 := by
  constructor
  · rintro ⟨rounds,τ,hrun,hcovers,_⟩
    have hcount := congrArg List.length ((offsets_of_run hrun).symm.trans hcovers.offsets)
    rw [List.length_range, List.length_range, Slice.content_length, Slice.content_length] at hcount
    omega
  · exact goCovers_single spare h1 h2 htest hlen (hpos.trans hfits)

private theorem not_dragsCover (spare : Nat → Nat → Nat) (σ : Memory) (cipher1 cipher2 test : Slice) :
    ¬ DragsCover spare σ cipher1 cipher2 test := by
  rintro ⟨hbuffers,_⟩
  rw [← Slice.content_length (σ := σ) (s := cipher1)] at hbuffers
  exact Q2.not_covers _ _ _ hbuffers

/-- On no input do both programs look at just the offsets where the crib fits: the one on buffers
leaves out the last, and the one on slices goes beyond it unless the crib is one byte. -/
theorem drags_cover_never (spare : Nat → Nat → Nat) (h1 : cipher1.Allocated σ) (h2 : cipher2.Allocated σ)
    (htest : test.Allocated σ) (hlen : cipher1.len = cipher2.len) (hpos : 1 ≤ test.len)
    (hfits : test.len ≤ min cipher1.len 1000) : ¬ DragsCover spare σ cipher1 cipher2 test ∧
      (Q2.drag cipher1.len (cipher1.content σ) (cipher2.content σ) (test.content σ)).map Examined.offset =
        List.range (cipher1.len - test.len) ∧
      (GoCovers spare σ cipher1 cipher2 test ↔ test.len = 1) := by
  refine ⟨not_dragsCover spare σ cipher1 cipher2 test,?_,?_⟩
  · rw [Q2.drag_offsets, Slice.content_length]
  · exact goCovers_iff spare h1 h2 htest hlen hpos (hfits.trans (Nat.min_le_left _ _))

end Programs

def pair (off : Nat) : Slice := ⟨off,2,2,le_rfl⟩

def pairsMemory : Memory := ⟨fun a => UInt8.ofNat (0x61 + a),6⟩

theorem drags_cover_pairs : ¬ DragsCover smallSpare pairsMemory (pair 0) (pair 2) (pair 4) ∧
    (Q2.drag (pair 0).len ((pair 0).content pairsMemory) ((pair 2).content pairsMemory)
      ((pair 4).content pairsMemory)).map Examined.offset = List.range ((pair 0).len - (pair 4).len) ∧
    (GoCovers smallSpare pairsMemory (pair 0) (pair 2) (pair 4) ↔ (pair 4).len = 1) :=
  drags_cover_never _ (by decide) (by decide) (by decide) rfl (by decide) (by decide)

/-- A crib as long as the ciphertexts: one program looks at no offset, and the other one goes on to
offset 1, where it reads a byte beyond the slice and prints what comes of it. -/
theorem drags_cover_fails : ¬ DragsCover smallSpare pairsMemory (pair 0) (pair 2) (pair 4) ∧
    Q2.drag (pair 0).len ((pair 0).content pairsMemory) ((pair 2).content pairsMemory)
      ((pair 4).content pairsMemory) = [] ∧
    ((cribdrag smallSpare (pair 0) (pair 2) (pair 4)).run pairsMemory).map Prod.fst =
      some [⟨⟨0,[0x67,0x60]⟩,none⟩,⟨⟨1,[0x63,0x66]⟩,some [0x63,0x66]⟩] :=
  ⟨not_dragsCover _ _ _ _ _,by decide,by decide +kernel⟩

end CryptoPlaypen.Cribdrag
