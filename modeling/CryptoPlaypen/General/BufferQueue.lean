import Mathlib.Algebra.Order.Group.Nat
import Mathlib.Algebra.Ring.Nat
import Mathlib.Data.List.Basic

/-! A queue of buffers from which a fixed number of bytes is read. The functions are the same on
bytes that also say where they are from, so the elements are of any type. -/
namespace CryptoPlaypen.General
variable {α β : Type}

/-- The loop of `hasLength`, with what it has counted. -/
def hasLengthFrom (len sum : Nat) : List (List α) → Bool
  | [] => false
  | buffer :: buffers =>
    let sum := sum + buffer.length
    if sum ≥ len then true else hasLengthFrom len sum buffers

def hasLength (buffers : List (List α)) (len : Nat) : Bool := hasLengthFrom len 0 buffers

/-- `buffer.copy(target, targetStart, sourceStart, sourceEnd)`; what does not fit is dropped. -/
def copy (buffer target : List α) (targetStart sourceStart sourceEnd : Nat) : List α :=
  let bs := (buffer.take sourceEnd).drop sourceStart
  target.take targetStart ++ bs.take (target.length - targetStart) ++ target.drop (targetStart + bs.length)

structure Reading (α : Type) where
  buffers : List (List α)
  result : List α
  position : Nat

def readRound (len : Nat) (s : Reading α) : Option (Reading α) :=
  match s.buffers with
  | [] => none
  | buffer :: buffers =>
    if s.position < len then
      let remaining := len - s.position
      if buffer.length > remaining then
        let result := copy buffer s.result s.position 0 remaining
        some ⟨buffer.drop remaining :: buffers,result,s.position + remaining⟩
      else if buffer.length = remaining then
        let result := copy buffer s.result s.position 0 remaining
        some ⟨buffers,result,s.position + remaining⟩
      else
        let result := copy buffer s.result s.position 0 buffer.length
        some ⟨buffers,result,s.position + buffer.length⟩
    else none

/-- The loop, with a bound on how often its condition is tested. -/
def readLoop (len : Nat) : Nat → Reading α → Option (Reading α)
  | 0, _ => none
  | tests + 1, s =>
    match readRound len s with
    | none => some s
    | some s' => readLoop len tests s'

/-- The result, and the list of buffers that is left. `zero` is what `Buffer.alloc` fills with. -/
def readFromBuffers (zero : α) (tests : Nat) (buffers : List (List α)) (len : Nat) :
    Option (List α × List (List α)) :=
  (readLoop len tests ⟨buffers,List.replicate len zero,0⟩).map fun s => (s.result,s.buffers)

private theorem hasLengthFrom_iff {len sum : Nat} (h : sum < len) (buffers : List (List α)) :
    hasLengthFrom len sum buffers = true ↔ len ≤ sum + (buffers.map List.length).sum := by
  induction buffers generalizing sum with
  | nil =>
    rw [hasLengthFrom, List.map_nil, List.sum_nil]
    exact ⟨fun hfalse => absurd hfalse Bool.false_ne_true,fun hle => by omega⟩
  | cons buffer buffers ih =>
    rw [hasLengthFrom, List.map_cons, List.sum_cons, ← Nat.add_assoc]
    by_cases hreached : sum + buffer.length ≥ len
    · rw [if_pos hreached]
      exact ⟨fun _ => by omega,fun _ => rfl⟩
    · rw [if_neg hreached]
      exact ih (by omega)

theorem hasLength_iff {len : Nat} (h : 1 ≤ len) (buffers : List (List α)) :
    hasLength buffers len = true ↔ len ≤ buffers.flatten.length := by
  rw [hasLength, hasLengthFrom_iff h, Nat.zero_add, List.length_flatten]

/-- Into the free part of a result that is filled up to a position. -/
theorem copy_into_free (zero : α) (front buffer : List α) {free k : Nat} (hk : k ≤ buffer.length)
    (hfree : k ≤ free) :
    copy buffer (front ++ List.replicate free zero) front.length 0 k =
      front ++ buffer.take k ++ List.replicate (free - k) zero := by
  have hlength : (buffer.take k).length = k := List.length_take_of_le hk
  have hroom : (front ++ List.replicate free zero).length - front.length = free := by simp
  have hall : (buffer.take k).take free = buffer.take k := List.take_of_length_le (by omega)
  rw [copy, List.drop_zero, hlength, List.take_left, hroom, hall, ← List.drop_drop, List.drop_left,
    List.drop_replicate]

structure Reads (zero : α) (len : Nat) (all : List α) (s : Reading α) : Prop where
  position_le : s.position ≤ len ∧ s.position ≤ all.length
  result_eq : s.result = all.take s.position ++ List.replicate (len - s.position) zero
  rest_eq : s.buffers.flatten = all.drop s.position

section Rounds
variable {zero : α} {len : Nat} {all : List α} {s s' : Reading α}

/-- A round copies from the first buffer, in each branch what it takes of it. -/
theorem readRound_cases (h : readRound len s = some s') :
    ∃ buffer buffers k, s.buffers = buffer :: buffers ∧ s.position < len ∧ k ≤ buffer.length ∧
      k ≤ len - s.position ∧ s'.result = copy buffer s.result s.position 0 k ∧
      s'.position = s.position + k ∧ s'.buffers.flatten = buffer.drop k ++ buffers.flatten ∧
      (s'.buffers = buffers ∨ s'.buffers.length = s.buffers.length ∧ s'.position = len) := by
  rcases s with ⟨_ | ⟨buffer,buffers⟩,result,position⟩
  · cases h
  simp only [readRound] at h
  by_cases hlt : position < len
  · rw [if_pos hlt] at h
    by_cases hmore : buffer.length > len - position
    · rw [if_pos hmore, Option.some.injEq] at h
      subst h
      exact ⟨buffer,buffers,len - position,rfl,hlt,hmore.le,le_rfl,rfl,rfl,List.flatten_cons,
        .inr ⟨rfl,Nat.add_sub_cancel' hlt.le⟩⟩
    · rw [if_neg hmore] at h
      have hall : [] ++ buffers.flatten = buffer.drop buffer.length ++ buffers.flatten := by
        rw [List.drop_length]
      by_cases hequal : buffer.length = len - position
      · rw [if_pos hequal, ← hequal, Option.some.injEq] at h
        subst h
        exact ⟨buffer,buffers,buffer.length,rfl,hlt,le_rfl,hequal.le,rfl,rfl,hall,.inl rfl⟩
      · rw [if_neg hequal, Option.some.injEq] at h
        subst h
        exact ⟨buffer,buffers,buffer.length,rfl,hlt,le_rfl,Nat.not_lt.mp hmore,rfl,rfl,hall,.inl rfl⟩
  · rw [if_neg hlt] at h
    cases h

theorem Reads.round (h : Reads zero len all s) (hround : readRound len s = some s') :
    Reads zero len all s' := by
  obtain ⟨buffer,buffers,k,hbuffers,hlt,hk,hfree,hresult,hposition,hrest,_⟩ := readRound_cases hround
  obtain ⟨hlen,hall⟩ := h.position_le
  have hdrop : all.drop s.position = buffer ++ buffers.flatten := by
    rw [← h.rest_eq, hbuffers, List.flatten_cons]
  have hcount : k ≤ all.length - s.position := by
    rw [← List.length_drop, hdrop, List.length_append]
    omega
  have htake : all.take (s.position + k) = all.take s.position ++ buffer.take k := by
    rw [List.take_add, hdrop, List.take_append_of_le_length hk]
  refine ⟨by omega,?_,?_⟩
  · have hfilled : (all.take s.position).length = s.position := List.length_take_of_le hall
    have hcopy := copy_into_free zero (all.take s.position) buffer hk hfree
    rw [hfilled] at hcopy
    rw [hresult, h.result_eq, hcopy, hposition, htake, Nat.sub_sub]
  · rw [hrest, hposition, ← List.drop_drop, hdrop, List.drop_append_of_le_length hk]

/-- The loop ends with all that was to be read, if there is so much. -/
theorem Reads.finished (h : Reads zero len all s) (hround : readRound len s = none)
    (hlen : len ≤ all.length) : s.result = all.take len ∧ s.buffers.flatten = all.drop len := by
  have hposition : s.position = len := by
    rcases s with ⟨_ | ⟨buffer,buffers⟩,result,position⟩
    · have hnil := List.drop_eq_nil_iff.mp h.rest_eq.symm
      exact Nat.le_antisymm h.position_le.1 (hlen.trans hnil)
    · by_contra hne
      have hlt : position < len := Nat.lt_of_le_of_ne h.position_le.1 hne
      simp only [readRound, if_pos hlt] at hround
      split at hround
      · cases hround
      · split at hround <;> cases hround
  have hresult := h.result_eq
  have hrest := h.rest_eq
  rw [hposition] at hresult hrest
  rw [Nat.sub_self, List.replicate_zero, List.append_nil] at hresult
  exact ⟨hresult,hrest⟩

def Reading.rounds (len : Nat) (s : Reading α) : Nat := if s.position < len then s.buffers.length else 0

private theorem rounds_lt (h : readRound len s = some s') : s'.rounds len < s.rounds len := by
  obtain ⟨buffer,buffers,k,hbuffers,hlt,_,_,_,_,_,hcase⟩ := readRound_cases h
  rw [Reading.rounds, Reading.rounds, if_pos hlt, hbuffers, List.length_cons]
  rcases hcase with hshift | ⟨_,hfull⟩
  · rw [hshift]
    split <;> omega
  · rw [if_neg (by omega)]
    exact Nat.succ_pos _

theorem Reads.loop (h : Reads zero len all s) (hlen : len ≤ all.length) {tests : Nat}
    (htests : s.rounds len < tests) : ∃ s', readLoop len tests s = some s' ∧
      s'.result = all.take len ∧ s'.buffers.flatten = all.drop len := by
  induction tests generalizing s with
  | zero => exact absurd htests (Nat.not_lt_zero _)
  | succ tests ih =>
    rw [readLoop]
    cases hround : readRound len s with
    | none => exact ⟨s,rfl,h.finished hround hlen⟩
    | some s' =>
      have hless := Nat.lt_of_lt_of_le (rounds_lt hround) (Nat.le_of_lt_succ htests)
      exact ih (h.round hround) hless

end Rounds

private theorem reads_start (zero : α) (len : Nat) (buffers : List (List α)) :
    Reads zero len buffers.flatten ⟨buffers,List.replicate len zero,0⟩ :=
  ⟨⟨Nat.zero_le _,Nat.zero_le _⟩,rfl,rfl⟩

theorem readFromBuffers_spec (zero : α) (buffers : List (List α)) {len tests : Nat}
    (hlen : len ≤ buffers.flatten.length) (htests : buffers.length < tests) :
    ∃ rest, readFromBuffers zero tests buffers len = some (buffers.flatten.take len,rest) ∧
      rest.flatten = buffers.flatten.drop len := by
  have hrounds : Reading.rounds len ⟨buffers,List.replicate len zero,0⟩ ≤ buffers.length := by
    rw [Reading.rounds]
    split
    · exact le_rfl
    · exact Nat.zero_le _
  obtain ⟨s,hloop,hresult,hrest⟩ := (reads_start zero len buffers).loop hlen
    (Nat.lt_of_le_of_lt hrounds htests)
  exact ⟨s.buffers,by rw [readFromBuffers, hloop, ← hresult]; rfl,hrest⟩

/-- Whether there are so many bytes is found out, and if there are the loop ends with them. -/
theorem fixed_size_read (zero : α) (buffers : List (List α)) {len : Nat} (hlen : 1 ≤ len) :
    (hasLength buffers len = true ↔ len ≤ (buffers.map List.length).sum) ∧
    (hasLength buffers len = true → ∀ tests, buffers.length < tests →
      ∃ rest, readFromBuffers zero tests buffers len = some (buffers.flatten.take len,rest) ∧
        rest.flatten = buffers.flatten.drop len) := by
  constructor
  · rw [← List.length_flatten]
    exact hasLength_iff hlen buffers
  · intro hlong tests htests
    exact readFromBuffers_spec zero buffers ((hasLength_iff hlen buffers).mp hlong) htests

/-- Three bytes of four, with an empty buffer on the way. -/
theorem fixed_size_read_three : (hasLength [[1],[],[2,3,4]] 3 = true ↔ 3 ≤ ([[1],[],[2,3,4]].map
    (List.length (α := Nat))).sum) ∧ (hasLength [[1],[],[2,3,4]] 3 = true → ∀ tests, 3 < tests →
      ∃ rest, readFromBuffers 0 tests [[1],[],[2,3,4]] 3 = some ([1,2,3],rest) ∧ rest.flatten = [4]) :=
  fixed_size_read 0 [[1],[],[2,3,4]] (by decide)

section Maps
variable (f : α → β)

private theorem copy_map (buffer target : List α) (targetStart sourceStart sourceEnd : Nat) :
    copy (buffer.map f) (target.map f) targetStart sourceStart sourceEnd =
      (copy buffer target targetStart sourceStart sourceEnd).map f := by
  simp only [copy, ← List.map_take, ← List.map_drop, List.length_map, List.map_append]

def Reading.map (s : Reading α) : Reading β := ⟨s.buffers.map (List.map f),s.result.map f,s.position⟩

private theorem readRound_map (len : Nat) (s : Reading α) :
    readRound len (s.map f) = (readRound len s).map (Reading.map f) := by
  rcases s with ⟨_ | ⟨buffer,buffers⟩,result,position⟩
  · rfl
  simp only [readRound, Reading.map, List.map_cons, List.length_map, copy_map, ← List.map_drop]
  split
  · split
    · rfl
    · split <;> rfl
  · rfl

private theorem readLoop_map (len tests : Nat) (s : Reading α) :
    readLoop len tests (s.map f) = (readLoop len tests s).map (Reading.map f) := by
  induction tests generalizing s with
  | zero => rfl
  | succ tests ih =>
    rw [readLoop, readLoop, readRound_map]
    cases readRound len s with
    | none => rfl
    | some s' => exact ih s'

/-- Which bytes are read depends on no byte. -/
theorem readFromBuffers_map (zero : α) (tests : Nat) (buffers : List (List α)) (len : Nat) :
    readFromBuffers (f zero) tests (buffers.map (List.map f)) len =
      (readFromBuffers zero tests buffers len).map fun r => (r.1.map f,r.2.map (List.map f)) := by
  have hloop := readLoop_map f len tests ⟨buffers,List.replicate len zero,0⟩
  rw [Reading.map, List.map_replicate] at hloop
  rw [readFromBuffers, hloop, readFromBuffers, Option.map_map, Option.map_map]
  rfl

theorem hasLength_map (buffers : List (List α)) {len : Nat} (h : 1 ≤ len) :
    hasLength (buffers.map (List.map f)) len = hasLength buffers len := by
  rw [Bool.eq_iff_iff, hasLength_iff h, hasLength_iff h, ← List.map_flatten, List.length_map]

end Maps

end CryptoPlaypen.General
