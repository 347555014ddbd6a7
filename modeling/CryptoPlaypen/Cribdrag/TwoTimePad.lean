import CryptoPlaypen.Blockmode.Blocks
import CryptoPlaypen.Buffer.NodeBuffer

/-! Dragging a crib over two ciphertexts of one pad, and the program that does it on buffers. Its
loop ends one offset early. -/
namespace CryptoPlaypen.Cribdrag
open Buffer Blockmode

def SamePad (c1 c2 p1 p2 : Bytes) : Prop :=
  ∃ key : Bytes, p1.length = key.length ∧ p2.length = key.length ∧
    c1 = xorBytes p1 key ∧ c2 = xorBytes p2 key

structure Examined where
  offset : Nat
  text : Bytes
  deriving DecidableEq

/-- Where one plaintext has the crib, the string is what the other one has. -/
def Reveals (c1 c2 crib : Bytes) (x : Examined) : Prop :=
  ∀ p1 p2, SamePad c1 c2 p1 p2 →
    (slice p1 x.offset (x.offset + crib.length) = crib →
      x.text = slice p2 x.offset (x.offset + crib.length)) ∧
    (slice p2 x.offset (x.offset + crib.length) = crib →
      x.text = slice p1 x.offset (x.offset + crib.length))

/-- Each offset at which the crib fits is looked at once and in order, and no other. -/
structure Covers (c1 c2 crib : Bytes) (examined : List Examined) : Prop where
  offsets : examined.map Examined.offset = List.range (c1.length - crib.length + 1)
  inside : ∀ x ∈ examined, x.offset + crib.length ≤ c1.length
  reveals : ∀ x ∈ examined, Reveals c1 c2 crib x

private theorem xorBytes_comm (a b : Bytes) : xorBytes a b = xorBytes b a :=
  List.zipWith_comm_of_comm fun x y => UInt8.xor_comm x y

theorem xor_key_cancel (a b k : UInt8) : a ^^^ k ^^^ (b ^^^ k) = a ^^^ b := by
  rw [UInt8.xor_comm b, ← UInt8.xor_assoc, UInt8.xor_assoc a, UInt8.xor_self, UInt8.xor_zero]

/-- The key is gone. -/
theorem SamePad.xor_eq {c1 c2 p1 p2 : Bytes} (h : SamePad c1 c2 p1 p2) :
    xorBytes c1 c2 = xorBytes p1 p2 := by
  obtain ⟨key,h1,h2,rfl,rfl⟩ := h
  apply List.ext_getElem
  · simp
    omega
  · intro i hi hi'
    simp only [xorBytes, List.getElem_zipWith]
    exact xor_key_cancel _ _ _

private theorem xorBytes_slice (a b : Bytes) (start stop : Nat) :
    slice (xorBytes a b) start stop = xorBytes (slice a start stop) (slice b start stop) := by
  rw [slice, xorBytes, List.take_zipWith, List.drop_zipWith]
  rfl

theorem slice_length {b : Bytes} {i k : Nat} (h : i + k ≤ b.length) :
    (slice b i (i + k)).length = k := by
  rw [slice, List.length_drop, List.length_take_of_le h, Nat.add_sub_cancel_left]

/-- The combined ciphertexts with the crib, at an offset where it fits. -/
theorem reveals_of_fits {c1 c2 crib : Bytes} {i : Nat} (hfits : i + crib.length ≤ c1.length) :
    Reveals c1 c2 crib ⟨i,xorBytes (slice (xorBytes c1 c2) i (i + crib.length)) crib⟩ := by
  intro p1 p2 hpad
  have hxor := hpad.xor_eq
  obtain ⟨key,h1,h2,rfl,rfl⟩ := hpad
  rw [xorBytes_length] at hfits
  have hlength1 : (slice p1 i (i + crib.length)).length = crib.length := slice_length (by omega)
  have hlength2 : (slice p2 i (i + crib.length)).length = crib.length := slice_length (by omega)
  constructor
  · intro hcrib
    dsimp only at hcrib ⊢
    rw [hxor, xorBytes_slice, hcrib, xorBytes_comm crib, xorBytes_cancel hlength2.le]
  · intro hcrib
    dsimp only at hcrib ⊢
    rw [hxor, xorBytes_slice, hcrib, xorBytes_cancel hlength1.le]

namespace Q2

/-- `buf[i]` as the operators see it: beyond the end it is `undefined`, which counts as 0. -/
def byteAt (buf : Bytes) (i : Nat) : UInt8 := buf.getD i 0

/-- The string `' '` counts as 0 too. -/
def xor (buf1 buf2 : Bytes) (len : Nat) : Bytes :=
  (List.range len).map fun i => byteAt buf1 i ^^^ byteAt buf2 i ^^^ 0

def cribdrag (dragLength : Nat) (buf1 test : Bytes) : List Examined :=
  (List.range (dragLength - test.length)).map fun i =>
    ⟨i,xor (slice buf1 i (i + test.length)) test test.length⟩

def drag (dragLength : Nat) (cipher1 cipher2 text : Bytes) : List Examined :=
  cribdrag dragLength (xor cipher1 cipher2 dragLength) text

private theorem xor_eq {buf1 buf2 : Bytes} {len : Nat} (h1 : buf1.length = len) (h2 : buf2.length = len) :
    xor buf1 buf2 len = xorBytes buf1 buf2 := by
  apply List.ext_getElem
  · simp [xor, h1, h2]
  · intro i hi hi'
    have hlt : i < len := by simpa [xor] using hi
    simp [xor, xorBytes, byteAt, List.getElem?_eq_getElem (h1.symm ▸ hlt : i < buf1.length),
      List.getElem?_eq_getElem (h2.symm ▸ hlt : i < buf2.length)]

variable {c1 c2 crib : Bytes}

/-- The last offset is left out. -/
theorem drag_offsets (dragLength : Nat) (c1 c2 crib : Bytes) :
    (drag dragLength c1 c2 crib).map Examined.offset = List.range (dragLength - crib.length) := by
  rw [drag, cribdrag, List.map_map]
  exact List.map_id _

/-- The others are looked at as they should be. -/
theorem drag_reveals (hlength : c1.length = c2.length) {x : Examined}
    (hx : x ∈ drag c1.length c1 c2 crib) :
    x.offset + crib.length < c1.length ∧ Reveals c1 c2 crib x := by
  obtain ⟨i,hi,rfl⟩ := List.mem_map.mp hx
  have hlt : i + crib.length < c1.length := by
    have hrange := List.mem_range.mp hi
    omega
  have hcombined : xor c1 c2 c1.length = xorBytes c1 c2 := xor_eq rfl hlength.symm
  have hwindow : (slice (xorBytes c1 c2) i (i + crib.length)).length = crib.length :=
    slice_length (by rw [xorBytes_length]; omega)
  refine ⟨hlt,?_⟩
  rw [hcombined, xor_eq hwindow rfl]
  exact reveals_of_fits hlt.le

theorem not_covers (c1 c2 crib : Bytes) : ¬ Covers c1 c2 crib (drag c1.length c1 c2 crib) := by
  intro hcovers
  have hcount := congrArg List.length hcovers.offsets
  rw [drag_offsets, List.length_range, List.length_range] at hcount
  omega

end Q2

end CryptoPlaypen.Cribdrag
