import CryptoPlaypen.Buffer.ByteEncoding
import CryptoPlaypen.Buffer.SequentialWrites

/-! The Node `Buffer` operations the repository uses, on byte lists. A result of
`none` is a thrown exception; slices and copies clamp without throwing. -/
namespace CryptoPlaypen.Buffer

/-- `buffer.slice(start, stop)`; a stop before the start gives an empty buffer. -/
def slice (b : Bytes) (start stop : Nat) : Bytes := (b.take stop).drop start

def readUIntLE (w : Nat) (b : Bytes) (offset : Nat) : Option Nat :=
  if offset + w ≤ b.length then some (leValue ((b.drop offset).take w)) else none

def readUIntBE (w : Nat) (b : Bytes) (offset : Nat) : Option Nat :=
  if offset + w ≤ b.length then some (beValue ((b.drop offset).take w)) else none

abbrev readUInt8 (b : Bytes) (offset : Nat) : Option Nat := readUIntBE 1 b offset
abbrev readUInt16LE (b : Bytes) (offset : Nat) : Option Nat := readUIntLE 2 b offset
abbrev readUInt16BE (b : Bytes) (offset : Nat) : Option Nat := readUIntBE 2 b offset
abbrev readUInt32LE (b : Bytes) (offset : Nat) : Option Nat := readUIntLE 4 b offset
abbrev readUInt32BE (b : Bytes) (offset : Nat) : Option Nat := readUIntBE 4 b offset

def overwrite (b : Bytes) (offset : Nat) (bs : Bytes) : Bytes :=
  b.take offset ++ bs ++ b.drop (offset + bs.length)

/-- The range check on the value comes before the bounds check; both throw. -/
def writeUIntLE (w : Nat) (val : Int) (b : Bytes) (offset : Nat) : Option Bytes :=
  match val with
  | .ofNat n =>
    if n < 256 ^ w ∧ offset + w ≤ b.length then some (overwrite b offset (leBytes w n)) else none
  | .negSucc _ => none

def writeUIntBE (w : Nat) (val : Int) (b : Bytes) (offset : Nat) : Option Bytes :=
  match val with
  | .ofNat n =>
    if n < 256 ^ w ∧ offset + w ≤ b.length then some (overwrite b offset (beBytes w n)) else none
  | .negSucc _ => none

def int32Bytes (val : Int) : Bytes := leBytes 4 (val % 2 ^ 32).toNat

def writeInt32LE (val : Int) (b : Bytes) (offset : Nat) : Option Bytes :=
  if -2 ^ 31 ≤ val ∧ val < 2 ^ 31 ∧ offset + 4 ≤ b.length then
    some (overwrite b offset (int32Bytes val))
  else none

/-- The number a write stores for a property that may be missing: `undefined`
becomes NaN, which passes both comparisons of the range check and is stored as 0. -/
def propertyNumber (p : Option Nat) : Int := p.getD 0

/-- `source.copy(target, start)`: what does not fit is dropped without an error. -/
def copyInto (source target : Bytes) (start : Nat) : Bytes :=
  target.take start ++ source.take (target.length - start) ++ target.drop (start + source.length)

/-- `Buffer.alloc(n, fill)`: the fill is repeated to the requested length. -/
def allocFill (n : Nat) (fill : Bytes) : Bytes :=
  (List.range n).map fun i => fill.getD (i % fill.length) 0

/-- The buffer of `size` zero bytes that a serializer allocates, after its writes. -/
def serialized (size : Nat) (writes : CellWriter UInt8 Unit) : Option (Cursor UInt8) :=
  (writes.run ⟨zeros size, 0, []⟩).map Prod.snd

/-- A buffer of that size takes the writes and leaves the cursor at its end, and is the result. -/
def FilledExactly (size : Nat) (writes : CellWriter UInt8 Unit) (result : Option Bytes) : Prop :=
  ∃ c, serialized size writes = some c ∧ c.buffer.length = size ∧ c.position = c.buffer.length ∧
    result = some c.buffer

theorem slice_length_le (b : Bytes) (start stop : Nat) : (slice b start stop).length ≤ stop - start := by
  simp [slice]
  omega

theorem slice_of_le (b : Bytes) {start stop : Nat} (h : stop ≤ start) : slice b start stop = [] :=
  List.drop_eq_nil_of_le (by simp; omega)

theorem slice_append (front mid back : Bytes) :
    slice (front ++ mid ++ back) front.length (front.length + mid.length) = mid := by
  have h : (front ++ mid ++ back).take (front.length + mid.length) = front ++ mid :=
    List.take_left' (by simp)
  rw [slice, h, List.drop_left]

@[simp] theorem int32Bytes_length (val : Int) : (int32Bytes val).length = 4 := leBytes_length 4 _

theorem int32Bytes_natCast {n : Nat} (h : n < 2 ^ 32) : int32Bytes n = leBytes 4 n := by
  have hmod : ((n : Int) % 2 ^ 32).toNat = n := by omega
  rw [int32Bytes, hmod]

theorem readUIntLE_append (w : Nat) (front back : Bytes) {n : Nat} (h : n < 256 ^ w) :
    readUIntLE w (front ++ leBytes w n ++ back) front.length = some n := by
  rw [readUIntLE, if_pos (by simp), List.append_assoc, List.drop_left,
    List.take_left' (leBytes_length w n), leValue_leBytes, Nat.mod_eq_of_lt h]

theorem readUIntBE_append (w : Nat) (front back : Bytes) {n : Nat} (h : n < 256 ^ w) :
    readUIntBE w (front ++ beBytes w n ++ back) front.length = some n := by
  rw [readUIntBE, if_pos (by simp), List.append_assoc, List.drop_left,
    List.take_left' (beBytes_length w n), beValue_beBytes, Nat.mod_eq_of_lt h]

theorem overwrite_append (front back bs : Bytes) :
    overwrite (front ++ back) front.length bs = front ++ bs ++ back.drop bs.length := by
  rw [overwrite, List.take_left, ← List.drop_drop, List.drop_left]

theorem writeUIntLE_append (w : Nat) (front back : Bytes) {n : Nat} (h : n < 256 ^ w)
    (hroom : w ≤ back.length) :
    writeUIntLE w n (front ++ back) front.length =
      some (front ++ leBytes w n ++ back.drop w) := by
  have hfits : n < 256 ^ w ∧ front.length + w ≤ (front ++ back).length := ⟨h,by simp; omega⟩
  change (if _ then _ else _) = _
  rw [if_pos hfits, overwrite_append, leBytes_length]

theorem writeUIntBE_append (w : Nat) (front back : Bytes) {n : Nat} (h : n < 256 ^ w)
    (hroom : w ≤ back.length) :
    writeUIntBE w n (front ++ back) front.length =
      some (front ++ beBytes w n ++ back.drop w) := by
  have hfits : n < 256 ^ w ∧ front.length + w ≤ (front ++ back).length := ⟨h,by simp; omega⟩
  change (if _ then _ else _) = _
  rw [if_pos hfits, overwrite_append, beBytes_length]

theorem writeUIntLE_overflow (w : Nat) (b : Bytes) (offset : Nat) {n : Nat} (h : 256 ^ w ≤ n) :
    writeUIntLE w n b offset = none := if_neg fun hn => absurd hn.1 (by omega)

theorem writeUIntBE_overflow (w : Nat) (b : Bytes) (offset : Nat) {n : Nat} (h : 256 ^ w ≤ n) :
    writeUIntBE w n b offset = none := if_neg fun hn => absurd hn.1 (by omega)

theorem writeInt32LE_append (front back : Bytes) {val : Int} (h0 : -2 ^ 31 ≤ val)
    (h : val < 2 ^ 31) (hroom : 4 ≤ back.length) :
    writeInt32LE val (front ++ back) front.length =
      some (front ++ int32Bytes val ++ back.drop 4) := by
  rw [writeInt32LE, if_pos ⟨h0,h,by simp; omega⟩, overwrite_append, int32Bytes_length]

theorem copyInto_append (source front back : Bytes) (h : source.length ≤ back.length) :
    copyInto source (front ++ back) front.length = front ++ source ++ back.drop source.length := by
  rw [copyInto, List.take_left, List.take_of_length_le (by simp; omega), ← List.drop_drop,
    List.drop_left]

theorem allocFill_self (fill : Bytes) (k : Nat) :
    (allocFill (fill.length + k) fill).take fill.length = fill := by
  apply List.ext_getElem
  · simp [allocFill]
  · intro i hi hfill
    simp [allocFill, Nat.mod_eq_of_lt hfill, List.getElem?_eq_getElem hfill]

@[simp] theorem allocFill_length (n : Nat) (fill : Bytes) : (allocFill n fill).length = n := by
  simp [allocFill]

theorem serialized_of_writes {w : CellWriter UInt8 Unit} {out : Bytes} (hw : Writes w out)
    {size : Nat} (hsize : size = out.length) :
    ∃ c, serialized size w = some c ∧ c.buffer = out ∧ Tiles 0 c.extents out.length := by
  obtain ⟨extents,htiles,hrun⟩ := hw.fill (show (zeros size).length = out.length by simpa using hsize)
  exact ⟨_,by rw [serialized, hrun]; rfl,rfl,htiles⟩

theorem serialized_of_writesAt {w : CellWriter UInt8 Unit} {out : Bytes} (hw : WritesAt 0 w out)
    {size : Nat} (hsize : size = out.length) :
    ∃ c, serialized size w = some c ∧ c.buffer = out ∧ Tiles 0 c.extents out.length := by
  obtain ⟨extents,htiles,hrun⟩ := hw.fill (show (zeros size).length = out.length by simpa using hsize)
  exact ⟨_,by rw [serialized, hrun]; rfl,rfl,htiles⟩

theorem filledExactly_of_stores {w : CellWriter UInt8 Unit} {size : Nat} {result : Option Bytes}
    (h : Stores w size) (hresult : result = (serialized size w).map Cursor.buffer) :
    FilledExactly size w result := by
  obtain ⟨c,hrun,hlength,hposition⟩ := h.fill (zeros_length size)
  have hc : serialized size w = some c := by
    rw [serialized, hrun]
    rfl
  exact ⟨c,hc,hlength,hposition.trans hlength.symm,by rw [hresult, hc]; rfl⟩

end CryptoPlaypen.Buffer
