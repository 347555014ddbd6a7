import CryptoPlaypen.Lightning.BufferReader
import CryptoPlaypen.Objects.Method

/-! Lists of typed fields through the positional writer and back through the reader, which is
an object here: a read that throws leaves it somewhere. -/
namespace CryptoPlaypen.Lightning
open Buffer Objects Method

namespace ReaderObject

def readStandard (fn : Bytes → Nat → Option Nat) (len : Nat) : Method BufferReader Nat := do
  let r ← self
  let result ← attempt (fn r.buffer r.position)
  assign fun r => { r with position := r.position + len }
  pure result

def readUInt8 : Method BufferReader Nat := readStandard Buffer.readUInt8 1
def readUInt16LE : Method BufferReader Nat := readStandard Buffer.readUInt16LE 2
def readUInt16BE : Method BufferReader Nat := readStandard Buffer.readUInt16BE 2
def readUInt32LE : Method BufferReader Nat := readStandard Buffer.readUInt32LE 4
def readUInt32BE : Method BufferReader Nat := readStandard Buffer.readUInt32BE 4

def readBytes (len : Nat) : Method BufferReader Bytes := do
  let r ← self
  raiseIf (r.buffer.length < r.position + len)
  let result := slice r.buffer r.position len
  assign fun r => { r with position := r.position + len }
  pure result

/-- A read whose exception, if it throws one, leaves the reader as it was. -/
def keeping {α : Type} (m : StateT BufferReader Option α) : Method BufferReader α := fun r =>
  match m.run r with
  | some (a,s) => (.returned a,s)
  | none => (.threw,r)

private theorem run_keeping_some {α : Type} {m : StateT BufferReader Option α} {r s : BufferReader} {a : α}
    (h : m.run r = some (a,s)) : (keeping m).run r = (.returned a,s) := by
  rw [Method.run, keeping, h]

private theorem run_keeping_none {α : Type} {m : StateT BufferReader Option α} {r : BufferReader}
    (h : m.run r = none) : (keeping m).run r = (.threw,r) := by
  rw [Method.run, keeping, h]

/-- The codecs' reads are these, with the position after an exception forgotten. -/
theorem readStandard_eq (fn : Bytes → Nat → Option Nat) (len : Nat) :
    readStandard fn len = keeping (BufferReader.readStandard fn len) := by
  funext r
  change (readStandard fn len).run r = (keeping (BufferReader.readStandard fn len)).run r
  cases hv : fn r.buffer r.position with
  | none =>
    rw [run_keeping_none (BufferReader.run_readStandard_eof hv)]
    simp only [readStandard, run_bind, run_self, hv, run_attempt_none]
  | some v =>
    rw [run_keeping_some (BufferReader.run_readStandard hv)]
    simp only [readStandard, run_bind, run_self, hv, run_attempt_some, run_assign, run_pure]

private theorem readBytes_eq (len : Nat) : readBytes len = keeping (BufferReader.readBytes len) := by
  funext r
  change (readBytes len).run r = (keeping (BufferReader.readBytes len)).run r
  by_cases hend : r.buffer.length < r.position + len
  · rw [run_keeping_none (BufferReader.run_readBytes_eof (by omega))]
    simp only [readBytes, run_bind, run_self, run_raiseIf, if_pos hend]
  · rw [run_keeping_some (BufferReader.run_readBytes_of_le (by omega))]
    simp only [readBytes, run_bind, run_self, run_raiseIf, if_neg hend, run_assign, run_pure]

end ReaderObject

inductive FieldKind where
  | uint8
  | uint16LE
  | uint16BE
  | uint32LE
  | uint32BE
  | bytes : Nat → FieldKind
  deriving DecidableEq, Repr

namespace FieldKind

def size : FieldKind → Nat
  | uint8 => 1
  | uint16LE | uint16BE => 2
  | uint32LE | uint32BE => 4
  | bytes len => len

def read : FieldKind → Method BufferReader Value
  | uint8 => return .number (← ReaderObject.readUInt8)
  | uint16LE => return .number (← ReaderObject.readUInt16LE)
  | uint16BE => return .number (← ReaderObject.readUInt16BE)
  | uint32LE => return .number (← ReaderObject.readUInt32LE)
  | uint32BE => return .number (← ReaderObject.readUInt32BE)
  | bytes len => return .bytes (← ReaderObject.readBytes len)

end FieldKind

inductive Field where
  | uint8 : Nat → Field
  | uint16LE : Nat → Field
  | uint16BE : Nat → Field
  | uint32LE : Nat → Field
  | uint32BE : Nat → Field
  | bytes : Bytes → Field
  deriving DecidableEq, Repr

namespace Field

def kind : Field → FieldKind
  | uint8 _ => .uint8
  | uint16LE _ => .uint16LE
  | uint16BE _ => .uint16BE
  | uint32LE _ => .uint32LE
  | uint32BE _ => .uint32BE
  | bytes b => .bytes b.length

def value : Field → Value
  | uint8 n | uint16LE n | uint16BE n | uint32LE n | uint32BE n => .number n
  | bytes b => .bytes b

def InRange : Field → Prop
  | uint8 n => n < 2 ^ 8
  | uint16LE n | uint16BE n => n < 2 ^ 16
  | uint32LE n | uint32BE n => n < 2 ^ 32
  | bytes _ => True

def write : Field → CellWriter UInt8 Unit
  | uint8 n => BufferWriter.writeUInt8 n
  | uint16LE n => BufferWriter.writeUInt16LE n
  | uint16BE n => BufferWriter.writeUInt16BE n
  | uint32LE n => BufferWriter.writeUInt32LE n
  | uint32BE n => BufferWriter.writeUInt32BE n
  | bytes b => BufferWriter.writeBytes (.bytes b)

def encode : Field → Bytes
  | uint8 n => beBytes 1 n
  | uint16LE n => leBytes 2 n
  | uint16BE n => beBytes 2 n
  | uint32LE n => leBytes 4 n
  | uint32BE n => beBytes 4 n
  | bytes b => b

/-- A read at this position gives the field's own value. -/
def Readable (position : Nat) : Field → Prop
  | bytes b => b = [] ∨ position = 0
  | _ => True

end Field

/-- No byte string but an empty one stands behind the front. -/
def Readable : Nat → List Field → Prop
  | _, [] => True
  | position, f :: rest => f.Readable position ∧ Readable (position + f.kind.size) rest

def totalSize (fields : List Field) : Nat := (fields.map fun f => f.kind.size).sum

/-- The fields are written to a buffer of their size, and read from it again in order. -/
def Undone (fields : List Field) : Prop :=
  ∃ c, serialized (totalSize fields) (fields.forM Field.write) = some c ∧
    Method.run (fields.mapM fun f : Field => f.kind.read) ⟨c.buffer,0⟩ =
      (.returned (fields.map Field.value),⟨c.buffer,c.buffer.length⟩)

section Reads
open ReaderObject

private theorem run_readStandard_some {fn : Bytes → Nat → Option Nat} {len v : Nat} {r : BufferReader}
    (h : fn r.buffer r.position = some v) :
    (readStandard fn len).run r = (.returned v,{ r with position := r.position + len }) := by
  rw [readStandard_eq]
  exact run_keeping_some (BufferReader.run_readStandard h)

private theorem run_readStandard_none {fn : Bytes → Nat → Option Nat} {len : Nat} {r : BufferReader}
    (h : fn r.buffer r.position = none) : (readStandard fn len).run r = (.threw,r) := by
  rw [readStandard_eq]
  exact run_keeping_none (BufferReader.run_readStandard_eof h)

/-- A read past the end throws, and the position stays. -/
theorem FieldKind.run_past_end (k : FieldKind) {r : BufferReader}
    (h : r.buffer.length < r.position + k.size) : k.read.run r = (.threw,r) := by
  have hend : ¬ r.position + k.size ≤ r.buffer.length := Nat.not_le.mpr h
  cases k with
  | bytes len =>
    rw [read, readBytes_eq]
    exact run_bind_threw (run_keeping_none (BufferReader.run_readBytes_eof hend)) _
  | uint8 | uint16LE | uint16BE | uint32LE | uint32BE =>
    exact run_bind_threw (run_readStandard_none (if_neg hend)) _

theorem Field.encode_length (f : Field) : f.encode.length = f.kind.size := by
  cases f <;> simp [encode, kind, FieldKind.size]

theorem Field.writes {f : Field} (h : f.InRange) : Writes f.write f.encode := by
  cases f with
  | uint8 n => exact BufferWriter.writes_uint 1 h
  | uint16LE n => exact BufferWriter.writes_uintLE 2 h
  | uint16BE n => exact BufferWriter.writes_uint 2 h
  | uint32LE n => exact BufferWriter.writes_uintLE 4 h
  | uint32BE n => exact BufferWriter.writes_uint 4 h
  | bytes b => exact BufferWriter.writes_bytes b

/-- From the front the slice is the string; from further on it is shorter. -/
theorem slice_eq_iff (front b back : Bytes) :
    slice (front ++ b ++ back) front.length b.length = b ↔ b = [] ∨ front.length = 0 := by
  constructor
  · intro h
    have hshort := slice_length_le (front ++ b ++ back) front.length b.length
    rw [h] at hshort
    by_cases hb : b = []
    · exact .inl hb
    · have := List.length_pos_of_ne_nil hb
      exact .inr (by omega)
  · rintro (rfl | hfront)
    · exact slice_of_le _ (Nat.zero_le _)
    · obtain rfl := List.length_eq_zero_iff.mp hfront
      simpa using slice_append [] b back

/-- Every field is read in its place, though perhaps not as what it is. -/
theorem Field.run_read {f : Field} (h : f.InRange) (front back : Bytes) :
    ∃ v, f.kind.read.run ⟨front ++ f.encode ++ back,front.length⟩ =
        (.returned v,⟨front ++ f.encode ++ back,front.length + f.kind.size⟩) ∧
      (v = f.value ↔ f.Readable front.length) := by
  cases f with
  | uint8 n =>
    refine ⟨.number n,?_,iff_of_true rfl trivial⟩
    exact run_bind_returned (run_readStandard_some (readUIntBE_append 1 front back h)) _
  | uint16LE n =>
    refine ⟨.number n,?_,iff_of_true rfl trivial⟩
    exact run_bind_returned (run_readStandard_some (readUIntLE_append 2 front back h)) _
  | uint16BE n =>
    refine ⟨.number n,?_,iff_of_true rfl trivial⟩
    exact run_bind_returned (run_readStandard_some (readUIntBE_append 2 front back h)) _
  | uint32LE n =>
    refine ⟨.number n,?_,iff_of_true rfl trivial⟩
    exact run_bind_returned (run_readStandard_some (readUIntLE_append 4 front back h)) _
  | uint32BE n =>
    refine ⟨.number n,?_,iff_of_true rfl trivial⟩
    exact run_bind_returned (run_readStandard_some (readUIntBE_append 4 front back h)) _
  | bytes b =>
    refine ⟨.bytes (slice (front ++ b ++ back) front.length b.length),?_,?_⟩
    · rw [kind, FieldKind.read, readBytes_eq]
      exact run_bind_returned (run_keeping_some (BufferReader.run_readBytes_of_le (by simp [encode]))) _
    · rw [value, Value.bytes.injEq]
      exact slice_eq_iff front b back

/-- From any position on, the values come back exactly if all of them are readable there. -/
theorem run_reads_iff {fields : List Field} (h : ∀ f ∈ fields, f.InRange) (front : Bytes) :
    Method.run (fields.mapM fun f : Field => f.kind.read)
        ⟨front ++ fields.flatMap Field.encode,front.length⟩ =
      (.returned (fields.map Field.value),⟨front ++ fields.flatMap Field.encode,
        (front ++ fields.flatMap Field.encode).length⟩) ↔ Readable front.length fields := by
  induction fields generalizing front with
  | nil => simp [Readable]
  | cons f fields ih =>
    obtain ⟨v,hread,hv⟩ := Field.run_read (h f List.mem_cons_self) front (fields.flatMap Field.encode)
    have hrest := ih (fun g hg => h g (List.mem_cons_of_mem f hg)) (front ++ f.encode)
    rw [List.length_append, f.encode_length] at hrest
    rw [List.flatMap_cons, ← List.append_assoc, List.mapM_cons, run_bind_returned hread, Readable, ← hv,
      ← hrest, run_bind]
    rcases Method.run (fields.mapM fun f : Field => f.kind.read)
      ⟨front ++ f.encode ++ fields.flatMap Field.encode,front.length + f.kind.size⟩ with ⟨vs | _,t⟩
    · simp [and_assoc, List.length_append, f.encode_length]
    · simp

end Reads

private theorem totalSize_eq (fields : List Field) : totalSize fields = (fields.flatMap Field.encode).length := by
  induction fields with
  | nil => rfl
  | cons f fields ih =>
    rw [List.flatMap_cons, List.length_append, f.encode_length, ← ih]
    rfl

private theorem undone_iff_readable {fields : List Field} (h : ∀ f ∈ fields, f.InRange) :
    Undone fields ↔ Readable 0 fields := by
  obtain ⟨c,hc,hbuffer,_⟩ := serialized_of_writes
    (Writes.loop fields Field.write Field.encode fun f hf => Field.writes (h f hf)) (totalSize_eq fields)
  have hiff : _ ↔ Readable 0 fields := run_reads_iff h []
  rw [List.nil_append, ← hbuffer] at hiff
  rw [← hiff]
  constructor
  · rintro ⟨d,hd,hrun⟩
    cases hc.symm.trans hd
    exact hrun
  · exact fun hrun => ⟨c,hc,hrun⟩

/-- The reader undoes the writer exactly if no byte string but an empty one stands behind the
front; and a read past the end always throws and moves nothing. -/
theorem reader_undoes_writer_iff {fields : List Field} (h : ∀ f ∈ fields, f.InRange) :
    (Undone fields ↔ Readable 0 fields) ∧
      ∀ (k : FieldKind) (r : BufferReader), r.buffer.length < r.position + k.size →
        k.read.run r = (.threw,r) :=
  ⟨undone_iff_readable h,fun k _ => k.run_past_end⟩

/-- Two bytes at the front, a number in little endian, and an empty string. -/
theorem reader_undoes_writer_front : Undone [.bytes [1,2],.uint16LE 513,.bytes []] :=
  (reader_undoes_writer_iff (by simp [Field.InRange])).1.mpr ⟨.inr rfl,trivial,.inl rfl,trivial⟩

/-- A byte string of one byte behind a byte: what is read of it is empty. -/
theorem reader_undoes_writer_fails : (∀ f ∈ [Field.uint8 1,.bytes [2]], f.InRange) ∧
    ¬ Undone [.uint8 1,.bytes [2]] := by
  have hrange : ∀ f ∈ [Field.uint8 1,.bytes [2]], f.InRange := by simp [Field.InRange]
  refine ⟨hrange,fun hundone => ?_⟩
  obtain ⟨_,hbytes,_⟩ := (undone_iff_readable hrange).mp hundone
  rcases hbytes with hbytes | hbytes <;> cases hbytes

end CryptoPlaypen.Lightning
