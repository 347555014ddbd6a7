import CryptoPlaypen.Buffer.NodeBuffer

/-! The positional reader and writer that the message codecs share. -/
namespace CryptoPlaypen.Lightning
open Buffer

structure BufferReader where
  buffer : Bytes
  position : Nat
  deriving DecidableEq, Repr

namespace BufferReader

def readStandard (fn : Bytes → Nat → Option Nat) (len : Nat) : StateT BufferReader Option Nat :=
  fun r => (fn r.buffer r.position).map fun v => (v, { r with position := r.position + len })

def readUInt8 : StateT BufferReader Option Nat := readStandard Buffer.readUInt8 1
def readUInt16LE : StateT BufferReader Option Nat := readStandard Buffer.readUInt16LE 2
def readUInt16BE : StateT BufferReader Option Nat := readStandard Buffer.readUInt16BE 2
def readUInt32LE : StateT BufferReader Option Nat := readStandard Buffer.readUInt32LE 4
def readUInt32BE : StateT BufferReader Option Nat := readStandard Buffer.readUInt32BE 4

/-- The second argument of the slice is an end, not a length. -/
def readBytes (len : Nat) : StateT BufferReader Option Bytes := fun r =>
  if r.position + len ≤ r.buffer.length then
    some (slice r.buffer r.position len, { r with position := r.position + len })
  else none

theorem run_readStandard {fn : Bytes → Nat → Option Nat} {len n : Nat} {r : BufferReader}
    (h : fn r.buffer r.position = some n) :
    (readStandard fn len).run r = some (n, { r with position := r.position + len }) := by
  change (fn r.buffer r.position).map _ = _
  rw [h]
  rfl

theorem run_readStandard_eof {fn : Bytes → Nat → Option Nat} {len : Nat} {r : BufferReader}
    (h : fn r.buffer r.position = none) : (readStandard fn len).run r = none :=
  congrArg (Option.map _) h

theorem run_readBytes_of_le {len : Nat} {r : BufferReader} (h : r.position + len ≤ r.buffer.length) :
    (readBytes len).run r =
      some (slice r.buffer r.position len, { r with position := r.position + len }) := if_pos h

theorem run_readBytes_eof {len : Nat} {r : BufferReader} (h : ¬ r.position + len ≤ r.buffer.length) :
    (readBytes len).run r = none := if_neg h

theorem run_readBytes {len : Nat} {r s : BufferReader} {b : Bytes}
    (h : (readBytes len).run r = some (b, s)) :
    b = slice r.buffer r.position len ∧ s = { r with position := r.position + len } := by
  change (if _ then _ else _) = _ at h
  split at h
  · cases h
    exact ⟨rfl,rfl⟩
  · cases h

end BufferReader

/-- What a message field can hold when it reaches the writer. -/
inductive Value where
  | bytes : Bytes → Value
  | number : Nat → Value
  deriving DecidableEq, Repr

namespace BufferWriter

def writeStandard (fn : Int → Bytes → Nat → Option Bytes) (val : Nat) (len : Nat) :
    CellWriter UInt8 Unit := CellWriter.store len (fn val)

def writeUInt8 (val : Nat) : CellWriter UInt8 Unit := writeStandard (writeUIntBE 1) val 1
def writeUInt16LE (val : Nat) : CellWriter UInt8 Unit := writeStandard (writeUIntLE 2) val 2
def writeUInt16BE (val : Nat) : CellWriter UInt8 Unit := writeStandard (writeUIntBE 2) val 2
def writeUInt32LE (val : Nat) : CellWriter UInt8 Unit := writeStandard (writeUIntLE 4) val 4
def writeUInt32BE (val : Nat) : CellWriter UInt8 Unit := writeStandard (writeUIntBE 4) val 4

/-- A number has no `copy` method, so the call throws. -/
def writeBytes : Value → CellWriter UInt8 Unit
  | .bytes b => CellWriter.store b.length fun target start => some (copyInto b target start)
  | .number _ => failure

theorem writes_uint (w : Nat) {val : Nat} (h : val < 256 ^ w) :
    Writes (writeStandard (writeUIntBE w) val w) (beBytes w val) := by
  have hput := Writes.store (f := writeUIntBE w val) (beBytes w val) fun front back hroom =>
    by simpa using writeUIntBE_append w front back h (by simpa using hroom)
  rwa [beBytes_length] at hput

theorem writes_uintLE (w : Nat) {val : Nat} (h : val < 256 ^ w) :
    Writes (writeStandard (writeUIntLE w) val w) (leBytes w val) := by
  have hput := Writes.store (f := writeUIntLE w val) (leBytes w val) fun front back hroom =>
    by simpa using writeUIntLE_append w front back h (by simpa using hroom)
  rwa [leBytes_length] at hput

theorem writes_bytes (b : Bytes) : Writes (writeBytes (.bytes b)) b :=
  Writes.store (f := fun target start => some (copyInto b target start)) b
    fun front back hroom => congrArg some (copyInto_append b front back hroom)

end BufferWriter

/-- `buffer.writeUInt16BE(val, offset)` and its siblings on a plain buffer. -/
def putUIntBE (w : Nat) (val offset : Nat) : CellWriter UInt8 Unit :=
  CellWriter.storeAt offset w (writeUIntBE w val)

/-- `source.copy(buffer, offset)` on a plain buffer. -/
def putBytes (source : Bytes) (offset : Nat) : CellWriter UInt8 Unit :=
  CellWriter.storeAt offset source.length fun target start => some (copyInto source target start)

theorem writesAt_uint (w : Nat) {val : Nat} (start : Nat) (h : val < 256 ^ w) :
    WritesAt start (putUIntBE w val start) (beBytes w val) := by
  have hput := WritesAt.storeAt (f := writeUIntBE w val) (beBytes w val) start
    fun front back hroom => by simpa using writeUIntBE_append w front back h (by simpa using hroom)
  rwa [beBytes_length] at hput

theorem writesAt_bytes (b : Bytes) (start : Nat) : WritesAt start (putBytes b start) b :=
  WritesAt.storeAt (f := fun target start => some (copyInto b target start)) b start
    fun front back hroom => congrArg some (copyInto_append b front back hroom)

end CryptoPlaypen.Lightning
