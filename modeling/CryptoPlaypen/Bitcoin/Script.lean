import CryptoPlaypen.Bitcoin.BufferCursor

/-! Scripts compiled from opcodes and data. The package that encodes the length of
a push is a parameter with the law of its documentation. -/
namespace CryptoPlaypen.Bitcoin
open Buffer

/-- `pushdata.encodingLength` and the bytes that `pushdata.encode` stores. -/
structure PushData where
  encodingLength : Nat → Nat
  encode : Nat → Bytes

def pushLength (n : Nat) : Bytes :=
  if n < 0x4c then [UInt8.ofNat n]
  else if n < 2 ^ 8 then [0x4c, UInt8.ofNat n]
  else if n < 2 ^ 16 then 0x4d :: leBytes 2 n
  else 0x4e :: leBytes 4 n

structure PushDataLaws (D : PushData) : Prop where
  encodingLength : ∀ n < 2 ^ 32, D.encodingLength n = (pushLength n).length
  encode : ∀ n < 2 ^ 32, D.encode n = pushLength n

def wirePushData : PushData where
  encodingLength n := (pushLength n).length
  encode := pushLength

theorem wirePushData_laws : PushDataLaws wirePushData := ⟨fun _ _ => rfl,fun _ _ => rfl⟩

namespace OPS

abbrev OP_0 : Nat := 0
abbrev OP_1NEGATE : Nat := 79
abbrev OP_RESERVED : Nat := 80
abbrev OP_DUP : Nat := 118
abbrev OP_EQUALVERIFY : Nat := 136
abbrev OP_HASH160 : Nat := 169
abbrev OP_CODESEPARATOR : Nat := 171
abbrev OP_CHECKSIG : Nat := 172
end OPS

inductive Chunk where
  | opcode : Nat → Chunk
  | data : Bytes → Chunk
  deriving DecidableEq, Repr

/-- The opcode that stands for a datum of at most one byte, if there is one. -/
def asMinimalOP : Bytes → Option Nat
  | [] => some OPS.OP_0
  | [b] =>
    if 1 ≤ b.toNat ∧ b.toNat ≤ 16 then some (OPS.OP_RESERVED + b.toNat)
    else if b = 0x81 then some OPS.OP_1NEGATE
    else none
  | _ => none

def scriptSize (D : PushData) (chunks : List Chunk) : Nat :=
  chunks.foldl (fun accum chunk => match chunk with
    | .data d =>
      if d.length = 1 ∧ asMinimalOP d ≠ none then accum + 1
      else accum + D.encodingLength d.length + d.length
    | .opcode _ => accum + 1) 0

def writeChunk (D : PushData) : Chunk → CellWriter UInt8 Unit
  | .data d =>
    match asMinimalOP d with
    | some opcode => BufferCursor.writeUInt8 opcode
    | none => do
      BufferCursor.writeBytes (D.encode d.length)
      CellWriter.store d.length fun target start => some (copyInto d target start)
  | .opcode op => BufferCursor.writeUInt8 op

/-- The offset has to end up at the end of the buffer. -/
def compileScript (D : PushData) (chunks : List Chunk) : Option Bytes := do
  let cursor ← serialized (scriptSize D chunks) (chunks.forM (writeChunk D))
  if cursor.position = cursor.buffer.length then pure cursor.buffer else none

def p2pkhScript (D : PushData) (hash160PubKey : Bytes) : Option Bytes :=
  compileScript D [.opcode OPS.OP_DUP, .opcode OPS.OP_HASH160, .data hash160PubKey,
    .opcode OPS.OP_EQUALVERIFY, .opcode OPS.OP_CHECKSIG]

namespace Chunk

def Fits : Chunk → Prop
  | opcode op => op < 256
  | data d => d.length < 2 ^ 32

def bytes : Chunk → Bytes
  | opcode op => leBytes 1 op
  | data d =>
    match asMinimalOP d with
    | some op => leBytes 1 op
    | none => pushLength d.length ++ d

end Chunk

private theorem asMinimalOP_lt {d : Bytes} {op : Nat} (h : asMinimalOP d = some op) : op < 256 := by
  unfold asMinimalOP at h
  split at h
  · cases h
    decide
  · split at h
    · cases h
      simp only [OPS.OP_RESERVED]
      omega
    · split at h <;> cases h
      decide
  · cases h

private theorem asMinimalOP_length {d : Bytes} {op : Nat} (h : asMinimalOP d = some op) :
    d.length = 0 ∨ d.length = 1 := by
  match d, h with
  | [], _ => exact .inl rfl
  | [b], _ => exact .inr rfl

variable {D : PushData} (laws : PushDataLaws D)
include laws

private theorem writes_chunk {chunk : Chunk} (h : chunk.Fits) : Writes (writeChunk D chunk) chunk.bytes := by
  cases chunk with
  | opcode op => exact BufferCursor.writes_uintLE 1 h
  | data d =>
    have hcopy : Writes (CellWriter.store d.length fun target start => some (copyInto d target start)) d :=
      Writes.store d fun front back hroom => congrArg some (copyInto_append d front back hroom)
    cases hmin : asMinimalOP d with
    | some op =>
      simp only [writeChunk, Chunk.bytes, hmin]
      exact BufferCursor.writes_uintLE 1 (asMinimalOP_lt hmin)
    | none =>
      simp only [writeChunk, Chunk.bytes, hmin, laws.encode _ h]
      exact (BufferCursor.writes_bytes _).seq hcopy

theorem writes_chunks {chunks : List Chunk} (h : ∀ chunk ∈ chunks, chunk.Fits) :
    Writes (chunks.forM (writeChunk D)) (chunks.flatMap Chunk.bytes) :=
  Writes.loop chunks (writeChunk D) Chunk.bytes fun chunk hmem => writes_chunk laws (h chunk hmem)

theorem scriptSize_eq {chunks : List Chunk} (h : ∀ chunk ∈ chunks, chunk.Fits) :
    scriptSize D chunks = (chunks.flatMap Chunk.bytes).length := by
  rw [scriptSize, foldl_length chunks Chunk.bytes]
  · exact Nat.zero_add _
  · intro chunk hmem accum
    cases chunk with
    | opcode op => simp [Chunk.bytes]
    | data d =>
      have hlength : D.encodingLength d.length = (pushLength d.length).length :=
        laws.encodingLength _ (h _ hmem)
      simp only [hlength, Chunk.bytes]
      cases hmin : asMinimalOP d with
      | none => simp [Nat.add_assoc]
      | some op =>
        -- an empty datum is counted as a push of nothing, which is as long
        rcases asMinimalOP_length hmin with hzero | hone
        · simp [hzero, pushLength]
        · simp [hone]

/-- The size pass and the write pass agree, and the offset check never fails. -/
theorem compileScript_eq {chunks : List Chunk} (h : ∀ chunk ∈ chunks, chunk.Fits) :
    compileScript D chunks = some (chunks.flatMap Chunk.bytes) := by
  obtain ⟨extents,_,hrun⟩ := (writes_chunks laws h).fill
    (show (zeros (scriptSize D chunks)).length = _ by rw [zeros_length, scriptSize_eq laws h])
  rw [compileScript, serialized, hrun]
  exact if_pos rfl

omit laws in
/-- A datum of usual size stands behind its length. -/
theorem data_bytes {d : Bytes} (h2 : 2 ≤ d.length) (h : d.length < 0x4c) :
    (Chunk.data d).bytes = UInt8.ofNat d.length :: d := by
  match d, h2 with
  | a :: b :: rest, _ =>
    have hpush : pushLength (a :: b :: rest).length = [UInt8.ofNat (a :: b :: rest).length] := if_pos h
    change pushLength (a :: b :: rest).length ++ (a :: b :: rest) = _
    rw [hpush]
    rfl

theorem p2pkhScript_eq {hash160PubKey : Bytes} (h : hash160PubKey.length = 20) :
    p2pkhScript D hash160PubKey =
      some ([0x76, 0xa9, 0x14] ++ hash160PubKey ++ [0x88, 0xac]) := by
  have hopcode (op : Nat) : (Chunk.opcode op).Fits ↔ op < 256 := Iff.rfl
  have hdata : (Chunk.data hash160PubKey).Fits := by simp [Chunk.Fits, h]
  rw [p2pkhScript, compileScript_eq laws (by simp [hopcode, hdata, OPS.OP_DUP, OPS.OP_HASH160,
    OPS.OP_EQUALVERIFY, OPS.OP_CHECKSIG])]
  have hbytes := data_bytes (d := hash160PubKey) (by omega) (by omega)
  change some (0x76 :: 0xa9 :: ((Chunk.data hash160PubKey).bytes ++ [0x88, 0xac])) = _
  rw [hbytes, h]
  rfl

end CryptoPlaypen.Bitcoin
