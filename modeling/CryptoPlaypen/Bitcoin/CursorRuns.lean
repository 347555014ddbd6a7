import CryptoPlaypen.Bitcoin.BufferCursor
import CryptoPlaypen.Objects.Method

/-! `BufferCursor` as an object: any sequence of its reads and writes, also of ones that
throw, and what reading back gives. -/
namespace CryptoPlaypen.Bitcoin
open Buffer Objects

structure CursorObject where
  buffer : Bytes
  position : Nat
  deriving DecidableEq, Repr

namespace CursorObject
open Method

inductive Value where
  | undefined
  | number : Nat → Value
  | bytes : Bytes → Value
  deriving DecidableEq, Repr

def fresh (buffer : Bytes) : CursorObject := ⟨buffer,0⟩

def readStandard (fn : Bytes → Nat → Option Nat) (len : Nat) : Method CursorObject Nat := do
  let cursor ← self
  let result ← Method.attempt (fn cursor.buffer cursor.position)
  assign fun cursor => { cursor with position := cursor.position + len }
  pure result

def writeStandard (fn : Int → Bytes → Nat → Option Bytes) (val : Int) (len : Nat) :
    Method CursorObject Unit := do
  let cursor ← self
  let buffer ← Method.attempt (fn val cursor.buffer cursor.position)
  assign fun cursor => { cursor with buffer := buffer }
  assign fun cursor => { cursor with position := cursor.position + len }

def readUInt8 : Method CursorObject Nat := readStandard Buffer.readUInt8 1
def readUInt16LE : Method CursorObject Nat := readStandard Buffer.readUInt16LE 2
def readUInt16BE : Method CursorObject Nat := readStandard Buffer.readUInt16BE 2
def readUInt32LE : Method CursorObject Nat := readStandard Buffer.readUInt32LE 4
def readUInt32BE : Method CursorObject Nat := readStandard Buffer.readUInt32BE 4

/-- Without a length, all that is left is read. -/
def readBytes (len : Option Nat) : Method CursorObject Bytes :=
  match len with
  | some 0 => pure []
  | some len => do
    let cursor ← self
    raiseIf (cursor.buffer.length < cursor.position + len)
    let result := slice cursor.buffer cursor.position (cursor.position + len)
    assign fun cursor => { cursor with position := cursor.position + len }
    pure result
  | none => do
    let cursor ← self
    raiseIf (cursor.position = cursor.buffer.length)
    let result := cursor.buffer.drop cursor.position
    assign fun cursor => { cursor with position := cursor.buffer.length }
    pure result

def writeUInt8 (val : Int) : Method CursorObject Unit := writeStandard (writeUIntLE 1) val 1
def writeUInt16LE (val : Int) : Method CursorObject Unit := writeStandard (writeUIntLE 2) val 2
def writeUInt16BE (val : Int) : Method CursorObject Unit := writeStandard (writeUIntBE 2) val 2
def writeUInt32LE (val : Int) : Method CursorObject Unit := writeStandard (writeUIntLE 4) val 4
def writeInt32LE (val : Int) : Method CursorObject Unit := writeStandard Buffer.writeInt32LE val 4
def writeUInt32BE (val : Int) : Method CursorObject Unit := writeStandard (writeUIntBE 4) val 4

def writeBytes (source : Bytes) : Method CursorObject Unit :=
  if source = [] then pure ()
  else do
    let cursor ← self
    raiseIf (cursor.buffer.length < cursor.position + source.length)
    assign fun cursor => { cursor with buffer := copyInto source cursor.buffer cursor.position }
    assign fun cursor => { cursor with position := cursor.position + source.length }

def writeUInt64LE (P : Packages) (value : Amount) : Method CursorObject Unit := do
  let value ← Method.attempt value.toBN
  let source ← Method.attempt (P.toBuffer value)
  writeBytes source

inductive Reading where
  | uint8
  | uint16LE
  | uint16BE
  | uint32LE
  | uint32BE
  | bytes : Option Nat → Reading
  deriving DecidableEq, Repr

inductive Writing where
  | uint8 : Int → Writing
  | uint16LE : Int → Writing
  | uint16BE : Int → Writing
  | uint32LE : Int → Writing
  | int32LE : Int → Writing
  | uint32BE : Int → Writing
  | uint64LE : Amount → Writing
  | bytes : Bytes → Writing
  deriving DecidableEq, Repr

inductive Operation where
  | read : Reading → Operation
  | write : Writing → Operation
  deriving DecidableEq, Repr

namespace Reading

def method : Reading → Method CursorObject Value
  | uint8 => return .number (← readUInt8)
  | uint16LE => return .number (← readUInt16LE)
  | uint16BE => return .number (← readUInt16BE)
  | uint32LE => return .number (← readUInt32LE)
  | uint32BE => return .number (← readUInt32BE)
  | bytes len => return .bytes (← readBytes len)

def size (left : Nat) : Reading → Option Nat
  | uint8 => if 1 ≤ left then some 1 else none
  | uint16LE | uint16BE => if 2 ≤ left then some 2 else none
  | uint32LE | uint32BE => if 4 ≤ left then some 4 else none
  | bytes (some len) => if len ≤ left then some len else none
  | bytes none => if left = 0 then none else some left

def decode (b : Bytes) : Reading → Value
  | uint8 | uint16BE | uint32BE => .number (beValue b)
  | uint16LE | uint32LE => .number (leValue b)
  | bytes _ => .bytes b

end Reading

namespace Writing

def method (P : Packages) : Writing → Method CursorObject Unit
  | uint8 val => writeUInt8 val
  | uint16LE val => writeUInt16LE val
  | uint16BE val => writeUInt16BE val
  | uint32LE val => writeUInt32LE val
  | int32LE val => writeInt32LE val
  | uint32BE val => writeUInt32BE val
  | uint64LE value => writeUInt64LE P value
  | bytes source => writeBytes source

def unsigned (bytes : Nat → Nat → Bytes) (w : Nat) : Int → Option Bytes
  | .ofNat n => if n < 256 ^ w then some (bytes w n) else none
  | .negSucc _ => none

def stored (P : Packages) : Writing → Option Bytes
  | uint8 val => unsigned leBytes 1 val
  | uint16LE val => unsigned leBytes 2 val
  | uint16BE val => unsigned beBytes 2 val
  | uint32LE val => unsigned leBytes 4 val
  | int32LE val => if -2 ^ 31 ≤ val ∧ val < 2 ^ 31 then some (int32Bytes val) else none
  | uint32BE val => unsigned beBytes 4 val
  | uint64LE value => value.toBN.bind P.toBuffer
  | bytes source => some source

def kind : Writing → Reading
  | uint8 _ => .uint8
  | uint16LE _ => .uint16LE
  | uint16BE _ => .uint16BE
  | uint32LE _ => .uint32LE
  | int32LE _ => .bytes (some 4)
  | uint32BE _ => .uint32BE
  | uint64LE _ => .bytes (some 8)
  | bytes source => .bytes (some source.length)

def value : Writing → Value
  | uint8 val | uint16LE val | uint16BE val | uint32LE val | uint32BE val => .number val.toNat
  | int32LE val => .bytes (int32Bytes val)
  | uint64LE value => .bytes (leBytes 8 value.units)
  | bytes source => .bytes source

def InDomain : Writing → Prop
  | uint64LE value => value.units < 2 ^ 64
  | _ => True

end Writing

namespace Operation

def method (P : Packages) : Operation → Method CursorObject Value
  | read r => r.method
  | write w => do
    w.method P
    pure .undefined

end Operation

/-- The object after a sequence of operations; an exception ends its operation only. -/
def after (P : Packages) (operations : List Operation) (cursor : CursorObject) : CursorObject :=
  operations.foldl (fun cursor operation => ((operation.method P).run cursor).2) cursor

def writeAll (P : Packages) (writes : List Writing) : Method CursorObject Unit :=
  writes.forM fun w => w.method P

def readAll (writes : List Writing) : Method CursorObject (List Value) :=
  writes.mapM fun w => w.kind.method

/-- A write in one step: the bytes go in at the position, if there are any and they fit. -/
def put (stored : Option Bytes) (cursor : CursorObject) : Outcome Unit × CursorObject :=
  match stored with
  | some out =>
    if cursor.position + out.length ≤ cursor.buffer.length then
      (.returned (),⟨overwrite cursor.buffer cursor.position out,cursor.position + out.length⟩)
    else (.threw,cursor)
  | none => (.threw,cursor)

/-- A read in one step, of as many bytes as there are. -/
def take (size : Option Nat) (decode : Bytes → Value) (cursor : CursorObject) :
    Outcome Value × CursorObject :=
  match size with
  | some n => (.returned (decode ((cursor.buffer.drop cursor.position).take n)),
      { cursor with position := cursor.position + n })
  | none => (.threw,cursor)

section Encoders

/-- A write as the encoders make it, with the record of its range forgotten. -/
def forgetting (w : CellWriter UInt8 Unit) : Method CursorObject Unit := fun cursor =>
  match w.run ⟨cursor.buffer,cursor.position,[]⟩ with
  | some (_,written) => (.returned (),⟨written.buffer,written.position⟩)
  | none => (.threw,cursor)

private theorem run_forgetting_store {f : Bytes → Nat → Option Bytes} {cursor : CursorObject} {o : Option Bytes}
    (h : f cursor.buffer cursor.position = o) (len : Nat) :
    (forgetting (CellWriter.store len f)).run cursor =
      (o.map fun b => (Outcome.returned (),CursorObject.mk b (cursor.position + len))).getD (.threw,cursor) := by
  have hrun : (CellWriter.store len f).run ⟨cursor.buffer,cursor.position,[]⟩ = o.map fun b =>
      ((),⟨b,cursor.position + len,[(cursor.position,cursor.position + len)]⟩) :=
    congrArg (Option.map _) h
  rw [Method.run, forgetting, hrun]
  cases o <;> rfl

theorem writeStandard_eq (fn : Int → Bytes → Nat → Option Bytes) (val : Int) (len : Nat) :
    writeStandard fn val len = forgetting (BufferCursor.writeStandard fn val len) := by
  funext cursor
  change (writeStandard fn val len).run cursor = (forgetting _).run cursor
  cases hcall : fn val cursor.buffer cursor.position with
  | none =>
    rw [BufferCursor.writeStandard, run_forgetting_store hcall]
    simp only [writeStandard, Method.run_bind, run_self, hcall, run_attempt_none]
    rfl
  | some b =>
    rw [BufferCursor.writeStandard, run_forgetting_store hcall]
    simp only [writeStandard, Method.run_bind, run_self, hcall, run_attempt_some, run_assign]
    rfl

private theorem writeBytes_eq (source : Bytes) : writeBytes source = forgetting (BufferCursor.writeBytes source) := by
  funext cursor
  change (writeBytes source).run cursor = (forgetting _).run cursor
  unfold writeBytes BufferCursor.writeBytes
  by_cases hempty : source = []
  · rw [if_pos hempty, if_pos hempty]
    rfl
  · rw [if_neg hempty, if_neg hempty]
    by_cases hroom : cursor.position + source.length ≤ cursor.buffer.length
    · rw [run_forgetting_store (if_pos hroom)]
      simp only [Method.run_bind, run_self, run_raiseIf, if_neg (Nat.not_lt.mpr hroom), run_assign]
      rfl
    · rw [run_forgetting_store (if_neg hroom)]
      simp only [Method.run_bind, run_self, run_raiseIf, if_pos (Nat.not_le.mp hroom)]
      rfl

theorem writeUInt64LE_eq (P : Packages) (value : Amount) :
    writeUInt64LE P value = forgetting (BufferCursor.writeUInt64LE P value) := by
  unfold writeUInt64LE BufferCursor.writeUInt64LE
  cases value.toBN with
  | none => rfl
  | some n =>
    change (Method.attempt (P.toBuffer n) >>= writeBytes) = _
    rw [Option.bind_some]
    cases P.toBuffer n with
    | none => rfl
    | some source => exact writeBytes_eq source

end Encoders

section Steps
variable {cursor : CursorObject} (hcursor : cursor.position ≤ cursor.buffer.length)

private theorem run_writeStandard {fn : Int → Bytes → Nat → Option Bytes} {val : Int} {len : Nat}
    {stored : Option Bytes} (hlength : ∀ out, stored = some out → out.length = len)
    (hfn : ∀ b offset, fn val b offset =
      if offset + len ≤ b.length then stored.map (overwrite b offset) else none) :
    (writeStandard fn val len).run cursor = put stored cursor := by
  have hcall := hfn cursor.buffer cursor.position
  cases hstored : stored with
  | none =>
    rw [hstored, Option.map_none, ite_self] at hcall
    simp only [writeStandard, Method.run_bind, run_self, hcall, run_attempt_none, put]
  | some out =>
    obtain rfl := hlength out hstored
    by_cases hroom : cursor.position + out.length ≤ cursor.buffer.length
    · rw [if_pos hroom, hstored, Option.map_some] at hcall
      simp only [writeStandard, Method.run_bind, run_self, hcall, run_attempt_some, run_assign, put,
        if_pos hroom]
    · rw [if_neg hroom] at hcall
      simp only [writeStandard, Method.run_bind, run_self, hcall, run_attempt_none, put, if_neg hroom]

private theorem unsigned_length {bytes : Nat → Nat → Bytes} (hbytes : ∀ w n, (bytes w n).length = w) {w : Nat}
    {val : Int} {out : Bytes} (h : Writing.unsigned bytes w val = some out) : out.length = w := by
  cases val with
  | ofNat n =>
    simp only [Writing.unsigned, Option.ite_none_right_eq_some, Option.some.injEq] at h
    rw [← h.2, hbytes]
  | negSucc n => cases h

private theorem run_writeUIntLE (w : Nat) (val : Int) :
    (writeStandard (writeUIntLE w) val w).run cursor = put (Writing.unsigned leBytes w val) cursor := by
  refine run_writeStandard (fun _ => unsigned_length leBytes_length) fun b offset => ?_
  cases val with
  | ofNat n =>
    by_cases hfits : n < 256 ^ w <;> simp [writeUIntLE, Writing.unsigned, hfits]
  | negSucc n => simp [writeUIntLE, Writing.unsigned]

private theorem run_writeUIntBE (w : Nat) (val : Int) :
    (writeStandard (writeUIntBE w) val w).run cursor = put (Writing.unsigned beBytes w val) cursor := by
  refine run_writeStandard (fun _ => unsigned_length beBytes_length) fun b offset => ?_
  cases val with
  | ofNat n =>
    by_cases hfits : n < 256 ^ w <;> simp [writeUIntBE, Writing.unsigned, hfits]
  | negSucc n => simp [writeUIntBE, Writing.unsigned]

private theorem run_writeInt32LE (val : Int) : (writeInt32LE val).run cursor =
    put (if -2 ^ 31 ≤ val ∧ val < 2 ^ 31 then some (int32Bytes val) else none) cursor := by
  refine run_writeStandard ?_ fun b offset => ?_
  · intro out h
    obtain ⟨_,hbytes⟩ := Option.ite_none_right_eq_some.mp h
    rw [← Option.some.inj hbytes, int32Bytes_length]
  · by_cases hfits : -2 ^ 31 ≤ val ∧ val < 2 ^ 31
    · rw [if_pos hfits, Buffer.writeInt32LE, Option.map_some]
      simp only [hfits.1, hfits.2, true_and]
    · rw [if_neg hfits, Option.map_none, ite_self, Buffer.writeInt32LE,
        if_neg fun h => hfits ⟨h.1,h.2.1⟩]

include hcursor

/-- An empty source is written too, as nothing. -/
theorem run_writeBytes (source : Bytes) : (writeBytes source).run cursor = put (some source) cursor := by
  by_cases hempty : source = []
  · subst hempty
    have hsame : overwrite cursor.buffer cursor.position [] = cursor.buffer := by simp [overwrite]
    rw [writeBytes, if_pos rfl, put, List.length_nil, Nat.add_zero, if_pos hcursor, hsame]
    rfl
  · by_cases hroom : cursor.position + source.length ≤ cursor.buffer.length
    · have hcopy : copyInto source cursor.buffer cursor.position =
          overwrite cursor.buffer cursor.position source := by
        rw [copyInto, overwrite, List.take_of_length_le (show source.length ≤ _ by omega)]
      simp only [writeBytes, if_neg hempty, Method.run_bind, run_self, run_raiseIf,
        if_neg (Nat.not_lt.mpr hroom), run_assign, put, if_pos hroom, hcopy]
    · simp only [writeBytes, if_neg hempty, Method.run_bind, run_self, run_raiseIf,
        if_pos (Nat.not_le.mp hroom), put, if_neg hroom]

/-- Every write is a write in one step. -/
theorem run_writing (P : Packages) (w : Writing) : (w.method P).run cursor = put (w.stored P) cursor := by
  cases w with
  | uint8 val => exact run_writeUIntLE 1 val
  | uint16LE val => exact run_writeUIntLE 2 val
  | uint16BE val => exact run_writeUIntBE 2 val
  | uint32LE val => exact run_writeUIntLE 4 val
  | int32LE val => exact run_writeInt32LE val
  | uint32BE val => exact run_writeUIntBE 4 val
  | bytes source => exact run_writeBytes hcursor source
  | uint64LE value =>
    simp only [Writing.method, Writing.stored, writeUInt64LE]
    cases value.toBN with
    | none => rfl
    | some n =>
      cases hsource : P.toBuffer n with
      | none => simp only [Method.run_bind, run_attempt_some, hsource, run_attempt_none,
          Option.bind_some, put]
      | some source =>
        simp only [Method.run_bind, run_attempt_some, hsource, Option.bind_some]
        exact run_writeBytes hcursor source

private theorem run_readStandard {fn : Bytes → Nat → Option Nat} {val : Bytes → Nat} {len : Nat}
    (hfn : ∀ b offset, fn b offset =
      if offset + len ≤ b.length then some (val ((b.drop offset).take len)) else none) :
    (do return Value.number (← readStandard fn len)).run cursor =
      take (if len ≤ cursor.buffer.length - cursor.position then some len else none)
        (fun b => .number (val b)) cursor := by
  have hcall := hfn cursor.buffer cursor.position
  by_cases hroom : cursor.position + len ≤ cursor.buffer.length
  · rw [if_pos hroom] at hcall
    simp only [readStandard, Method.run_bind, run_self, hcall, run_attempt_some, run_assign, run_pure,
      take, if_pos (show len ≤ cursor.buffer.length - cursor.position by omega)]
  · rw [if_neg hroom] at hcall
    simp only [readStandard, Method.run_bind, run_self, hcall, run_attempt_none, take,
      if_neg (show ¬ len ≤ cursor.buffer.length - cursor.position by omega)]

private theorem run_readBytes (len : Option Nat) : (do return Value.bytes (← readBytes len)).run cursor =
    take ((Reading.bytes len).size (cursor.buffer.length - cursor.position)) .bytes cursor := by
  rcases len with _ | _ | len
  · by_cases hend : cursor.position = cursor.buffer.length
    · simp only [readBytes, Method.run_bind, run_self, run_raiseIf, if_pos hend, Reading.size, take,
        if_pos (show cursor.buffer.length - cursor.position = 0 by omega)]
    · have hall : cursor.position + (cursor.buffer.length - cursor.position) = cursor.buffer.length := by
        omega
      have hrest : (cursor.buffer.drop cursor.position).take (cursor.buffer.length - cursor.position) =
          cursor.buffer.drop cursor.position := List.take_of_length_le (by simp)
      simp only [readBytes, Method.run_bind, run_self, run_raiseIf, if_neg hend, run_assign, run_pure,
        Reading.size, take, if_neg (show cursor.buffer.length - cursor.position ≠ 0 by omega), hall, hrest]
  · rfl
  · by_cases hroom : len + 1 ≤ cursor.buffer.length - cursor.position
    · have hslice : slice cursor.buffer cursor.position (cursor.position + (len + 1)) =
          (cursor.buffer.drop cursor.position).take (len + 1) := by
        rw [slice, List.take_add, List.drop_append_of_le_length (by simp; omega),
          List.drop_of_length_le (by simp), List.nil_append]
      simp only [readBytes, Method.run_bind, run_self, run_raiseIf, run_assign, run_pure, Reading.size, take,
        if_neg (show ¬ cursor.buffer.length < cursor.position + (len + 1) by omega), if_pos hroom, hslice]
    · simp only [readBytes, Method.run_bind, run_self, run_raiseIf, Reading.size, take,
        if_pos (show cursor.buffer.length < cursor.position + (len + 1) by omega), if_neg hroom]

/-- Every read is a read in one step. -/
theorem run_reading (r : Reading) : r.method.run cursor =
    take (r.size (cursor.buffer.length - cursor.position)) (r.decode ·) cursor := by
  cases r with
  | uint8 => exact run_readStandard hcursor fun _ _ => rfl
  | uint16LE => exact run_readStandard hcursor fun _ _ => rfl
  | uint16BE => exact run_readStandard hcursor fun _ _ => rfl
  | uint32LE => exact run_readStandard hcursor fun _ _ => rfl
  | uint32BE => exact run_readStandard hcursor fun _ _ => rfl
  | bytes len => exact run_readBytes hcursor len

end Steps

section Sequences
variable {cursor : CursorObject} {P : Packages}

private theorem size_le {r : Reading} {left n : Nat} (h : r.size left = some n) : n ≤ left := by
  cases r with
  | bytes len =>
    rcases len with _ | len
    · obtain ⟨_,hn⟩ := Option.ite_none_left_eq_some.mp h
      exact Nat.le_of_eq (Option.some.inj hn).symm
    · obtain ⟨hle,hn⟩ := Option.ite_none_right_eq_some.mp h
      exact Option.some.inj hn ▸ hle
  | _ =>
    obtain ⟨hle,hn⟩ := Option.ite_none_right_eq_some.mp h
    exact Option.some.inj hn ▸ hle

private theorem overwrite_length {b out : Bytes} {offset : Nat} (h : offset + out.length ≤ b.length) :
    (overwrite b offset out).length = b.length := by
  simp [overwrite]
  omega

private theorem overwrite_outside {b out : Bytes} {offset i : Nat} (h : offset + out.length ≤ b.length)
    (hi : i < offset ∨ offset + out.length ≤ i) : (overwrite b offset out)[i]? = b[i]? := by
  have hfront : (b.take offset).length = offset := List.length_take_of_le (by omega)
  rw [overwrite, List.append_assoc]
  rcases hi with hlt | hge
  · rw [List.getElem?_append_left (by omega), List.getElem?_take_of_lt hlt]
  · rw [List.getElem?_append_right (by omega), List.getElem?_append_right (by omega),
      List.getElem?_drop]
    congr 1
    omega

/-- Forward within the buffer, and only bytes that are passed are replaced. -/
structure Advances (c d : CursorObject) : Prop where
  forward : c.position ≤ d.position
  within : d.position ≤ d.buffer.length
  length : d.buffer.length = c.buffer.length
  outside : ∀ i, i < c.position ∨ d.position ≤ i → d.buffer[i]? = c.buffer[i]?

theorem Advances.refl (h : cursor.position ≤ cursor.buffer.length) : Advances cursor cursor :=
  ⟨Nat.le_refl _,h,rfl,fun _ _ => rfl⟩

theorem Advances.trans {c d e : CursorObject} (h : Advances c d) (h' : Advances d e) : Advances c e where
  forward := h.forward.trans h'.forward
  within := h'.within
  length := h'.length.trans h.length
  outside i hi := by
    have hforward := h.forward
    have hforward' := h'.forward
    rw [h'.outside i (by omega), h.outside i (by omega)]

private theorem advances_put (stored : Option Bytes) (h : cursor.position ≤ cursor.buffer.length) :
    Advances cursor (put stored cursor).2 := by
  cases stored with
  | none => exact Advances.refl h
  | some out =>
    by_cases hroom : cursor.position + out.length ≤ cursor.buffer.length
    · have hlength := overwrite_length hroom
      simp only [put, if_pos hroom]
      exact ⟨Nat.le_add_right _ _,hlength.symm ▸ hroom,hlength,fun i hi => overwrite_outside hroom hi⟩
    · simp only [put, if_neg hroom]
      exact Advances.refl h

private theorem advances_take {size : Option Nat} (decode : Bytes → Value)
    (hsize : ∀ n, size = some n → cursor.position + n ≤ cursor.buffer.length)
    (h : cursor.position ≤ cursor.buffer.length) : Advances cursor (take size decode cursor).2 := by
  cases size with
  | none => exact Advances.refl h
  | some n => exact ⟨Nat.le_add_right _ _,hsize n rfl,rfl,fun _ _ => rfl⟩

private theorem put_threw {stored : Option Bytes} (h : (put stored cursor).1 = .threw) :
    (put stored cursor).2 = cursor := by
  cases stored with
  | none => rfl
  | some out =>
    by_cases hroom : cursor.position + out.length ≤ cursor.buffer.length
    · rw [put, if_pos hroom] at h
      cases h
    · rw [put, if_neg hroom]

private theorem take_threw {size : Option Nat} {decode : Bytes → Value}
    (h : (take size decode cursor).1 = .threw) : (take size decode cursor).2 = cursor := by
  cases size with
  | none => rfl
  | some n => cases h

/-- One operation, whether it throws or not. -/
theorem advances_operation (operation : Operation) (h : cursor.position ≤ cursor.buffer.length) :
    Advances cursor ((operation.method P).run cursor).2 := by
  cases operation with
  | read r =>
    have hsize (n : Nat) (hn : r.size (cursor.buffer.length - cursor.position) = some n) :
        cursor.position + n ≤ cursor.buffer.length := by
      have hle := size_le hn
      omega
    have hstep := advances_take (r.decode ·) hsize h
    rwa [← run_reading h r] at hstep
  | write w =>
    have hstep := advances_put (w.stored P) h
    rw [← run_writing h P w] at hstep
    change Advances cursor ((w.method P >>= fun _ => pure Value.undefined).run cursor).2
    rw [Method.run_bind]
    rcases hrun : (w.method P).run cursor with ⟨_ | _,d⟩
    · rwa [hrun] at hstep
    · rwa [hrun] at hstep

private theorem operation_threw (operation : Operation) (h : cursor.position ≤ cursor.buffer.length)
    (hthrew : ((operation.method P).run cursor).1 = .threw) :
    ((operation.method P).run cursor).2 = cursor := by
  cases operation with
  | read r =>
    change ((r.method).run cursor).1 = .threw at hthrew
    change ((r.method).run cursor).2 = cursor
    rw [run_reading h r] at hthrew ⊢
    exact take_threw hthrew
  | write w =>
    change ((w.method P >>= fun _ => pure Value.undefined).run cursor).1 = .threw at hthrew
    change ((w.method P >>= fun _ => pure Value.undefined).run cursor).2 = cursor
    rw [Method.run_bind] at hthrew ⊢
    have hsame : (put (w.stored P) cursor).1 = .threw → (put (w.stored P) cursor).2 = cursor := put_threw
    rw [← run_writing h P w] at hsame
    rcases hrun : (w.method P).run cursor with ⟨_ | _,d⟩
    · rw [hrun] at hthrew
      cases hthrew
    · rw [hrun] at hsame
      exact hsame rfl

/-- Any sequence of operations. -/
theorem advances_after (operations : List Operation) (h : cursor.position ≤ cursor.buffer.length) :
    Advances cursor (after P operations cursor) := by
  induction operations generalizing cursor with
  | nil => exact Advances.refl h
  | cons operation operations ih =>
    have hfirst := advances_operation (P := P) operation h
    exact hfirst.trans (ih hfirst.within)

end Sequences

section Replay
variable {P : Packages} {out : Bytes}

private theorem unsigned_some {bytes : Nat → Nat → Bytes} {w : Nat} {val : Int}
    (h : Writing.unsigned bytes w val = some out) :
    val.toNat < 256 ^ w ∧ out = bytes w val.toNat := by
  cases val with
  | ofNat n =>
    obtain ⟨hlt,hout⟩ := Option.ite_none_right_eq_some.mp h
    exact ⟨hlt,(Option.some.inj hout).symm⟩
  | negSucc n => cases h

/-- The read that goes with a write takes its bytes, and makes the value of them. -/
theorem kind_stored (laws : PackageLaws P) {w : Writing} (hdomain : w.InDomain)
    (h : w.stored P = some out) : (∀ left, out.length ≤ left → w.kind.size left = some out.length) ∧
      w.kind.decode out = w.value := by
  cases w with
  | uint8 val | uint16LE val | uint32LE val =>
    obtain ⟨hlt,rfl⟩ := unsigned_some h
    refine ⟨fun left hleft => ?_,?_⟩
    · rw [leBytes_length] at hleft ⊢
      exact if_pos hleft
    · exact congrArg Value.number ((leValue_leBytes _ _).trans (Nat.mod_eq_of_lt hlt))
  | uint16BE val | uint32BE val =>
    obtain ⟨hlt,rfl⟩ := unsigned_some h
    refine ⟨fun left hleft => ?_,congrArg Value.number ((beValue_beBytes _ _).trans (Nat.mod_eq_of_lt hlt))⟩
    rw [beBytes_length] at hleft ⊢
    exact if_pos hleft
  | int32LE val =>
    obtain ⟨_,hout⟩ := Option.ite_none_right_eq_some.mp h
    rw [← Option.some.inj hout, int32Bytes_length]
    exact ⟨fun left hleft => if_pos hleft,rfl⟩
  | uint64LE value =>
    obtain ⟨n,hn,hbytes⟩ := Option.bind_eq_some_iff.mp h
    have hunits : value.units = n := by
      cases value with
      | number m => exact Option.some.inj (Option.ite_none_right_eq_some.mp hn).2
      | bn m => exact Option.some.inj hn
    rw [laws.toBuffer n (hunits ▸ hdomain)] at hbytes
    rw [← Option.some.inj hbytes, leBytes_length]
    exact ⟨fun left hleft => if_pos hleft,congrArg (fun n => Value.bytes (leBytes 8 n)) hunits.symm⟩
  | bytes source =>
    obtain rfl := Option.some.inj h
    exact ⟨fun left hleft => if_pos hleft,rfl⟩

private theorem run_writing_returned {w : Writing} {front back : Bytes} {d : CursorObject}
    (h : (w.method P).run ⟨front ++ back,front.length⟩ = (.returned (),d)) :
    ∃ out, w.stored P = some out ∧
      d = ⟨front ++ out ++ back.drop out.length,(front ++ out).length⟩ := by
  rw [run_writing (by simp)] at h
  cases hstored : w.stored P with
  | none =>
    rw [hstored] at h
    cases h
  | some out =>
    rw [hstored, put] at h
    split at h
    · obtain rfl := (Prod.ext_iff.mp h).2
      exact ⟨out,rfl,by rw [overwrite_append, List.length_append]⟩
    · cases h

private theorem run_reading_back (laws : PackageLaws P) {w : Writing} (hdomain : w.InDomain)
    (h : w.stored P = some out) (front rest : Bytes) :
    w.kind.method.run ⟨front ++ out ++ rest,front.length⟩ =
      (.returned w.value,⟨front ++ out ++ rest,(front ++ out).length⟩) := by
  obtain ⟨hsize,hdecode⟩ := kind_stored laws hdomain h
  have hbytes : ((front ++ out ++ rest).drop front.length).take out.length = out := by
    rw [List.append_assoc, List.drop_left, List.take_left]
  rw [run_reading (by simp), hsize _ (by simp), take, hbytes, hdecode, List.length_append]

/-- From any position on, the bytes of all the writes are read back in turn. -/
theorem replay (laws : PackageLaws P) {writes : List Writing} (hdomain : ∀ w ∈ writes, w.InDomain)
    (front : Bytes) {back : Bytes} {d : CursorObject}
    (h : (writeAll P writes).run ⟨front ++ back,front.length⟩ = (.returned (),d)) :
    (∃ rest, d.buffer = front ++ rest) ∧
      (readAll writes).run ⟨d.buffer,front.length⟩ = (.returned (writes.map Writing.value),d) := by
  induction writes generalizing front back with
  | nil =>
    obtain rfl := (Prod.ext_iff.mp h).2
    exact ⟨⟨back,rfl⟩,rfl⟩
  | cons w writes ih =>
    change (w.method P >>= fun _ => writeAll P writes).run ⟨front ++ back,front.length⟩ = _ at h
    rw [Method.run_bind] at h
    rcases hfirst : (w.method P).run ⟨front ++ back,front.length⟩ with ⟨_ | _,c⟩
    · rw [hfirst] at h
      obtain ⟨out,hstored,rfl⟩ := run_writing_returned hfirst
      obtain ⟨⟨rest,hbuffer⟩,hreads⟩ := ih (fun v hv => hdomain v (List.mem_cons_of_mem _ hv))
        (front ++ out) h
      have hread := run_reading_back laws (hdomain w List.mem_cons_self) hstored front rest
      rw [← hbuffer] at hread
      refine ⟨⟨out ++ rest,by rw [hbuffer, List.append_assoc]⟩,?_⟩
      rw [readAll, List.mapM_cons, Method.run_bind_returned hread]
      exact Method.run_bind_returned hreads _
    · rw [hfirst] at h
      cases h

end Replay

/-- Whatever is called, the position stays in the buffer, an exception leaves no trace, and a write
replaces the bytes it passes and no others; and what has been written can be read back. -/
theorem cursor_runs {P : Packages} (laws : PackageLaws P) (buffer : Bytes) :
    (∀ operations : List Operation, (after P operations (fresh buffer)).position ≤
        (after P operations (fresh buffer)).buffer.length ∧
      (after P operations (fresh buffer)).buffer.length = buffer.length) ∧
    (∀ (operations : List Operation) (operation : Operation),
      ((operation.method P).run (after P operations (fresh buffer))).1 = .threw →
      ((operation.method P).run (after P operations (fresh buffer))).2 =
        after P operations (fresh buffer)) ∧
    (∀ (operations : List Operation) (w : Writing) (i : Nat),
      i < (after P operations (fresh buffer)).position ∨
        ((w.method P).run (after P operations (fresh buffer))).2.position ≤ i →
      ((w.method P).run (after P operations (fresh buffer))).2.buffer[i]? =
        (after P operations (fresh buffer)).buffer[i]?) ∧
    ∀ (writes : List Writing) (d : CursorObject), (∀ w ∈ writes, w.InDomain) →
      (writeAll P writes).run (fresh buffer) = (.returned (),d) →
      (readAll writes).run (fresh d.buffer) = (.returned (writes.map Writing.value),d) := by
  have hrun (operations : List Operation) : Advances (fresh buffer) (after P operations (fresh buffer)) :=
    advances_after operations (Nat.zero_le _)
  refine ⟨fun operations => ⟨(hrun operations).within,(hrun operations).length⟩,?_,?_,?_⟩
  · intro operations operation hthrew
    exact operation_threw operation (hrun operations).within hthrew
  · intro operations w i hi
    have hstep := advances_put (w.stored P) (hrun operations).within
    rw [← run_writing (hrun operations).within P w] at hstep
    exact hstep.outside i hi
  · intro writes d hdomain h
    exact (replay laws hdomain [] h).2

/-- Four writes into eight bytes, read back; one is of a negative number, one of nothing. -/
theorem cursor_runs_eight :
    (readAll [.uint16BE 0x0102,.int32LE (-2),.bytes [],.uint8 7]).run
        (fresh [1,2,0xfe,0xff,0xff,0xff,7,0]) =
      (.returned [.number 0x0102,.bytes [0xfe,0xff,0xff,0xff],.bytes [],.number 7],
        ⟨[1,2,0xfe,0xff,0xff,0xff,7,0],7⟩) :=
  (cursor_runs wirePackages_laws (zeros 8)).2.2.2 [.uint16BE 0x0102,.int32LE (-2),.bytes [],.uint8 7]
    ⟨[1,2,0xfe,0xff,0xff,0xff,7,0],7⟩ (by simp [Writing.InDomain]) rfl

end CursorObject
end CryptoPlaypen.Bitcoin
