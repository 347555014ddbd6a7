import CryptoPlaypen.Bitcoin.CompactSize
import CryptoPlaypen.Buffer.NodeBuffer

/-! The writes of `BufferCursor`. The two packages behind them, one for lengths
and one for 64-bit integers, are parameters with the laws of their documentation. -/
namespace CryptoPlaypen.Bitcoin
open Buffer

/-- `varuint.encodingLength`, `varuint.encode` and `BN.toBuffer('le', 8)`. -/
structure Packages where
  encodingLength : Nat → Nat
  encode : Nat → Bytes
  toBuffer : Nat → Option Bytes

structure PackageLaws (P : Packages) : Prop where
  encodingLength : ∀ n < 2 ^ 53, P.encodingLength n = (compactSize n).length
  encode : ∀ n < 2 ^ 53, P.encode n = compactSize n
  toBuffer : ∀ n < 2 ^ 64, P.toBuffer n = some (leBytes 8 n)

/-- The packages at their word, for runs on concrete inputs. -/
def wirePackages : Packages where
  encodingLength n := (compactSize n).length
  encode := compactSize
  toBuffer n := if n < 2 ^ 64 then some (leBytes 8 n) else none

theorem wirePackages_laws : PackageLaws wirePackages :=
  ⟨fun _ _ => rfl,fun _ _ => rfl,fun _ h => if_pos h⟩

/-- The value of an output: a number, or an integer of bn.js. -/
inductive Amount where
  | number : Nat → Amount
  | bn : Nat → Amount
  deriving DecidableEq, Repr

namespace Amount

def units : Amount → Nat
  | number n => n
  | bn n => n

/-- `new BN(value)` asserts that a number is below 2^53. -/
def toBN : Amount → Option Nat
  | number n => if n < 2 ^ 53 then some n else none
  | bn n => some n

def Fits : Amount → Prop
  | number n => n < 2 ^ 53
  | bn n => n < 2 ^ 64

instance : DecidablePred Fits
  | number n => inferInstanceAs (Decidable (n < 2 ^ 53))
  | bn n => inferInstanceAs (Decidable (n < 2 ^ 64))

theorem Fits.toBN {a : Amount} (h : a.Fits) : a.toBN = some a.units := by
  cases a with
  | number n => exact if_pos h
  | bn n => rfl

theorem Fits.units_lt {a : Amount} (h : a.Fits) : a.units < 2 ^ 64 := by
  cases a with
  | number n => exact lt_widest h
  | bn n => exact h

end Amount

namespace BufferCursor

def writeStandard (fn : Int → Bytes → Nat → Option Bytes) (val : Int) (len : Nat) :
    CellWriter UInt8 Unit := CellWriter.store len (fn val)

def writeUInt8 (val : Int) : CellWriter UInt8 Unit := writeStandard (writeUIntLE 1) val 1
def writeUInt32LE (val : Int) : CellWriter UInt8 Unit := writeStandard (writeUIntLE 4) val 4
def writeInt32LE (val : Int) : CellWriter UInt8 Unit := writeStandard Buffer.writeInt32LE val 4

/-- An empty buffer is skipped; any other must fit. -/
def writeBytes (source : Bytes) : CellWriter UInt8 Unit :=
  if source = [] then pure ()
  else CellWriter.store source.length fun target start =>
    if start + source.length ≤ target.length then some (copyInto source target start) else none

def writeUInt64LE (P : Packages) (value : Amount) : CellWriter UInt8 Unit :=
  match value.toBN.bind P.toBuffer with
  | some b => writeBytes b
  | none => failure

def writeSized (P : Packages) (source : Bytes) : CellWriter UInt8 Unit := do
  writeBytes (P.encode source.length)
  writeBytes source

theorem writes_uintLE (w : Nat) {val : Nat} (h : val < 256 ^ w) :
    Writes (writeStandard (writeUIntLE w) val w) (leBytes w val) := by
  have hput := Writes.store (f := writeUIntLE w val) (leBytes w val) fun front back hroom =>
    by simpa using writeUIntLE_append w front back h (by simpa using hroom)
  rwa [leBytes_length] at hput

theorem writes_uint32LE {val : Nat} (h : val < 2 ^ 32) : Writes (writeUInt32LE val) (leBytes 4 val) :=
  writes_uintLE 4 h

theorem writes_int32LE {val : Int} (h0 : -2 ^ 31 ≤ val) (h : val < 2 ^ 31) :
    Writes (writeInt32LE val) (int32Bytes val) := by
  have hput := Writes.store (f := Buffer.writeInt32LE val) (int32Bytes val)
    fun front back hroom => by simpa using writeInt32LE_append front back h0 h (by simpa using hroom)
  rwa [int32Bytes_length] at hput

theorem writes_bytes (source : Bytes) : Writes (writeBytes source) source := by
  unfold writeBytes
  split
  · rename_i hempty
    exact hempty ▸ Writes.skip
  · apply Writes.store source
    intro front back hroom
    rw [if_pos (by simp; omega), copyInto_append source front back hroom]

theorem demands_uint32LE (val : Int) : Demands (writeUInt32LE val) (0 ≤ val ∧ val < 2 ^ 32) := by
  intro c r h
  obtain ⟨b,hb,_⟩ := Option.map_eq_some_iff.mp h
  cases val with
  | ofNat n =>
    have hn : n < 2 ^ 32 := by
      by_contra hn
      rw [show Int.ofNat n = (n : Int) from rfl,
        writeUIntLE_overflow 4 _ _ (show 256 ^ 4 ≤ n by omega)] at hb
      cases hb
    exact ⟨Int.natCast_nonneg n,by simpa using Int.ofNat_lt.mpr hn⟩
  | negSucc n => cases hb

variable {P : Packages} (laws : PackageLaws P)
include laws

theorem writes_uint64LE {value : Amount} (h : value.Fits) :
    Writes (writeUInt64LE P value) (leBytes 8 value.units) := by
  have hbuffer : value.toBN.bind P.toBuffer = some (leBytes 8 value.units) := by
    rw [h.toBN, Option.bind_some, laws.toBuffer _ h.units_lt]
  rw [writeUInt64LE, hbuffer]
  exact writes_bytes _

theorem writes_sized {source : Bytes} (h : source.length < 2 ^ 53) :
    Writes (writeSized P source) (sized source) := by
  rw [writeSized, laws.encode _ h]
  exact (writes_bytes _).seq (writes_bytes _)

end BufferCursor
end CryptoPlaypen.Bitcoin
