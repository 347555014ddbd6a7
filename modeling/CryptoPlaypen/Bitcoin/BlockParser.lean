import CryptoPlaypen.Bitcoin.CompactSize
import CryptoPlaypen.Buffer.HexStrings
import CryptoPlaypen.Buffer.NodeBuffer

/-! The transaction parser of `bitcoin-block.js`. It pulls bytes from an iterator
and turns most of them into hexadecimal text. -/
namespace CryptoPlaypen.Bitcoin
open Buffer

/-- The body of `reverse` on the characters from the end: a single one is dropped. -/
def pairsBack : List Char → List Char
  | b :: a :: rest => a :: b :: pairsBack rest
  | _ => []

/-- `reverse` of `merkle-tree.js`, which turns text around in pairs of characters. -/
def reverse (str : List Char) : List Char := pairsBack str.reverse

def bigInt (str : List Char) : Option Nat := hexValue 0 str

/-- From 2^53 on, an integer is rounded to 53 significant bits, to even on a tie. -/
def toJSNumber (n : Nat) : Nat :=
  if n < 2 ^ 53 then n
  else
    let unit := 2 ^ (n.log2 - 52)
    let rest := n % unit
    let up := unit < 2 * rest ∨ unit = 2 * rest ∧ n / unit % 2 = 1
    (n / unit + if up then 1 else 0) * unit

def attempt {α : Type} (value : Option α) : Reader UInt8 α := fun iter => value.map (·, iter)

/-- The iterator has no value after the last byte, and destructuring it throws. -/
def readbyte : Reader UInt8 UInt8 := Reader.token

def readbytes (len : Nat) : Reader UInt8 Bytes := Reader.times len readbyte

def varint : Reader UInt8 Nat := do
  let byte ← readbyte
  if byte.toNat < 0xfd then pure byte.toNat
  else if byte.toNat = 0xfd then do
    let low ← readbyte
    let high ← readbyte
    pure (low.toNat + high.toNat <<< 8)
  else if byte.toNat = 0xfe then do
    let bytes ← readbytes 4
    attempt (readUInt32LE bytes 0)
  else do
    let bytes ← readbytes 8
    attempt (bigInt (hex bytes.reverse))

structure OutPoint where
  hash : List Char
  index : Nat
  deriving DecidableEq, Repr

structure ParsedInput where
  previousOutput : OutPoint
  scriptLength : Nat
  sig : List Char
  seq : List Char
  deriving DecidableEq, Repr

structure ParsedOutput where
  value : Nat
  scriptLength : Nat
  script : List Char
  deriving DecidableEq, Repr

structure ParsedTx where
  version : Nat
  inCount : Nat
  txIns : List ParsedInput
  outCount : Nat
  txOuts : List ParsedOutput
  deriving DecidableEq, Repr

def readUInt32 : Reader UInt8 Nat := do
  let bytes ← readbytes 4
  attempt (readUInt32LE bytes 0)

def parseOutPoint : Reader UInt8 OutPoint := do
  let hash ← readbytes 32
  let index ← readUInt32
  pure { hash := reverse (hex hash), index }

def parseTxInput : Reader UInt8 ParsedInput := do
  let previousOutput ← parseOutPoint
  let length ← varint
  let scriptLength := toJSNumber length
  let sig ← readbytes scriptLength
  let seq ← readbytes 4
  pure { previousOutput, scriptLength, sig := hex sig, seq := hex seq }

def parseTxOutput : Reader UInt8 ParsedOutput := do
  let bytes ← readbytes 8
  let value ← attempt (bigInt (reverse (hex bytes)))
  let length ← varint
  let scriptLength := toJSNumber length
  let script ← readbytes scriptLength
  pure { value, scriptLength, script := hex script }

def parseTxs : Reader UInt8 ParsedTx := do
  let version ← readUInt32
  let ins ← varint
  let inCount := toJSNumber ins
  let txIns ← Reader.times inCount parseTxInput
  let outs ← varint
  let outCount := toJSNumber outs
  let txOuts ← Reader.times outCount parseTxOutput
  pure { version, inCount, txIns, outCount, txOuts }

theorem toJSNumber_of_lt {n : Nat} (h : n < 2 ^ 53) : toJSNumber n = n := if_pos h

/-- Turning the text of a byte string around spells the bytes backwards. -/
theorem reverse_hex (bs : Bytes) : reverse (hex bs) = hex bs.reverse := by
  have hback (cs : Bytes) : reverse (hex cs.reverse) = hex cs := by
    induction cs with
    | nil => rfl
    | cons c cs ih =>
      have hlast : hex (c :: cs).reverse =
          hex cs.reverse ++ [hexDigit (c.toNat / 16), hexDigit (c.toNat % 16)] := by
        simp [hex]
      rw [reverse, hlast, List.reverse_append]
      exact congrArg (fun text => hexDigit (c.toNat / 16) :: hexDigit (c.toNat % 16) :: text) ih
  simpa using hback bs.reverse

theorem reads_value {α : Type} {value : Option α} {a : α} (h : value = some a) :
    Reads (attempt value) [] a := fun rest => by
  rw [h]
  rfl

/-- What a reader has read is turned into a value without reading on. -/
theorem reads_attempt {α β : Type} {r : Reader UInt8 α} {xs : Bytes} {a : α} {b : β}
    (hr : Reads r xs a) (g : α → Option β) (h : g a = some b) :
    Reads (do let x ← r; attempt (g x)) xs b := by
  intro rest
  rw [hr.run_bind, h]
  rfl

theorem reads_readbytes {bs : Bytes} {k : Nat} (h : bs.length = k) : Reads (readbytes k) bs bs :=
  reads_bytes_of_length h

theorem reads_readUInt32 {n : Nat} (h : n < 2 ^ 32) : Reads readUInt32 (leBytes 4 n) n := by
  have hvalue : readUInt32LE (leBytes 4 n) 0 = some n := by
    simpa using readUIntLE_append 4 [] [] h
  exact reads_attempt (reads_readbytes (leBytes_length 4 n)) (readUInt32LE · 0) hvalue

/-- Little-endian bytes, turned around as text or as bytes, parse as their number. -/
theorem bigInt_hex_reverse {w n : Nat} (h : n < 256 ^ w) :
    bigInt (hex (leBytes w n).reverse) = some n := by
  have hvalue : beValue (leBytes w n).reverse = n := by
    rw [beValue, List.reverse_reverse, leValue_leBytes, Nat.mod_eq_of_lt h]
  rw [bigInt, hexValue_hex, hvalue, Nat.zero_mul, Nat.zero_add]

private theorem reads_varint_pair {n : Nat} (h : n < 2 ^ 16) :
    Reads (do
      let low ← readbyte
      let high ← readbyte
      pure (low.toNat + high.toNat <<< 8)) (leBytes 2 n) n := by
  have hsum : (UInt8.ofNat n).toNat + (UInt8.ofNat (n / 256)).toNat <<< 8 = n := by
    rw [UInt8.toNat_ofNat', UInt8.toNat_ofNat', Nat.shiftLeft_eq]
    omega
  have hhigh := (Reads.token (UInt8.ofNat (n / 256))).map
    fun high => (UInt8.ofNat n).toNat + high.toNat <<< 8
  rw [hsum] at hhigh
  exact (Reads.token (UInt8.ofNat n)).bind hhigh

/-- Every number below 2^64 is read back from its encoding. -/
theorem reads_varint {n : Nat} (h : n < 2 ^ 64) : Reads varint (compactSize n) n := by
  unfold compactSize
  split
  · have hn : (UInt8.ofNat n).toNat = n := UInt8.toNat_ofNat_of_lt' (show n < 256 by omega)
    intro rest
    rw [varint, readbyte, (Reads.token _).run_bind, hn, if_pos (by assumption)]
    rfl
  · split
    · exact (Reads.token 0xfd).bind (reads_varint_pair (by assumption))
    · split
      · exact (Reads.token 0xfe).bind (reads_readUInt32 (by assumption))
      · exact (Reads.token 0xff).bind <| reads_attempt (reads_readbytes (leBytes_length 8 n))
          (fun bytes => bigInt (hex bytes.reverse)) (bigInt_hex_reverse h)

end CryptoPlaypen.Bitcoin
