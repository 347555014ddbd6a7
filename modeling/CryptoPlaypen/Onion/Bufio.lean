import CryptoPlaypen.Buffer.ByteEncoding

/-! What the onions use of the `bufio` package. A reader is what it has still to read, and a
writer what it has written. -/
namespace CryptoPlaypen.Onion
open Buffer

/-- The number of the length is the first byte, or follows it. -/
def bigSize (n : Nat) : Bytes :=
  if n < 0xfd then beBytes 1 n
  else if n < 0x10000 then 0xfd :: beBytes 2 n
  else if n < 0x100000000 then 0xfe :: beBytes 4 n
  else 0xff :: beBytes 8 n

/-- The methods of the package. Without a length `readBytes` reads all that is left. -/
structure Bufio where
  readUInt8 : Bytes → Option (Nat × Bytes)
  readBytes : Option Nat → Bytes → Option (Bytes × Bytes)
  writeUInt8 : Nat → Bytes → Option Bytes
  writeBytes : Bytes → Bytes → Option Bytes
  writeBigSize : Nat → Bytes → Option Bytes

/-- The methods do what they are documented to do. Reading all of nothing is left open. -/
structure Bufio.Documented (io : Bufio) : Prop where
  readUInt8 : ∀ b r, io.readUInt8 (b :: r) = some (b.toNat,r)
  readBytes : ∀ n r, n ≤ r.length → io.readBytes (some n) r = some (r.take n,r.drop n)
  readBytes_eof : ∀ n r, r.length < n → io.readBytes (some n) r = none
  readRest : ∀ r, r ≠ [] → io.readBytes none r = some (r,[])
  writeUInt8 : ∀ (b : UInt8) w, io.writeUInt8 b.toNat w = some (w ++ [b])
  writeBytes : ∀ bs w, io.writeBytes bs w = some (w ++ bs)
  writeBigSize : ∀ n w, n < 2 ^ 64 → io.writeBigSize n w = some (w ++ bigSize n)

def bufio : Bufio where
  readUInt8
    | [] => none
    | b :: r => some (b.toNat,r)
  readBytes
    | none, r => if r = [] then none else some (r,[])
    | some n, r => if n ≤ r.length then some (r.take n,r.drop n) else none
  writeUInt8 n w := if n < 256 then some (w ++ [UInt8.ofNat n]) else none
  writeBytes bs w := some (w ++ bs)
  writeBigSize n w := if n < 2 ^ 64 then some (w ++ bigSize n) else none

theorem bufio_documented : bufio.Documented where
  readUInt8 _ _ := rfl
  readBytes _ _ h := if_pos h
  readBytes_eof _ _ h := if_neg (by omega)
  readRest _ h := if_neg h
  writeUInt8 b w := by
    have hb := b.toNat_lt
    simp [bufio, hb]
  writeBytes _ _ := rfl
  writeBigSize _ _ h := if_pos h

structure BigBufio extends Bufio where
  readBigSize : Bytes → Option (Nat × Bytes)

structure BigBufio.Documented (io : BigBufio) : Prop extends io.toBufio.Documented where
  readBigSize : ∀ n r, n < 2 ^ 64 → io.readBigSize (bigSize n ++ r) = some (n,r)

/-- The number from the first byte, or from as many bytes after it as the first byte says. -/
def readBigSize : Bytes → Option (Nat × Bytes)
  | [] => none
  | b :: r =>
    if b.toNat < 0xfd then some (b.toNat,r)
    else
      let w := if b = 0xfd then 2 else if b = 0xfe then 4 else 8
      if w ≤ r.length then some (beValue (r.take w),r.drop w) else none

def bigBufio : BigBufio := { bufio with readBigSize := readBigSize }

private theorem readBigSize_wide (w : Nat) {b : UInt8} {n : Nat} (hb : ¬b.toNat < 0xfd)
    (hw : (if b = 0xfd then 2 else if b = 0xfe then 4 else 8) = w) (hn : n < 256 ^ w) (r : Bytes) :
    readBigSize (b :: (beBytes w n ++ r)) = some (n,r) := by
  have hlength := beBytes_length w n
  rw [readBigSize, if_neg hb, hw, if_pos (by rw [List.length_append]; omega), List.take_left' hlength,
    List.drop_left' hlength, beValue_beBytes, Nat.mod_eq_of_lt hn]

theorem bigBufio_documented : bigBufio.Documented where
  toDocumented := bufio_documented
  readBigSize n r h := by
    change readBigSize (bigSize n ++ r) = _
    unfold bigSize
    split
    · have hn : (UInt8.ofNat n).toNat = n := UInt8.toNat_ofNat_of_lt' (show n < 256 by omega)
      change readBigSize (UInt8.ofNat n :: r) = _
      rw [readBigSize, hn, if_pos (by assumption)]
    · split
      · exact readBigSize_wide 2 (by decide) rfl (by omega) r
      · split
        · exact readBigSize_wide 4 (by decide) rfl (by omega) r
        · exact readBigSize_wide 8 (by decide) rfl (by omega) r

theorem bigSize_length_pos (n : Nat) : 1 ≤ (bigSize n).length := by
  unfold bigSize
  split_ifs <;> simp

/-- Of the lengths with more than one byte none has fewer than three. -/
theorem bigSize_length_eq_one_iff (n : Nat) : (bigSize n).length = 1 ↔ n < 253 := by
  unfold bigSize
  split_ifs <;> simp <;> omega

end CryptoPlaypen.Onion
