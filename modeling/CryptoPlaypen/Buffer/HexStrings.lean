import CryptoPlaypen.Buffer.ByteEncoding

/-! Byte strings as lower-case hexadecimal text, and back to numbers. -/
namespace CryptoPlaypen.Buffer

def hexDigit (n : Nat) : Char :=
  if n < 10 then Char.ofNat (48 + n) else Char.ofNat (87 + n)

/-- `buffer.toString('hex')`. -/
def hex (bs : Bytes) : List Char :=
  bs.flatMap fun b => [hexDigit (b.toNat / 16), hexDigit (b.toNat % 16)]

def hexDigitValue (c : Char) : Option Nat :=
  if 48 ≤ c.toNat ∧ c.toNat ≤ 57 then some (c.toNat - 48)
  else if 97 ≤ c.toNat ∧ c.toNat ≤ 102 then some (c.toNat - 87)
  else none

/-- `Buffer.from(text, 'hex')`: digits in either case, up to the first pair that is no byte. -/
def fromHex : List Char → Bytes
  | high :: low :: text =>
    match hexDigitValue high.toLower, hexDigitValue low.toLower with
    | some h, some l => UInt8.ofNat (16 * h + l) :: fromHex text
    | _, _ => []
  | _ => []

def hexValue : Nat → List Char → Option Nat
  | acc, [] => some acc
  | acc, c :: cs => (hexDigitValue c).bind fun d => hexValue (acc * 16 + d) cs

private theorem hexDigitValue_hexDigit {n : Nat} (h : n < 16) : hexDigitValue (hexDigit n) = some n := by
  have hall : ∀ k : Fin 16, hexDigitValue (hexDigit k) = some k.val := by decide
  exact hall ⟨n,h⟩

theorem hexDigitValue_toLower {n : Nat} (h : n < 16) : hexDigitValue (hexDigit n).toLower = some n := by
  have hall : ∀ k : Fin 16, hexDigitValue (hexDigit k).toLower = some k.val := by decide
  exact hall ⟨n,h⟩

theorem fromHex_hex (bs : Bytes) : fromHex (hex bs) = bs := by
  induction bs with
  | nil => rfl
  | cons b bs ih =>
    have hb := b.toNat_lt
    have hcons : hex (b :: bs) = hexDigit (b.toNat / 16) :: hexDigit (b.toNat % 16) :: hex bs := rfl
    rw [hcons, fromHex, hexDigitValue_toLower (by omega), hexDigitValue_toLower (by omega)]
    simp only [ih, Nat.div_add_mod, UInt8.ofNat_toNat]

theorem hex_injective {a b : Bytes} (h : hex a = hex b) : a = b := by
  rw [← fromHex_hex a, h, fromHex_hex]

private theorem leValue_append (xs ys : Bytes) :
    leValue (xs ++ ys) = leValue xs + 256 ^ xs.length * leValue ys := by
  induction xs with
  | nil => simp [leValue]
  | cons x xs ih =>
    rw [List.cons_append, leValue, leValue, ih, List.length_cons, Nat.pow_succ']
    ring

theorem beValue_cons (b : UInt8) (bs : Bytes) :
    beValue (b :: bs) = b.toNat * 256 ^ bs.length + beValue bs := by
  rw [beValue, beValue, List.reverse_cons, leValue_append, List.length_reverse]
  simp only [leValue]
  ring

theorem hexValue_hex (acc : Nat) (bs : Bytes) :
    hexValue acc (hex bs) = some (acc * 256 ^ bs.length + beValue bs) := by
  induction bs generalizing acc with
  | nil => simp [hex, hexValue, beValue, leValue]
  | cons b bs ih =>
    have hb := b.toNat_lt
    have hhigh : hexDigitValue (hexDigit (b.toNat / 16)) = some (b.toNat / 16) :=
      hexDigitValue_hexDigit (by omega)
    have hlow : hexDigitValue (hexDigit (b.toNat % 16)) = some (b.toNat % 16) :=
      hexDigitValue_hexDigit (by omega)
    have hbyte : (acc * 16 + b.toNat / 16) * 16 + b.toNat % 16 = acc * 256 + b.toNat := by omega
    have hcons : hex (b :: bs) = hexDigit (b.toNat / 16) :: hexDigit (b.toNat % 16) :: hex bs := rfl
    rw [hcons, hexValue, hhigh, Option.bind_some, hexValue, hlow, Option.bind_some, hbyte, ih,
      beValue_cons, List.length_cons, Nat.pow_succ']
    congr 1
    ring

end CryptoPlaypen.Buffer
