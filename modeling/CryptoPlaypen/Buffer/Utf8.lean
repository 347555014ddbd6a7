import CryptoPlaypen.Buffer.ByteEncoding

/-! Texts as bytes in UTF-8, and back. A byte that does not fit ends the character before it, and each
sequence that is no character becomes the replacement character. -/
namespace CryptoPlaypen.Buffer

/-- `Buffer.from(text)` -/
def fromText (text : List Char) : Bytes := text.flatMap String.utf8EncodeChar

/-- How many bytes are still to come, the bounds of the next one, and what the others have made. -/
structure Decoder where
  needed : Nat
  lower : Nat
  upper : Nat
  point : Nat
  deriving DecidableEq

namespace Decoder

def idle : Decoder := ⟨0,0x80,0xbf,0⟩

def replacement : Char := Char.ofNat 0xfffd

def first (b : Nat) : List Char × Decoder :=
  if b < 0x80 then ([Char.ofNat b],idle)
  else if 0xc2 ≤ b ∧ b ≤ 0xdf then ([],⟨1,0x80,0xbf,b - 0xc0⟩)
  else if b = 0xe0 then ([],⟨2,0xa0,0xbf,b - 0xe0⟩)
  else if b = 0xed then ([],⟨2,0x80,0x9f,b - 0xe0⟩)
  else if 0xe1 ≤ b ∧ b ≤ 0xef then ([],⟨2,0x80,0xbf,b - 0xe0⟩)
  else if b = 0xf0 then ([],⟨3,0x90,0xbf,b - 0xf0⟩)
  else if b = 0xf4 then ([],⟨3,0x80,0x8f,b - 0xf0⟩)
  else if 0xf1 ≤ b ∧ b ≤ 0xf3 then ([],⟨3,0x80,0xbf,b - 0xf0⟩)
  else ([replacement],idle)

def next (s : Decoder) (b : Nat) : List Char × Decoder :=
  if s.needed = 0 then first b
  else if s.lower ≤ b ∧ b ≤ s.upper then
    let point := s.point * 64 + (b - 0x80)
    if s.needed = 1 then ([Char.ofNat point],idle) else ([],⟨s.needed - 1,0x80,0xbf,point⟩)
  else
    let (text, s) := first b
    (replacement :: text,s)

def decode (s : Decoder) : Bytes → List Char
  | [] => if s.needed = 0 then [] else [replacement]
  | b :: bs => (s.next b.toNat).1 ++ decode (s.next b.toNat).2 bs

end Decoder

/-- `buffer.toString()` -/
def toText (bs : Bytes) : List Char := Decoder.idle.decode bs

namespace Decoder

private theorem next_idle (b : Nat) : idle.next b = first b := if_pos rfl

/-- A byte in the bounds, before the last. -/
theorem next_more {needed lower upper point b : Nat} (hlower : lower ≤ b) (hupper : b ≤ upper) :
    next ⟨needed + 2,lower,upper,point⟩ b = ([],⟨needed + 1,0x80,0xbf,point * 64 + (b - 0x80)⟩) := by
  rw [next, if_neg (Nat.succ_ne_zero _), if_pos ⟨hlower,hupper⟩]
  exact if_neg (by simp)

private theorem next_last {lower upper point b : Nat} (hlower : lower ≤ b) (hupper : b ≤ upper) :
    next ⟨1,lower,upper,point⟩ b = ([Char.ofNat (point * 64 + (b - 0x80))],idle) := by
  rw [next, if_neg (Nat.succ_ne_zero _), if_pos ⟨hlower,hupper⟩]
  exact if_pos rfl

private theorem decode_cons (s : Decoder) {n : Nat} (hn : n < 256) (bs : Bytes) :
    s.decode (UInt8.ofNat n :: bs) = (s.next n).1 ++ (s.next n).2.decode bs := by
  rw [decode, UInt8.toNat_ofNat_of_lt' hn]

private theorem first_two {k : Nat} (hlow : 2 ≤ k) (hk : k < 32) :
    first (k + 0xc0) = ([],⟨1,0x80,0xbf,k⟩) := by
  have hall : ∀ k : Fin 32, 2 ≤ k.val → first (k.val + 0xc0) = ([],⟨1,0x80,0xbf,k.val⟩) := by decide
  exact hall ⟨k,hk⟩ hlow

private theorem first_three {k : Nat} (hk : k < 16) :
    first (k + 0xe0) = ([],⟨2,if k = 0 then 0xa0 else 0x80,if k = 13 then 0x9f else 0xbf,k⟩) := by
  have hall : ∀ k : Fin 16, first (k.val + 0xe0) =
    ([],⟨2,if k.val = 0 then 0xa0 else 0x80,if k.val = 13 then 0x9f else 0xbf,k.val⟩) := by decide
  exact hall ⟨k,hk⟩

private theorem first_four {k : Nat} (hk : k < 5) :
    first (k + 0xf0) = ([],⟨3,if k = 0 then 0x90 else 0x80,if k = 4 then 0x8f else 0xbf,k⟩) := by
  have hall : ∀ k : Fin 5, first (k.val + 0xf0) =
    ([],⟨3,if k.val = 0 then 0x90 else 0x80,if k.val = 4 then 0x8f else 0xbf,k.val⟩) := by decide
  exact hall ⟨k,hk⟩

/-- A character is read back from its bytes. -/
theorem decode_char (c : Char) (bs : Bytes) :
    idle.decode (String.utf8EncodeChar c ++ bs) = c :: idle.decode bs := by
  have hvalid : c.val.toNat < 0xd800 ∨ 0xdfff < c.val.toNat ∧ c.val.toNat < 0x110000 := c.valid
  have hchar : Char.ofNat c.val.toNat = c := Char.ofNat_toNat c
  unfold String.utf8EncodeChar
  dsimp only
  generalize c.val.toNat = v at hvalid hchar ⊢
  by_cases hone : v ≤ 0x7f
  · rw [if_pos hone, List.singleton_append, decode_cons _ (by omega), next_idle, first, if_pos (by omega),
      hchar]
    rfl
  rw [if_neg hone]
  by_cases htwo : v ≤ 0x7ff
  · have hpoint : v / 64 % 0x20 * 64 + (v % 0x40 + 0x80 - 0x80) = v := by omega
    rw [if_pos htwo, List.cons_append, List.singleton_append, decode_cons _ (by omega), next_idle,
      first_two (by omega) (by omega), decode_cons _ (by omega), next_last (by omega) (by omega), hpoint,
      hchar]
    rfl
  rw [if_neg htwo]
  by_cases hthree : v ≤ 0xffff
  · have hpoint : (v / 4096 % 0x10 * 64 + (v / 64 % 0x40 + 0x80 - 0x80)) * 64 +
        (v % 0x40 + 0x80 - 0x80) = v := by omega
    rw [if_pos hthree, List.cons_append, List.cons_append, List.singleton_append,
      decode_cons _ (by omega), next_idle, first_three (by omega), decode_cons _ (by omega),
      next_more (by split <;> omega) (by split <;> omega), decode_cons _ (by omega),
      next_last (by omega) (by omega), hpoint, hchar]
    rfl
  · have hpoint : ((v / 262144 % 0x08 * 64 + (v / 4096 % 0x40 + 0x80 - 0x80)) * 64 +
        (v / 64 % 0x40 + 0x80 - 0x80)) * 64 + (v % 0x40 + 0x80 - 0x80) = v := by omega
    rw [if_neg hthree, List.cons_append, List.cons_append, List.cons_append, List.singleton_append,
      decode_cons _ (by omega), next_idle, first_four (by omega), decode_cons _ (by omega),
      next_more (by split <;> omega) (by split <;> omega), decode_cons _ (by omega),
      next_more (by omega) (by omega), decode_cons _ (by omega), next_last (by omega) (by omega), hpoint,
      hchar]
    rfl

end Decoder

/-- A text is read back from its bytes. -/
theorem toText_fromText (text : List Char) : toText (fromText text) = text := by
  induction text with
  | nil => rfl
  | cons c text ih =>
    rw [fromText, List.flatMap_cons, toText, Decoder.decode_char]
    exact congrArg (List.cons c) ih

end CryptoPlaypen.Buffer
