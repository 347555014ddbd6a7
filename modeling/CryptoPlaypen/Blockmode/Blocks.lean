import CryptoPlaypen.Go.Slices
import Mathlib.Logic.Equiv.Defs

/-! Blocks of 16 bytes, and what both block modes call: `xor`, `aes.NewCipher` and a
cipher's methods. The cipher itself is a parameter. -/
namespace CryptoPlaypen.Blockmode
open Buffer Go

abbrev Block := { b : Bytes // b.length = 16 }

def xorBytes (a b : Bytes) : Bytes := List.zipWith (· ^^^ ·) a b

/-- Indexing `b` beyond its end panics. -/
def xor (a b : Bytes) : Option Bytes := if a.length ≤ b.length then some (xorBytes a b) else none

/-- The error for a key of another size is dropped, and the cipher is nil. -/
def newCipher {κ : Type} (E : Bytes → κ) (keyBytes : Bytes) : Option κ :=
  if keyBytes.length = 16 ∨ keyBytes.length = 24 ∨ keyBytes.length = 32 then some (E keyBytes) else none

/-- `Encrypt` or `Decrypt` on one block; both panic on less. -/
def crypt (aesBlock : Option (Block → Block)) (src : Bytes) : Option Bytes :=
  aesBlock.bind fun f =>
    if h : 16 ≤ src.length then some (f ⟨src.take 16, List.length_take_of_le h⟩).1 else none

def Block.xor (a b : Block) : Block := ⟨xorBytes a.1 b.1, by simp [xorBytes, a.2, b.2]⟩

def Block.byte (b : Block) (i : Nat) : UInt8 := b.1.getD i 0

def Block.setByte (b : Block) (pos : Nat) (g : UInt8) : Block := ⟨b.1.set pos g,by simp [b.2]⟩

/-- The last byte is a number from 1 to 16, and so are as many bytes at the end. -/
def ValidPadding (m : Block) : Prop :=
  1 ≤ (m.byte 15).toNat ∧ (m.byte 15).toNat ≤ 16 ∧
    ∀ i < 16, 16 - (m.byte 15).toNat ≤ i → m.byte i = m.byte 15

instance (m : Block) : Decidable (ValidPadding m) := inferInstanceAs (Decidable (_ ∧ _ ∧ _))

def flat (blocks : List Block) : Bytes := blocks.flatMap Subtype.val

def blockAt (σ : Memory) (off : Nat) : Block := ⟨σ.window off 16, window_length off 16⟩

def blocksAt (σ : Memory) (off n : Nat) : List Block :=
  (List.range n).map fun i => blockAt σ (off + i * 16)

theorem xorBytes_cancel {a b : Bytes} (h : a.length ≤ b.length) : xorBytes (xorBytes a b) b = a := by
  apply List.ext_getElem
  · simp [xorBytes]
    omega
  · intro i hi hi'
    simp only [xorBytes, List.getElem_zipWith, UInt8.xor_assoc, UInt8.xor_self, UInt8.xor_zero]

@[simp] theorem xorBytes_length (a b : Bytes) : (xorBytes a b).length = min a.length b.length := by
  simp [xorBytes]

theorem xorBytes_append {a b c d : Bytes} (h : a.length = c.length) :
    xorBytes (a ++ b) (c ++ d) = xorBytes a c ++ xorBytes b d := List.zipWith_append h

theorem xorBytes_take (a b : Bytes) (k : Nat) : (xorBytes a b).take k = xorBytes (a.take k) b := by
  apply List.ext_getElem
  · simp [xorBytes]
  · intro i hi hi'
    simp [xorBytes]

theorem Block.xor_cancel (a b : Block) : (a.xor b).xor b = a :=
  Subtype.ext (xorBytes_cancel (by rw [a.2, b.2]))

theorem Block.xor_comm (a b : Block) : a.xor b = b.xor a :=
  Subtype.ext (List.zipWith_comm_of_comm UInt8.xor_comm)

/-- The cancellation that chaining needs. -/
theorem Block.xor_cancel_left (a b : Block) : (a.xor b).xor a = b := by
  rw [Block.xor_comm a b, Block.xor_cancel]

theorem Block.xor_right_comm (a b c : Block) : (a.xor b).xor c = (a.xor c).xor b := by
  apply Subtype.ext
  apply List.ext_getElem
  · simp [Block.xor, a.2, b.2, c.2]
  · intro i hi _
    have hlt : i < 16 := by simpa [Block.xor, a.2, b.2, c.2] using hi
    have hb : i < b.1.length := b.2.symm ▸ hlt
    have hc : i < c.1.length := c.2.symm ▸ hlt
    simp only [Block.xor, xorBytes, List.getElem_zipWith]
    rw [UInt8.xor_assoc, UInt8.xor_comm b.1[i] c.1[i], ← UInt8.xor_assoc]

/-- Combining with the same blocks again undoes it. -/
theorem Block.foldl_xor_cancel (w : Block) (ms : List Block) :
    ms.foldl Block.xor (ms.foldl Block.xor w) = w := by
  have hshift (a b : Block) (ms : List Block) :
      ms.foldl Block.xor (a.xor b) = (ms.foldl Block.xor a).xor b := by
    induction ms generalizing a with
    | nil => rfl
    | cons m ms ih => rw [List.foldl_cons, Block.xor_right_comm, ih, List.foldl_cons]
  induction ms generalizing w with
  | nil => rfl
  | cons m ms ih => rw [List.foldl_cons, List.foldl_cons, hshift w m ms, Block.xor_cancel, ih]

theorem Block.byte_eq (b : Block) {i : Nat} (hi : i < b.1.length) : b.byte i = b.1[i] :=
  (List.getElem_eq_getD 0).symm

theorem Block.ext_byte {a b : Block} (h : ∀ i < 16, a.byte i = b.byte i) : a = b := by
  apply Subtype.ext
  apply List.ext_getElem (a.2.trans b.2.symm)
  intro i hi hi'
  rw [← a.byte_eq hi, ← b.byte_eq hi']
  exact h i (by rwa [a.2] at hi)

@[simp] theorem Block.byte_xor (a b : Block) (i : Nat) : (a.xor b).byte i = a.byte i ^^^ b.byte i := by
  by_cases hi : i < 16
  · simp [Block.byte, Block.xor, xorBytes, List.getD_eq_getElem?_getD, a.2, b.2, hi]
  · simp [Block.byte, Block.xor, xorBytes, List.getD_eq_getElem?_getD, a.2, b.2, hi]

theorem Block.byte_setByte (b : Block) {pos i : Nat} (g : UInt8) (hi : i < 16) :
    (Block.setByte b pos g).byte i = if i = pos then g else b.byte i := by
  simp only [Block.byte, Block.setByte, List.getD_eq_getElem?_getD, List.getElem?_set, b.2]
  by_cases hpos : pos = i
  · subst hpos
    simp [hi]
  · simp [hpos, Ne.symm hpos]

@[simp] theorem xor_blocks (a b : Block) : xor a.1 b.1 = some (a.xor b).1 :=
  if_pos (by rw [a.2, b.2])

@[simp] theorem crypt_block (f : Block → Block) (b : Block) : crypt (some f) b.1 = some (f b).1 := by
  have hwhole : (⟨b.1.take 16,List.length_take_of_le (Nat.le_of_eq b.2.symm)⟩ : Block) = b :=
    Subtype.ext (List.take_of_length_le (Nat.le_of_eq b.2))
  rw [crypt, Option.bind_some, dif_pos (Nat.le_of_eq b.2.symm), hwhole]

@[simp] theorem flat_nil : flat [] = [] := rfl

@[simp] theorem flat_cons (b : Block) (bs : List Block) : flat (b :: bs) = b.1 ++ flat bs := rfl

@[simp] theorem flat_append (bs cs : List Block) : flat (bs ++ cs) = flat bs ++ flat cs :=
  List.flatMap_append

@[simp] theorem flat_length (bs : List Block) : (flat bs).length = bs.length * 16 := by
  induction bs with
  | nil => rfl
  | cons b bs ih =>
    rw [flat_cons, List.length_append, ih, b.2, List.length_cons]
    omega

theorem blocksAt_succ (σ : Memory) (off n : Nat) :
    blocksAt σ off (n + 1) = blockAt σ off :: blocksAt σ (off + 16) n := by
  simp only [blocksAt, List.range_succ_eq_map, List.map_cons, List.map_map]
  simp [Function.comp_def, Nat.succ_mul, Nat.add_assoc, Nat.add_comm]

/-- Consecutive blocks make up the window they cover. -/
theorem flat_blocksAt (σ : Memory) (off n : Nat) : flat (blocksAt σ off n) = σ.window off (n * 16) := by
  induction n generalizing off with
  | zero => simp [blocksAt, Memory.window]
  | succ n ih => rw [blocksAt_succ, flat_cons, ih, Nat.succ_mul, Nat.add_comm (n * 16), window_add]; rfl

theorem flat_injective {bs cs : List Block} (h : flat bs = flat cs) : bs = cs := by
  have hcount : bs.length = cs.length := by
    have hlength := congrArg List.length h
    rw [flat_length, flat_length] at hlength
    omega
  induction bs generalizing cs with
  | nil => exact (List.length_eq_zero_iff.mp hcount.symm).symm
  | cons b bs ih =>
    cases cs with
    | nil => cases hcount
    | cons c cs =>
      obtain ⟨hhead,htail⟩ := List.append_inj h (b.2.trans c.2.symm)
      rw [Subtype.ext hhead, ih htail (Nat.succ.inj hcount)]

end CryptoPlaypen.Blockmode
