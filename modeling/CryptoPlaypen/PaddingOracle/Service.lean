import CryptoPlaypen.Blockmode.Blocks
import CryptoPlaypen.Blockmode.Chaining

/-! The service that is attacked: a message with PKCS#7 padding, chained under a permutation
of blocks, and what the status code tells about a ciphertext. -/
namespace CryptoPlaypen.PaddingOracle
open Buffer Blockmode

def pad (message : Bytes) : Bytes :=
  let k := 16 - message.length % 16
  message ++ List.replicate k (UInt8.ofNat k)

def unpad (bs : Bytes) : Option Bytes :=
  let k := (bs.getLastD 0).toNat
  if 1 ≤ k ∧ k ≤ 16 ∧ bs.drop (bs.length - k) = List.replicate k (UInt8.ofNat k) then
    some (bs.take (bs.length - k))
  else none

def blocksOf (bs : Bytes) : List Block := blocksAt ⟨fun a => bs.getD a 0,bs.length⟩ 0 (bs.length / 16)

/-- The iv, and then the chain of the padded message. -/
def encrypt (E : Equiv.Perm Block) (iv : Block) (message : Bytes) : Bytes :=
  flat (iv :: chain Block.xor E iv (blocksOf (pad message)))

def decryptBlocks (E : Equiv.Perm Block) : List Block → List Block
  | [] => []
  | iv :: cs => unchain Block.xor E.symm iv cs

def decrypt (E : Equiv.Perm Block) (data : Bytes) : Bytes := flat (decryptBlocks E (blocksOf data))

/-- 403 for bad padding, 200 for the message itself and 404 for any other. -/
def oracle (E : Equiv.Perm Block) (message data : Bytes) : Nat :=
  match unpad (decrypt E data) with
  | none => 403
  | some m => if m = message then 200 else 404

theorem flat_blocksOf {bs : Bytes} (h : bs.length % 16 = 0) : flat (blocksOf bs) = bs := by
  have hlength : bs.length / 16 * 16 = bs.length := by omega
  rw [blocksOf, flat_blocksAt, hlength]
  apply List.ext_getElem
  · simp
  · intro i hi hi'
    simp [Go.Memory.window, hi']

@[simp] theorem blocksOf_flat (bs : List Block) : blocksOf (flat bs) = bs :=
  flat_injective (flat_blocksOf (by simp))

theorem pad_length (message : Bytes) : (pad message).length % 16 = 0 := by
  simp only [pad, List.length_append, List.length_replicate]
  omega

theorem padding_toNat {k : Nat} (hk : k ≤ 16) : (UInt8.ofNat k).toNat = k :=
  UInt8.toNat_ofNat_of_lt' (by change k < 256; omega)

/-- Of whole blocks, only those that a message is padded to can be stripped. -/
theorem unpad_eq_some_iff {bs message : Bytes} (h : bs.length % 16 = 0) :
    unpad bs = some message ↔ bs = pad message := by
  constructor
  · intro hunpad
    rw [unpad] at hunpad
    split at hunpad
    · rename_i hk
      obtain ⟨h1,h16,hdrop⟩ := hk
      have hmessage := Option.some.inj hunpad
      have hlength := congrArg List.length hdrop
      have hlen := congrArg List.length hmessage
      rw [List.length_drop, List.length_replicate] at hlength
      rw [List.length_take] at hlen
      have hpad : 16 - message.length % 16 = (bs.getLastD 0).toNat := by omega
      rw [pad, hpad, ← hdrop, ← hmessage, List.take_append_drop]
    · cases hunpad
  · rintro rfl
    have hk : 1 ≤ 16 - message.length % 16 ∧ 16 - message.length % 16 ≤ 16 := by omega
    have hlast : ((pad message).getLastD 0).toNat = 16 - message.length % 16 := by
      obtain ⟨k,hk'⟩ := Nat.exists_eq_add_of_le hk.1
      rw [pad, List.getLastD_eq_getLast?, List.getLast?_append, List.getLast?_replicate, hk',
        if_neg (by omega), Option.some_or, Option.getD_some, padding_toNat (by omega)]
    have hlen : (pad message).length - (16 - message.length % 16) = message.length := by simp [pad]
    rw [unpad, hlast, hlen, pad, List.drop_left, List.take_left, if_pos ⟨hk.1,hk.2,rfl⟩]

/-- Whether the padding is valid is seen in the last block. -/
theorem unpad_flat_isSome (front : List Block) (b : Block) :
    (unpad (flat (front ++ [b]))).isSome ↔ ValidPadding b := by
  have hflat : flat (front ++ [b]) = flat front ++ b.1 := by simp
  have hlast : (flat (front ++ [b])).getLastD 0 = b.byte 15 := by
    rw [hflat, List.getLastD_eq_getLast?, List.getLast?_append, List.getLast?_eq_getElem?, b.2]
    simp [Block.byte, List.getD_eq_getElem?_getD, b.2]
  have hdrop (hk : (b.byte 15).toNat ≤ 16) : (flat front ++ b.1).drop
      ((flat front ++ b.1).length - (b.byte 15).toNat) = b.1.drop (16 - (b.byte 15).toNat) := by
    have hsub : (flat front ++ b.1).length - (b.byte 15).toNat =
        (flat front).length + (16 - (b.byte 15).toNat) := by
      rw [List.length_append, b.2]
      omega
    rw [hsub, List.drop_append]
    simp
  have hequal (hk : (b.byte 15).toNat ≤ 16) : b.1.drop (16 - (b.byte 15).toNat) =
      List.replicate (b.byte 15).toNat (b.byte 15) ↔
        ∀ i < 16, 16 - (b.byte 15).toNat ≤ i → b.byte i = b.byte 15 := by
    rw [List.eq_replicate_iff, List.length_drop, b.2, List.forall_mem_iff_getElem]
    constructor
    · rintro ⟨_,hall⟩ i hi hle
      have hbyte := hall (i - (16 - (b.byte 15).toNat)) (by rw [List.length_drop, b.2]; omega)
      rw [List.getElem_drop, ← b.byte_eq, Nat.add_sub_cancel' hle] at hbyte
      exact hbyte
    · intro hall
      refine ⟨by omega,fun i hi => ?_⟩
      rw [List.length_drop, b.2] at hi
      rw [List.getElem_drop, ← b.byte_eq]
      exact hall (16 - (b.byte 15).toNat + i) (by omega) (by omega)
  rw [unpad, hlast, UInt8.ofNat_toNat, hflat, ValidPadding]
  split
  · rename_i hk
    rw [hdrop hk.2.1, hequal hk.2.1] at hk
    simpa using hk
  · rename_i hk
    simp only [Option.isSome_none, Bool.false_eq_true, false_iff]
    rintro ⟨h1,h16,hall⟩
    exact hk ⟨h1,h16,(hdrop h16).trans ((hequal h16).mpr hall)⟩

theorem decryptBlocks_append (E : Equiv.Perm Block) (front : List Block) (x y : Block) :
    decryptBlocks E (front ++ [x,y]) = decryptBlocks E (front ++ [x]) ++ [(E.symm y).xor x] := by
  cases front with
  | nil => rfl
  | cons iv front =>
    have hsplit : front ++ [x,y] = (front ++ [x]) ++ [y] := by simp
    rw [List.cons_append, List.cons_append, decryptBlocks, decryptBlocks, hsplit, unchain_append]
    simp [unchain]

/-- The service answers by the last block that it decrypts, and by whether all blocks are its own. -/
theorem oracle_flat {E : Equiv.Perm Block} {message : Bytes} {bs front : List Block} {b : Block}
    (h : decryptBlocks E bs = front ++ [b]) : oracle E message (flat bs) =
      if ValidPadding b then if front ++ [b] = blocksOf (pad message) then 200 else 404 else 403 := by
  rw [oracle, decrypt, blocksOf_flat, h]
  have hpadded := unpad_flat_isSome front b
  rcases hunpad : unpad (flat (front ++ [b])) with _ | m
  · rw [hunpad] at hpadded
    rw [if_neg (fun hb => by cases hpadded.mpr hb)]
  · rw [hunpad] at hpadded
    have hflat := (unpad_eq_some_iff (by rw [flat_length]; omega)).mp hunpad
    rw [if_pos (hpadded.mp rfl)]
    have hsame : m = message ↔ front ++ [b] = blocksOf (pad message) := by
      constructor
      · rintro rfl
        rw [← hflat, blocksOf_flat]
      · intro hblocks
        rw [hblocks, flat_blocksOf (pad_length message)] at hunpad
        exact Option.some.inj (hunpad.symm.trans ((unpad_eq_some_iff (pad_length message)).mpr rfl))
    simp only [hsame]

end CryptoPlaypen.PaddingOracle
