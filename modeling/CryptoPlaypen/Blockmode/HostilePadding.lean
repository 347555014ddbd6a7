import CryptoPlaypen.Blockmode.CbcRoundTrip

/-! Decryption in CBC mode of any blocks at all. The last byte is taken for the length of the
padding, and is not compared with anything but 16. -/
namespace CryptoPlaypen.Blockmode
open Buffer Go

def deciphered (e : Equiv.Perm Block) (σ : Memory) (c : Slice) : List Block :=
  unchain Block.xor e.symm (blockAt σ c.off) (blocksAt σ (c.off + 16) (c.len / 16 - 1))

/-- The call returns, and without valid padding it returns all there is. -/
def SafelyDecrypted (E : Bytes → Equiv.Perm Block) (keyBytes : Bytes) (c : Slice) (σ : Memory) : Prop :=
  ∃ m τ, (CBCDecrypt E keyBytes c).run σ = some (m,τ) ∧
    ∀ last ∈ (deciphered (E keyBytes) σ c).getLast?, ¬ ValidPadding last →
      m = flat (deciphered (E keyBytes) σ c)

/-- Beyond 16 the difference of bytes wraps, and no slice of the block goes so far. -/
theorem unpadLast_eq (m : Block) : unpadLast m =
    if (m.byte 15).toNat ≤ 16 then some (m.1.take (16 - (m.byte 15).toNat)) else none := by
  have hlt := (m.byte 15).toNat_lt
  have hsub : (16 - m.byte 15).toNat = (2 ^ 8 - (m.byte 15).toNat + 16) % 2 ^ 8 :=
    UInt8.toNat_sub 16 (m.byte 15)
  change (if m.byte 15 = 16 then some [] else cutPadding m.1 (m.byte 15)) = _
  by_cases hwhole : m.byte 15 = 16
  · rw [if_pos hwhole, hwhole]
    rfl
  · have hne : (m.byte 15).toNat ≠ 16 := fun h => hwhole (UInt8.toNat_inj.mp h)
    rw [if_neg hwhole, cutPadding, m.2]
    by_cases hle : (m.byte 15).toNat ≤ 16
    · have hcut : (16 - m.byte 15).toNat = 16 - (m.byte 15).toNat := by omega
      rw [if_pos hle, hcut, if_pos (Nat.sub_le _ _)]
    · rw [if_neg hle, if_neg (by omega)]

private theorem content_blocks {σ : Memory} {c : Slice} {n : Nat} (hlen : c.len = (n + 1) * 16) :
    c.content σ = (blockAt σ c.off).1 ++ flat (blocksAt σ (c.off + 16) (c.len / 16 - 1)) := by
  have hcount : c.len / 16 - 1 = n := by omega
  have hsplit : c.len = 16 + n * 16 := by omega
  rw [hcount, flat_blocksAt, Slice.content, hsplit, window_add]
  rfl

/-- The ciphertext is the encryption of these blocks, so each has its own. -/
theorem content_eq_chain (e : Equiv.Perm Block) {σ : Memory} {c : Slice} {n : Nat}
    (hlen : c.len = (n + 1) * 16) : c.content σ = (blockAt σ c.off).1 ++
      flat (chain Block.xor e (blockAt σ c.off) (deciphered e σ c)) := by
  have hcancel (a b : Block) : a.xor (b.xor a) = b := by rw [Block.xor_comm, Block.xor_cancel]
  rw [deciphered, chain_unchain e.apply_symm_apply hcancel]
  exact content_blocks hlen

private theorem run_CBCDecrypt_blocks {E : Bytes → Equiv.Perm Block} {keyBytes : Bytes} {σ : Memory} {c : Slice}
    {n : Nat} (hkey : keyBytes.length = 16 ∨ keyBytes.length = 24 ∨ keyBytes.length = 32)
    (hlen : c.len = (n + 1) * 16) : (CBCDecrypt E keyBytes c).run σ =
      (finish (deciphered (E keyBytes) σ c)).map fun bs => (bs,σ) :=
  run_CBCDecrypt (if_pos hkey) (content_blocks hlen)

private theorem take_eq_self_iff (m : Block) {k : Nat} (hk : k ≤ 16) : m.1.take (16 - k) = m.1 ↔ k = 0 := by
  constructor
  · intro h
    have hlength := congrArg List.length h
    rw [List.length_take, m.2] at hlength
    omega
  · rintro rfl
    exact List.take_of_length_le (Nat.le_of_eq m.2)

/-- With a block at the end, what is stripped is told by its last byte alone. -/
theorem finish_safe_iff (ms : List Block) (last : Block) :
    (∃ m, finish (ms ++ [last]) = some m ∧ (¬ ValidPadding last → m = flat (ms ++ [last]))) ↔
      ValidPadding last ∨ last.byte 15 = 0 := by
  have hzero : last.byte 15 = 0 ↔ (last.byte 15).toNat = 0 := UInt8.toNat_inj.symm
  rw [finish_append, unpadLast_eq, hzero]
  by_cases hle : (last.byte 15).toNat ≤ 16
  · rw [if_pos hle, Option.map_some]
    simp only [Option.some.injEq, exists_eq_left', flat_append, List.append_cancel_left_eq, flat_cons,
      flat_nil, List.append_nil, take_eq_self_iff last hle]
    exact Decidable.or_iff_not_imp_left.symm
  · rw [if_neg hle, Option.map_none]
    refine ⟨fun ⟨_,h,_⟩ => (nomatch h),?_⟩
    rintro (hvalid | hnone)
    · exact absurd hvalid.2.1 hle
    · omega

/-- Of the blocks that the ciphertext encrypts: there is none, or the last one is padded or ends in
a zero byte. -/
theorem cbcDecrypt_safe_iff {E : Bytes → Equiv.Perm Block} {keyBytes : Bytes} {σ : Memory} {c : Slice}
    {n : Nat} (hkey : keyBytes.length = 16 ∨ keyBytes.length = 24 ∨ keyBytes.length = 32)
    (hlen : c.len = (n + 1) * 16) : c.content σ = (blockAt σ c.off).1 ++
        flat (chain Block.xor (E keyBytes) (blockAt σ c.off) (deciphered (E keyBytes) σ c)) ∧
      (SafelyDecrypted E keyBytes c σ ↔
        ∀ last ∈ (deciphered (E keyBytes) σ c).getLast?, ValidPadding last ∨ last.byte 15 = 0) := by
  refine ⟨content_eq_chain (E keyBytes) hlen,?_⟩
  rw [SafelyDecrypted, run_CBCDecrypt_blocks hkey hlen]
  rcases List.eq_nil_or_concat (deciphered (E keyBytes) σ c) with hnone | ⟨ms,last,hlast⟩
  · rw [hnone]
    exact ⟨fun _ last h => (nomatch h),fun _ => ⟨[],σ,rfl,fun last h => (nomatch h)⟩⟩
  · rw [List.concat_eq_append] at hlast
    rw [hlast, List.getLast?_concat]
    simp only [Option.mem_some_iff, forall_eq', ← finish_safe_iff ms last]
    constructor
    · rintro ⟨m,τ,hrun,hsafe⟩
      obtain ⟨m',hm,heq⟩ := Option.map_eq_some_iff.mp hrun
      exact ⟨m,hm.trans (congrArg some (congrArg Prod.fst heq)),hsafe⟩
    · rintro ⟨m,hm,hsafe⟩
      exact ⟨m,σ,by rw [hm]; rfl,hsafe⟩

def hostileMemory (last : UInt8) : Memory where
  byte a := if a = 31 then last else 0
  next := 32

def hostileText : Slice := ⟨0,32,32,Nat.le_refl 32⟩

/-- One byte of padding under the identity. -/
theorem cbcDecrypt_safe_one :
    SafelyDecrypted (fun _ => Equiv.refl Block) (zeros 16) hostileText (hostileMemory 1) :=
  (cbcDecrypt_safe_iff (n := 1) (.inl rfl) rfl).2.mpr (by decide)

/-- A last byte of 17 makes the call panic, and one of 3 behind zeros strips three bytes. -/
theorem cbcDecrypt_hostile :
    (CBCDecrypt (fun _ => Equiv.refl Block) (zeros 16) hostileText).run (hostileMemory 17) = none ∧
    ((CBCDecrypt (fun _ => Equiv.refl Block) (zeros 16) hostileText).run (hostileMemory 3)).map Prod.fst =
      some (zeros 13) ∧
    ∃ last ∈ (deciphered (Equiv.refl Block) (hostileMemory 3) hostileText).getLast?,
      ¬ ValidPadding last := by
  refine ⟨?_,by decide +kernel,⟨zeros 15 ++ [3],rfl⟩,by decide +kernel,by decide⟩
  exact Option.map_eq_none_iff.mp (show ((CBCDecrypt (fun _ => Equiv.refl Block) (zeros 16)
    hostileText).run (hostileMemory 17)).map Prod.fst = none by decide +kernel)

end CryptoPlaypen.Blockmode
