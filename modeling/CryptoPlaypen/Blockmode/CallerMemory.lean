import CryptoPlaypen.Blockmode.SliceBounds

/-! What the four functions leave of their callers' memory. Decryption in CBC mode only reads;
the others write behind the plaintext, behind the iv, or into the iv. -/
namespace CryptoPlaypen.Blockmode
open Buffer Go

variable {σ : Memory} {p iv : Slice} {keyBytes : Bytes}

/-- An encryption in CBC mode writes nothing new: the padding is behind the plaintext already, and
the iv has no room for the result, or the result is that of the empty plaintext and is there. -/
def WritesNothingNew (σ : Memory) (p iv : Slice) : Prop :=
  σ.window (p.off + p.len) (padBytes (16 - p.len % 16)).length = padBytes (16 - p.len % 16) ∧
    (iv.cap < iv.len + (p.len / 16 + 1) * 16 ∨
      p.len = 0 ∧ σ.window (iv.off + iv.len) 16 = List.replicate 16 16)

section Cbc

private theorem quiet_decryptBlock (aesBlock : Option (Block → Block)) (c : Slice) (blocks : Nat)
    (state : Slice × Bytes) (i : Nat) : Quiet (decryptBlock aesBlock c blocks state i) := by
  unfold decryptBlock
  refine (Quiet.reslice _ _ _).bind fun block => (Quiet.read _).bind fun src => ?_
  refine (Quiet.orPanic _).bind fun m => (Quiet.read _).bind fun c => (Quiet.orPanic _).bind fun m => ?_
  refine Quiet.cond (Quiet.cond (Quiet.pure _) ?_) (Quiet.pure _)
  exact (Quiet.orPanic _).bind fun m => Quiet.pure _

private theorem quiet_CBCDecrypt (E : Bytes → Equiv.Perm Block) (keyBytes : Bytes) (c : Slice) :
    Quiet (CBCDecrypt E keyBytes c) := by
  unfold CBCDecrypt
  refine (Quiet.reslice _ _ _).bind fun ivBytes => (Quiet.tail _ _).bind fun cipherBytes => ?_
  exact (Quiet.foldlM (quiet_decryptBlock _ _ _) _ _ _).bind fun state => Quiet.pure _

private theorem xor_length {a b c : Bytes} (h : xor a b = some c) : a.length ≤ b.length ∧ c.length = a.length := by
  obtain ⟨hle,hc⟩ := Option.ite_none_right_eq_some.mp h
  rw [← Option.some.inj hc, xorBytes_length, Nat.min_eq_left hle]
  exact ⟨hle,rfl⟩

private theorem crypt_some {aesBlock : Option (Block → Block)} {src out : Bytes}
    (h : crypt aesBlock src = some out) : 16 ≤ src.length := by
  by_contra hshort
  cases aesBlock with
  | none => cases h
  | some f => cases (dif_neg hshort).symm.trans h

/-- A round that reads the iv returns only for one of 16 bytes. -/
theorem encryptBlock_iv {aesBlock : Option (Block → Block)} {padding blocks i : Nat} {out : Bytes}
    {r : (Exec Bytes × Bytes) × Memory}
    (h : (encryptBlock aesBlock p padding blocks (iv.read,out) i).run σ = some r) : iv.len = 16 := by
  obtain ⟨m,_,hslice,h⟩ := run_bind_some.mp h
  obtain ⟨_,_,_,h⟩ := run_bind_some.mp h
  obtain ⟨cin,_,hcin,h⟩ := run_bind_some.mp h
  obtain ⟨message,_,hmessage,h⟩ := run_bind_some.mp h
  obtain ⟨aesInput,_,haesInput,h⟩ := run_bind_some.mp h
  obtain ⟨cout,_,hcout,_⟩ := run_bind_some.mp h
  obtain ⟨hle,hlength⟩ := xor_length (eq_some_of_orPanic haesInput)
  have hge := crypt_some (eq_some_of_orPanic hcout)
  have hm := Slice.len_of_reslice hslice
  have hiv := Slice.length_of_read hcin
  have hread := Slice.length_of_read hmessage
  dsimp only at hm hlength hiv hread
  omega

/-- A call that returns on some bytes has a key of a right size, an iv of 16 bytes, and room. -/
theorem CBCEncrypt_demands {spare : Nat → Nat → Nat} {E : Bytes → Equiv.Perm Block} {r : Slice × Memory}
    (hpos : 0 < p.len) (h : (CBCEncrypt spare E keyBytes p iv).run σ = some r) :
    (keyBytes.length = 16 ∨ keyBytes.length = 24 ∨ keyBytes.length = 32) ∧ iv.len = 16 ∧
      p.len + (padBytes (16 - p.len % 16)).length ≤ p.cap := by
  have hpos' : 0 < p.len / 16 + 1 - if 16 - p.len % 16 = 16 then 1 else 0 := by split <;> omega
  obtain ⟨state,ρ,hloop,_⟩ := run_bind_some.mp h
  obtain ⟨n,hn⟩ := Nat.exists_eq_add_one.mpr hpos'
  have hlen := blocks_length p.len
  have hlast := encryptBlocks_some hloop n (Nat.zero_le _) (by omega)
  refine ⟨?_,?_,by omega⟩
  · by_contra hsize
    have hnone : newCipher E keyBytes = none := if_neg hsize
    exact hlast.2 (by rw [hnone]; rfl)
  · rw [hn, List.range'_succ, List.foldlM_cons] at hloop
    obtain ⟨_,_,hfirst,_⟩ := run_bind_some.mp hloop
    exact encryptBlock_iv hfirst

private theorem kept_padded_iff (hp : p.Allocated σ)
    (hroom : p.len + (padBytes (16 - p.len % 16)).length ≤ p.cap) :
    σ.Kept (padded σ p (16 - p.len % 16)) ↔
      σ.window (p.off + p.len) (padBytes (16 - p.len % 16)).length = padBytes (16 - p.len % 16) := by
  apply kept_overwrite_iff
  rw [Slice.Allocated] at hp
  omega

/-- Two ciphers that differ on a block do not both write there what there is. -/
theorem exists_cipher_changes (first : Block) (window : Bytes) :
    ∃ e : Equiv.Perm Block, (e first).1 ≠ window := by
  let other := first.setByte 0 (first.byte 0 + 1)
  have hother : other ≠ first := by
    intro h
    have hbyte : other.byte 0 = if 0 = 0 then first.byte 0 + 1 else first.byte 0 :=
      first.byte_setByte (first.byte 0 + 1) (by decide)
    rw [if_pos rfl] at hbyte
    have hstep : first.byte 0 = first.byte 0 + 1 := (congrArg (Block.byte · 0) h).symm.trans hbyte
    simp at hstep
  by_cases hsame : first.1 = window
  · refine ⟨Equiv.swap first other,fun h => hother (Subtype.ext ?_)⟩
    rw [Equiv.swap_apply_left] at h
    exact h.trans hsame.symm
  · exact ⟨Equiv.refl Block,hsame⟩

private theorem cbcEncrypt_kept_empty (spare : Nat → Nat → Nat) (hempty : p.len = 0) (hiv : iv.Allocated σ) :
    (∀ E r, (CBCEncrypt spare E keyBytes p iv).run σ = some r → σ.Kept r.2) ↔
      iv.cap < iv.len + 16 ∨ σ.window (iv.off + iv.len) 16 = List.replicate 16 16 := by
  rw [Slice.Allocated] at hiv
  simp only [run_CBCEncrypt_empty hempty]
  by_cases hroom : iv.len + 16 ≤ iv.cap
  · have happend := Slice.run_append_room (σ := σ) (s := iv) spare (List.replicate 16 16) hroom
    have hiff := kept_overwrite_iff (σ := σ) (iv.off + iv.len) (List.replicate 16 16)
      (by simp; omega)
    constructor
    · intro h
      exact .inr (hiff.mp (h (fun _ => Equiv.refl Block) _ happend))
    · rintro (hfull | hsame) E r hr
      · omega
      · obtain rfl := Option.some.inj (happend.symm.trans hr)
        exact hiff.mpr hsame
  · refine ⟨fun _ => .inl (Nat.not_le.mp hroom),fun _ E r hr => ?_⟩
    exact (Slice.kept_append_fresh spare (Nat.not_le.mp hroom) rfl hr).mpr fun _ _ => rfl

private theorem cbcEncrypt_kept_blocks (spare : Nat → Nat → Nat) (hpos : 0 < p.len)
    (hkey : keyBytes.length = 16 ∨ keyBytes.length = 24 ∨ keyBytes.length = 32) (hsize : iv.len = 16)
    (hroom : p.len + (padBytes (16 - p.len % 16)).length ≤ p.cap) (hp : p.Allocated σ)
    (hiv : iv.Allocated σ) :
    (∀ E r, (CBCEncrypt spare E keyBytes p iv).run σ = some r → σ.Kept r.2) ↔
      σ.window (p.off + p.len) (padBytes (16 - p.len % 16)).length = padBytes (16 - p.len % 16) ∧
        iv.cap < iv.len + (p.len / 16 + 1) * 16 := by
  obtain ⟨first,hcall⟩ := run_CBCEncrypt_blocks (σ := σ) hsize hpos hroom spare
  have hrun (E : Bytes → Equiv.Perm Block) := hcall E keyBytes (E keyBytes) (if_pos hkey)
  by_cases hfits : iv.len + (p.len / 16 + 1) * 16 ≤ iv.cap
  · refine ⟨fun h => ?_,fun h => absurd h.2 (by omega)⟩
    -- the cipher is chosen against what is behind the iv
    obtain ⟨e,he⟩ := exists_cipher_changes first (σ.window (iv.off + iv.len) 16)
    obtain ⟨rest,hrest,hbytes⟩ := hrun fun _ => e
    have hlength : ((e first).1 ++ rest).length = (p.len / 16 + 1) * 16 := by
      rw [List.length_append, (e first).2, hrest]
      omega
    have happend := Slice.run_append_room (σ := padded σ p (16 - p.len % 16)) (s := iv) spare
      ((e first).1 ++ rest) (hlength.symm ▸ hfits)
    have hkept := h _ _ (hbytes.trans happend)
    rw [Slice.Allocated] at hiv
    have hwindow := congrArg (List.take 16) (hkept.overwrite_eq (by omega))
    rw [window_take (by omega), List.take_left' (e first).2] at hwindow
    exact absurd hwindow.symm he
  · have hfresh (E : Bytes → Equiv.Perm Block) (r : Slice × Memory)
        (hr : (CBCEncrypt spare E keyBytes p iv).run σ = some r) :
        σ.Kept r.2 ↔ σ.Kept (padded σ p (16 - p.len % 16)) := by
      obtain ⟨rest,hrest,hbytes⟩ := hrun E
      refine Slice.kept_append_fresh (σ := σ) (τ := padded σ p (16 - p.len % 16)) spare ?_ rfl
        (hbytes.symm.trans hr)
      rw [List.length_append, (E keyBytes first).2, hrest]
      omega
    rw [← kept_padded_iff hp hroom]
    constructor
    · intro h
      obtain ⟨rest,_,hbytes⟩ := hrun fun _ => Equiv.refl Block
      obtain ⟨t,υ,happend,_⟩ := Slice.run_append (σ := padded σ p (16 - p.len % 16)) (s := iv) spare
        (first.1 ++ rest)
      have hr := hbytes.trans happend
      exact ⟨(hfresh _ _ hr).mp (h _ _ hr),Nat.not_le.mp hfits⟩
    · intro h E r hr
      exact (hfresh E r hr).mpr h.1

/-- Whatever the cipher, exactly if nothing new is written. -/
theorem cbcEncrypt_kept_iff (spare : Nat → Nat → Nat) (hp : p.Allocated σ) (hiv : iv.Allocated σ)
    (hreturns : ∃ E r, (CBCEncrypt spare E keyBytes p iv).run σ = some r) :
    (∀ E r, (CBCEncrypt spare E keyBytes p iv).run σ = some r → σ.Kept r.2) ↔
      WritesNothingNew σ p iv := by
  rcases Nat.eq_zero_or_pos p.len with hempty | hpos
  · rw [cbcEncrypt_kept_empty spare hempty hiv, WritesNothingNew, hempty]
    exact ⟨fun h => ⟨rfl,h.imp_right fun hsame => ⟨rfl,hsame⟩⟩,fun h => h.2.imp_right And.right⟩
  · obtain ⟨E,r,hr⟩ := hreturns
    obtain ⟨hkey,hsize,hroom⟩ := CBCEncrypt_demands hpos hr
    rw [cbcEncrypt_kept_blocks spare hpos hkey hsize hroom hp hiv]
    exact ⟨fun h => ⟨h.1,.inl h.2⟩,fun h => ⟨h.1,h.2.resolve_right fun hempty => by omega⟩⟩

end Cbc

section Ctr

def counter (σ : Memory) (ivBytes : Slice) : Nat := beValue (σ.window (ivBytes.off + 8) 8)

private theorem incrementCounter_some (hsize : 16 ≤ iv.len) {r : Unit × Memory}
    (h : (incrementCounter iv).run σ = some r) :
    r.2 = σ.overwrite (iv.off + 8) (beBytes 8 ((counter σ iv + 1) % 2 ^ 64)) := by
  have hcap := iv.len_le
  rw [incrementCounter, run_then (Slice.run_tail (by omega)),
    run_then (Slice.run_uint64 (by dsimp only; omega)), Slice.run_putUint64 (by dsimp only; omega)] at h
  rw [← Option.some.inj h]
  rfl

/-- All that a round writes is the counter; the cipher has read an iv of 16 bytes before. -/
theorem ctrBlock_memory {aesBlock : Option (Block → Block)} {text : Slice} {blocks lastBlockLen i : Nat}
    {output : Bytes} {r : Bytes × Memory}
    (h : (ctrBlock aesBlock text iv blocks lastBlockLen output i).run σ = some r) :
    16 ≤ iv.len ∧ r.2 = σ.overwrite (iv.off + 8) (beBytes 8 ((counter σ iv + 1) % 2 ^ 64)) := by
  obtain ⟨block,_,hslice,h⟩ := run_bind_some.mp h
  obtain ⟨ivContent,_,hiv,h⟩ := run_bind_some.mp h
  obtain ⟨m,_,hm,h⟩ := run_bind_some.mp h
  obtain ⟨src,_,hsrc,h⟩ := run_bind_some.mp h
  obtain ⟨masked,_,hmasked,h⟩ := run_bind_some.mp h
  obtain ⟨_,_,hcounter,hreturn⟩ := run_bind_some.mp h
  have hread := Quiet.read iv _ _ hiv
  have hmemory := (Quiet.orPanic _ _ _ hmasked).trans <| (Quiet.read _ _ _ hsrc).trans <|
    (Quiet.orPanic _ _ _ hm).trans <| hread.trans (Quiet.reslice _ _ _ _ _ hslice)
  have hsize : 16 ≤ iv.len := by
    have hge := crypt_some (eq_some_of_orPanic hm)
    rwa [Slice.length_of_read hiv] at hge
  dsimp only at hmemory
  subst hmemory
  exact ⟨hsize,(congrArg Prod.snd (Option.some.inj hreturn)).symm.trans (incrementCounter_some hsize hcounter)⟩

private theorem ctrRounds_memory {aesBlock : Option (Block → Block)} {text : Slice}
    {blocks lastBlockLen n : Nat} {output : Bytes} {r : Bytes × Memory}
    (h : ((List.range' 0 n).foldlM (ctrBlock aesBlock text iv blocks lastBlockLen) output).run σ =
      some r) : (∀ a, a < iv.off + 8 ∨ iv.off + 16 ≤ a → r.2.byte a = σ.byte a) ∧
        counter r.2 iv = (counter σ iv + n) % 2 ^ 64 := by
  have hstart : counter σ iv = (counter σ iv + 0) % 2 ^ 64 := by
    have hlt := beValue_lt (σ.window (iv.off + 8) 8)
    rw [window_length, show 256 ^ 8 = 2 ^ 64 by norm_num] at hlt
    rw [Nat.add_zero, counter, Nat.mod_eq_of_lt hlt]
  have hlast := foldlM_range'_invariant (I := fun i ρ =>
    (∀ a, a < iv.off + 8 ∨ iv.off + 16 ≤ a → ρ.byte a = σ.byte a) ∧
      counter ρ iv = (counter σ iv + i) % 2 ^ 64) ?_ ⟨fun _ _ => rfl,hstart⟩ h
  · rwa [Nat.zero_add] at hlast
  · rintro i output ρ ⟨output',τ⟩ ⟨hframe,hcount⟩ hround
    obtain ⟨_,rfl⟩ := ctrBlock_memory hround
    refine ⟨fun a ha => ?_,?_⟩
    · rw [overwrite_outside (by rw [beBytes_length]; omega), hframe a ha]
    · have hwindow := window_overwrite (σ := ρ) (iv.off + 8) (beBytes 8 ((counter ρ iv + 1) % 2 ^ 64))
      rw [beBytes_length] at hwindow
      change beValue (Memory.window _ (iv.off + 8) 8) = _
      rw [hwindow, beValue_beBytes, hcount]
      omega

/-- The counter comes round after 2^64 blocks. -/
theorem ctrRounds_kept_iff {aesBlock : Option (Block → Block)} {text : Slice}
    {blocks lastBlockLen n : Nat} {output : Bytes} {r : Bytes × Memory} (hn : 0 < n)
    (hiv : iv.Allocated σ)
    (h : ((List.range' 0 n).foldlM (ctrBlock aesBlock text iv blocks lastBlockLen) output).run σ =
      some r) : σ.Kept r.2 ↔ 2 ^ 64 ∣ n := by
  obtain ⟨hframe,hcount⟩ := ctrRounds_memory h
  have hlt := beValue_lt (σ.window (iv.off + 8) 8)
  rw [window_length] at hlt
  have hsame : counter r.2 iv = counter σ iv ↔ 2 ^ 64 ∣ n := by
    rw [hcount]
    rw [← counter] at hlt
    omega
  rw [← hsame]
  constructor
  · intro hkept
    obtain ⟨m,rfl⟩ := Nat.exists_eq_add_one.mpr hn
    rw [List.range'_succ, List.foldlM_cons] at h
    obtain ⟨_,_,hfirst,_⟩ := run_bind_some.mp h
    have hsize := (ctrBlock_memory hfirst).1
    have hcap := iv.len_le
    rw [Slice.Allocated] at hiv
    exact congrArg beValue (hkept.window_eq (by omega))
  · intro hvalue a _
    by_cases ha : a < iv.off + 8 ∨ iv.off + 16 ≤ a
    · exact hframe a ha
    · have hwindow := beValue_injective (by simp) hvalue
      have hi : a - (iv.off + 8) < 8 := by omega
      have hget := congrArg (fun bs => bs.getD (a - (iv.off + 8)) 0) hwindow
      rwa [window_getD _ hi, window_getD _ hi, Nat.add_sub_cancel' (by omega)] at hget

private theorem ctrBlocks_kept_iff {aesBlock : Option (Block → Block)} {text : Slice} {output : Bytes}
    {r : Bytes × Memory} (hiv : iv.Allocated σ) (h : (ctrBlocks aesBlock text iv output).run σ = some r) :
    σ.Kept r.2 ↔ 2 ^ 64 ∣ text.len / 16 + 1 := by
  rw [ctrBlocks_rounds] at h
  exact ctrRounds_kept_iff (Nat.succ_pos _) hiv h

private theorem ctrEncrypt_kept_iff {F : Bytes → Block → Block} {r : Bytes × Memory} (hiv : iv.Allocated σ)
    (h : (CTREncrypt F keyBytes p iv).run σ = some r) : σ.Kept r.2 ↔ 2 ^ 64 ∣ p.len / 16 + 1 := by
  rw [CTREncrypt, run_then Slice.run_read] at h
  exact ctrBlocks_kept_iff hiv h

private theorem ctrDecrypt_kept_iff {F : Bytes → Block → Block} {c : Slice} {r : Bytes × Memory}
    (hc : c.Allocated σ) (h : (CTRDecrypt F keyBytes c).run σ = some r) :
    σ.Kept r.2 ↔ 2 ^ 64 ∣ (c.len - 16) / 16 + 1 := by
  obtain ⟨ivBytes,τ,hiv,hrest⟩ := run_bind_some.mp h
  obtain ⟨text,υ,htext,hblocks⟩ := run_bind_some.mp hrest
  have hlen := Slice.len_of_reslice htext
  have hpart := Slice.allocated_of_reslice hc hiv
  have hsame := (Quiet.tail _ _ _ _ htext).trans (Quiet.reslice _ _ _ _ _ hiv)
  dsimp only at hlen hpart hsame
  subst hsame
  rw [← hlen]
  exact ctrBlocks_kept_iff hpart hblocks

end Ctr

/-- Of the calls that return: in CBC mode an encryption keeps memory exactly if it writes nothing
new, and a decryption always; in counter mode both keep it only if the counter has come round. -/
theorem caller_memory_kept_iff {c : Slice} (spare : Nat → Nat → Nat) (hp : p.Allocated σ)
    (hiv : iv.Allocated σ) (hc : c.Allocated σ) :
    ((∃ E r, (CBCEncrypt spare E keyBytes p iv).run σ = some r) →
      ((∀ E r, (CBCEncrypt spare E keyBytes p iv).run σ = some r → σ.Kept r.2) ↔
        WritesNothingNew σ p iv)) ∧
    (∀ E r, (CBCDecrypt E keyBytes c).run σ = some r → σ.Kept r.2) ∧
    (∀ F r, (CTREncrypt F keyBytes p iv).run σ = some r →
      (σ.Kept r.2 ↔ 2 ^ 64 ∣ p.len / 16 + 1)) ∧
    ∀ F r, (CTRDecrypt F keyBytes c).run σ = some r → (σ.Kept r.2 ↔ 2 ^ 64 ∣ (c.len - 16) / 16 + 1) := by
  refine ⟨cbcEncrypt_kept_iff spare hp hiv,?_,fun F r => ctrEncrypt_kept_iff hiv,
    fun F r => ctrDecrypt_kept_iff hc⟩
  intro E r h
  rw [quiet_CBCDecrypt E keyBytes c σ r h]
  exact fun _ _ => rfl

/-- Sixteen letters take no padding, and their iv has no room for the result. -/
theorem caller_memory_kept_letters : WritesNothingNew lettersMemory letters zeroIv ∧
    ∀ E r, (CBCEncrypt (fun _ _ => 0) E (zeros 16) letters zeroIv).run lettersMemory = some r →
      lettersMemory.Kept r.2 := by
  have hletters : letters.Allocated lettersMemory := by decide
  have hiv : zeroIv.Allocated lettersMemory := by decide
  have hcipher : newCipher (fun _ => Equiv.refl Block) (zeros 16) = some (Equiv.refl Block) :=
    if_pos (.inl (zeros_length 16))
  have hreturns : ∃ r, (CBCEncrypt (fun _ _ => 0) (fun _ => Equiv.refl Block) (zeros 16) letters
      zeroIv).run lettersMemory = some r :=
    (CBCEncrypt_returns_iff hcipher rfl fun _ _ => 0).mpr (.inl rfl)
  have hnothing : WritesNothingNew lettersMemory letters zeroIv := ⟨rfl,.inl (by decide)⟩
  have hkept := (caller_memory_kept_iff (fun _ _ => 0) hletters hiv hiv).1 ⟨_,hreturns⟩
  exact ⟨hnothing,hkept.mpr hnothing⟩

def reversing (b : Block) : Block := ⟨b.1.reverse,by simp [b.2]⟩

/-- Five letters of sixteen: CBC overwrites the sixth, and counter mode the end of the iv; and a
ciphertext does not give the same plaintext twice. -/
theorem caller_memory_changes :
    lettersMemory.byte 5 = 0x61 ∧
    ((CBCEncrypt (fun _ _ => 0) (fun _ => Equiv.refl Block) (zeros 16) ⟨0,5,16,by decide⟩ zeroIv).run
      lettersMemory).map (fun r => r.2.byte 5) = some 11 ∧
    lettersMemory.byte 31 = 0 ∧
    ((CTREncrypt (fun _ => reversing) (zeros 16) ⟨0,5,16,by decide⟩ zeroIv).run lettersMemory).map
      (fun r => r.2.byte 31) = some 1 ∧
    ((do
      let first ← CTRDecrypt (fun _ => reversing) (zeros 16) ⟨16,17,32,by decide⟩
      let second ← CTRDecrypt (fun _ => reversing) (zeros 16) ⟨16,17,32,by decide⟩
      pure (first,second)).run lettersMemory).map Prod.fst = some ([0],[1]) := by
  decide +kernel

end CryptoPlaypen.Blockmode
