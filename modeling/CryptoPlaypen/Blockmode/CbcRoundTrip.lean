import CryptoPlaypen.Blockmode.Cbc

/-! What `CBCDecrypt` makes of the results of `CBCEncrypt`. Padding that is added to a
partial block comes off again; the block that is added to whole blocks is not encrypted. -/
namespace CryptoPlaypen.Blockmode
open Buffer Go

/-- Every encryption of the plaintext that returns, under any cipher, key and iv, is decrypted
to the plaintext. The iv lies where encryption does not write. -/
def RoundTrips (plaintext : Bytes) : Prop :=
  ∀ (spare : Nat → Nat → Nat) (E : Bytes → Equiv.Perm Block) (keyBytes : Bytes) (σ τ : Memory)
    (p iv c : Slice), p.content σ = plaintext → iv.len = 16 → iv.ClearOf p →
    (CBCEncrypt spare E keyBytes p iv).run σ = some (c, τ) →
    ∃ υ, (CBCDecrypt E keyBytes c).run τ = some (plaintext, υ)

private theorem padded_window (σ : Memory) (p : Slice) (padding : Nat) :
    (padded σ p padding).window p.off (p.len + (padBytes padding).length) =
      p.content σ ++ padBytes padding := by
  rw [window_add, padded, window_overwrite, window_overwrite_disjoint (.inl (Nat.le_refl _))]
  rfl

private theorem sixteen_sub : ∀ k < 16, 1 ≤ k →
    (16 - UInt8.ofNat k).toNat = 16 - k ∧ UInt8.ofNat k ≠ 16 := by decide

/-- Padding of 1 to 15 bytes is stripped. -/
theorem finish_padded {ms : List Block} {plaintext : Bytes} {k : Nat} (h1 : 1 ≤ k) (hk : k < 16)
    (h : flat ms = plaintext ++ List.replicate k (UInt8.ofNat k)) : finish ms = some plaintext := by
  rcases List.eq_nil_or_concat ms with rfl | ⟨init,m,rfl⟩
  · have hlength := congrArg List.length h
    simp at hlength
    omega
  rw [List.concat_eq_append] at h ⊢
  have hlength := congrArg List.length h
  simp only [flat_length, List.length_append, List.length_replicate, List.length_singleton] at hlength
  have hsplit : flat init ++ m.1 = plaintext.take (flat init).length ++
      (plaintext.drop (flat init).length ++ List.replicate k (UInt8.ofNat k)) := by
    rw [← List.append_assoc, List.take_append_drop, ← h]
    simp
  obtain ⟨hinit,hm⟩ := List.append_inj hsplit (by simp; omega)
  have hrest : (plaintext.drop (flat init).length).length = 16 - k := by
    simp
    omega
  have hlast : m.1.getD 15 0 = UInt8.ofNat k := by
    rw [hm, List.getD_eq_getElem?_getD, List.getElem?_append_right (by omega), List.getElem?_replicate,
      if_pos (by omega)]
    rfl
  obtain ⟨hsub,hne⟩ := sixteen_sub k hk h1
  have hcut : unpadLast m = some (plaintext.drop (flat init).length) := by
    rw [unpadLast, hlast, if_neg hne, cutPadding, hsub, if_pos (by rw [m.2]; omega), hm,
      List.take_left' hrest]
  rw [finish_append, hcut, Option.map_some]
  exact congrArg some ((congrArg (fun bs => bs ++ _) hinit).trans (List.take_append_drop _ _))

/-- A call that returns has a cipher, and room for the padding. -/
theorem CBCEncrypt_some {spare : Nat → Nat → Nat} {E : Bytes → Equiv.Perm Block} {keyBytes : Bytes}
    {σ : Memory} {p iv : Slice} {r : Slice × Memory} (hincomplete : p.len % 16 ≠ 0)
    (h : (CBCEncrypt spare E keyBytes p iv).run σ = some r) :
    p.len + (padBytes (16 - p.len % 16)).length ≤ p.cap ∧ ∃ e, newCipher E keyBytes = some e := by
  obtain ⟨state,ρ,hloop,_⟩ := run_bind_some.mp h
  have hlen := blocks_length p.len
  have hround := encryptBlocks_some hloop (p.len / 16) (Nat.zero_le _) (by
    rw [if_neg (by omega)]
    omega)
  rw [if_neg (by omega)] at hlen
  refine ⟨by omega,Option.ne_none_iff_exists'.mp fun hnone => hround.2 ?_⟩
  rw [hnone]
  rfl

/-- What is returned for a partial last block: the iv, and the chained blocks of the plaintext with
its padding. -/
theorem CBCEncrypt_eq {spare : Nat → Nat → Nat} {E : Bytes → Equiv.Perm Block} {keyBytes : Bytes}
    {σ τ : Memory} {p iv c : Slice} (hincomplete : p.len % 16 ≠ 0) (hiv : iv.len = 16)
    (hclear : iv.ClearOf p) (h : (CBCEncrypt spare E keyBytes p iv).run σ = some (c, τ)) :
    ∃ e ms, newCipher E keyBytes = some e ∧
      c.content τ = (blockAt σ iv.off).1 ++ flat (chain Block.xor e (blockAt σ iv.off) ms) ∧
      flat ms = p.content σ ++ List.replicate (16 - p.len % 16) (UInt8.ofNat (16 - p.len % 16)) := by
  obtain ⟨hroom,e,hkey⟩ := CBCEncrypt_some hincomplete h
  obtain ⟨c',τ',n,hn,hrun,hcontent⟩ := run_CBCEncrypt hkey spare σ hiv hclear hroom
  obtain ⟨rfl,rfl⟩ := Prod.mk.inj (Option.some.inj (h.symm.trans hrun))
  rw [if_neg (by omega), List.append_nil] at hcontent
  refine ⟨e,_,hkey,hcontent,?_⟩
  rw [flat_blocksAt, hn, padded_window, padBytes, if_pos (by omega)]

/-- Of a partial last block nothing is lost. -/
theorem roundTrips_of_incomplete {plaintext : Bytes} (hincomplete : plaintext.length % 16 ≠ 0) :
    RoundTrips plaintext := by
  intro spare E keyBytes σ τ p iv c hp hiv hclear hrun
  have hlen : p.len = plaintext.length := by rw [← hp, Slice.content_length]
  rw [← hlen] at hincomplete
  obtain ⟨hroom,e,hkey⟩ := CBCEncrypt_some hincomplete hrun
  obtain ⟨c',τ',n,hn,hrun',hcontent⟩ := run_CBCEncrypt hkey spare σ hiv hclear hroom
  obtain ⟨rfl,rfl⟩ : c = c' ∧ τ = τ' := by
    rw [hrun] at hrun'
    cases hrun'
    exact ⟨rfl,rfl⟩
  rw [if_neg (by omega), List.append_nil] at hcontent
  have hdecrypt := run_CBCDecrypt hkey hcontent
  have hflat : flat (blocksAt (padded σ p (16 - p.len % 16)) p.off n) =
      plaintext ++ List.replicate (16 - p.len % 16) (UInt8.ofNat (16 - p.len % 16)) := by
    rw [flat_blocksAt, hn, padded_window, hp, padBytes, if_pos (by omega)]
  rw [unchain_chain e.symm_apply_apply Block.xor_cancel_left,
    finish_padded (by omega) (by omega) hflat] at hdecrypt
  exact ⟨τ,hdecrypt⟩

def sixteens : Block := ⟨List.replicate 16 16,List.length_replicate⟩

def spoiler : Block := ⟨zeros 15 ++ [1],rfl⟩

private theorem unpadLast_spoiled : unpadLast (sixteens.xor spoiler) = none := by decide

/-- Whole blocks, encrypted under the identity with the right iv, do not come back. -/
theorem not_roundTrips_of_whole {plaintext : Bytes} (hwhole : plaintext.length % 16 = 0) :
    ¬ RoundTrips plaintext := by
  intro hround
  let n := plaintext.length
  let σ₀ : Memory := Memory.overwrite ⟨fun _ => 0,n + 16⟩ 0 plaintext
  let ms := blocksAt σ₀ 0 (n / 16)
  let iv := ms.foldl Block.xor spoiler
  let σ := σ₀.overwrite n iv.1
  let p : Slice := ⟨0,n,n,Nat.le_refl n⟩
  let ivBytes : Slice := ⟨n,16,16,Nat.le_refl 16⟩
  have hcount : n / 16 * 16 = n := by omega
  have hwindow : σ.window 0 n = plaintext := by
    rw [window_overwrite_disjoint (.inl (by omega)), window_overwrite]
  have hblocks : blocksAt σ 0 (n / 16) = ms := by
    apply flat_injective
    rw [flat_blocksAt, flat_blocksAt, hcount, hwindow, window_overwrite]
  have hiv : blockAt σ n = iv := Subtype.ext (by
    have hsame := window_overwrite (σ := σ₀) n iv.1
    rwa [iv.2] at hsame)
  have hpad : 16 - p.len % 16 = 16 := by simp only [p]; omega
  have hnone : padBytes 16 = [] := rfl
  have hkey : newCipher (fun _ => Equiv.refl Block) (zeros 16) = some (Equiv.refl Block) :=
    if_pos (.inl (zeros_length 16))
  have hclear : ivBytes.ClearOf p := .inr (by simp [p, ivBytes])
  obtain ⟨c,τ,k,hk,hrun,hcontent⟩ := run_CBCEncrypt hkey (fun _ _ => 0) σ
    (show ivBytes.len = 16 from rfl) hclear (by rw [hpad, hnone]; simp [p])
  have hmemory : padded σ p (16 - p.len % 16) = σ := by rw [hpad, padded, hnone, overwrite_nil]
  have hkn : k = n / 16 := by
    rw [hpad, hnone] at hk
    simp only [p, List.length_nil] at hk
    omega
  have hcipher : c.content τ = iv.1 ++ flat (chain Block.xor (Equiv.refl Block) iv ms ++ [sixteens]) := by
    rw [hcontent, hmemory, hkn, if_pos hpad, flat_append]
    change (blockAt σ n).1 ++ (flat (chain _ _ (blockAt σ n) (blocksAt σ 0 (n / 16))) ++ _) = _
    rw [hiv, hblocks]
    rfl
  obtain ⟨υ,hdecrypt⟩ := hround _ _ _ σ τ p ivBytes c hwindow rfl hclear hrun
  have hlast : ms.foldl (fun c m => Equiv.refl Block (c.xor m)) iv = spoiler :=
    Block.foldl_xor_cancel spoiler ms
  have hspoiled : unchain Block.xor (Equiv.refl Block).symm spoiler [sixteens] =
      [sixteens.xor spoiler] := rfl
  rw [run_CBCDecrypt hkey hcipher, unchain_append, unchain_chain (fun _ => rfl) Block.xor_cancel_left,
    chain_getLastD, hlast, hspoiled, finish_append, unpadLast_spoiled] at hdecrypt
  cases hdecrypt

/-- A plaintext comes back exactly if its last block is a partial one. -/
theorem cbc_round_trip_iff (plaintext : Bytes) : RoundTrips plaintext ↔ plaintext.length % 16 ≠ 0 :=
  ⟨fun hround hwhole => not_roundTrips_of_whole hwhole hround,roundTrips_of_incomplete⟩

def lettersMemory : Memory where
  byte a := if a < 16 then 0x61 else 0
  next := 32

def letters : Slice := ⟨0,16,16,Nat.le_refl 16⟩

def zeroIv : Slice := ⟨16,16,16,Nat.le_refl 16⟩

/-- Under the identity they are encrypted, and decryption of the result panics. -/
theorem cbc_round_trip_fails :
    ((CBCEncrypt (fun _ _ => 0) (fun _ => Equiv.refl Block) (zeros 16) letters zeroIv).run
      lettersMemory).map (fun r => (r.1.content r.2,
        ((CBCDecrypt (fun _ => Equiv.refl Block) (zeros 16) r.1).run r.2).map Prod.fst)) =
      some (zeros 16 ++ List.replicate 16 0x61 ++ List.replicate 16 16,none) ∧
    ¬ RoundTrips (List.replicate 16 0x61) :=
  ⟨by decide +kernel,not_roundTrips_of_whole rfl⟩

end CryptoPlaypen.Blockmode
