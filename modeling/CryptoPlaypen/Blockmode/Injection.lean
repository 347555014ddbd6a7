import CryptoPlaypen.Blockmode.CbcRoundTrip

/-! Ciphertexts changed by someone who knows no key, only a guess of how the message starts: what is
combined with the iv is combined with the first block of the message. -/
namespace CryptoPlaypen.Blockmode
open Buffer Go

namespace XorAttack

/-- What the second buffer does not reach stays. -/
def xor (b1 b2 : Bytes) : Bytes :=
  b1.mapIdx fun i b => if i < b2.length then b ^^^ b2.getD i 0 else b

/-- The bytes that the attacker makes of others, in which `guess` came first. -/
def mitm (encrypted guess replacement : Bytes) : Bytes := xor encrypted (xor guess replacement)

end XorAttack

namespace PayBob

/-- `copy` into 16 bytes that are zero. -/
def copied (m : Bytes) : Bytes := m.take 16 ++ zeros (16 - m.length)

/-- Indexing `b` beyond its end panics. -/
def xor (a b : Bytes) : Option Bytes := if a.length ≤ b.length then some (xorBytes a b) else none

/-- The iv that the script prints. -/
def main (iv m0 m1 : Bytes) : Option Bytes := do
  let inner ← xor iv (copied m0)
  xor inner (copied m1)

end PayBob

section Bytes

theorem XorAttack.xor_eq (p d : Bytes) : XorAttack.xor p d = xorBytes p d ++ p.drop d.length := by
  apply List.ext_getElem
  · simp [XorAttack.xor]
    omega
  · intro i hi _
    have hp : i < p.length := by simpa [XorAttack.xor] using hi
    simp only [XorAttack.xor, List.getElem_mapIdx]
    by_cases hd : i < d.length
    · rw [if_pos hd, List.getElem_append_left (by simp; omega)]
      simp [xorBytes, hd]
    · rw [if_neg hd, List.getElem_append_right (by simp; omega)]
      simp only [xorBytes_length, List.getElem_drop]
      congr 1
      omega

@[simp] theorem XorAttack.xor_length (p d : Bytes) : (XorAttack.xor p d).length = p.length := by
  simp [XorAttack.xor]

theorem XorAttack.xor_append {a d : Bytes} (h : d.length ≤ a.length) (b : Bytes) :
    XorAttack.xor (a ++ b) d = XorAttack.xor a d ++ b := by
  have hrest : (b.mapIdx fun i x => if i + a.length < d.length then x ^^^ d.getD (i + a.length) 0 else x) =
      b := by
    refine List.ext_getElem (by simp) fun i _ _ => ?_
    rw [List.getElem_mapIdx, if_neg (by omega)]
  rw [XorAttack.xor, List.mapIdx_append, hrest, XorAttack.xor]

/-- A byte of the text becomes what it should exactly if it was guessed. -/
theorem xor_guess_iff (p g r : UInt8) : p ^^^ (g ^^^ r) = r ↔ p = g := by
  constructor
  · intro h
    have hback := congrArg (fun x => x ^^^ (g ^^^ r)) h
    simp only [UInt8.xor_assoc, UInt8.xor_self, UInt8.xor_zero] at hback
    rw [hback, UInt8.xor_comm g, ← UInt8.xor_assoc, UInt8.xor_self, UInt8.zero_xor]
  · rintro rfl
    rw [← UInt8.xor_assoc, UInt8.xor_self, UInt8.zero_xor]

private theorem xorBytes_guess_iff {p g r : Bytes} (hp : p.length = g.length) (hr : g.length = r.length) :
    xorBytes p (xorBytes g r) = r ↔ p = g := by
  constructor
  · intro h
    refine List.ext_getElem hp fun i hi hi' => ?_
    have hbyte := List.getElem_of_eq h (i := i) (by simp; omega)
    simp only [xorBytes, List.getElem_zipWith] at hbyte
    exact (xor_guess_iff _ _ _).mp hbyte
  · rintro rfl
    refine List.ext_getElem (by simp [hr]) fun i _ _ => ?_
    simp only [xorBytes, List.getElem_zipWith]
    exact (xor_guess_iff _ _ _).mpr rfl

/-- Where the guess lies, both texts are combined with the message. -/
theorem XorAttack.mitm_eq {p g r : Bytes} (hr : g.length = r.length) (hp : g.length ≤ p.length) :
    XorAttack.mitm p g r = xorBytes (p.take g.length) (xorBytes g r) ++ p.drop g.length := by
  have hd : XorAttack.xor g r = xorBytes g r := by
    rw [XorAttack.xor_eq, List.drop_eq_nil_of_le (by omega), List.append_nil]
  have hlen : (xorBytes g r).length = (p.take g.length).length := by simp; omega
  conv_lhs => rw [← List.take_append_drop g.length p]
  rw [XorAttack.mitm, hd, XorAttack.xor_append (Nat.le_of_eq hlen), XorAttack.xor_eq,
    List.drop_eq_nil_of_le (Nat.le_of_eq hlen.symm), List.append_nil]

/-- The text starts with the replacement afterwards, and goes on as before, exactly if the guess
was right. -/
theorem XorAttack.mitm_eq_iff {p g r : Bytes} (hr : g.length = r.length) (hp : g.length ≤ p.length) :
    XorAttack.mitm p g r = r ++ p.drop g.length ↔ p.take g.length = g := by
  rw [XorAttack.mitm_eq hr hp, List.append_left_inj, xorBytes_guess_iff (by simp; omega) hr]

private theorem xorBytes_assoc (a b c : Bytes) : xorBytes (xorBytes a b) c = xorBytes a (xorBytes b c) := by
  refine List.ext_getElem (by simp [Nat.min_assoc]) fun i _ _ => ?_
  simp only [xorBytes, List.getElem_zipWith, UInt8.xor_assoc]

private theorem xorBytes_zeros {a : Bytes} {n : Nat} (h : a.length = n) : xorBytes a (zeros n) = a := by
  refine List.ext_getElem (by simp [h]) fun i _ _ => ?_
  simp [xorBytes, zeros]

end Bytes

section Chained

def copiedBlock (m : Bytes) : Block := ⟨PayBob.copied m,by simp [PayBob.copied]; omega⟩

theorem PayBob.main_eq (iv : Block) (m0 m1 : Bytes) :
    PayBob.main iv.1 m0 m1 = some ((iv.xor (copiedBlock m0)).xor (copiedBlock m1)).1 := by
  have hfirst : PayBob.xor iv.1 (PayBob.copied m0) = some (iv.xor (copiedBlock m0)).1 :=
    xor_blocks iv (copiedBlock m0)
  have hsecond : PayBob.xor (iv.xor (copiedBlock m0)).1 (PayBob.copied m1) =
      some ((iv.xor (copiedBlock m0)).xor (copiedBlock m1)).1 := xor_blocks _ (copiedBlock m1)
  rw [PayBob.main, hfirst, Option.bind_eq_bind, Option.bind_some, hsecond]

/-- Behind the text nothing is copied. -/
theorem xor_copied {b m : Bytes} (hb : b.length = 16) (hm : m.length ≤ 16) :
    xorBytes b (PayBob.copied m) = xorBytes (b.take m.length) m ++ b.drop m.length := by
  have hcopied : PayBob.copied m = m ++ zeros (16 - m.length) := by
    rw [PayBob.copied, List.take_of_length_le hm]
  conv_lhs => rw [← List.take_append_drop m.length b]
  rw [hcopied, xorBytes_append (by simp; omega), xorBytes_zeros (by simp [hb])]

/-- With both copies the block changes as the script for counter mode would change it. -/
theorem xor_copiedBlocks (b : Block) {g r : Bytes} (hr : g.length = r.length) (hg : g.length ≤ 16) :
    ((b.xor (copiedBlock g)).xor (copiedBlock r)).1 = XorAttack.mitm b.1 g r := by
  have hfirst : (b.xor (copiedBlock g)).1 = xorBytes (b.1.take g.length) g ++ b.1.drop g.length :=
    xor_copied b.2 hg
  have hlen : (xorBytes (b.1.take g.length) g).length = r.length := by
    have := b.2
    simp
    omega
  refine (xor_copied (b.xor (copiedBlock g)).2 (hr ▸ hg)).trans ?_
  rw [hfirst, List.take_left' hlen, List.drop_left' hlen, xorBytes_assoc,
    XorAttack.mitm_eq hr (by rw [b.2]; exact hg)]

variable {E : Bytes → Equiv.Perm Block} {keyBytes : Bytes} {σ τ υ : Memory} {plaintext iv c forged : Slice}

/-- A change of the iv is a change of the first block, and of no other. -/
theorem unchain_changed (e : Equiv.Perm Block) (iv δ δ' : Block) (m : Block) (ms : List Block) :
    unchain Block.xor e.symm ((iv.xor δ).xor δ') (chain Block.xor e iv (m :: ms)) =
      (m.xor δ).xor δ' :: ms := by
  have hassoc (a b c : Block) : (a.xor b).xor c = a.xor (b.xor c) := Subtype.ext (xorBytes_assoc _ _ _)
  have hfirst : (iv.xor m).xor ((iv.xor δ).xor δ') = (m.xor δ).xor δ' := by
    rw [← hassoc, ← hassoc, Block.xor_cancel_left]
  rw [chain, unchain, e.symm_apply_apply, unchain_chain e.symm_apply_apply Block.xor_cancel_left, hfirst]

/-- The attack of the script on chaining: with the iv that it prints in front of the blocks as they
are, whatever the message and the key, the decryption is the changed message, and this is the message
that the attacker wants exactly if the guess is how the message starts. -/
theorem cbc_injection {spare : Nat → Nat → Nat} (hincomplete : plaintext.len % 16 ≠ 0)
    (hiv : iv.len = 16) (hclear : iv.ClearOf plaintext)
    (hrun : (CBCEncrypt spare E keyBytes plaintext iv).run σ = some (c,τ)) {g r iv' : Bytes}
    (hr : g.length = r.length) (hg : g.length ≤ 16) (hp : g.length ≤ plaintext.len)
    (hmain : PayBob.main (iv.content σ) g r = some iv')
    (hforged : forged.content υ = iv' ++ (c.content τ).drop 16) :
    ∃ d, (CBCDecrypt E keyBytes forged).run υ = some (d,υ) ∧
      d = XorAttack.mitm (plaintext.content σ) g r ∧
      (d = r ++ (plaintext.content σ).drop g.length ↔ (plaintext.content σ).take g.length = g) := by
  obtain ⟨e,ms,hkey,hcontent,hflat⟩ := CBCEncrypt_eq hincomplete hiv hclear hrun
  have hiv' : iv.content σ = (blockAt σ iv.off).1 := by rw [Slice.content, hiv]; rfl
  rw [hiv', PayBob.main_eq] at hmain
  rw [hcontent, List.drop_left' (blockAt σ iv.off).2, ← Option.some.inj hmain] at hforged
  -- there is a first block, since the plaintext is not empty
  rcases ms with _ | ⟨m,ms⟩
  · have hlength := congrArg List.length hflat
    simp at hlength
    omega
  have hchanged : flat ((m.xor (copiedBlock g)).xor (copiedBlock r) :: ms) =
      XorAttack.mitm (plaintext.content σ) g r ++
        List.replicate (16 - plaintext.len % 16) (UInt8.ofNat (16 - plaintext.len % 16)) := by
    have hd : (XorAttack.xor g r).length = g.length := XorAttack.xor_length g r
    rw [flat_cons, xor_copiedBlocks m hr hg]
    rw [flat_cons] at hflat
    rw [XorAttack.mitm, ← XorAttack.xor_append (by rw [hd, m.2]; exact hg), hflat,
      XorAttack.xor_append (by rw [hd, Slice.content_length]; exact hp)]
    rfl
  have hdecrypt := run_CBCDecrypt hkey hforged
  rw [unchain_changed, finish_padded (by omega) (by omega) hchanged, Option.map_some] at hdecrypt
  exact ⟨_,hdecrypt,rfl,XorAttack.mitm_eq_iff hr (by rwa [Slice.content_length])⟩

end Chained

def letterMemory : Memory where
  byte a := if a = 0 then 0x61 else 0
  next := 32

def letter : Slice := ⟨0,1,16,by decide⟩

def forgedChained : Memory where
  byte a := if a = 0 then 3 else if a < 16 then 0 else if a = 16 then 0x61 else 15
  next := 32

theorem cbc_injection_letter : ∃ c τ, (CBCEncrypt (fun _ _ => 0) (fun _ => Equiv.refl Block) (zeros 16)
      letter zeroIv).run letterMemory = some (c,τ) ∧
    (CBCDecrypt (fun _ => Equiv.refl Block) (zeros 16) ⟨0,32,32,by decide⟩).run forgedChained =
      some ([0x62],forgedChained) := by
  obtain ⟨⟨c,τ⟩,hrun⟩ := Option.isSome_iff_exists.mp (show ((CBCEncrypt (fun _ _ => 0)
    (fun _ => Equiv.refl Block) (zeros 16) letter zeroIv).run letterMemory).isSome by decide +kernel)
  have hc : ((CBCEncrypt (fun _ _ => 0) (fun _ => Equiv.refl Block) (zeros 16) letter zeroIv).run
      letterMemory).map (fun r => r.1.content r.2) =
      some (zeros 16 ++ 0x61 :: List.replicate 15 15) := by decide +kernel
  rw [hrun] at hc
  have hcontent : c.content τ = zeros 16 ++ 0x61 :: List.replicate 15 15 := Option.some.inj hc
  have hmain : PayBob.main (zeroIv.content letterMemory) [0x61] [0x62] = some (3 :: zeros 15) := by
    decide +kernel
  obtain ⟨d,hdecrypt,_,hwanted⟩ := cbc_injection (by decide) rfl (.inr (by decide)) hrun
    (g := [0x61]) (r := [0x62]) rfl (by decide) (by decide) hmain
    (show Slice.content ⟨0,32,32,by decide⟩ forgedChained = _ by
      rw [hcontent]
      decide +kernel)
  have hd : d = [0x62] := hwanted.mpr rfl
  exact ⟨c,τ,hrun,hd ▸ hdecrypt⟩

end CryptoPlaypen.Blockmode
