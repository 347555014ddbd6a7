import CryptoPlaypen.Blockmode.Ctr

/-! Counter mode as a function of contents. What `CTREncrypt` returns is decrypted to the
plaintext in any memory, and with any bytes beyond the end of either slice. -/
namespace CryptoPlaypen.Blockmode
open Buffer Go

variable {F : Bytes → Block → Block} {keyBytes : Bytes} {σ υ : Memory} {plaintext iv cipher : Slice}

theorem CTREncrypt_eq (hiv : iv.len = 16) (hclear : CounterClearOf iv plaintext) {r : Bytes × Memory}
    (h : (CTREncrypt F keyBytes plaintext iv).run σ = some r) :
    r.1 = (blockAt σ iv.off).1 ++ ctrText (F keyBytes) (blockAt σ iv.off) (plaintext.content σ) := by
  have hcontent : iv.content σ = (blockAt σ iv.off).1 := by rw [Slice.content, hiv]; rfl
  rw [CTREncrypt, run_then Slice.run_read] at h
  rw [ctrBlocks_eq hiv hclear h, hcontent]

/-- The iv of a decryption is the head of the ciphertext, before all that is decrypted. -/
theorem CTRDecrypt_eq {iv : Block} {text : Bytes} (hcipher : cipher.content υ = iv.1 ++ text)
    {r : Bytes × Memory} (h : (CTRDecrypt F keyBytes cipher).run υ = some r) :
    r.1 = ctrText (F keyBytes) iv text := by
  have hlen : cipher.len = 16 + text.length := by
    rw [← Slice.content_length (σ := υ), hcipher, List.length_append, iv.2]
  have hcap := cipher.len_le
  rw [CTRDecrypt, run_then (Slice.run_reslice ⟨Nat.zero_le _,by omega⟩),
    run_then (Slice.run_tail (by omega))] at h
  have hresult := ctrBlocks_eq (by rfl) (.inl (by simp)) h
  simp only [Slice.content, Nat.add_zero, hlen, Nat.add_sub_cancel_left, List.nil_append] at hresult
  rw [Slice.content, hlen, window_add] at hcipher
  obtain ⟨hiv,htext⟩ := List.append_inj hcipher (by rw [window_length, iv.2])
  have hhead : blockAt υ cipher.off = iv := Subtype.ext hiv
  rw [hresult, hhead, htext]

/-- The ciphertext is determined by the contents of the two slices, it starts with the iv, and
every decryption of it gives the plaintext. -/
theorem ctr_round_trip (hiv : iv.len = 16) (hclear : CounterClearOf iv plaintext) {c : Bytes}
    {τ : Memory} (h : (CTREncrypt F keyBytes plaintext iv).run σ = some (c,τ)) :
    c.length = 16 + plaintext.len ∧ c.take 16 = iv.content σ ∧
    (∀ (υ υ' : Memory) (cipher : Slice) (decrypted : Bytes), cipher.content υ = c →
      (CTRDecrypt F keyBytes cipher).run υ = some (decrypted,υ') → decrypted = plaintext.content σ) ∧
    ∀ (ρ ρ' : Memory) (plaintext' iv' : Slice) (c' : Bytes), CounterClearOf iv' plaintext' →
      plaintext'.content ρ = plaintext.content σ → iv'.content ρ = iv.content σ →
      (CTREncrypt F keyBytes plaintext' iv').run ρ = some (c',ρ') → c' = c := by
  have hc := CTREncrypt_eq hiv hclear h
  have hcontent : (blockAt σ iv.off).1 = iv.content σ := by rw [Slice.content, hiv]; rfl
  dsimp only at hc
  refine ⟨?_,?_,?_,?_⟩
  · rw [hc, List.length_append, ctrText_length, (blockAt σ iv.off).2, Slice.content_length]
  · rw [hc, ← hcontent, List.take_left' (blockAt σ iv.off).2]
  · intro υ υ' cipher decrypted hcipher hdecrypt
    have hm := CTRDecrypt_eq (hcipher.trans hc) hdecrypt
    rwa [ctrText_ctrText] at hm
  · intro ρ ρ' plaintext' iv' c' hclear' hplaintext hsame hencrypt
    have hiv' : iv'.len = 16 := by
      rw [← Slice.content_length (σ := ρ), hsame, Slice.content_length, hiv]
    have hblock : blockAt ρ iv'.off = blockAt σ iv.off := by
      apply Subtype.ext
      rw [hcontent, ← hsame, Slice.content, hiv']
      rfl
    have hc' := CTREncrypt_eq hiv' hclear' hencrypt
    rw [hblock, hplaintext] at hc'
    exact hc'.trans hc.symm

def wrapMemory : Memory where
  byte a := if a < 17 then 0x61 else if 40 ≤ a ∧ a < 48 then 0xff else 0
  next := 56

def wrapText : Slice := ⟨0,17,32,by decide⟩

def wrapIv : Slice := ⟨32,16,24,by decide⟩

theorem ctr_round_trip_wraps : ∃ c τ, (CTREncrypt (fun _ b => b) (zeros 16) wrapText wrapIv).run
      wrapMemory = some (c,τ) ∧ blockAt τ 32 = ⟨zeros 15 ++ [1],rfl⟩ ∧ c.length = 33 ∧
    ∀ (υ υ' : Memory) (cipher : Slice) (decrypted : Bytes), cipher.content υ = c →
      (CTRDecrypt (fun _ b => b) (zeros 16) cipher).run υ = some (decrypted,υ') →
      decrypted = List.replicate 17 0x61 := by
  obtain ⟨⟨c,τ⟩,hrun⟩ := Option.isSome_iff_exists.mp (show ((CTREncrypt (fun _ b => b) (zeros 16)
    wrapText wrapIv).run wrapMemory).isSome by decide +kernel)
  have hcounter : ((CTREncrypt (fun _ b => b) (zeros 16) wrapText wrapIv).run wrapMemory).map
      (fun r => blockAt r.2 32) = some ⟨zeros 15 ++ [1],rfl⟩ := by decide +kernel
  rw [hrun] at hcounter
  obtain ⟨hlength,_,hdecrypt,_⟩ := ctr_round_trip rfl (.inr (by decide)) hrun
  exact ⟨c,τ,hrun,Option.some.inj hcounter,hlength,hdecrypt⟩

end CryptoPlaypen.Blockmode
