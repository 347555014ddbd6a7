import CryptoPlaypen.PaddingOracle.Guesses

/-! What is found at one position of a block. With the bytes behind it known only the right
guess has valid padding; at the last position a block that ends in padding but for its last
byte has a second such guess. -/
namespace CryptoPlaypen.PaddingOracle
open Buffer Blockmode

/-- The statuses of the guesses for a block. Only in the last block is the message itself met. -/
structure Answers (result : UInt8 → Nat) (b d : Block) (pos : Nat) (last : Prop) : Prop where
  other : ∀ g, result g = 404 ↔ ValidPadding (changed b d pos g) ∧ ¬ (last ∧ changed b d pos g = b)
  same : ∀ g, result g = 200 ↔ ValidPadding (changed b d pos g) ∧ last ∧ changed b d pos g = b

/-- All but the last byte of a block are padding of more than one byte. -/
def Lookalike (b : Block) (k : UInt8) : Prop :=
  2 ≤ k.toNat ∧ k.toNat ≤ 16 ∧ ∀ i < 15, 16 - k.toNat ≤ i → b.byte i = k

/-- Of the two guesses with valid padding, the right one is met first, or the other is not
answered by 404. -/
def FirstGuess (b : Block) (last : Prop) : Prop :=
  ∀ k, Lookalike b k → (last → b.byte 15 ≠ 1) ∧ (¬ last → b.byte 15 < b.byte 15 ^^^ 1 ^^^ k)

def zeroBlock : Block := ⟨zeros 16,zeros_length 16⟩

theorem byte_zeroBlock (i : Nat) : zeroBlock.byte i = 0 := by
  simp only [Block.byte, zeroBlock, zeros, List.getD_eq_getElem?_getD, List.getElem?_replicate]
  split <;> rfl

private theorem xor_eq_right_iff (a b k : UInt8) : a ^^^ b ^^^ k = k ↔ a = b := by
  have hcancel := UInt8.xor_left_inj (a := a ^^^ b) (b := 0) k
  rw [UInt8.zero_xor, UInt8.xor_eq_zero_iff] at hcancel
  exact hcancel

section Known
variable {result : UInt8 → Nat} {b d : Block} {pos : Nat} {last : Prop}

/-- With what follows known, the padding is valid for the right guess only. -/
theorem padded_iff (hpos : pos < 15) (hknown : ∀ i < 16, pos < i → d.byte i = b.byte i)
    (hopen : d.byte pos = 0) (g : UInt8) : ValidPadding (changed b d pos g) ↔ g = b.byte pos := by
  have hlater (i : Nat) (hi : i < 16) (hlt : pos < i) :
      (changed b d pos g).byte i = UInt8.ofNat (16 - pos) := by
    rw [byte_changed b d g hi, if_neg (by omega), if_pos (by omega), hknown i hi hlt]
    simp
  have hhere : (changed b d pos g).byte pos = b.byte pos ^^^ g ^^^ UInt8.ofNat (16 - pos) := by
    rw [byte_changed b d g (by omega), if_pos rfl, if_pos (Nat.le_refl _), hopen, UInt8.xor_zero]
  have hcount : (UInt8.ofNat (16 - pos)).toNat = 16 - pos := padding_toNat (by omega)
  rw [ValidPadding, hlater 15 (by omega) hpos, hcount]
  constructor
  · rintro ⟨_,_,hall⟩
    have heq := hall pos (by omega) (by omega)
    rw [hhere, xor_eq_right_iff] at heq
    exact heq.symm
  · rintro rfl
    refine ⟨by omega,by omega,fun i hi hle => ?_⟩
    rcases Nat.eq_or_lt_of_le (show pos ≤ i by omega) with rfl | hlt
    · rw [hhere, xor_eq_right_iff]
    · exact hlater i hi hlt

/-- So the byte is found, by 404 or by 200. -/
theorem known_position (hanswers : Answers result b d pos last) (hpos : pos < 15)
    (hknown : ∀ i < 16, pos < i → d.byte i = b.byte i) (hopen : d.byte pos = 0) :
    tryGuesses result d.1 pos (List.range 256) 0 = some (Block.setByte d pos (b.byte pos)).1 := by
  have hpadded := padded_iff hpos hknown hopen
  by_cases hsame : last ∧ changed b d pos (b.byte pos) = b
  · apply tryGuesses_fallback
    · have hhere := congrArg (fun c => Block.byte c pos) hsame.2
      have hcount : (UInt8.ofNat (16 - pos)).toNat = 16 - pos := padding_toNat (by omega)
      rw [byte_changed b d _ (by omega), if_pos rfl, if_pos (Nat.le_refl _), hopen, UInt8.xor_zero,
        UInt8.xor_self, UInt8.zero_xor] at hhere
      rw [← hhere, gt_iff_lt, UInt8.lt_iff_toNat_lt, hcount]
      change 0 < 16 - pos
      omega
    · intro g hfound
      obtain ⟨hg,hother⟩ := (hanswers.other g).mp hfound
      rw [(hpadded g).mp hg] at hother
      exact hother hsame
    · intro g
      rw [hanswers.same, hpadded]
      exact ⟨And.left,fun hg => ⟨hg,hg ▸ hsame⟩⟩
  · apply tryGuesses_first
    · exact (hanswers.other _).mpr ⟨(hpadded _).mpr rfl,hsame⟩
    · intro g hless hfound
      rw [(hpadded g).mp ((hanswers.other g).mp hfound).1] at hless
      exact absurd hless (UInt8.lt_irrefl _)

end Known

section LastPosition
variable {result : UInt8 → Nat} {b : Block} {last : Prop}

private theorem byte_changed_last (g : UInt8) {i : Nat} (hi : i < 16) : (changed b zeroBlock 15 g).byte i =
    if i = 15 then b.byte 15 ^^^ g ^^^ 1 else b.byte i := by
  rw [byte_changed b zeroBlock g hi, byte_zeroBlock, UInt8.xor_zero]
  by_cases hlast : i = 15
  · rw [if_pos hlast, if_pos hlast, if_pos (by omega), hlast]
    rfl
  · rw [if_neg hlast, if_neg hlast, if_neg (by omega), UInt8.xor_zero, UInt8.xor_zero]

/-- The padding is a single byte, or what the other bytes look like. -/
theorem padded_last_iff (g : UInt8) : ValidPadding (changed b zeroBlock 15 g) ↔
    g = b.byte 15 ∨ Lookalike b (b.byte 15 ^^^ g ^^^ 1) := by
  have hbyte {i : Nat} (hi : i < 16) := byte_changed_last (b := b) g hi
  have hone : g = b.byte 15 ↔ b.byte 15 ^^^ g ^^^ 1 = 1 := by rw [xor_eq_right_iff, eq_comm]
  rw [hone, ValidPadding, hbyte (by omega), if_pos rfl, Lookalike]
  generalize b.byte 15 ^^^ g ^^^ 1 = k at hbyte ⊢
  constructor
  · rintro ⟨h1,h16,hall⟩
    rcases Nat.eq_or_lt_of_le h1 with heq | h2
    · exact .inl (UInt8.toNat_inj.mp heq.symm)
    · refine .inr ⟨h2,h16,fun i hi hle => ?_⟩
      have heq := hall i (by omega) hle
      rwa [hbyte (by omega), if_neg (by omega)] at heq
  · rintro (rfl | ⟨h2,h16,hall⟩)
    · refine ⟨Nat.le_refl _,by decide,fun i hi hle => ?_⟩
      have hle' : 15 ≤ i := hle
      rw [hbyte hi, if_pos (by omega)]
    · refine ⟨by omega,h16,fun i hi hle => ?_⟩
      by_cases hlast : i = 15
      · rw [hbyte hi, if_pos hlast]
      · rw [hbyte hi, if_neg hlast]
        exact hall i (by omega) hle

private theorem changed_last_eq_iff (g : UInt8) : changed b zeroBlock 15 g = b ↔ g = 1 := by
  have hbyte {i : Nat} (hi : i < 16) := byte_changed_last (b := b) g hi
  constructor
  · intro heq
    have h15 := hbyte (show 15 < 16 by omega)
    rw [heq, if_pos rfl, UInt8.xor_assoc] at h15
    have hcancel := UInt8.xor_right_inj (a := 0) (b := g ^^^ 1) (b.byte 15)
    rw [UInt8.xor_zero] at hcancel
    exact UInt8.xor_eq_zero_iff.mp (hcancel.mp h15).symm
  · rintro rfl
    apply Block.ext_byte
    intro i hi
    rw [hbyte hi]
    split
    · rename_i h15
      rw [h15, UInt8.xor_assoc, UInt8.xor_self, UInt8.xor_zero]
    · rfl

private theorem exists_first {p : UInt8 → Prop} (h : ∃ g, p g) : ∃ g, p g ∧ ∀ g' < g, ¬ p g' := by
  obtain ⟨g,hg,hmin⟩ := (measure UInt8.toNat).wf.has_min {g | p g} h
  exact ⟨g,hg,fun g' hless hg' => hmin g' hg' (UInt8.lt_iff_toNat_lt.mp hless)⟩

private theorem lookalike_ne_one {k : UInt8} (h : Lookalike b k) : k ≠ 1 := by
  rintro rfl
  exact absurd h.1 (by decide)

/-- The padding of a block is its only lookalike, if there is more than one byte of it. -/
theorem lookalike_of_padded {k : UInt8} (hpadded : ValidPadding b) (hone : b.byte 15 ≠ 1)
    (h : Lookalike b k) : k = b.byte 15 := by
  obtain ⟨h2,_,hall⟩ := h
  obtain ⟨h1,_,hpad⟩ := hpadded
  have hne : (b.byte 15).toNat ≠ 1 := fun heq => hone (UInt8.toNat_inj.mp heq)
  rw [← hall 14 (by omega) (by omega), hpad 14 (by omega) (by omega)]

/-- The padding that a guess leads to, and the guess that leads to a padding. -/
theorem guess_guess (a k : UInt8) : a ^^^ (a ^^^ 1 ^^^ k) ^^^ 1 = k ∧ a ^^^ 1 ^^^ (a ^^^ k ^^^ 1) = k := by
  have hcancel : a ^^^ a ^^^ (1 ^^^ 1) ^^^ k = k := by simp
  exact ⟨Eq.trans (by ac_rfl) hcancel,Eq.trans (by ac_rfl) hcancel⟩

/-- An inner block: the least guess with valid padding is taken. -/
theorem last_position_inner (hanswers : Answers result b zeroBlock 15 last) (hinner : ¬ last) :
    ∃ g, tryGuesses result zeroBlock.1 15 (List.range 256) 0 = some (Block.setByte zeroBlock 15 g).1 ∧
      (g = b.byte 15 ↔ FirstGuess b last) := by
  have hfound (g : UInt8) : result g = 404 ↔
      g = b.byte 15 ∨ Lookalike b (b.byte 15 ^^^ g ^^^ 1) := by
    rw [hanswers.other, padded_last_iff]
    exact and_iff_left fun h => hinner h.1
  have hright : result (b.byte 15) = 404 := (hfound _).mpr (.inl rfl)
  obtain ⟨g,hg,hbefore⟩ := exists_first (p := fun g => result g = 404) ⟨b.byte 15,hright⟩
  refine ⟨g,tryGuesses_first hg hbefore 0,?_⟩
  constructor
  · rintro rfl k hk
    refine ⟨fun h => absurd h hinner,fun _ => ?_⟩
    have hother : result (b.byte 15 ^^^ 1 ^^^ k) = 404 :=
      (hfound _).mpr (.inr ((guess_guess _ k).1.symm ▸ hk))
    apply UInt8.lt_of_le_of_ne (UInt8.not_lt.mp fun hless => hbefore _ hless hother)
    intro heq
    apply lookalike_ne_one hk
    have hsame := (guess_guess (b.byte 15) k).1
    rwa [← heq, UInt8.xor_self, UInt8.zero_xor, eq_comm] at hsame
  · intro hfirst
    rcases (hfound g).mp hg with hsame | hlike
    · exact hsame
    · have hless := (hfirst _ hlike).2 hinner
      rw [(guess_guess (b.byte 15) g).2] at hless
      exact absurd hright (hbefore _ hless)

/-- The last block: the guess that changes nothing is only taken if there is no other. -/
theorem last_position_whole (hanswers : Answers result b zeroBlock 15 last) (hlast : last)
    (hpadded : ValidPadding b) :
    ∃ g, tryGuesses result zeroBlock.1 15 (List.range 256) 0 = some (Block.setByte zeroBlock 15 g).1 ∧
      (g = b.byte 15 ↔ FirstGuess b last) := by
  have hfound (g : UInt8) : result g = 404 ↔
      (g = b.byte 15 ∨ Lookalike b (b.byte 15 ^^^ g ^^^ 1)) ∧ g ≠ 1 := by
    rw [hanswers.other, padded_last_iff, changed_last_eq_iff]
    simp [hlast]
  by_cases hone : b.byte 15 = 1
  · by_cases hlike : ∃ k, Lookalike b k
    · obtain ⟨k,hk⟩ := hlike
      have hother : result (b.byte 15 ^^^ 1 ^^^ k) = 404 := by
        refine (hfound _).mpr ⟨.inr ((guess_guess _ k).1.symm ▸ hk),?_⟩
        rw [hone, UInt8.xor_self, UInt8.zero_xor]
        exact lookalike_ne_one hk
      obtain ⟨g,hg,hbefore⟩ := exists_first (p := fun g => result g = 404) ⟨_,hother⟩
      refine ⟨g,tryGuesses_first hg hbefore 0,?_⟩
      constructor
      · intro hsame
        exact absurd (hsame.trans hone) ((hfound g).mp hg).2
      · intro hfirst
        exact absurd hone ((hfirst k hk).1 hlast)
    · refine ⟨1,tryGuesses_fallback (by decide) ?_ ?_ 0,?_⟩
      · intro g hg
        obtain ⟨hsame | hk,hne⟩ := (hfound g).mp hg
        · exact hne (hsame.trans hone)
        · exact hlike ⟨_,hk⟩
      · intro g
        rw [hanswers.same, padded_last_iff, changed_last_eq_iff]
        exact ⟨fun h => h.2.2,fun hg => ⟨.inl (hg.trans hone.symm),hlast,hg⟩⟩
      · exact iff_of_true hone.symm fun k hk => absurd ⟨k,hk⟩ hlike
  · refine ⟨b.byte 15,tryGuesses_first ((hfound _).mpr ⟨.inl rfl,hone⟩) ?_ 0,?_⟩
    · intro g hless hg
      obtain ⟨hsame | hk,hne⟩ := (hfound g).mp hg
      · exact absurd (hsame ▸ hless) (UInt8.lt_irrefl _)
      · have hguess := (guess_guess (b.byte 15) g).2
        rw [lookalike_of_padded hpadded hone hk, UInt8.xor_comm _ 1, UInt8.xor_assoc, UInt8.xor_self,
          UInt8.xor_zero] at hguess
        exact hne hguess.symm
    · exact iff_of_true rfl fun k hk => ⟨fun _ => hone,fun h => absurd hlast h⟩

end LastPosition
end CryptoPlaypen.PaddingOracle
