import CryptoPlaypen.PaddingOracle.Attack
import CryptoPlaypen.PaddingOracle.Service
import Mathlib.Order.WellFounded

/-! One position of one block. With the bytes behind it known, only the right guess has valid
padding; at the last position a block that almost ends in padding has another one. -/
namespace CryptoPlaypen.PaddingOracle
open Buffer Blockmode

section Guessing
variable {result : UInt8 → Nat} {decryptedBlock : Bytes} {pos : Nat}

/-- The first guess that gives 404 is taken. -/
theorem tryGuesses_first {g : UInt8} (hfound : result g = 404) (hbefore : ∀ g' < g, result g' ≠ 404)
    (possible : UInt8) : tryGuesses result decryptedBlock pos (List.range 256) possible =
      some (decryptedBlock.set pos g) := by
  have hfrom (n i : Nat) (hi : i + n = 256) (hle : i ≤ g.toNat) (possible : UInt8) :
      tryGuesses result decryptedBlock pos (List.range' i n) possible =
        some (decryptedBlock.set pos g) := by
    induction n generalizing i possible with
    | zero =>
      have hg := g.toNat_lt
      omega
    | succ n ih =>
      rw [List.range'_succ, tryGuesses]
      rcases Nat.eq_or_lt_of_le hle with rfl | hlt
      · rw [UInt8.ofNat_toNat, if_pos hfound]
      · have hg := g.toNat_lt
        have hless : UInt8.ofNat i < g := by
          rw [UInt8.lt_iff_toNat_lt, UInt8.toNat_ofNat_of_lt' (show _ < 256 by omega)]
          exact hlt
        rw [if_neg (hbefore _ hless), if_neg (by omega)]
        exact ih (i + 1) (by omega) hlt _
  rw [List.range_eq_range']
  exact hfrom 256 0 rfl (Nat.zero_le _) possible

/-- Without a 404 the only guess that gives 200 is taken. -/
theorem tryGuesses_fallback {g : UInt8} (hpos : g > 0) (hnone : ∀ g, result g ≠ 404)
    (honly : ∀ g', result g' = 200 ↔ g' = g) (possible : UInt8) :
    tryGuesses result decryptedBlock pos (List.range 256) possible =
      some (decryptedBlock.set pos g) := by
  have hnext {i : Nat} (hi : i < 256) {possible : UInt8} (hseen : g.toNat < i → possible = g)
      (hlt : g.toNat < i + 1) :
      (if result (UInt8.ofNat i) = 200 then UInt8.ofNat i else possible) = g := by
    rcases Nat.eq_or_lt_of_le (Nat.le_of_lt_succ hlt) with rfl | hless
    · rw [UInt8.ofNat_toNat, if_pos ((honly g).mpr rfl)]
    · rw [if_neg, hseen hless]
      intro hi'
      rw [← (honly _).mp hi', UInt8.toNat_ofNat_of_lt' hi] at hless
      exact Nat.lt_irrefl i hless
  have hfrom (n i : Nat) (hi : i + (n + 1) = 256) (possible : UInt8)
      (hseen : g.toNat < i → possible = g) :
      tryGuesses result decryptedBlock pos (List.range' i (n + 1)) possible =
        some (decryptedBlock.set pos g) := by
    induction n generalizing i possible with
    | zero =>
      have hg := g.toNat_lt
      rw [List.range'_succ, tryGuesses, if_neg (hnone _), if_pos (by omega)]
      simp only [hnext (by omega) hseen (by omega), if_pos hpos]
    | succ n ih =>
      rw [List.range'_succ, tryGuesses, if_neg (hnone _), if_neg (by omega)]
      exact ih (i + 1) (by omega) _ (hnext (by omega) hseen)
  rw [List.range_eq_range']
  exact hfrom 255 0 rfl possible (fun h => by omega)

end Guessing

/-- Only the byte at the position is touched. -/
theorem tryGuesses_keeps {result : UInt8 → Nat} {d : Block} {pos : Nat} {gs : List Nat}
    {possible : UInt8} {r : Bytes} (h : tryGuesses result d.1 pos gs possible = some r) :
    ∃ d' : Block, r = d'.1 ∧ ∀ i < 16, i ≠ pos → d'.byte i = d.byte i := by
  induction gs generalizing possible with
  | nil => exact ⟨d,(Option.some.inj h).symm,fun _ _ _ => rfl⟩
  | cons g gs ih =>
    have hset (g : UInt8) (hr : some (d.1.set pos g) = some r) :
        ∃ d' : Block, r = d'.1 ∧ ∀ i < 16, i ≠ pos → d'.byte i = d.byte i :=
      ⟨Block.setByte d pos g,(Option.some.inj hr).symm,fun i hi hne => by
        rw [Block.byte_setByte d g hi, if_neg hne]⟩
    rw [tryGuesses] at h
    by_cases hfound : result (UInt8.ofNat g) = 404
    · rw [if_pos hfound] at h
      exact hset _ h
    · rw [if_neg hfound] at h
      dsimp only at h
      generalize (if result (UInt8.ofNat g) = 200 then UInt8.ofNat g else possible) = possible' at h
      by_cases hend : g = 255
      · rw [if_pos hend] at h
        split at h
        · exact hset _ h
        · cases h
      · rw [if_neg hend] at h
        exact ih h

def changed (x d : Block) (pos : Nat) (g : UInt8) : Block :=
  ⟨(xorDecrypted (x.1.set pos (x.1.getD pos 0 ^^^ g)) d.1).take pos ++
    xorPadding ((xorDecrypted (x.1.set pos (x.1.getD pos 0 ^^^ g)) d.1).drop pos) (16 - pos),by
      simp [xorDecrypted, xorPadding, x.2, d.2]
      omega⟩

theorem byte_changed (x d : Block) {pos i : Nat} (g : UInt8) (hi : i < 16) :
    (changed x d pos g).byte i = x.byte i ^^^ (if i = pos then g else 0) ^^^ d.byte i ^^^
      (if pos ≤ i then UInt8.ofNat (16 - pos) else 0) := by
  have hx : i < x.1.length := x.2.symm ▸ hi
  have hd : i < d.1.length := d.2.symm ▸ hi
  let block := xorDecrypted (x.1.set pos (x.1.getD pos 0 ^^^ g)) d.1
  have hlength : block.length = 16 := by simp [block, xorDecrypted, x.2, d.2]
  have hblock : block[i]? = some (x.byte i ^^^ (if i = pos then g else 0) ^^^ d.byte i) := by
    simp only [block, xorDecrypted, xorBytes, List.getElem?_zipWith, List.getElem?_set, x.byte_eq hx,
      d.byte_eq hd, List.getElem?_eq_getElem hx, List.getElem?_eq_getElem hd]
    by_cases hpos : pos = i
    · subst hpos
      simp [hx]
    · simp [hpos, Ne.symm hpos]
  change (block.take pos ++ xorPadding (block.drop pos) (16 - pos)).getD i 0 = _
  rw [List.getD_eq_getElem?_getD, List.getElem?_append, List.length_take, hlength]
  by_cases hpos : pos ≤ i
  · have hplus : pos + (i - min pos 16) = i := by omega
    rw [if_neg (by omega), if_pos hpos, xorPadding, List.getElem?_map, List.getElem?_drop, hplus, hblock]
    rfl
  · rw [if_pos (by omega), if_neg hpos, List.getElem?_take_of_lt (by omega), hblock, UInt8.xor_zero]
    rfl

/-- The query is all up to the next block, with the current block changed. -/
theorem query_flat (front : List Block) (x y : Block) (rest : List Block) (d : Block) (pos : Nat)
    (g : UInt8) : query (flat (front ++ x :: y :: rest)) front.length d.1 pos g =
      flat (front ++ [changed x d pos g,y]) := by
  have htake : (flat (front ++ x :: y :: rest)).take ((front.length + 2) * 16) =
      flat front ++ (x.1 ++ y.1) := by
    have hsplit : flat (front ++ x :: y :: rest) = flat (front ++ [x,y]) ++ flat rest := by simp
    rw [hsplit, List.take_left' (by rw [flat_length]; simp)]
    simp
  have hdrop (bs : Bytes) : (flat front ++ bs).drop (front.length * 16) = bs :=
    List.drop_left' (flat_length front)
  have hblock : (x.1 ++ y.1).take 16 = x.1 := List.take_left' x.2
  have hlast : (flat front ++ (x.1 ++ y.1)).drop (front.length * 16 + 16) = y.1 := by
    rw [← List.append_assoc, List.drop_left' (by simp [x.2])]
  simp only [query, htake, hdrop, hblock, hlast, List.take_left' (flat_length front)]
  simp [changed]

end CryptoPlaypen.PaddingOracle
