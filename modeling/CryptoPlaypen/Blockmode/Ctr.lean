import CryptoPlaypen.Blockmode.Blocks

/-! `CTREncrypt` and `CTRDecrypt`. The counter is the second half of the iv, and it is
incremented in the array that the iv came in. -/
namespace CryptoPlaypen.Blockmode
open Buffer Go

/-- The counter wraps in its eight bytes. -/
def incrementCounter (ivBytes : Slice) : Exec Unit := do
  let counter ← ivBytes.tail 8
  let nextIv ← counter.uint64
  counter.putUint64 ((nextIv + 1) % 2 ^ 64)

/-- The body of the loop, the same in both functions. -/
def ctrBlock (aesBlock : Option (Block → Block)) (text ivBytes : Slice) (blocks lastBlockLen : Nat)
    (output : Bytes) (i : Nat) : Exec Bytes := do
  let block ← text.reslice (i * 16) (i * 16 + 16)
  let iv ← ivBytes.read
  let m ← orPanic (crypt aesBlock iv)
  let src ← block.read
  let m ← orPanic (xor src m)
  let m := if i = blocks - 1 then m.take lastBlockLen else m
  incrementCounter ivBytes
  pure (output ++ m)

/-- The loop on all blocks; the count is never reduced, as no remainder is 16. -/
def ctrBlocks (aesBlock : Option (Block → Block)) (text ivBytes : Slice) (output : Bytes) :
    Exec Bytes := do
  let blocks := text.len / 16 + 1
  let lastBlockLen := text.len % 16
  let blocks := if lastBlockLen = 16 then blocks - 1 else blocks
  (List.range' 0 blocks).foldlM (ctrBlock aesBlock text ivBytes blocks lastBlockLen) output

def CTREncrypt (F : Bytes → Block → Block) (keyBytes : Bytes) (plaintextBytes ivBytes : Slice) :
    Exec Bytes := do
  let output ← ivBytes.read
  ctrBlocks (newCipher F keyBytes) plaintextBytes ivBytes output

def CTRDecrypt (F : Bytes → Block → Block) (keyBytes : Bytes) (cipherBytes : Slice) : Exec Bytes := do
  let ivBytes ← cipherBytes.reslice 0 16
  let cipherBytes ← cipherBytes.tail 16
  ctrBlocks (newCipher F keyBytes) cipherBytes ivBytes []

def Block.next (iv : Block) : Block :=
  ⟨iv.1.take 8 ++ beBytes 8 ((beValue (iv.1.drop 8) + 1) % 2 ^ 64),by simp [iv.2]⟩

def keystream (f : Block → Block) : Nat → Block → Bytes
  | 0, _ => []
  | n + 1, iv => (f iv).1 ++ keystream f n iv.next

@[simp] theorem keystream_length (f : Block → Block) (n : Nat) (iv : Block) :
    (keystream f n iv).length = n * 16 := by
  induction n generalizing iv with
  | zero => simp [keystream]
  | succ n ih =>
    rw [keystream, List.length_append, ih, (f iv).2]
    omega

section Rounds
variable {σ : Memory} {ivBytes : Slice} (hiv : ivBytes.len = 16)
include hiv

private theorem run_incrementCounter : ∃ τ, (incrementCounter ivBytes).run σ = some ((), τ) ∧
    blockAt τ ivBytes.off = (blockAt σ ivBytes.off).next ∧
    ∀ a, a < ivBytes.off + 8 ∨ ivBytes.off + 16 ≤ a → τ.byte a = σ.byte a := by
  let v := (beValue (σ.window (ivBytes.off + 8) 8) + 1) % 2 ^ 64
  refine ⟨σ.overwrite (ivBytes.off + 8) (beBytes 8 v),?_,?_,?_⟩
  · rw [incrementCounter, run_then (Slice.run_tail (by omega)),
      run_then (Slice.run_uint64 (by simp [hiv])), Slice.run_putUint64 (by simp [hiv])]
  · have hsplit : σ.window ivBytes.off 16 = σ.window ivBytes.off 8 ++ σ.window (ivBytes.off + 8) 8 :=
      window_add ivBytes.off 8 8
    have hcounter := window_overwrite (σ := σ) (ivBytes.off + 8) (beBytes 8 v)
    rw [beBytes_length] at hcounter
    apply Subtype.ext
    change (σ.overwrite (ivBytes.off + 8) (beBytes 8 v)).window ivBytes.off (8 + 8) = _
    rw [window_add, hcounter, window_overwrite_disjoint (.inl (Nat.le_refl _))]
    simp only [Block.next, blockAt, hsplit]
    rw [List.take_left' (window_length _ _), List.drop_left' (window_length _ _)]
  · intro a ha
    exact overwrite_outside (by rw [beBytes_length]; omega)

/-- One round: a block of text under the current iv, cut in the last round. -/
theorem run_ctrBlock (f : Block → Block) (text : Slice) (blocks lastBlockLen i : Nat)
    (hroom : i * 16 + 16 ≤ text.cap) (output : Bytes) :
    ∃ τ, (ctrBlock (some f) text ivBytes blocks lastBlockLen output i).run σ =
        some (output ++ (if i = blocks - 1 then
          xorBytes (σ.window (text.off + i * 16) (min lastBlockLen 16)) (f (blockAt σ ivBytes.off)).1
          else xorBytes (σ.window (text.off + i * 16) 16) (f (blockAt σ ivBytes.off)).1), τ) ∧
      blockAt τ ivBytes.off = (blockAt σ ivBytes.off).next ∧
      ∀ a, a < ivBytes.off + 8 ∨ ivBytes.off + 16 ≤ a → τ.byte a = σ.byte a := by
  obtain ⟨τ,hcounter,hnext,hframe⟩ := run_incrementCounter (σ := σ) hiv
  refine ⟨τ,?_,hnext,hframe⟩
  have hkey : ivBytes.content σ = (blockAt σ ivBytes.off).1 := by rw [Slice.content, hiv]; rfl
  have hsrc : Slice.content ⟨text.off + i * 16,i * 16 + 16 - i * 16,text.cap - i * 16,
      Nat.sub_le_sub_right hroom _⟩ σ = (blockAt σ (text.off + i * 16)).1 := by
    simp [Slice.content, blockAt]
  rw [ctrBlock, run_then (Slice.run_reslice ⟨by omega,hroom⟩), run_then Slice.run_read, hkey,
    crypt_block, run_then (run_orPanic_some _), run_then Slice.run_read, hsrc, xor_blocks,
    run_then (run_orPanic_some _), run_then hcounter]
  have hcut : (xorBytes (σ.window (text.off + i * 16) 16) (f (blockAt σ ivBytes.off)).1).take
      lastBlockLen = xorBytes (σ.window (text.off + i * 16) (min lastBlockLen 16))
        (f (blockAt σ ivBytes.off)).1 := by
    rw [xorBytes_take]
    rcases Nat.le_total lastBlockLen 16 with hle | hle
    · rw [window_take hle, Nat.min_eq_left hle]
    · rw [List.take_of_length_le (by simpa using hle), Nat.min_eq_right hle]
  rw [← hcut]
  rfl

/-- The counter lies in no block of the text but the first, which is read before the counter
is incremented. -/
def CounterClearOf (ivBytes text : Slice) : Prop :=
  ivBytes.off ≤ text.off ∨ text.off + text.len ≤ ivBytes.off + 8

/-- The rounds from `i` on combine the rest of the text with the rest of the stream. -/
theorem run_ctrRounds (f : Block → Block) {text : Slice} {n i : Nat} (hi : i + n = text.len / 16)
    (hclear : CounterClearOf ivBytes text)
    (hroom : (text.len / 16 + 1) * 16 ≤ text.cap) (output : Bytes) :
    ∃ τ, ((List.range' i (n + 1)).foldlM (ctrBlock (some f) text ivBytes (text.len / 16 + 1)
        (text.len % 16)) output).run σ =
      some (output ++ xorBytes (σ.window (text.off + i * 16) (text.len - i * 16))
        (keystream f (n + 1) (blockAt σ ivBytes.off)), τ) := by
  induction n generalizing i σ output with
  | zero =>
    obtain ⟨τ,hround,_⟩ := run_ctrBlock (σ := σ) hiv f text (text.len / 16 + 1) (text.len % 16) i
      (by omega) output
    have hrest : text.len - i * 16 = min (text.len % 16) 16 := by omega
    refine ⟨τ,(run_then hround _).trans ?_⟩
    rw [if_pos (by omega), hrest]
    simp [keystream]
  | succ n ih =>
    obtain ⟨τ,hround,hnext,hframe⟩ := run_ctrBlock (σ := σ) hiv f text (text.len / 16 + 1)
      (text.len % 16) i (by omega) output
    rw [if_neg (by omega)] at hround
    obtain ⟨υ,hrest⟩ := ih (σ := τ) (i := i + 1) (by omega)
      (output ++ xorBytes (σ.window (text.off + i * 16) 16) (f (blockAt σ ivBytes.off)).1)
    refine ⟨υ,(run_then hround _).trans (hrest.trans ?_)⟩
    have hkept : τ.window (text.off + (i + 1) * 16) (text.len - (i + 1) * 16) =
        σ.window (text.off + (i + 1) * 16) (text.len - (i + 1) * 16) := by
      apply window_congr
      intro a ha
      have hpast := hclear.imp_left fun hle => Nat.add_le_add_right hle 16
      exact hframe _ (by omega)
    have hsplit : σ.window (text.off + i * 16) (text.len - i * 16) =
        σ.window (text.off + i * 16) 16 ++
          σ.window (text.off + (i + 1) * 16) (text.len - (i + 1) * 16) := by
      have hadd := window_add (σ := σ) (text.off + i * 16) 16 (text.len - (i + 1) * 16)
      have hlen : text.len - i * 16 = 16 + (text.len - (i + 1) * 16) := by omega
      have hoff : text.off + (i + 1) * 16 = text.off + i * 16 + 16 := by omega
      rw [hlen, hoff]
      exact hadd
    have hstream : keystream f (n + 1 + 1) (blockAt σ ivBytes.off) = (f (blockAt σ ivBytes.off)).1 ++
        keystream f (n + 1) (blockAt σ ivBytes.off).next := rfl
    rw [hkept, hnext, hsplit, hstream, xorBytes_append (by rw [window_length, (f _).2]),
      List.append_assoc]

end Rounds

/-- A round that ends has a block to slice and a cipher to call. -/
theorem ctrBlock_some {aesBlock : Option (Block → Block)} {text ivBytes : Slice}
    {blocks lastBlockLen i : Nat} {output : Bytes} {σ : Memory} {r : Bytes × Memory}
    (h : (ctrBlock aesBlock text ivBytes blocks lastBlockLen output i).run σ = some r) :
    i * 16 + 16 ≤ text.cap ∧ aesBlock ≠ none := by
  obtain ⟨block,_,hslice,h⟩ := run_bind_some.mp h
  obtain ⟨iv,_,_,h⟩ := run_bind_some.mp h
  obtain ⟨m,_,hcrypt,_⟩ := run_bind_some.mp h
  refine ⟨(Slice.bounds_of_reslice hslice).2,?_⟩
  rintro rfl
  cases hcrypt

theorem ctrRounds_some {aesBlock : Option (Block → Block)} {text ivBytes : Slice}
    {blocks lastBlockLen i n : Nat} {output : Bytes} {σ : Memory} {r : Bytes × Memory}
    (h : ((List.range' i n).foldlM (ctrBlock aesBlock text ivBytes blocks lastBlockLen) output).run σ =
      some r) : ∀ j, i ≤ j → j < i + n → j * 16 + 16 ≤ text.cap ∧ aesBlock ≠ none :=
  foldlM_range'_some (P := fun j => j * 16 + 16 ≤ text.cap ∧ aesBlock ≠ none)
    (fun _ _ _ _ => ctrBlock_some) h

def ctrText (f : Block → Block) (iv : Block) (text : Bytes) : Bytes :=
  xorBytes text (keystream f (text.length / 16 + 1) iv)

theorem ctrText_length (f : Block → Block) (iv : Block) (text : Bytes) :
    (ctrText f iv text).length = text.length := by
  rw [ctrText, xorBytes_length, keystream_length]
  omega

/-- Combining twice gives the text back. -/
theorem ctrText_ctrText (f : Block → Block) (iv : Block) (text : Bytes) :
    ctrText f iv (ctrText f iv text) = text := by
  have hlength := ctrText_length f iv text
  rw [ctrText, hlength, ctrText]
  apply xorBytes_cancel
  rw [keystream_length]
  omega

/-- One round more than the text has whole blocks, whatever its remainder. -/
theorem ctrBlocks_rounds (aesBlock : Option (Block → Block)) (text ivBytes : Slice) (output : Bytes) :
    ctrBlocks aesBlock text ivBytes output = (List.range' 0 (text.len / 16 + 1)).foldlM
      (ctrBlock aesBlock text ivBytes (text.len / 16 + 1) (text.len % 16)) output := by
  have hblocks : (if text.len % 16 = 16 then text.len / 16 + 1 - 1 else text.len / 16 + 1) =
      text.len / 16 + 1 := if_neg (by omega)
  simp only [ctrBlocks, hblocks]

/-- What the loop has returned, if it has, is the combined text. -/
theorem ctrBlocks_eq {F : Bytes → Block → Block} {keyBytes : Bytes} {text ivBytes : Slice}
    {output : Bytes} {σ : Memory} {r : Bytes × Memory} (hiv : ivBytes.len = 16)
    (hclear : CounterClearOf ivBytes text)
    (h : (ctrBlocks (newCipher F keyBytes) text ivBytes output).run σ = some r) :
    r.1 = output ++ ctrText (F keyBytes) (blockAt σ ivBytes.off) (text.content σ) := by
  rw [ctrBlocks_rounds] at h
  obtain ⟨hroom,hcipher⟩ := ctrRounds_some h (text.len / 16) (Nat.zero_le _) (by omega)
  have hkey : newCipher F keyBytes = some (F keyBytes) := by
    rw [newCipher] at hcipher ⊢
    exact if_pos (by_contra fun hsize => hcipher (if_neg hsize))
  obtain ⟨τ,hrun⟩ := run_ctrRounds (σ := σ) hiv (F keyBytes) (Nat.zero_add _) hclear (by omega) output
  rw [hkey, hrun] at h
  rw [← Option.some.inj h, ctrText, Slice.content_length]
  simp [Slice.content]

end CryptoPlaypen.Blockmode
