import CryptoPlaypen.PaddingOracle.Positions

/-! The loops on positions and blocks. A byte that is wrong at the last position of a block
stays wrong, and each block is found apart from the others. -/
namespace CryptoPlaypen.PaddingOracle
open Buffer Blockmode

private theorem xor_changed (a x d : Block) {pos : Nat} (g : UInt8) :
    a.xor (changed x d pos g) = changed (a.xor x) d pos g := by
  apply Block.ext_byte
  intro i hi
  simp only [Block.byte_xor, byte_changed _ _ g hi, UInt8.xor_assoc]

section Blocks
variable {E : Equiv.Perm Block} {message : Bytes} {front rest : List Block} {x y : Block}

private theorem decryptBlocks_length (E : Equiv.Perm Block) (bs : List Block) :
    (decryptBlocks E bs).length = bs.length - 1 := by
  cases bs with
  | nil => rfl
  | cons iv cs =>
    rw [decryptBlocks, List.length_cons, Nat.add_sub_cancel, unchain_length]

private theorem status_iff (padded same : Prop) [Decidable padded] [Decidable same] :
    ((if padded then if same then 200 else 404 else 403) = 404 ↔ padded ∧ ¬ same) ∧
      ((if padded then if same then 200 else 404 else 403) = 200 ↔ padded ∧ same) := by
  split_ifs <;> simp [*]

/-- Only an unchanged last block is met with 200. -/
theorem answers_query (hall : decryptBlocks E (front ++ x :: y :: rest) = blocksOf (pad message))
    (d : Block) (pos : Nat) : Answers
      (fun g => oracle E message (query (flat (front ++ x :: y :: rest)) front.length d.1 pos g))
      ((E.symm y).xor x) d pos (rest = []) := by
  have hsame (g : UInt8) : decryptBlocks E (front ++ [changed x d pos g]) ++
      [changed ((E.symm y).xor x) d pos g] = blocksOf (pad message) ↔
        rest = [] ∧ changed ((E.symm y).xor x) d pos g = (E.symm y).xor x := by
    rw [← hall]
    constructor
    · intro heq
      have hrest : rest = [] := by
        have hlength := congrArg List.length heq
        simp only [List.length_append, decryptBlocks_length, List.length_cons, List.length_nil] at hlength
        exact List.eq_nil_of_length_eq_zero (by omega)
      subst hrest
      rw [decryptBlocks_append] at heq
      exact ⟨rfl,(List.append_inj' heq rfl).2 |> List.singleton_inj.mp⟩
    · rintro ⟨rfl,heq⟩
      have hx : changed x d pos g = x := by
        rw [← xor_changed] at heq
        rw [← Block.xor_cancel_left (E.symm y) (changed x d pos g), heq, Block.xor_cancel_left]
      rw [decryptBlocks_append, hx, heq]
  have hstatus (g : UInt8) : oracle E message (flat (front ++ [changed x d pos g,y])) = _ :=
    oracle_flat (decryptBlocks_append E front (changed x d pos g) y)
  simp only [xor_changed, hsame] at hstatus
  constructor
  · intro g
    rw [query_flat, hstatus]
    exact (status_iff _ _).1
  · intro g
    rw [query_flat, hstatus]
    exact (status_iff _ _).2

/-- The last block that a message is padded to is padded. -/
theorem padded_of_last (hall : decryptBlocks E (front ++ x :: y :: rest) = blocksOf (pad message))
    (hlast : rest = []) : ValidPadding ((E.symm y).xor x) := by
  subst hlast
  rw [decryptBlocks_append] at hall
  apply (unpad_flat_isSome (decryptBlocks E (front ++ [x])) _).mp
  rw [hall, flat_blocksOf (pad_length message),
    (unpad_eq_some_iff (pad_length message)).mpr rfl]
  rfl

end Blocks

/-- A block of the result is replaced. -/
theorem flat_set (L : List Block) {i : Nat} (hi : i < L.length) (d : Block) :
    (flat L).take (i * 16) ++ d.1 ++ (flat L).drop ((i + 1) * 16) = flat (L.set i d) := by
  have htake (n : Nat) (hn : n ≤ L.length) : (flat L).take (n * 16) = flat (L.take n) := by
    rw [← List.take_append_drop n L, flat_append, List.take_left' (by simp; omega)]
    simp
  have hdrop (n : Nat) (hn : n ≤ L.length) : (flat L).drop (n * 16) = flat (L.drop n) := by
    rw [← List.take_append_drop n L, flat_append, List.drop_left' (by simp; omega)]
    simp
  rw [htake i (by omega), hdrop (i + 1) hi, List.set_eq_take_append_cons_drop, if_pos hi]
  simp

private theorem foldlM_reverse_range {σ : Type} (f : σ → Nat → Option σ) (s : σ) (n : Nat) :
    (List.range (n + 1)).reverse.foldlM f s = (f s n).bind ((List.range n).reverse.foldlM f) := by
  rw [List.range_succ, List.reverse_append, List.reverse_singleton, List.singleton_append,
    List.foldlM_cons]
  rfl

section Positions
variable {attack : Bytes → Nat} {c0 : Bytes} {blockIndex : Nat} {L : List Block} {d : Block} {pos : Nat}

private theorem decryptPosition_some (hL : blockIndex + 1 < L.length) {d' : Block}
    (h : tryGuesses (fun g => attack (query c0 blockIndex d.1 pos g)) d.1 pos (List.range 256) 0 =
      some d'.1) : decryptPosition attack c0 blockIndex (d.1,flat L) pos =
        some (d'.1,flat (L.set (blockIndex + 1) d')) := by
  simp only [decryptPosition, h, ← flat_set L hL d']
  rfl

private theorem decryptPosition_keeps (hL : blockIndex + 1 < L.length) {s : Bytes × Bytes}
    (h : decryptPosition attack c0 blockIndex (d.1,flat L) pos = some s) : ∃ d' : Block,
      s = (d'.1,flat (L.set (blockIndex + 1) d')) ∧ ∀ i < 16, i ≠ pos → d'.byte i = d.byte i := by
  obtain ⟨r,hr,_⟩ := Option.bind_eq_some_iff.mp h
  obtain ⟨d',rfl,hkeep⟩ := tryGuesses_keeps hr
  rw [decryptPosition_some hL hr] at h
  exact ⟨d',(Option.some.inj h).symm,hkeep⟩

/-- The positions before those that are known, from the last one down. -/
theorem positions_known {b : Block} {n : Nat} {last : Prop} (hn : n ≤ 15)
    (hL : blockIndex + 1 < L.length)
    (hanswers : ∀ d pos, Answers (fun g => attack (query c0 blockIndex d.1 pos g)) b d pos last)
    (hknown : ∀ i < 16, n ≤ i → d.byte i = b.byte i) (hopen : ∀ i < n, d.byte i = 0) :
    (List.range n).reverse.foldlM (decryptPosition attack c0 blockIndex)
      (d.1,flat (L.set (blockIndex + 1) d)) = some (b.1,flat (L.set (blockIndex + 1) b)) := by
  induction n generalizing d with
  | zero =>
    have hd : d = b := Block.ext_byte fun i hi => hknown i hi (Nat.zero_le i)
    rw [hd]
    rfl
  | succ n ih =>
    have hstep := known_position (hanswers d n) (by omega) (fun i hi hlt => hknown i hi hlt)
      (hopen n (by omega))
    rw [foldlM_reverse_range, decryptPosition_some (by rwa [List.length_set]) hstep, Option.bind_some,
      List.set_set]
    apply ih (by omega)
    · intro i hi hle
      rw [Block.byte_setByte d _ hi]
      split
      · rename_i heq
        rw [heq]
      · exact hknown i hi (by omega)
    · intro i hi
      rw [Block.byte_setByte d _ (by omega), if_neg (by omega)]
      exact hopen i (by omega)

/-- The byte at the last position is never set again. -/
theorem positions_keep {n : Nat} (hn : n ≤ 15) (hL : blockIndex + 1 < L.length) {s : Bytes × Bytes}
    (h : (List.range n).reverse.foldlM (decryptPosition attack c0 blockIndex)
      (d.1,flat (L.set (blockIndex + 1) d)) = some s) :
    ∃ d' : Block, s = (d'.1,flat (L.set (blockIndex + 1) d')) ∧ d'.byte 15 = d.byte 15 := by
  induction n generalizing d with
  | zero => exact ⟨d,(Option.some.inj h).symm,rfl⟩
  | succ n ih =>
    rw [foldlM_reverse_range] at h
    obtain ⟨s',hstep,hrest⟩ := Option.bind_eq_some_iff.mp h
    obtain ⟨d',rfl,hkeep⟩ := decryptPosition_keeps (by rwa [List.length_set]) hstep
    rw [List.set_set] at hrest
    obtain ⟨d'',hs,hbyte⟩ := ih (by omega) hrest
    exact ⟨d'',hs,hbyte.trans (hkeep 15 (by omega) (by omega))⟩

end Positions

/-- The loop on one block: some block is found, which is the right one after a right first guess. -/
theorem decryptBlock_run {attack : Bytes → Nat} {c0 : Bytes} {i : Nat} {L : List Block} {b : Block}
    {last : Prop} (hL : i + 1 < L.length)
    (hanswers : ∀ d pos, Answers (fun g => attack (query c0 i d.1 pos g)) b d pos last)
    (hpadded : last → ValidPadding b) :
    (∀ D, decryptBlock attack c0 (flat L) i = some D →
      ∃ d, D = flat (L.set (i + 1) d) ∧ (d = b ↔ FirstGuess b last)) ∧
    (FirstGuess b last → (decryptBlock attack c0 (flat L) i).isSome) := by
  have hfirst : ∃ g, tryGuesses (fun g => attack (query c0 i zeroBlock.1 15 g)) zeroBlock.1 15
      (List.range 256) 0 = some (Block.setByte zeroBlock 15 g).1 ∧ (g = b.byte 15 ↔ FirstGuess b last) := by
    by_cases hlast : last
    · exact last_position_whole (hanswers zeroBlock 15) hlast (hpadded hlast)
    · exact last_position_inner (hanswers zeroBlock 15) hlast
  obtain ⟨g,hg,hright⟩ := hfirst
  have hbyte : (Block.setByte zeroBlock 15 g).byte 15 = g := by
    rw [Block.byte_setByte _ _ (by omega), if_pos rfl]
  have hrun : decryptBlock attack c0 (flat L) i =
      ((List.range 15).reverse.foldlM (decryptPosition attack c0 i) ((Block.setByte zeroBlock 15 g).1,
        flat (L.set (i + 1) (Block.setByte zeroBlock 15 g)))).map Prod.snd := by
    have hposition := decryptPosition_some hL hg
    have hstep : decryptPosition attack c0 i (zeros 16,flat L) 15 = some ((Block.setByte zeroBlock 15 g).1,
        flat (L.set (i + 1) (Block.setByte zeroBlock 15 g))) := hposition
    rw [decryptBlock, foldlM_reverse_range, hstep, Option.bind_some]
    exact bind_pure_comp _ _
  have hknown (h : g = b.byte 15) : (List.range 15).reverse.foldlM (decryptPosition attack c0 i)
      ((Block.setByte zeroBlock 15 g).1,flat (L.set (i + 1) (Block.setByte zeroBlock 15 g))) =
        some (b.1,flat (L.set (i + 1) b)) := by
    apply positions_known (Nat.le_refl 15) hL hanswers
    · intro j hj hle
      have h15 : j = 15 := by omega
      rw [h15, hbyte, h]
    · intro j hj
      rw [Block.byte_setByte _ _ (by omega), if_neg (by omega), byte_zeroBlock]
  constructor
  · intro D hD
    rw [hrun] at hD
    obtain ⟨s,hs,rfl⟩ := Option.map_eq_some_iff.mp hD
    obtain ⟨d,rfl,hd⟩ := positions_keep (Nat.le_refl 15) hL hs
    refine ⟨d,rfl,?_⟩
    rw [← hright]
    constructor
    · intro hsame
      rw [← hbyte, ← hd, hsame]
    · intro h
      rw [hknown h] at hs
      exact Subtype.ext (congrArg Prod.fst (Option.some.inj hs)).symm
  · intro h
    rw [hrun, hknown (hright.mpr h)]
    rfl

section Main
variable {E : Equiv.Perm Block} {message : Bytes} {bs : List Block}

/-- What a block of the plaintext is decrypted from. -/
theorem decryptBlocks_getElem? (E : Equiv.Perm Block) (front : List Block) (x y : Block)
    (rest : List Block) :
    (decryptBlocks E (front ++ x :: y :: rest))[front.length]? = some ((E.symm y).xor x) := by
  have hsplit : decryptBlocks E (front ++ x :: y :: rest) =
      decryptBlocks E (front ++ [x]) ++ (E.symm y).xor x :: decryptBlocks E (y :: rest) := by
    cases front with
    | nil => rfl
    | cons iv front =>
      have happend : front ++ x :: y :: rest = (front ++ [x]) ++ y :: rest := by simp
      rw [List.cons_append, List.cons_append, decryptBlocks, decryptBlocks, happend, unchain_append]
      simp [unchain, decryptBlocks]
  rw [hsplit, List.getElem?_append_right (by simp [decryptBlocks_length])]
  simp [decryptBlocks_length]

/-- How the service answers about a block of the message. -/
theorem answers_of_getElem? (hall : decryptBlocks E bs = blocksOf (pad message)) {i : Nat} {b : Block}
    (hb : (blocksOf (pad message))[i]? = some b) :
    (∀ d pos, Answers (fun g => oracle E message (query (flat bs) i d.1 pos g)) b d pos
      (i + 1 = (blocksOf (pad message)).length)) ∧
    (i + 1 = (blocksOf (pad message)).length → ValidPadding b) := by
  have hcount : (blocksOf (pad message)).length = bs.length - 1 := by rw [← hall, decryptBlocks_length]
  obtain ⟨hi,_⟩ := List.getElem?_eq_some_iff.mp hb
  obtain ⟨front,x,y,rest,rfl,rfl⟩ :
      ∃ front x y rest, bs = front ++ x :: y :: rest ∧ front.length = i := by
    refine ⟨bs.take i,bs[i],bs[i + 1],bs.drop (i + 1 + 1),?_,List.length_take_of_le (by omega)⟩
    rw [List.getElem_cons_drop, List.getElem_cons_drop, List.take_append_drop]
  have hlast : front.length + 1 = (blocksOf (pad message)).length ↔ rest = [] := by
    rw [hcount, List.length_append, List.length_cons, List.length_cons, ← List.length_eq_zero_iff]
    omega
  rw [← hall, decryptBlocks_getElem?, Option.some.injEq] at hb
  subst hb
  simp only [hlast]
  exact ⟨answers_query hall,padded_of_last hall⟩

/-- The loop on the first `n` blocks writes each of them, and those alone. -/
theorem blocks_run (hall : decryptBlocks E bs = blocksOf (pad message)) {n : Nat} (hn : n + 1 ≤ bs.length)
    {L : List Block} (hL : L.length = bs.length) :
    (∀ D, (List.range n).reverse.foldlM (decryptBlock (oracle E message) (flat bs)) (flat L) = some D →
      ∃ L', D = flat L' ∧ L'.length = bs.length ∧ (∀ j, n < j → L'[j]? = L[j]?) ∧
        ∀ i b, i < n → (blocksOf (pad message))[i]? = some b →
          (L'[i + 1]? = some b ↔ FirstGuess b (i + 1 = (blocksOf (pad message)).length))) ∧
    ((∀ i b, i < n → (blocksOf (pad message))[i]? = some b →
        FirstGuess b (i + 1 = (blocksOf (pad message)).length)) →
      ((List.range n).reverse.foldlM (decryptBlock (oracle E message) (flat bs)) (flat L)).isSome) := by
  induction n generalizing L with
  | zero =>
    refine ⟨fun D hD => ⟨L,(Option.some.inj hD).symm,hL,fun _ _ => rfl,?_⟩,fun _ => rfl⟩
    intro i b hi
    omega
  | succ n ih =>
    have hlt : n < (blocksOf (pad message)).length := by
      rw [← hall, decryptBlocks_length]
      omega
    obtain ⟨hanswers,hpadded⟩ := answers_of_getElem? hall (List.getElem?_eq_getElem hlt)
    obtain ⟨hblock,hgoes⟩ := decryptBlock_run (L := L) (by omega) hanswers hpadded
    rw [foldlM_reverse_range]
    constructor
    · intro D hD
      obtain ⟨D',hD',hrest⟩ := Option.bind_eq_some_iff.mp hD
      obtain ⟨d,rfl,hd⟩ := hblock D' hD'
      obtain ⟨L',hL',hlength,hkept,hfound⟩ := (ih (by omega) (by rwa [List.length_set])).1 D hrest
      refine ⟨L',hL',hlength,?_,?_⟩
      · intro j hj
        rw [hkept j (by omega), List.getElem?_set_ne (by omega)]
      · intro i b hi hb
        rcases Nat.eq_or_lt_of_le (Nat.le_of_lt_succ hi) with rfl | hless
        · rw [List.getElem?_eq_getElem hlt, Option.some.injEq] at hb
          subst hb
          rw [hkept (i + 1) (by omega), List.getElem?_set_self (by omega), Option.some.injEq, hd]
        · exact hfound i b hless hb
    · intro hall'
      obtain ⟨D',hD'⟩ := Option.isSome_iff_exists.mp (hgoes (hall' n _ (by omega)
        (List.getElem?_eq_getElem hlt)))
      obtain ⟨d,rfl,_⟩ := hblock D' hD'
      rw [hD', Option.bind_some]
      exact (ih (by omega) (by rwa [List.length_set])).2 fun i b hi => hall' i b (by omega)

end Main

/-- The loops end, and all after the iv is the padded message. -/
def Recovers (E : Equiv.Perm Block) (iv : Block) (message : Bytes) : Prop :=
  ∃ decrypted, main (oracle E message) (encrypt E iv message) = some decrypted ∧
    decrypted.drop 16 = pad message

private theorem zeros_flat (n : Nat) : zeros (n * 16) = flat (List.replicate n zeroBlock) := by
  induction n with
  | zero => rfl
  | succ n ih =>
    rw [List.replicate_succ, flat_cons, ← ih, Nat.succ_mul, Nat.add_comm]
    exact (List.replicate_append_replicate (n := 16)).symm

private theorem flat_drop (L : List Block) : (flat L).drop 16 = flat (L.drop 1) := by
  cases L with
  | nil => rfl
  | cons b L => rw [flat_cons, List.drop_left' b.2, List.drop_one, List.tail_cons]

/-- The loop on blocks, over the blocks of the ciphertext. -/
theorem main_encrypt (E : Equiv.Perm Block) (iv : Block) (message : Bytes) :
    let bs := iv :: chain Block.xor E iv (blocksOf (pad message))
    main (oracle E message) (encrypt E iv message) =
      (List.range (blocksOf (pad message)).length).reverse.foldlM
        (decryptBlock (oracle E message) (flat bs)) (flat (List.replicate bs.length zeroBlock)) := by
  intro bs
  have hcount : bs.length = (blocksOf (pad message)).length + 1 := by simp [bs]
  rw [main, encrypt, ← zeros_flat]
  change (List.range ((flat bs).length / 16 - 1)).reverse.foldlM _ (zeros (flat bs).length) = _
  rw [flat_length, Nat.mul_div_cancel _ (by omega), hcount, Nat.add_sub_cancel]

/-- All but the first block of a result are the message if each of them is. -/
theorem drop_flat_iff {L : List Block} {message : Bytes}
    (hlength : L.length = (blocksOf (pad message)).length + 1) :
    (flat L).drop 16 = pad message ↔
      ∀ i b, (blocksOf (pad message))[i]? = some b → L[i + 1]? = some b := by
  have hblocks : (flat L).drop 16 = pad message ↔ L.drop 1 = blocksOf (pad message) := by
    rw [flat_drop]
    constructor
    · intro hflat
      apply flat_injective
      rw [hflat, flat_blocksOf (pad_length message)]
    · intro hsame
      rw [hsame, flat_blocksOf (pad_length message)]
  have hget (i : Nat) : (L.drop 1)[i]? = L[i + 1]? := by rw [List.getElem?_drop, Nat.add_comm]
  rw [hblocks]
  constructor
  · intro hsame i b hb
    rw [← hget, hsame, hb]
  · intro hall
    apply List.ext_getElem?
    intro i
    rw [hget]
    rcases hb : (blocksOf (pad message))[i]? with _ | b
    · rw [List.getElem?_eq_none_iff] at hb ⊢
      omega
    · exact hall i b hb

/-- A message is recovered exactly if the first guess of each of its blocks is right. -/
theorem padding_oracle_iff (E : Equiv.Perm Block) (iv : Block) (message : Bytes) :
    Recovers E iv message ↔ ∀ i b, (blocksOf (pad message))[i]? = some b →
      FirstGuess b (i + 1 = (blocksOf (pad message)).length) := by
  let bs := iv :: chain Block.xor E iv (blocksOf (pad message))
  have hall : decryptBlocks E bs = blocksOf (pad message) :=
    unchain_chain E.symm_apply_apply Block.xor_cancel_left iv _
  have hcount : bs.length = (blocksOf (pad message)).length + 1 := by simp [bs]
  have hbound {i : Nat} {b : Block} (hb : (blocksOf (pad message))[i]? = some b) :
      i < (blocksOf (pad message)).length := (List.getElem?_eq_some_iff.mp hb).1
  obtain ⟨hrun,hgoes⟩ := blocks_run hall (Nat.le_of_eq hcount.symm)
    (L := List.replicate bs.length zeroBlock) List.length_replicate
  rw [Recovers, main_encrypt]
  constructor
  · rintro ⟨D,hD,hdrop⟩ i b hb
    obtain ⟨L,rfl,hlength,_,hfound⟩ := hrun D hD
    exact (hfound i b (hbound hb) hb).mp
      ((drop_flat_iff (hlength.trans hcount)).mp hdrop i b hb)
  · intro hgood
    obtain ⟨D,hD⟩ := Option.isSome_iff_exists.mp (hgoes fun i b _ => hgood i b)
    obtain ⟨L,rfl,hlength,_,hfound⟩ := hrun D hD
    refine ⟨flat L,hD,(drop_flat_iff (hlength.trans hcount)).mpr ?_⟩
    intro i b hb
    exact (hfound i b (hbound hb) hb).mpr (hgood i b hb)

def lettersAndTwo : Bytes := List.replicate 14 0x61 ++ [2]

/-- The guess 2 for that byte is answered by 404, and the loops end in `log.Fatal`. -/
theorem padding_oracle_fails :
    main (oracle (Equiv.refl Block) lettersAndTwo)
      (encrypt (Equiv.refl Block) zeroBlock lettersAndTwo) = none ∧
    ¬ Recovers (Equiv.refl Block) zeroBlock lettersAndTwo := by
  have hfatal : main (oracle (Equiv.refl Block) lettersAndTwo)
      (encrypt (Equiv.refl Block) zeroBlock lettersAndTwo) = none := by decide +kernel
  constructor
  · exact hfatal
  · rintro ⟨D,hD,_⟩
    rw [hfatal] at hD
    cases hD

end CryptoPlaypen.PaddingOracle
