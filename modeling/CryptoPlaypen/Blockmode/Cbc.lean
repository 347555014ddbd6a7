import CryptoPlaypen.Blockmode.Blocks
import CryptoPlaypen.Blockmode.Chaining

/-! `CBCEncrypt` and `CBCDecrypt`. The padding is written into the plaintext's own array,
beyond its length, and the result is appended to the iv. -/
namespace CryptoPlaypen.Blockmode
open Buffer Go

/-- The loop `for p := 15; p >= 16-padding; p--`. -/
def padBlock (m : Slice) (padding : Nat) : Exec Unit :=
  (List.range' (16 - padding) padding).reverse.forM fun p => m.store p (UInt8.ofNat padding)

/-- The body of the loop of `CBCEncrypt`: the state is where `cin` is read from, the iv
or the last result, and the output. -/
def encryptBlock (aesBlock : Option (Block → Block)) (plainTextBytes : Slice) (padding blocks : Nat)
    (state : Exec Bytes × Bytes) (i : Nat) : Exec (Exec Bytes × Bytes) := do
  let m ← plainTextBytes.reslice (i * 16) (i * 16 + 16)
  (if i = blocks - 1 ∧ padding < 16 then padBlock m padding else pure ())
  let cin ← state.1
  let message ← m.read
  let aesInput ← orPanic (xor cin message)
  let cout ← orPanic (crypt aesBlock aesInput)
  pure (pure cout, state.2 ++ cout)

def CBCEncrypt (spare : Nat → Nat → Nat) (E : Bytes → Equiv.Perm Block) (keyBytes : Bytes)
    (plainTextBytes ivBytes : Slice) : Exec Slice := do
  let padding := 16 - plainTextBytes.len % 16
  let blocks := plainTextBytes.len / 16 + 1 - if padding = 16 then 1 else 0
  let aesBlock := (newCipher E keyBytes).map fun e => (e : Block → Block)
  let state ← (List.range' 0 blocks).foldlM (encryptBlock aesBlock plainTextBytes padding blocks)
    (ivBytes.read, [])
  -- the block for a length that is a multiple of 16 is appended as it is
  let output := if padding = 16 then state.2 ++ List.replicate 16 16 else state.2
  ivBytes.append spare output

/-- `m[0 : 16-padding]`, where the difference is one of bytes. -/
def cutPadding (m : Bytes) (padding : UInt8) : Option Bytes :=
  if (16 - padding).toNat ≤ m.length then some (m.take (16 - padding).toNat) else none

/-- The body of the loop of `CBCDecrypt`. Its `break` is in the last round. -/
def decryptBlock (aesBlock : Option (Block → Block)) (cipherBytes : Slice) (blocks : Nat)
    (state : Slice × Bytes) (i : Nat) : Exec (Slice × Bytes) := do
  let block ← cipherBytes.reslice (i * 16) (i * 16 + 16)
  let src ← block.read
  let m ← orPanic (crypt aesBlock src)
  let c ← state.1.read
  let m ← orPanic (xor m c)
  if i = blocks - 1 then
    let padding := m.getD 15 0
    if padding = 16 then pure (block, state.2)
    else do
      let m ← orPanic (cutPadding m padding)
      pure (block, state.2 ++ m)
  else pure (block, state.2 ++ m)

def CBCDecrypt (E : Bytes → Equiv.Perm Block) (keyBytes : Bytes) (cipherBytes : Slice) :
    Exec Bytes := do
  let ivBytes ← cipherBytes.reslice 0 16
  let cipherBytes ← cipherBytes.tail 16
  let aesBlock := (newCipher E keyBytes).map fun e => (e.symm : Block → Block)
  let blocks := cipherBytes.len / 16
  let state ← (List.range' 0 blocks).foldlM (decryptBlock aesBlock cipherBytes blocks) (ivBytes, [])
  pure state.2

def padBytes (padding : Nat) : Bytes :=
  if padding < 16 then List.replicate padding (UInt8.ofNat padding) else []

section Encrypt
variable {σ τ : Memory}

private theorem run_storeDown (m : Slice) (b : UInt8) {k n : Nat} (h : k + n ≤ m.len) :
    ((List.range' k n).reverse.forM fun p => m.store p b).run σ =
      some ((), σ.overwrite (m.off + k) (List.replicate n b)) := by
  induction n generalizing σ with
  | zero => simp [List.forM_nil]
  | succ n ih =>
    rw [List.range'_1_concat, List.reverse_append]
    refine (run_then (Slice.run_store (by omega) b) _).trans ?_
    refine (ih (by omega)).trans ?_
    have hwrite := overwrite_append (σ := σ) (m.off + k) (List.replicate n b) [b]
    rw [List.length_replicate, Nat.add_assoc] at hwrite
    rw [hwrite, ← List.replicate_succ']

/-- The padding of the last block, where there is any. -/
theorem run_padBlock {m : Slice} (hm : m.len = 16) {padding : Nat} (h : padding < 16) :
    (padBlock m padding).run σ = some ((), σ.overwrite (m.off + (16 - padding)) (padBytes padding)) := by
  rw [padBlock, run_storeDown m _ (by omega), padBytes, if_pos h]

variable (f : Block → Block) {p : Slice} {padding blocks : Nat}

/-- One round, from what the padding does to memory. -/
theorem run_encryptBlock {i : Nat} (hroom : i * 16 + 16 ≤ p.cap) {cin : Exec Bytes} {prev : Block}
    (out : Bytes) (hpad : ∀ m : Slice, m.off = p.off + i * 16 → m.len = 16 →
      (if i = blocks - 1 ∧ padding < 16 then padBlock m padding else pure ()).run σ = some ((), τ))
    (hcin : cin.run τ = some (prev.1, τ)) :
    (encryptBlock (some f) p padding blocks (cin, out) i).run σ =
      some ((pure (f (prev.xor (blockAt τ (p.off + i * 16)))).1,
        out ++ (f (prev.xor (blockAt τ (p.off + i * 16)))).1), τ) := by
  rw [encryptBlock, run_then (Slice.run_reslice ⟨by omega,hroom⟩), run_then (hpad _ rfl (by simp)),
    run_then hcin, run_then Slice.run_read]
  have hread : Slice.content ⟨p.off + i * 16,i * 16 + 16 - i * 16,p.cap - i * 16,
      Nat.sub_le_sub_right hroom _⟩ τ = (blockAt τ (p.off + i * 16)).1 := by
    simp [Slice.content, blockAt]
  rw [hread, xor_blocks, run_then (run_orPanic_some _), crypt_block, run_then (run_orPanic_some _)]
  rfl

private theorem padBytes_length_lt (padding : Nat) : (padBytes padding).length < 16 := by
  unfold padBytes
  split <;> simp_all

def padded (σ : Memory) (p : Slice) (padding : Nat) : Memory :=
  σ.overwrite (p.off + p.len) (padBytes padding)

/-- Only the last round pads, in the bytes behind the plaintext. -/
theorem run_lastPad {i : Nat} (hi : i + 1 = blocks)
    (hlen : blocks * 16 = p.len + (padBytes padding).length) (m : Slice) (hoff : m.off = p.off + i * 16)
    (hm : m.len = 16) : (if i = blocks - 1 ∧ padding < 16 then padBlock m padding else pure ()).run σ =
      some ((), padded σ p padding) := by
  by_cases hp : padding < 16
  · have hplace : m.off + (16 - padding) = p.off + p.len := by
      rw [padBytes, if_pos hp, List.length_replicate] at hlen
      omega
    rw [if_pos ⟨by omega,hp⟩, run_padBlock hm hp, hplace, padded]
  · rw [if_neg (by omega), padded, padBytes, if_neg hp, overwrite_nil]
    rfl

theorem run_earlierPad (padding : Nat) {i : Nat} (hi : i + 1 < blocks) (m : Slice) :
    (if i = blocks - 1 ∧ padding < 16 then padBlock m padding else pure ()).run σ = some ((), σ) := by
  rw [if_neg (by omega)]
  rfl

/-- The loop chains the blocks of the padded plaintext, from any round to the last. -/
theorem run_encryptBlocks {n i : Nat} (hi : i + (n + 1) = blocks)
    (hlen : blocks * 16 = p.len + (padBytes padding).length) (hroom : blocks * 16 ≤ p.cap)
    (cin : Exec Bytes) (prev : Block) (out : Bytes)
    (hcin : ∀ ρ, ρ = σ ∨ ρ = padded σ p padding → cin.run ρ = some (prev.1, ρ)) :
    ∃ last, ((List.range' i (n + 1)).foldlM (encryptBlock (some f) p padding blocks) (cin, out)).run σ =
      some ((last, out ++ flat (chain Block.xor f prev
        (blocksAt (padded σ p padding) (p.off + i * 16) (n + 1)))), padded σ p padding) := by
  have hshort := padBytes_length_lt padding
  induction n generalizing i cin prev out with
  | zero =>
    have hround := run_encryptBlock f (by omega) out (fun m => run_lastPad hi hlen m) (hcin _ (.inr rfl))
    refine ⟨pure (f (prev.xor (blockAt (padded σ p padding) (p.off + i * 16)))).1,
      (run_then hround _).trans ?_⟩
    rw [blocksAt_succ, chain, flat_cons]
    simp [blocksAt, chain]
  | succ n ih =>
    have hblock : blockAt σ (p.off + i * 16) = blockAt (padded σ p padding) (p.off + i * 16) :=
      Subtype.ext (window_overwrite_disjoint (.inl (by omega))).symm
    have hearlier : i + 1 < blocks := by omega
    have hround := run_encryptBlock f (p := p) (by omega) out
      (fun m _ _ => run_earlierPad padding hearlier m) (hcin _ (.inl rfl))
    rw [hblock] at hround
    let c := f (prev.xor (blockAt (padded σ p padding) (p.off + i * 16)))
    obtain ⟨last,hrest⟩ := ih (i := i + 1) (by omega) (pure c.1) c (out ++ c.1) fun _ _ => rfl
    have hnext : p.off + i * 16 + 16 = p.off + (i + 1) * 16 := by omega
    refine ⟨last,(run_then hround _).trans (hrest.trans ?_)⟩
    rw [blocksAt_succ _ _ (n + 1), hnext, chain, flat_cons, ← List.append_assoc]

/-- The blocks are exactly those of the padded plaintext. -/
theorem blocks_length (n : Nat) : (n / 16 + 1 - if 16 - n % 16 = 16 then 1 else 0) * 16 =
    n + (padBytes (16 - n % 16)).length := by
  by_cases hwhole : 16 - n % 16 = 16
  · rw [if_pos hwhole, padBytes, if_neg (by omega)]
    simp only [List.length_nil]
    omega
  · rw [if_neg hwhole, padBytes, if_pos (by omega), List.length_replicate]
    omega

/-- A round that ends has a block to slice and a cipher to call. -/
theorem encryptBlock_some {aesBlock : Option (Block → Block)} {state : Exec Bytes × Bytes} {i : Nat}
    {r : (Exec Bytes × Bytes) × Memory}
    (h : (encryptBlock aesBlock p padding blocks state i).run σ = some r) :
    i * 16 + 16 ≤ p.cap ∧ aesBlock ≠ none := by
  obtain ⟨m,ρ,hslice,h⟩ := run_bind_some.mp h
  obtain ⟨_,_,_,h⟩ := run_bind_some.mp h
  obtain ⟨cin,_,_,h⟩ := run_bind_some.mp h
  obtain ⟨message,_,_,h⟩ := run_bind_some.mp h
  obtain ⟨aesInput,_,_,h⟩ := run_bind_some.mp h
  obtain ⟨cout,_,hcrypt,_⟩ := run_bind_some.mp h
  refine ⟨(Slice.bounds_of_reslice hslice).2,?_⟩
  rintro rfl
  cases hcrypt

theorem encryptBlocks_some {aesBlock : Option (Block → Block)} {state : Exec Bytes × Bytes} {i n : Nat}
    {r : (Exec Bytes × Bytes) × Memory}
    (h : ((List.range' i n).foldlM (encryptBlock aesBlock p padding blocks) state).run σ = some r) :
    ∀ j, i ≤ j → j < i + n → j * 16 + 16 ≤ p.cap ∧ aesBlock ≠ none :=
  foldlM_range'_some (P := fun j => j * 16 + 16 ≤ p.cap ∧ aesBlock ≠ none)
    (fun _ _ _ _ => encryptBlock_some) h

end Encrypt

def unpadLast (m : Block) : Option Bytes :=
  if m.1.getD 15 0 = 16 then some [] else cutPadding m.1 (m.1.getD 15 0)

/-- What the rounds of `CBCDecrypt` make of the blocks they have decrypted. -/
def finish : List Block → Option Bytes
  | [] => some []
  | [m] => unpadLast m
  | m :: ms => (finish ms).map fun rest => m.1 ++ rest

private theorem finish_cons {m : Block} {ms : List Block} (h : ms ≠ []) :
    finish (m :: ms) = (finish ms).map fun rest => m.1 ++ rest := by
  cases ms with
  | nil => exact absurd rfl h
  | cons m' ms => rfl

theorem finish_append (ms : List Block) (m : Block) :
    finish (ms ++ [m]) = (unpadLast m).map fun rest => flat ms ++ rest := by
  induction ms with
  | nil => simp [finish]
  | cons m' ms ih =>
    rw [List.cons_append, finish_cons (by simp), ih, Option.map_map]
    refine congrArg (fun h => Option.map h _) (funext fun rest => ?_)
    rw [Function.comp_apply, flat_cons, List.append_assoc]

section Decrypt
variable {σ : Memory} (g : Block → Block) {t : Slice} (blocks : Nat)

/-- One round; only the last one looks at the padding. -/
theorem run_decryptBlock {i : Nat} (hroom : i * 16 + 16 ≤ t.cap) {s : Slice} {prev : Block}
    (hs : s.content σ = prev.1) (out : Bytes) :
    ∃ block : Slice, block.content σ = (blockAt σ (t.off + i * 16)).1 ∧
      (decryptBlock (some g) t blocks (s, out) i).run σ =
        (if i = blocks - 1 then unpadLast ((g (blockAt σ (t.off + i * 16))).xor prev)
          else some ((g (blockAt σ (t.off + i * 16))).xor prev).1).map fun m =>
            ((block, out ++ m), σ) := by
  let block : Slice := ⟨t.off + i * 16,i * 16 + 16 - i * 16,t.cap - i * 16,Nat.sub_le_sub_right hroom _⟩
  have hblock : block.content σ = (blockAt σ (t.off + i * 16)).1 := by
    simp [block, Slice.content, blockAt]
  refine ⟨block,hblock,?_⟩
  rw [decryptBlock, run_then (Slice.run_reslice ⟨by omega,hroom⟩), run_then Slice.run_read, hblock,
    crypt_block, run_then (run_orPanic_some _), run_then Slice.run_read, hs, xor_blocks,
    run_then (run_orPanic_some _)]
  by_cases hlast : i = blocks - 1
  · rw [if_pos hlast, if_pos hlast, unpadLast]
    by_cases hwhole : ((g (blockAt σ (t.off + i * 16))).xor prev).1.getD 15 0 = 16
    · rw [if_pos hwhole, if_pos hwhole, Option.map_some, List.append_nil]
      rfl
    · rw [if_neg hwhole, if_neg hwhole]
      cases cutPadding ((g (blockAt σ (t.off + i * 16))).xor prev).1
        (((g (blockAt σ (t.off + i * 16))).xor prev).1.getD 15 0) <;> rfl
  · rw [if_neg hlast, if_neg hlast]
    rfl

/-- The rounds from `i` on unchain the blocks that are left, and change no memory. -/
theorem run_decryptBlocks {n i : Nat} (hi : i + n = blocks) (hroom : blocks * 16 ≤ t.cap) {s : Slice}
    {prev : Block} (hs : s.content σ = prev.1) (out : Bytes) :
    (((List.range' i n).foldlM (decryptBlock (some g) t blocks) (s, out)).run σ).map
        (fun r => (r.1.2, r.2)) =
      (finish (unchain Block.xor g prev (blocksAt σ (t.off + i * 16) n))).map fun bs => (out ++ bs, σ) := by
  induction n generalizing i s prev out with
  | zero => simp [blocksAt, unchain, finish]
  | succ n ih =>
    have hslice : i * 16 + 16 ≤ t.cap := by omega
    obtain ⟨block,hblock,hround⟩ := run_decryptBlock g blocks hslice hs out
    have hnext : t.off + i * 16 + 16 = t.off + (i + 1) * 16 := by omega
    rw [List.range'_succ, List.foldlM_cons, blocksAt_succ, unchain]
    rcases n with _ | n
    · rw [if_pos (by omega)] at hround
      cases hm : unpadLast ((g (blockAt σ (t.off + i * 16))).xor prev) with
      | none =>
        rw [hm, Option.map_none] at hround
        rw [run_panic hround]
        simp [blocksAt, unchain, finish, hm]
      | some m =>
        rw [hm, Option.map_some] at hround
        rw [run_then hround]
        simp [blocksAt, unchain, finish, hm]
    · rw [if_neg (by omega), Option.map_some] at hround
      have hrest := ih (i := i + 1) (by omega) hblock
        (out ++ ((g (blockAt σ (t.off + i * 16))).xor prev).1)
      rw [run_then hround, hrest, hnext]
      have hmore : unchain Block.xor g (blockAt σ (t.off + i * 16))
          (blocksAt σ (t.off + (i + 1) * 16) (n + 1)) ≠ [] := by
        rw [blocksAt_succ]
        exact List.cons_ne_nil _ _
      rw [finish_cons hmore, Option.map_map]
      refine congrArg (fun h => Option.map h _) (funext fun bs => ?_)
      rw [Function.comp_apply, List.append_assoc]

end Decrypt

section Calls
variable {E : Bytes → Equiv.Perm Block} {keyBytes : Bytes} {e : Equiv.Perm Block}
  (hkey : newCipher E keyBytes = some e)
include hkey

/-- With room for the padding the result is the iv, the chained blocks of the padded
plaintext, and for a whole number of blocks 16 bytes more, as they are. -/
theorem run_CBCEncrypt (spare : Nat → Nat → Nat) (σ : Memory) {p iv : Slice} (hiv : iv.len = 16)
    (hclear : iv.ClearOf p) (hroom : p.len + (padBytes (16 - p.len % 16)).length ≤ p.cap) :
    ∃ c τ n, n * 16 = p.len + (padBytes (16 - p.len % 16)).length ∧
      (CBCEncrypt spare E keyBytes p iv).run σ = some (c, τ) ∧ c.content τ =
        (blockAt σ iv.off).1 ++ (flat (chain Block.xor e (blockAt σ iv.off)
          (blocksAt (padded σ p (16 - p.len % 16)) p.off n)) ++
        if 16 - p.len % 16 = 16 then List.replicate 16 16 else []) := by
  have hlen := blocks_length p.len
  let padding := 16 - p.len % 16
  let blocks := p.len / 16 + 1 - if padding = 16 then 1 else 0
  have hread (ρ : Memory) (hρ : ρ = σ ∨ ρ = padded σ p padding) :
      iv.read.run ρ = some ((blockAt σ iv.off).1, ρ) := by
    have hcontent : iv.content ρ = (blockAt σ iv.off).1 := by
      rw [Slice.content, hiv]
      rcases hρ with rfl | rfl
      · rfl
      · apply window_overwrite_disjoint
        rw [Slice.ClearOf, hiv] at hclear
        change p.len + (padBytes padding).length ≤ p.cap at hroom
        omega
    rw [Slice.run_read, hcontent]
  have hloop : ∃ last, ((List.range' 0 blocks).foldlM
      (encryptBlock (some e) p padding blocks) (iv.read, [])).run σ = some ((last,
        flat (chain Block.xor e (blockAt σ iv.off) (blocksAt (padded σ p padding) p.off blocks))),
        padded σ p padding) := by
    rcases hblocks : blocks with _ | n
    · have hempty : padBytes padding = [] := by
        change blocks * 16 = p.len + (padBytes padding).length at hlen
        exact List.length_eq_zero_iff.mp (by omega)
      refine ⟨iv.read,?_⟩
      rw [padded, hempty, overwrite_nil]
      rfl
    · have hrun := run_encryptBlocks e (σ := σ) (p := p) (show 0 + (n + 1) = blocks by omega) hlen
        (hlen ▸ hroom) iv.read (blockAt σ iv.off) [] hread
      rw [hblocks] at hrun
      simpa using hrun
  obtain ⟨last,hrun⟩ := hloop
  let output := flat (chain Block.xor e (blockAt σ iv.off) (blocksAt (padded σ p padding) p.off blocks))
  obtain ⟨c,τ,happend,hcontent⟩ := Slice.run_append (σ := padded σ p padding) (s := iv) spare
    (if padding = 16 then output ++ List.replicate 16 16 else output)
  refine ⟨c,τ,blocks,hlen,?_,?_⟩
  · rw [CBCEncrypt, hkey]
    exact (run_then hrun _).trans happend
  · have hiv' : iv.content (padded σ p padding) = (blockAt σ iv.off).1 :=
      congrArg Prod.fst (Option.some.inj (hread _ (.inr rfl)))
    rw [hcontent, hiv']
    by_cases hwhole : padding = 16
    · rw [if_pos hwhole, if_pos hwhole]
    · rw [if_neg hwhole, if_neg hwhole, List.append_nil]

/-- On an iv and whole blocks, decryption unchains the blocks and strips the last one. -/
theorem run_CBCDecrypt {σ : Memory} {c : Slice} {prev : Block}
    {cs : List Block} (hc : c.content σ = prev.1 ++ flat cs) :
    (CBCDecrypt E keyBytes c).run σ =
      (finish (unchain Block.xor e.symm prev cs)).map fun bs => (bs, σ) := by
  have hlen : c.len = 16 + cs.length * 16 := by
    have hlength := congrArg List.length hc
    rwa [Slice.content_length, List.length_append, prev.2, flat_length] at hlength
  have hcap := c.len_le
  rw [Slice.content, hlen, window_add] at hc
  obtain ⟨hiv,hblocks⟩ := List.append_inj hc (by rw [window_length, prev.2])
  rw [← flat_blocksAt] at hblocks
  let iv : Slice := ⟨c.off + 0,16 - 0,c.cap - 0,Nat.sub_le_sub_right (by omega) 0⟩
  let t : Slice := ⟨c.off + 16,c.len - 16,c.cap - 16,Nat.sub_le_sub_right hcap 16⟩
  have ht : t.len / 16 = cs.length := by
    simp only [t, hlen]
    omega
  have hroom : cs.length * 16 ≤ t.cap := by
    simp only [t]
    omega
  have hloop := run_decryptBlocks (σ := σ) e.symm cs.length (Nat.zero_add _) hroom (s := iv) hiv []
  rw [Nat.zero_mul, Nat.add_zero, flat_injective hblocks] at hloop
  have hdecrypt : (CBCDecrypt E keyBytes c).run σ = (((List.range' 0 cs.length).foldlM
      (decryptBlock (some e.symm) t cs.length) (iv, [])).run σ).map fun r => (r.1.2, r.2) := by
    rw [CBCDecrypt, run_then (Slice.run_reslice ⟨by omega,by omega⟩),
      run_then (Slice.run_tail (by omega)), hkey, ← ht]
    exact Option.map_eq_bind.symm
  rw [hdecrypt, hloop]
  rfl

end Calls
end CryptoPlaypen.Blockmode
