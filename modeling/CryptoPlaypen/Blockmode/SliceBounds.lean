import CryptoPlaypen.Blockmode.CbcRoundTrip
import CryptoPlaypen.Blockmode.Ctr

/-! When the two encryptions return. Both take windows of 16 bytes of the plaintext, the last
of which may reach beyond its length, and then also beyond its capacity. -/
namespace CryptoPlaypen.Blockmode
open Buffer Go

variable {σ : Memory} {p iv : Slice}

private theorem padded_le_iff (n cap : Nat) (h : n ≤ cap) : n + (padBytes (16 - n % 16)).length ≤ cap ↔
    n % 16 = 0 ∨ (n / 16 + 1) * 16 ≤ cap := by
  have hlen := blocks_length n
  by_cases hwhole : n % 16 = 0
  · rw [if_pos (by omega)] at hlen
    omega
  · rw [if_neg (by omega)] at hlen
    omega

section Cbc
variable {padding blocks : Nat} (hiv : iv.len = 16)
include hiv

private theorem content_block (ρ : Memory) : iv.content ρ = (blockAt ρ iv.off).1 := by
  rw [Slice.content, hiv]
  rfl

/-- Wherever the iv lies, the loop ends with the padding written; the first block that it
enciphers is the same under every cipher. -/
theorem run_encryptLoop {n : Nat} (hn : n + 1 = blocks)
    (hlen : blocks * 16 = p.len + (padBytes padding).length) (hroom : blocks * 16 ≤ p.cap) :
    ∃ first, ∀ f : Block → Block, ∃ last cs, cs.length = n ∧
      ((List.range' 0 (n + 1)).foldlM (encryptBlock (some f) p padding blocks) (iv.read,[])).run σ =
        some ((last,flat (f first :: cs)),padded σ p padding) := by
  have hread (ρ : Memory) : iv.read.run ρ = some ((blockAt ρ iv.off).1,ρ) := by
    rw [Slice.run_read, content_block hiv]
  rcases n with _ | n
  · let first := (blockAt (padded σ p padding) iv.off).xor (blockAt (padded σ p padding) (p.off + 0 * 16))
    refine ⟨first,fun f => ⟨pure (f first).1,[],rfl,?_⟩⟩
    have hround := run_encryptBlock f (i := 0) (by omega) []
      (fun m => run_lastPad (σ := σ) hn hlen m) (hread (padded σ p padding))
    refine (run_then hround _).trans ?_
    rw [flat_cons, flat_nil, List.append_nil]
    rfl
  · let first := (blockAt σ iv.off).xor (blockAt σ (p.off + 0 * 16))
    refine ⟨first,fun f => ?_⟩
    have hearlier : 0 + 1 < blocks := by omega
    have hround := run_encryptBlock f (p := p) (by omega) []
      (fun m _ _ => run_earlierPad (σ := σ) padding hearlier m) (hread σ)
    obtain ⟨last,hrest⟩ := run_encryptBlocks f (σ := σ) (p := p) (n := n) (i := 0 + 1) (by omega) hlen hroom
      (pure (f first).1) (f first) (f first).1 fun _ _ => rfl
    exact ⟨last,_,by simp [blocksAt],(run_then hround _).trans hrest⟩

/-- The call ends in the `append` to the iv; of the result only the first block matters here. -/
theorem run_CBCEncrypt_blocks (hpos : 0 < p.len)
    (hroom : p.len + (padBytes (16 - p.len % 16)).length ≤ p.cap) (spare : Nat → Nat → Nat) :
    ∃ first, ∀ (E : Bytes → Equiv.Perm Block) (keyBytes : Bytes) (e : Equiv.Perm Block),
      newCipher E keyBytes = some e → ∃ rest : Bytes, rest.length = p.len / 16 * 16 ∧
        (CBCEncrypt spare E keyBytes p iv).run σ =
          (iv.append spare ((e first).1 ++ rest)).run (padded σ p (16 - p.len % 16)) := by
  have hlen := blocks_length p.len
  obtain ⟨n,hn⟩ : ∃ n, n + 1 = p.len / 16 + 1 - if 16 - p.len % 16 = 16 then 1 else 0 :=
    ⟨p.len / 16 - if 16 - p.len % 16 = 16 then 1 else 0,by split <;> omega⟩
  obtain ⟨first,hloop⟩ := run_encryptLoop (σ := σ) hiv hn hlen (hlen ▸ hroom)
  refine ⟨first,fun E keyBytes e hkey => ?_⟩
  obtain ⟨last,cs,hcs,hrun⟩ := hloop e
  rw [hn] at hrun
  by_cases hwhole : 16 - p.len % 16 = 16
  · refine ⟨flat cs ++ List.replicate 16 16,?_,?_⟩
    · rw [if_pos hwhole] at hn
      rw [List.length_append, flat_length, List.length_replicate]
      omega
    · rw [CBCEncrypt, hkey]
      refine (run_then hrun _).trans ?_
      rw [if_pos hwhole, flat_cons, List.append_assoc]
  · refine ⟨flat cs,?_,?_⟩
    · rw [if_neg hwhole] at hn
      rw [flat_length]
      omega
    · rw [CBCEncrypt, hkey]
      refine (run_then hrun _).trans ?_
      rw [if_neg hwhole, flat_cons]

end Cbc

/-- Of nothing, whatever the key and the iv, the result is 16 bytes. -/
theorem run_CBCEncrypt_empty (h : p.len = 0) (spare : Nat → Nat → Nat) (E : Bytes → Equiv.Perm Block)
    (keyBytes : Bytes) : (CBCEncrypt spare E keyBytes p iv).run σ =
      (iv.append spare (List.replicate 16 16)).run σ := by
  rw [CBCEncrypt, h]
  rfl

theorem CBCEncrypt_returns_iff {E : Bytes → Equiv.Perm Block} {keyBytes : Bytes} {e : Equiv.Perm Block}
    (hkey : newCipher E keyBytes = some e) (hiv : iv.len = 16) (spare : Nat → Nat → Nat) :
    (∃ r, (CBCEncrypt spare E keyBytes p iv).run σ = some r) ↔
      p.len % 16 = 0 ∨ (p.len / 16 + 1) * 16 ≤ p.cap := by
  constructor
  · rintro ⟨r,h⟩
    by_cases hwhole : p.len % 16 = 0
    · exact .inl hwhole
    · exact (padded_le_iff p.len p.cap p.len_le).mp (CBCEncrypt_some hwhole h).1
  · intro hroom
    rcases Nat.eq_zero_or_pos p.len with hempty | hpos
    · obtain ⟨t,τ,happend,_⟩ := Slice.run_append (σ := σ) (s := iv) spare (List.replicate 16 16)
      exact ⟨_,(run_CBCEncrypt_empty hempty spare E keyBytes).trans happend⟩
    · obtain ⟨first,hrun⟩ := run_CBCEncrypt_blocks (σ := σ) hiv hpos
        ((padded_le_iff p.len p.cap p.len_le).mpr hroom) spare
      obtain ⟨rest,_,hrest⟩ := hrun E keyBytes e hkey
      obtain ⟨t,τ,happend,_⟩ := Slice.run_append (σ := padded σ p (16 - p.len % 16)) (s := iv) spare
        ((e first).1 ++ rest)
      exact ⟨_,hrest.trans happend⟩

/-- As long as there are windows, the rounds of counter mode end. -/
theorem ctrRounds_returns (hiv : iv.len = 16) (f : Block → Block) {blocks lastBlockLen i n : Nat}
    (hroom : (i + n) * 16 ≤ p.cap) (output : Bytes) : ∃ r, ((List.range' i n).foldlM
      (ctrBlock (some f) p iv blocks lastBlockLen) output).run σ = some r := by
  induction n generalizing i σ output with
  | zero => exact ⟨_,rfl⟩
  | succ n ih =>
    obtain ⟨τ,hround,_⟩ := run_ctrBlock (σ := σ) hiv f p blocks lastBlockLen i (by omega) output
    obtain ⟨r,hrest⟩ := ih (σ := τ) (i := i + 1) (by omega) _
    exact ⟨r,(run_then hround _).trans hrest⟩

private theorem CTREncrypt_returns_iff {F : Bytes → Block → Block} {keyBytes : Bytes} {f : Block → Block}
    (hkey : newCipher F keyBytes = some f) (hiv : iv.len = 16) :
    (∃ r, (CTREncrypt F keyBytes p iv).run σ = some r) ↔ (p.len / 16 + 1) * 16 ≤ p.cap := by
  rw [CTREncrypt, run_then Slice.run_read, ctrBlocks_rounds, hkey]
  constructor
  · rintro ⟨r,h⟩
    have hlast := (ctrRounds_some h (p.len / 16) (Nat.zero_le _) (by omega)).1
    omega
  · intro hroom
    exact ctrRounds_returns hiv f (by omega) _

/-- Under a key of a size that is accepted and with an iv of 16 bytes, CBC needs room for the
padding, and counter mode for one block more than is full. -/
theorem encryption_returns_iff {keyBytes : Bytes}
    (hkey : keyBytes.length = 16 ∨ keyBytes.length = 24 ∨ keyBytes.length = 32) (hiv : iv.len = 16)
    (spare : Nat → Nat → Nat) (E : Bytes → Equiv.Perm Block) (F : Bytes → Block → Block) :
    ((∃ r, (CBCEncrypt spare E keyBytes p iv).run σ = some r) ↔
      p.len % 16 = 0 ∨ (p.len / 16 + 1) * 16 ≤ p.cap) ∧
    ((∃ r, (CTREncrypt F keyBytes p iv).run σ = some r) ↔ (p.len / 16 + 1) * 16 ≤ p.cap) :=
  ⟨CBCEncrypt_returns_iff (if_pos hkey) hiv spare,CTREncrypt_returns_iff (if_pos hkey) hiv⟩

/-- Sixteen letters in an array of that size are encrypted by CBC, and not by counter mode. -/
theorem encryption_returns_letters :
    (∃ r, (CBCEncrypt (fun _ _ => 0) (fun _ => Equiv.refl Block) (zeros 16) letters zeroIv).run
      lettersMemory = some r) ∧
    ¬ ∃ r, (CTREncrypt (fun _ b => b) (zeros 16) letters zeroIv).run lettersMemory = some r := by
  have hiv : zeroIv.len = 16 := rfl
  have hreturns := encryption_returns_iff (σ := lettersMemory) (p := letters) (.inl (zeros_length 16)) hiv
    (fun _ _ => 0) (fun _ => Equiv.refl Block) fun _ b => b
  exact ⟨hreturns.1.mpr (.inl rfl),mt hreturns.2.mp (by decide)⟩

/-- Five letters in an array of eight bytes: neither encryption of them returns. -/
theorem encryption_panics :
    (CBCEncrypt (fun _ _ => 0) (fun _ => Equiv.refl Block) (zeros 16) ⟨0,5,8,by decide⟩ zeroIv).run
      lettersMemory = none ∧
    (CTREncrypt (fun _ b => b) (zeros 16) ⟨0,5,8,by decide⟩ zeroIv).run lettersMemory = none :=
  ⟨rfl,rfl⟩

end CryptoPlaypen.Blockmode
