import CryptoPlaypen.Blockmode.CbcRoundTrip
import CryptoPlaypen.Blockmode.CtrRoundTrip
import CryptoPlaypen.Blockmode.SliceBounds
import CryptoPlaypen.Buffer.HexStrings

/-! The command line of the block modes, from the flags to what is printed last. A ciphertext that the
program has printed can be given back to it. -/
namespace CryptoPlaypen.Blockmode
open Buffer Go

/-- The flags with their defaults; the plaintext comes as the bytes of its string. -/
structure Flags where
  blockmode : String := "cbc"
  encrypt : Bool := false
  decrypt : Bool := false
  key : List Char := []
  plaintext : Bytes := []
  iv : List Char := []
  cipher : List Char := []

/-- What a call of `Println` writes. -/
inductive Line where
  | text : List Char → Line
  | raw : Bytes → Line
  deriving DecidableEq

/-- What was printed last, and the message that ended the program early, if one did. The lines that
the block modes print on their way come before the result, and are left out. -/
structure Exit where
  last : Option Line
  fatal : Option String
  deriving DecidableEq

/-- How much room the runtime leaves behind the bytes of a new array: of a string, of decoded
digits, and after `append`. -/
structure Runtime where
  stringRoom : Nat → Nat
  hexRoom : Nat → Nat
  spare : Nat → Nat → Nat

/-- `hex.DecodeString`, where `none` is the error. -/
def decodeString : List Char → Option Bytes
  | [] => some []
  | [_] => none
  | high :: low :: text => do
    let h ← hexDigitValue high.toLower
    let l ← hexDigitValue low.toLower
    let rest ← decodeString text
    some (UInt8.ofNat (16 * h + l) :: rest)

def newArray (room : Nat → Nat) (bs : Bytes) : Exec Slice := do
  let s ← Slice.empty
  s.append (fun _ len => room len) bs

/-- `log.Fatalln`, which does not write to the standard output. -/
def fatalln (last : Option Line) (text : String) : Exec Exit := pure ⟨last,some text⟩

def println (line : Line) : Exec Exit := pure ⟨some line,none⟩

section Main
variable (rt : Runtime) (E : Bytes → Equiv.Perm Block) (flags : Flags) (keyBytes : Bytes)

def mainCBC : Exec Exit :=
  if flags.encrypt then do
    let plainTextBytes ← newArray rt.stringRoom flags.plaintext
    match decodeString flags.iv with
    | none => fatalln none "iv must be hex"
    | some ivBytes =>
      if ivBytes.length ≠ 16 then fatalln none "iv length must be 16 bytes"
      else do
        let ivBytes ← newArray rt.hexRoom ivBytes
        let result ← CBCEncrypt rt.spare E keyBytes plainTextBytes ivBytes
        let result ← result.read
        println (.text (hex result))
  else
    match decodeString flags.cipher with
    | none => fatalln none "cipherBytes must be hex"
    | some cipherBytes => do
      let cipherBytes ← newArray rt.hexRoom cipherBytes
      let result ← CBCDecrypt E keyBytes cipherBytes
      println (.raw result)

/-- The branch of `main` for `CTR`. An iv of zeros stands in for one that is not given. -/
def mainCTR : Exec Exit :=
  let F (keyBytes : Bytes) : Block → Block := E keyBytes
  if flags.encrypt then do
    let plainTextBytes ← newArray rt.stringRoom flags.plaintext
    let ivBytes ← newArray (fun _ => 0) (zeros 16)
    let line := some (Line.text ("iv ".toList ++ flags.iv))
    if flags.iv ≠ [] then
      match decodeString flags.iv with
      | none => fatalln line "iv must be hex"
      | some iv =>
        if iv.length ≠ 16 then fatalln line "iv length must be 16 bytes"
        else do
          let ivBytes ← newArray rt.hexRoom iv
          let result ← CTREncrypt F keyBytes plainTextBytes ivBytes
          println (.text (hex result))
    else do
      let result ← CTREncrypt F keyBytes plainTextBytes ivBytes
      println (.text (hex result))
  else
    match decodeString flags.cipher with
    | none => fatalln none "cipherBytes must be hex"
    | some cipherBytes => do
      let cipherBytes ← newArray rt.hexRoom cipherBytes
      let result ← CTRDecrypt F keyBytes cipherBytes
      println (.raw result)

/-- Names of modes are compared as they are, so that the default is neither. -/
def main : Exec Exit :=
  if flags.key = [] then fatalln none "Key is required"
  else if ¬ flags.encrypt ∧ ¬ flags.decrypt then fatalln none "Requires encrypt or decrypt mode"
  else if flags.encrypt ∧ flags.plaintext = [] then fatalln none "Plantext is required to encrypt"
  else if flags.decrypt ∧ flags.cipher = [] then fatalln none "Ciphertext is required"
  else match decodeString flags.key with
    | none => fatalln none "Key must be hex"
    | some keyBytes =>
      if flags.blockmode = "CBC" then mainCBC rt E flags keyBytes
      else if flags.blockmode = "CTR" then mainCTR rt E flags keyBytes
      else pure ⟨none,none⟩

end Main

private theorem decodeString_hex (bs : Bytes) : decodeString (hex bs) = some bs := by
  induction bs with
  | nil => rfl
  | cons b bs ih =>
    have hb := b.toNat_lt
    have hcons : hex (b :: bs) = hexDigit (b.toNat / 16) :: hexDigit (b.toNat % 16) :: hex bs := rfl
    rw [hcons, decodeString, hexDigitValue_toLower (by omega), hexDigitValue_toLower (by omega), ih]
    simp only [Option.bind_eq_bind, Option.bind_some, Nat.div_add_mod, UInt8.ofNat_toNat]

/-- A new array lies above everything allocated and leaves it as it was. -/
theorem run_newArray (room : Nat → Nat) (bs : Bytes) (σ : Memory) : ∃ s τ,
    (newArray room bs).run σ = some (s,τ) ∧ s.content τ = bs ∧ σ.next ≤ s.off ∧ s.Allocated τ ∧
      σ.Kept τ ∧ s.len = bs.length ∧ (bs ≠ [] → s.cap = bs.length + room bs.length) := by
  let empty : Slice := ⟨σ.next,0,0,Nat.le_refl 0⟩
  have hempty : empty.Allocated σ := Nat.le_refl _
  obtain ⟨s,τ,hrun,hcontent,hframe,hoff,hs⟩ :=
    Slice.run_append_above (σ := σ) (s := empty) (fun _ len => room len) bs (Nat.le_refl σ.next) hempty
  have hbytes : s.content τ = bs := hcontent.trans (List.nil_append bs)
  refine ⟨s,τ,hrun,hbytes,hoff,hs,hframe,?_,?_⟩
  · rw [← hbytes, Slice.content_length]
  · intro hne
    have hpos := List.length_pos_iff.mpr hne
    have hfresh : ¬ empty.len + bs.length ≤ empty.cap := by simp [empty, hne]
    have hnew := (dif_neg hfresh).symm.trans hrun
    obtain ⟨rfl,rfl⟩ := Prod.mk.inj (Option.some.inj hnew)
    simp [empty]

section Calls
variable {rt : Runtime} {E : Bytes → Equiv.Perm Block} {flags : Flags} {keyBytes : Bytes} {σ τ υ : Memory}
  {exit : Exit}

/-- With all flags in place `main` turns to the mode. -/
theorem main_eq (hkey : flags.key ≠ []) (hmode : flags.encrypt ∨ flags.decrypt)
    (hplain : ¬ (flags.encrypt ∧ flags.plaintext = [])) (hcipher : ¬ (flags.decrypt ∧ flags.cipher = []))
    (hbytes : decodeString flags.key = some keyBytes) : main rt E flags =
      if flags.blockmode = "CBC" then mainCBC rt E flags keyBytes
      else if flags.blockmode = "CTR" then mainCTR rt E flags keyBytes
      else pure ⟨none,none⟩ := by
  have hsome : ¬ (¬ flags.encrypt ∧ ¬ flags.decrypt) := fun h => hmode.elim h.1 h.2
  rw [main, if_neg hkey, if_neg hsome, if_neg hplain, if_neg hcipher, hbytes]

/-- A run without a fatal message has passed every check. -/
theorem main_passes (hrun : (main rt E flags).run σ = some (exit,τ)) (hok : exit.fatal = none) :
    flags.key ≠ [] ∧ ¬ (flags.encrypt ∧ flags.plaintext = []) ∧ ¬ (flags.decrypt ∧ flags.cipher = []) ∧
      ∃ keyBytes, decodeString flags.key = some keyBytes := by
  have hstop (text : String) (h : (fatalln none text).run σ = some (exit,τ)) : False := by
    obtain ⟨rfl,_⟩ := Prod.mk.inj (Option.some.inj h)
    cases hok
  rw [main] at hrun
  split at hrun
  · exact (hstop _ hrun).elim
  split at hrun
  · exact (hstop _ hrun).elim
  split at hrun
  · exact (hstop _ hrun).elim
  split at hrun
  · exact (hstop _ hrun).elim
  rename_i hkey _ hplain hcipher
  cases hbytes : decodeString flags.key with
  | none =>
    rw [hbytes] at hrun
    exact (hstop _ hrun).elim
  | some keyBytes => exact ⟨hkey,hplain,hcipher,keyBytes,rfl⟩

/-- What is allocated reads as before, and lies below the new array. -/
theorem run_newArray_behind {p : Slice} (hp : p.Allocated σ) (room : Nat → Nat) (bs : Bytes) : ∃ s τ,
    (newArray room bs).run σ = some (s,τ) ∧ s.len = bs.length ∧ p.content τ = p.content σ ∧
      p.off + p.cap ≤ s.off ∧ p.Allocated τ := by
  obtain ⟨s,τ,hrun,_,hoff,hs,hkept,hlen,_⟩ := run_newArray room bs σ
  have hcap := p.len_le
  simp only [Slice.Allocated] at hp hs ⊢
  exact ⟨s,τ,hrun,hlen,hkept.window_eq (by omega),by omega,by omega⟩

/-- What the branch for `CBC` prints is the ciphertext of the plaintext. -/
theorem mainCBC_encrypt (hencrypt : flags.encrypt = true)
    (hrun : (mainCBC rt E flags keyBytes).run σ = some (exit,τ)) (hok : exit.fatal = none) :
    ∃ ρ p iv c, p.content ρ = flags.plaintext ∧ iv.len = 16 ∧ iv.ClearOf p ∧
      (CBCEncrypt rt.spare E keyBytes p iv).run ρ = some (c,τ) ∧
      exit.last = some (.text (hex (c.content τ))) := by
  obtain ⟨p,σ₁,hp,hbs,_,halloc,_⟩ := run_newArray rt.stringRoom flags.plaintext σ
  rw [mainCBC, if_pos hencrypt, run_then hp] at hrun
  cases hbytes : decodeString flags.iv with
  | none =>
    rw [hbytes] at hrun
    obtain ⟨rfl,_⟩ := Prod.mk.inj (Option.some.inj hrun)
    cases hok
  | some ivBytes =>
    obtain ⟨iv,ρ,hiv,hivlen,hsame,hapart,_⟩ := run_newArray_behind halloc rt.hexRoom ivBytes
    rw [hbytes] at hrun
    dsimp only at hrun
    by_cases hlen : ivBytes.length ≠ 16
    · rw [if_pos hlen] at hrun
      obtain ⟨rfl,_⟩ := Prod.mk.inj (Option.some.inj hrun)
      cases hok
    · rw [if_neg hlen, run_then hiv] at hrun
      obtain ⟨c,τ',hencrypted,hprint⟩ := run_bind_some.mp hrun
      obtain ⟨rfl,rfl⟩ := Prod.mk.inj (Option.some.inj hprint)
      exact ⟨ρ,p,iv,c,hsame.trans hbs,hivlen.trans (not_not.mp hlen),.inr hapart,hencrypted,rfl⟩

/-- With the ciphertext of a partial last block the branch prints the plaintext. -/
theorem mainCBC_decrypt {rt' : Runtime} {p iv c : Slice} {ρ : Memory} (hdecrypt : flags.encrypt = false)
    (hincomplete : p.len % 16 ≠ 0) (hiv : iv.len = 16) (hclear : iv.ClearOf p)
    (hencrypted : (CBCEncrypt rt.spare E keyBytes p iv).run ρ = some (c,τ))
    (hcipher : flags.cipher = hex (c.content τ)) :
    ∃ υ', (mainCBC rt' E flags keyBytes).run υ = some (⟨some (.raw (p.content ρ)),none⟩,υ') := by
  obtain ⟨e,ms,hkey,hcontent,hflat⟩ := CBCEncrypt_eq hincomplete hiv hclear hencrypted
  obtain ⟨s,υ',hs,hbytes,_⟩ := run_newArray rt'.hexRoom (c.content τ) υ
  have hrun := run_CBCDecrypt hkey (hbytes.trans hcontent)
  rw [unchain_chain e.symm_apply_apply Block.xor_cancel_left, finish_padded (by omega) (by omega) hflat,
    Option.map_some] at hrun
  refine ⟨υ',?_⟩
  rw [mainCBC, hdecrypt, hcipher, decodeString_hex]
  exact (run_then hs _).trans (run_then hrun _)

/-- What the branch for `CTR` prints last is the ciphertext of the plaintext. -/
theorem mainCTR_encrypt (hencrypt : flags.encrypt = true)
    (hrun : (mainCTR rt E flags keyBytes).run σ = some (exit,τ)) (hok : exit.fatal = none) :
    ∃ ρ p iv c, p.content ρ = flags.plaintext ∧ iv.len = 16 ∧ CounterClearOf iv p ∧
      (CTREncrypt (fun k => E k) keyBytes p iv).run ρ = some (c,τ) ∧
      exit.last = some (.text (hex c)) := by
  obtain ⟨p,σ₁,hp,hbs,_,halloc,_⟩ := run_newArray rt.stringRoom flags.plaintext σ
  obtain ⟨iv,ρ,hiv,hivlen,hsame,hapart,halloc'⟩ := run_newArray_behind halloc (fun _ => 0) (zeros 16)
  have hcap := p.len_le
  rw [mainCTR, if_pos hencrypt, run_then hp, run_then hiv] at hrun
  by_cases hgiven : flags.iv ≠ []
  · rw [if_pos hgiven] at hrun
    cases hbytes : decodeString flags.iv with
    | none =>
      rw [hbytes] at hrun
      obtain ⟨rfl,_⟩ := Prod.mk.inj (Option.some.inj hrun)
      cases hok
    | some ivBytes =>
      rw [hbytes] at hrun
      dsimp only at hrun
      by_cases hlen : ivBytes.length ≠ 16
      · rw [if_pos hlen] at hrun
        obtain ⟨rfl,_⟩ := Prod.mk.inj (Option.some.inj hrun)
        cases hok
      · obtain ⟨iv',ρ',hiv',hivlen',hsame',hapart',_⟩ := run_newArray_behind halloc' rt.hexRoom ivBytes
        rw [if_neg hlen, run_then hiv'] at hrun
        obtain ⟨c,τ',hencrypted,hprint⟩ := run_bind_some.mp hrun
        obtain ⟨rfl,rfl⟩ := Prod.mk.inj (Option.some.inj hprint)
        exact ⟨ρ',p,iv',c,(hsame'.trans hsame).trans hbs,hivlen'.trans (not_not.mp hlen),.inr (by omega),
          hencrypted,rfl⟩
  · rw [if_neg hgiven] at hrun
    obtain ⟨c,τ',hencrypted,hprint⟩ := run_bind_some.mp hrun
    obtain ⟨rfl,rfl⟩ := Prod.mk.inj (Option.some.inj hprint)
    exact ⟨ρ,p,iv,c,hsame.trans hbs,hivlen,.inr (by omega),hencrypted,rfl⟩

/-- Counter mode decrypts as soon as there is room for one block more than is full. -/
theorem CTRDecrypt_returns_iff {F : Bytes → Block → Block} {f : Block → Block} {c : Slice}
    (hkey : newCipher F keyBytes = some f) (hlen : 16 ≤ c.len) :
    (∃ r, (CTRDecrypt F keyBytes c).run σ = some r) ↔ ((c.len - 16) / 16 + 1) * 16 ≤ c.cap - 16 := by
  have hcap := c.len_le
  rw [CTRDecrypt, run_then (Slice.run_reslice ⟨Nat.zero_le _,by omega⟩), run_then (Slice.run_tail hlen),
    ctrBlocks_rounds, hkey]
  constructor
  · rintro ⟨r,h⟩
    have hlast := (ctrRounds_some h ((c.len - 16) / 16) (Nat.zero_le _) (by dsimp only; omega)).1
    dsimp only at hlast
    omega
  · intro hroom
    exact ctrRounds_returns rfl f (by dsimp only; omega) _

/-- A call that returns has a cipher. -/
theorem CTREncrypt_cipher {F : Bytes → Block → Block} {p iv : Slice} {r : Bytes × Memory}
    (h : (CTREncrypt F keyBytes p iv).run σ = some r) : newCipher F keyBytes = some (F keyBytes) := by
  rw [CTREncrypt, run_then Slice.run_read, ctrBlocks_rounds] at h
  have hcipher := (ctrRounds_some h (p.len / 16) (Nat.zero_le _) (by omega)).2
  rw [newCipher] at hcipher ⊢
  exact if_pos (by_contra fun hsize => hcipher (if_neg hsize))

/-- With its ciphertext the branch prints the plaintext, if the array of the digits has room for the
last block, and panics otherwise. -/
theorem mainCTR_decrypt {rt' : Runtime} {p iv : Slice} {ρ : Memory} {c : Bytes}
    (hdecrypt : flags.encrypt = false) (hiv : iv.len = 16) (hclear : CounterClearOf iv p)
    (hencrypted : (CTREncrypt (fun k => E k) keyBytes p iv).run ρ = some (c,τ))
    (hcipher : flags.cipher = hex c) :
    if 16 - p.len % 16 ≤ rt'.hexRoom (16 + p.len) then
      ∃ υ', (mainCTR rt' E flags keyBytes).run υ = some (⟨some (.raw (p.content ρ)),none⟩,υ')
    else (mainCTR rt' E flags keyBytes).run υ = none := by
  have hc := CTREncrypt_eq hiv hclear hencrypted
  dsimp only at hc
  have hlen : c.length = 16 + p.len := by
    rw [hc, List.length_append, ctrText_length, (blockAt ρ iv.off).2, Slice.content_length]
  have hne : c ≠ [] := List.ne_nil_of_length_pos (by omega)
  obtain ⟨s,υ',hs,hbytes,_,_,_,hslen,hscap⟩ := run_newArray rt'.hexRoom c υ
  have hroom := hscap hne
  rw [hlen] at hslen hroom
  have hreturns := CTRDecrypt_returns_iff (σ := υ') (c := s) (CTREncrypt_cipher hencrypted) (by omega)
  have hmain : (mainCTR rt' E flags keyBytes).run υ =
      ((CTRDecrypt (fun k => E k) keyBytes s >>= fun result => println (.raw result)).run υ') := by
    rw [mainCTR, hdecrypt, hcipher, decodeString_hex]
    exact run_then hs _
  rw [hmain]
  split
  · rename_i hle
    obtain ⟨⟨d,τ'⟩,hd⟩ := hreturns.mpr (by omega)
    have hplain := CTRDecrypt_eq (hbytes.trans hc) hd
    dsimp only at hplain
    rw [ctrText_ctrText] at hplain
    exact ⟨τ',hplain ▸ run_then hd _⟩
  · rename_i hle
    have hpanic := mt hreturns.mp (by omega)
    exact run_panic (Option.eq_none_iff_forall_ne_some.mpr fun r hr => hpanic ⟨r,hr⟩) _

private theorem block_append_ne_nil (b : Block) (bs : Bytes) : b.1 ++ bs ≠ [] := by
  have hb := b.2
  exact List.append_ne_nil_of_left_ne_nil (List.ne_nil_of_length_pos (by omega)) bs

private theorem hex_ne_nil {bs : Bytes} (h : bs ≠ []) : hex bs ≠ [] := by
  cases bs with
  | nil => exact absurd rfl h
  | cons b bs => exact List.cons_ne_nil _ _

/-- The program against itself: whatever it was told to encrypt, what it has printed last is given
back with the same key and mode. After `CBC` the plaintext is printed last, unless it was whole blocks.
After `CTR` the plaintext is printed last if the digits are decoded into an array with room for one block
more than is full, and otherwise the program panics. There is no other mode, the default included,
that prints a ciphertext at all. -/
theorem main_round_trip {rt : Runtime} (hencrypt : flags.encrypt = true)
    (hrun : (main rt E flags).run σ = some (exit,τ)) (hok : exit.fatal = none) {out : List Char}
    (hout : exit.last = some (.text out)) (rt' : Runtime) (υ : Memory) :
    let back := { flags with encrypt := false, decrypt := true, cipher := out }
    let n := flags.plaintext.length
    (flags.blockmode = "CBC" ∧ (n % 16 ≠ 0 →
      ∃ υ', (main rt' E back).run υ = some (⟨some (.raw flags.plaintext),none⟩,υ'))) ∨
    (flags.blockmode = "CTR" ∧ if 16 - n % 16 ≤ rt'.hexRoom (16 + n) then
        ∃ υ', (main rt' E back).run υ = some (⟨some (.raw flags.plaintext),none⟩,υ')
      else (main rt' E back).run υ = none) := by
  intro back n
  obtain ⟨hkey,hplain,hcipher,keyBytes,hbytes⟩ := main_passes hrun hok
  rw [main_eq hkey (.inl hencrypt) hplain hcipher hbytes] at hrun
  have hback (hne : out ≠ []) : main rt' E back =
      if flags.blockmode = "CBC" then mainCBC rt' E back keyBytes
      else if flags.blockmode = "CTR" then mainCTR rt' E back keyBytes else pure ⟨none,none⟩ :=
    main_eq hkey (.inr rfl) (fun h => nomatch h.1) (fun h => hne h.2) hbytes
  by_cases hcbc : flags.blockmode = "CBC"
  · rw [if_pos hcbc] at hrun
    obtain ⟨ρ,p,iv,c,hp,hiv,hclear,hencrypted,hprinted⟩ := mainCBC_encrypt hencrypt hrun hok
    rw [hprinted] at hout
    obtain rfl := Line.text.inj (Option.some.inj hout)
    refine .inl ⟨hcbc,fun hincomplete => ?_⟩
    have hlen : p.len = n := by rw [← Slice.content_length (σ := ρ), hp]
    rw [← hlen] at hincomplete
    obtain ⟨e,ms,_,hcontent,_⟩ := CBCEncrypt_eq hincomplete hiv hclear hencrypted
    have hne : c.content τ ≠ [] := hcontent ▸ block_append_ne_nil _ _
    rw [hback (hex_ne_nil hne), if_pos hcbc, ← hp]
    exact mainCBC_decrypt rfl hincomplete hiv hclear hencrypted rfl
  rw [if_neg hcbc] at hrun
  by_cases hctr : flags.blockmode = "CTR"
  · rw [if_pos hctr] at hrun
    obtain ⟨ρ,p,iv,c,hp,hiv,hclear,hencrypted,hprinted⟩ := mainCTR_encrypt hencrypt hrun hok
    rw [hprinted] at hout
    obtain rfl := Line.text.inj (Option.some.inj hout)
    have hlen : p.len = n := by rw [← Slice.content_length (σ := ρ), hp]
    have hc : c = _ := CTREncrypt_eq hiv hclear hencrypted
    have hne : c ≠ [] := hc ▸ block_append_ne_nil _ _
    refine .inr ⟨hctr,?_⟩
    rw [hback (hex_ne_nil hne), if_neg hcbc, if_pos hctr, ← hp, ← hlen]
    exact mainCTR_decrypt rfl hiv hclear hencrypted rfl
  · rw [if_neg hctr] at hrun
    obtain ⟨rfl,_⟩ := Prod.mk.inj (Option.some.inj hrun)
    cases hout

end Calls

/-- Small arrays; digits are decoded into the array of their text. -/
def smallRuntime : Runtime := ⟨smallSpare 0,fun n => n + smallSpare 0 (2 * n),smallSpare⟩

def letterFlags : Flags :=
  { blockmode := "CTR", encrypt := true, key := List.replicate 32 '0', plaintext := List.replicate 9 0x61 }

def freshMemory : Memory := ⟨fun _ => 0,0⟩

theorem main_round_trip_letters : ∃ υ, (main smallRuntime (fun _ => Equiv.refl Block)
    { letterFlags with encrypt := false, decrypt := true
                       cipher := hex (zeros 16 ++ List.replicate 9 0x61) }).run freshMemory =
      some (⟨some (.raw (List.replicate 9 0x61)),none⟩,υ) := by
  have hprinted : ((main smallRuntime (fun _ => Equiv.refl Block) letterFlags).run freshMemory).map Prod.fst =
      some ⟨some (.text (hex (zeros 16 ++ List.replicate 9 0x61))),none⟩ := by decide +kernel
  obtain ⟨⟨exit,τ⟩,hrun,rfl⟩ := Option.map_eq_some_iff.mp hprinted
  rcases main_round_trip rfl hrun rfl rfl smallRuntime freshMemory with ⟨hmode,_⟩ | ⟨_,hback⟩
  · exact absurd hmode (by decide)
  · rwa [if_pos (by decide)] at hback

end CryptoPlaypen.Blockmode
