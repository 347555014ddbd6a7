import CryptoPlaypen.Buffer.NodeBuffer

/-! The cryptographic helpers of the peer connection. The packages they call are
the fields of `Primitives`; what they rely on is stated in `AeadLaws`. -/
namespace CryptoPlaypen.Lightning
open Buffer

/-- Calls into packages: `crypto.createHash('sha256')`, a point multiplication
of `elliptic` (compressed, throwing on a bad point), `hkdf` and `chacha`. -/
structure Primitives where
  createHash : Bytes → Bytes
  sharedPoint : Bytes → Bytes → Option Bytes
  derive : Bytes → Bytes → Bytes → Nat → Bytes
  /-- Key, nonce, associated data and plaintext; the output of `update` and the tag. -/
  cipher : Bytes → Bytes → Bytes → Bytes → Bytes × Bytes
  /-- Key, nonce, associated data, tag and pad; `final` throws on a wrong tag. -/
  decipher : Bytes → Bytes → Bytes → Bytes → Bytes → Option Bytes

/-- The documented behaviour of the AEAD package. -/
structure AeadLaws (P : Primitives) : Prop where
  pad_length : ∀ k n ad m, (P.cipher k n ad m).1.length = m.length
  tag_length : ∀ k n ad m, (P.cipher k n ad m).2.length = 16
  decipher_cipher : ∀ k n ad m, P.decipher k n ad (P.cipher k n ad m).2 (P.cipher k n ad m).1 = some m
  cipher_decipher : ∀ k n ad tag pad m, P.decipher k n ad tag pad = some m →
    P.cipher k n ad m = (pad, tag)

section Helpers
variable (P : Primitives)

def sha256 (data : Bytes) : Bytes := P.createHash data

def ecdh (rk k : Bytes) : Option Bytes := (P.sharedPoint rk k).map (sha256 P)

def hkdf (salt ikm : Bytes) : Bytes := P.derive salt ikm [] 64

def ccpEncrypt (k n ad plaintext : Bytes) : Bytes :=
  let (pad, tag) := P.cipher k n ad plaintext
  pad ++ tag

/-- The outer `none` is an exception; a ciphertext below 16 bytes falls through
both branches and yields `undefined`, the inner `none`. -/
def ccpDecrypt (k n ad ciphertext : Bytes) : Option (Option Bytes) :=
  if ciphertext.length = 16 then
    (P.decipher k n ad ciphertext []).map some
  else if 16 < ciphertext.length then
    let tag := ciphertext.drop (ciphertext.length - 16)
    let pad := ciphertext.take (ciphertext.length - 16)
    (P.decipher k n ad tag pad).map some
  else some none

end Helpers

section Laws
variable {P : Primitives}

theorem ccpEncrypt_length (h : AeadLaws P) (k n ad m : Bytes) :
    (ccpEncrypt P k n ad m).length = m.length + 16 := by
  simp [ccpEncrypt, h.pad_length, h.tag_length]

theorem ccpDecrypt_short (k n ad : Bytes) {c : Bytes} (h : c.length < 16) :
    ccpDecrypt P k n ad c = some none := by
  rw [ccpDecrypt, if_neg (by omega), if_neg (by omega)]

/-- Both length branches split the ciphertext at its last 16 bytes. -/
theorem ccpDecrypt_long (k n ad : Bytes) {c : Bytes} (h : 16 ≤ c.length) :
    ccpDecrypt P k n ad c =
      (P.decipher k n ad (c.drop (c.length - 16)) (c.take (c.length - 16))).map some := by
  rcases Nat.eq_or_lt_of_le h with he | hlt
  · rw [ccpDecrypt, if_pos he.symm, ← he]
    simp
  · rw [ccpDecrypt, if_neg (by omega), if_pos hlt]

theorem ccpDecrypt_throws_length {k n ad c : Bytes} (hd : ccpDecrypt P k n ad c = none) :
    16 ≤ c.length := by
  by_contra hc
  rw [ccpDecrypt_short k n ad (by omega)] at hd
  cases hd

theorem ccpDecrypt_undefined_length {k n ad c : Bytes} (hd : ccpDecrypt P k n ad c = some none) :
    c.length < 16 := by
  by_contra hc
  rw [ccpDecrypt_long k n ad (by omega), Option.map_eq_some_iff] at hd
  obtain ⟨_,_,he⟩ := hd
  cases he

theorem ccpDecrypt_ccpEncrypt (h : AeadLaws P) (k n ad m : Bytes) :
    ccpDecrypt P k n ad (ccpEncrypt P k n ad m) = some (some m) := by
  have hlen := ccpEncrypt_length h k n ad m
  have hsplit : (ccpEncrypt P k n ad m).length - 16 = (P.cipher k n ad m).1.length := by
    rw [hlen, h.pad_length]
    omega
  rw [ccpDecrypt_long k n ad (by omega), hsplit]
  simp [ccpEncrypt, h.decipher_cipher]

/-- A ciphertext that the holder of the key has made. -/
def Authentic (P : Primitives) (k n ad c : Bytes) : Prop := ∃ m, c = ccpEncrypt P k n ad m

/-- Only authentic ciphertexts have a plaintext. -/
theorem ccpDecrypt_eq_plaintext (h : AeadLaws P) {k n ad c m : Bytes}
    (hd : ccpDecrypt P k n ad c = some (some m)) : c = ccpEncrypt P k n ad m := by
  by_cases hc : c.length < 16
  · rw [ccpDecrypt_short k n ad hc] at hd
    cases hd
  · rw [ccpDecrypt_long k n ad (by omega), Option.map_eq_some_iff] at hd
    obtain ⟨p,hp,he⟩ := hd
    cases he
    simp only [ccpEncrypt, h.cipher_decipher _ _ _ _ _ _ hp, List.take_append_drop]

theorem ccpDecrypt_plaintext_length (h : AeadLaws P) {k n ad c m : Bytes}
    (hd : ccpDecrypt P k n ad c = some (some m)) : c.length = m.length + 16 := by
  rw [ccpDecrypt_eq_plaintext h hd, ccpEncrypt_length h]

/-- From 16 bytes on, decryption throws exactly on what is not authentic. -/
theorem ccpDecrypt_throws_iff (h : AeadLaws P) (k n ad : Bytes) {c : Bytes} (hc : 16 ≤ c.length) :
    ccpDecrypt P k n ad c = none ↔ ¬ Authentic P k n ad c := by
  constructor
  · rintro hd ⟨m,rfl⟩
    rw [ccpDecrypt_ccpEncrypt h] at hd
    cases hd
  · intro hno
    rcases hd : ccpDecrypt P k n ad c with _ | _ | m
    · rfl
    · have := ccpDecrypt_undefined_length hd
      omega
    · exact absurd ⟨m,ccpDecrypt_eq_plaintext h hd⟩ hno

end Laws

def fit (n : Nat) (b : Bytes) : Bytes := (b ++ zeros n).take n

@[simp] theorem fit_length (n : Nat) (b : Bytes) : (fit n b).length = n := by simp [fit]

/-- A transparent instance of the packages: every output shows the inputs it was
made from, points add their coordinates, and the tag is the front of the key. -/
def transparent : Primitives where
  createHash data := fit 32 data
  sharedPoint pub priv :=
    if pub.head? = some 2 ∨ pub.head? = some 3 then
      some (2 :: List.zipWith (· + ·) (pub.drop 1) priv)
    else none
  derive salt ikm _ n := fit n (fit 32 ikm ++ fit 32 salt)
  cipher k _ _ m := (m, fit 16 k)
  decipher k _ _ tag pad := if tag = fit 16 k then some pad else none

theorem transparent_laws : AeadLaws transparent where
  pad_length _ _ _ _ := rfl
  tag_length k _ _ _ := fit_length 16 k
  decipher_cipher _ _ _ _ := if_pos rfl
  cipher_decipher _ _ _ _ _ _ h := by
    simp only [transparent, Option.ite_none_right_eq_some, Option.some.injEq] at h
    simp only [transparent, h.1, h.2]

end CryptoPlaypen.Lightning
