import CryptoPlaypen.Lightning.NoiseTransport

/-! The handshake of the initiator against a responder of Noise_XK. The responder
is not in the repository: it is written here from the pattern, over the running
hash and chaining key that both sides keep. -/
namespace CryptoPlaypen.Lightning
open Buffer Objects Method

/-- The running hash and chaining key of one side. -/
structure Transcript where
  h : Bytes
  ck : Bytes
  deriving DecidableEq, Repr

namespace Transcript
variable (P : Primitives) (t : Transcript)

def mixHash (data : Bytes) : Transcript := { t with h := sha256 P (t.h ++ data) }

def mixKey (ss : Bytes) : Transcript := { t with ck := slice (hkdf P t.ck ss) 0 32 }

def tempKey (ss : Bytes) : Bytes := (hkdf P t.ck ss).drop 32

def encryptWithAD (key : Bytes) (n : Nat) (plaintext : Bytes) : Bytes :=
  ccpEncrypt P key (nonce n) t.h plaintext

def decryptWithAD (key : Bytes) (n : Nat) (c : Bytes) : Option Bytes := do
  let plaintext ← ccpDecrypt P key (nonce n) t.h c
  plaintext

/-- Before the first message both sides know the responder's static key. -/
def start (rs : Key) : Transcript :=
  mixHash P (mixHash P ⟨sha256 P protocolName, sha256 P protocolName⟩ prologue) rs.compressed

end Transcript

structure TransportKeys where
  sk : Bytes
  rk : Bytes
  ck : Bytes
  deriving DecidableEq, Repr

namespace Responder
open Transcript
variable (P : Primitives)

/-- Accept act one: the ephemeral point of the initiator, and what has been mixed. -/
def readActOne (rs : Key) (m : Bytes) : Option (Bytes × Transcript) :=
  if m.length = 50 ∧ m.head? = some 0 then do
    let e := slice m 1 34
    let c := m.drop 34
    let t := (start P rs).mixHash P e
    let ss ← ecdh P e rs.priv
    let key := t.tempKey P ss
    let t := t.mixKey P ss
    let _ ← t.decryptWithAD P key 0 c
    pure (e, t.mixHash P c)
  else none

/-- Answer with an own ephemeral key; the temporary key is used once more in act three. -/
def writeActTwo (re : Key) (e : Bytes) (t : Transcript) : Option (Bytes × Bytes × Transcript) := do
  let t := t.mixHash P re.compressed
  let ss ← ecdh P e re.priv
  let temp_k2 := t.tempKey P ss
  let t := t.mixKey P ss
  let c := t.encryptWithAD P temp_k2 0 []
  pure (zeros 1 ++ re.compressed ++ c, temp_k2, t.mixHash P c)

/-- Accept act three: the static point of the initiator, and the transport keys. -/
def readActThree (re : Key) (temp_k2 : Bytes) (t : Transcript) (m : Bytes) :
    Option (Bytes × TransportKeys) :=
  if m.length = 66 ∧ m.head? = some 0 then do
    let c := slice m 1 50
    let tag := m.drop 50
    let s ← t.decryptWithAD P temp_k2 1 c
    let t := t.mixHash P c
    let ss ← ecdh P s re.priv
    let temp_k3 := t.tempKey P ss
    let t := t.mixKey P ss
    let _ ← t.decryptWithAD P temp_k3 0 tag
    let keys := hkdf P t.ck []
    pure (s, { sk := keys.drop 32, rk := slice keys 0 32, ck := t.ck })
  else none

end Responder

/-- What the handshake relies on of key pairs: a compressed point has 33 bytes and
stands for the point itself, and both holders of two pairs reach one secret. -/
structure KeyLaws (P : Primitives) (Valid : Key → Prop) : Prop where
  compressed_length : ∀ a, Valid a → a.compressed.length = 33
  compressed : ∀ a, Valid a → ∀ k, ecdh P a.compressed k = ecdh P a.pub k
  agree : ∀ a b, Valid a → Valid b →
    ∃ ss, ecdh P a.pub b.priv = some ss ∧ ecdh P b.pub a.priv = some ss

theorem KeyLaws.shared {P : Primitives} {Valid : Key → Prop} (h : KeyLaws P Valid) {a b : Key}
    (ha : Valid a) (hb : Valid b) :
    ∃ ss, ecdh P a.pub b.priv = some ss ∧ ecdh P a.compressed b.priv = some ss ∧
      ecdh P b.pub a.priv = some ss ∧ ecdh P b.compressed a.priv = some ss := by
  obtain ⟨ss,hab,hba⟩ := h.agree a b ha hb
  exact ⟨ss,hab,(h.compressed a ha _).trans hab,hba,(h.compressed b hb _).trans hba⟩

namespace Transcript
variable {P : Primitives}

private theorem encryptWithAD_length (hP : AeadLaws P) (t : Transcript) (key : Bytes) (n : Nat) (m : Bytes) :
    (t.encryptWithAD P key n m).length = m.length + 16 := ccpEncrypt_length hP _ _ _ _

private theorem decryptWithAD_encryptWithAD (hP : AeadLaws P) (t : Transcript) (key : Bytes) (n : Nat) (m : Bytes) :
    t.decryptWithAD P key n (t.encryptWithAD P key n m) = some m := by
  rw [decryptWithAD, encryptWithAD, ccpDecrypt_ccpEncrypt hP]
  rfl

end Transcript

/-- A version byte, a field and a trailing field come apart at the width of the field. -/
theorem parts_of_act {field : Bytes} {n : Nat} (h : field.length = n) (rest : Bytes) :
    (zeros 1 ++ field ++ rest).head? = some 0 ∧ slice (zeros 1 ++ field ++ rest) 1 (n + 1) = field ∧
      (zeros 1 ++ field ++ rest).drop (n + 1) = rest := by
  refine ⟨rfl,?_,List.drop_left' (by simp [h, Nat.add_comm])⟩
  have hslice := slice_append (zeros 1) field rest
  rwa [zeros_length, h, Nat.add_comm] at hslice

namespace NoiseState
open Transcript
variable {P : Primitives}

def Holds (s : NoiseState) (t : Transcript) : Prop := s.h = some t.h ∧ s.ck = some t.ck

private theorem run_initializeState (ls rs es : Key) :
    ∃ s, (initializeState P).run (construct ls rs es) = (.returned (), s) ∧ s.Holds (start P rs) ∧
      s.ls = ls ∧ s.rs = rs ∧ s.es = es :=
  ⟨_,rfl,⟨rfl,rfl⟩,rfl,rfl,rfl⟩

/-- Act one mixes the own ephemeral point and the secret with the static key. -/
theorem run_initiatorAct1 {s : NoiseState} {t : Transcript} {ss : Bytes} (h : s.Holds t)
    (hss : ecdh P s.rs.pub s.es.priv = some ss) :
    let t₁ := t.mixHash P s.es.compressed
    let c := (t₁.mixKey P ss).encryptWithAD P (t₁.tempKey P ss) 0 []
    ∃ s', (initiatorAct1 P).run s = (.returned (zeros 1 ++ s.es.compressed ++ c), s') ∧
      s'.Holds ((t₁.mixKey P ss).mixHash P c) ∧ s'.ls = s.ls ∧ s'.es = s.es := by
  intro t₁ c
  simp only [initiatorAct1, run_bind, run_self, h.1, h.2, hss, run_attempt_some, run_assign,
    run_pure]
  exact ⟨_,rfl,⟨rfl,rfl⟩,rfl,rfl⟩

/-- Act two mixes the point of the responder and a second secret, act three adds the
own static point and a third one. -/
theorem run_initiatorAct2Act3 (hP : AeadLaws P) {s : NoiseState} {t : Transcript} {re ss ss' : Bytes}
    (h : s.Holds t) (hre : re.length = 33) (hss : ecdh P re s.es.priv = some ss)
    (hss' : ecdh P re s.ls.priv = some ss') :
    let t₁ := t.mixHash P re
    let temp_k2 := t₁.tempKey P ss
    let c₂ := (t₁.mixKey P ss).encryptWithAD P temp_k2 0 []
    let t₂ := (t₁.mixKey P ss).mixHash P c₂
    let c₃ := t₂.encryptWithAD P temp_k2 1 s.ls.compressed
    let t₃ := t₂.mixHash P c₃
    let tag := (t₃.mixKey P ss').encryptWithAD P (t₃.tempKey P ss') 0 []
    let keys := hkdf P (t₃.mixKey P ss').ck []
    ∃ s', (initiatorAct2Act3 P (zeros 1 ++ re ++ c₂)).run s =
        (.returned (zeros 1 ++ c₃ ++ tag), s') ∧
      s'.ck = some (t₃.mixKey P ss').ck ∧ s'.sk = some (slice keys 0 32) ∧
      s'.rk = some (keys.drop 32) := by
  intro t₁ temp_k2 c₂ t₂ c₃ t₃ tag keys
  have hc₂ : c₂.length = 16 := encryptWithAD_length hP _ _ _ _
  have hlen : (zeros 1 ++ re ++ c₂).length = 50 := by simp [hre, hc₂]
  obtain ⟨_,hslice,hdrop⟩ := parts_of_act hre c₂
  have hopen : ccpDecrypt P temp_k2 (zeros 12) (sha256 P (t.h ++ re)) c₂ = some (some []) :=
    ccpDecrypt_ccpEncrypt hP _ _ _ _
  have hversion : (slice (zeros 1 ++ re ++ c₂) 0 1).head? = some 0 := rfl
  have hkey : (hkdf P t.ck ss).drop 32 = temp_k2 := rfl
  simp only [initiatorAct2Act3, run_bind, run_raiseIf, hlen, hversion, hslice, hdrop, ne_eq,
    not_true_eq_false, if_false, run_self, h.1, h.2, hss, hss', hkey, hopen, run_attempt_some,
    run_assign, run_pure]
  exact ⟨_,rfl,rfl,rfl,rfl⟩

end NoiseState

section Responses
open Transcript
variable {P : Primitives} (hP : AeadLaws P)
include hP

/-- The responder accepts an act one that mixes what it mixes itself. -/
theorem readActOne_eq {rs : Key} {e ss : Bytes} (he : e.length = 33)
    (hss : ecdh P e rs.priv = some ss) :
    let t := (start P rs).mixHash P e
    let c := (t.mixKey P ss).encryptWithAD P (t.tempKey P ss) 0 []
    Responder.readActOne P rs (zeros 1 ++ e ++ c) = some (e, (t.mixKey P ss).mixHash P c) := by
  intro t c
  have hc : c.length = 16 := encryptWithAD_length hP _ _ _ _
  obtain ⟨hhead,hslice,hdrop⟩ := parts_of_act he c
  have hopen : (t.mixKey P ss).decryptWithAD P (t.tempKey P ss) 0 c = some [] :=
    decryptWithAD_encryptWithAD hP _ _ _ _
  simp only [Responder.readActOne, hhead, hslice, hdrop, hss, Option.bind_eq_bind, Option.bind_some]
  rw [if_pos ⟨by simp [he, hc],trivial⟩, hopen]
  rfl

/-- The responder learns the static point and accepts the tag of an act three that
mixes what it mixes itself. -/
theorem readActThree_eq {re : Key} {temp_k2 ls ss : Bytes} {t : Transcript} (hls : ls.length = 33)
    (hss : ecdh P ls re.priv = some ss) :
    let c := t.encryptWithAD P temp_k2 1 ls
    let t₁ := t.mixHash P c
    let tag := (t₁.mixKey P ss).encryptWithAD P (t₁.tempKey P ss) 0 []
    let keys := hkdf P (t₁.mixKey P ss).ck []
    (zeros 1 ++ c ++ tag).length = 66 ∧
      Responder.readActThree P re temp_k2 t (zeros 1 ++ c ++ tag) =
        some (ls, { sk := keys.drop 32, rk := slice keys 0 32, ck := (t₁.mixKey P ss).ck }) := by
  intro c t₁ tag keys
  have hc : c.length = 49 := by rw [encryptWithAD_length hP, hls]
  have htag : tag.length = 16 := encryptWithAD_length hP _ _ _ _
  have hlen : (zeros 1 ++ c ++ tag).length = 66 := by simp [hc, htag]
  obtain ⟨hhead,hslice,hdrop⟩ := parts_of_act hc tag
  have hopen : t.decryptWithAD P temp_k2 1 c = some ls := decryptWithAD_encryptWithAD hP _ _ _ _
  have hverify : (t₁.mixKey P ss).decryptWithAD P (t₁.tempKey P ss) 0 tag = some [] :=
    decryptWithAD_encryptWithAD hP _ _ _ _
  refine ⟨hlen,?_⟩
  simp only [Responder.readActThree, hlen, hhead, hslice, hdrop, hopen, hss, Option.bind_eq_bind,
    Option.bind_some]
  rw [if_pos ⟨trivial,trivial⟩, hverify]
  rfl

/-- Between valid key pairs the handshake runs through, the responder learns the
static key of the initiator, and the keys of the two sides are each other's. -/
theorem handshake_agreement {Valid : Key → Prop} (hK : KeyLaws P Valid) {ls es rs re : Key}
    (hls : Valid ls) (hes : Valid es) (hrs : Valid rs) (hre : Valid re) :
    ∃ m₁ s₁ e t₁ m₂ temp_k2 t₂ m₃ s₂ keys,
      (do NoiseState.initializeState P; NoiseState.initiatorAct1 P).run
        (NoiseState.construct ls rs es) = (.returned m₁, s₁) ∧
      Responder.readActOne P rs m₁ = some (e, t₁) ∧
      Responder.writeActTwo P re e t₁ = some (m₂, temp_k2, t₂) ∧
      (NoiseState.initiatorAct2Act3 P m₂).run s₁ = (.returned m₃, s₂) ∧ m₃.length = 66 ∧
      Responder.readActThree P re temp_k2 t₂ m₃ = some (ls.compressed, keys) ∧
      s₂.sk = some keys.rk ∧ s₂.rk = some keys.sk ∧ s₂.ck = some keys.ck := by
  obtain ⟨ss₁,_,hesRs,hrs₁,_⟩ := hK.shared hes hrs
  obtain ⟨ss₂,_,hesRe,_,hreEs⟩ := hK.shared hes hre
  obtain ⟨ss₃,_,hlsRe,_,hreLs⟩ := hK.shared hls hre
  obtain ⟨s₀,hinit,hholds₀,rfl,rfl,rfl⟩ := NoiseState.run_initializeState (P := P) ls rs es
  obtain ⟨s₁,hact₁,hholds₁,hls₁,hes₁⟩ := NoiseState.run_initiatorAct1 hholds₀ hrs₁
  have hread₁ := readActOne_eq hP (hK.compressed_length _ hes) hesRs
  rw [← hes₁] at hreEs
  rw [← hls₁] at hreLs
  obtain ⟨s₂,hact₂,hck,hsk,hrk⟩ :=
    NoiseState.run_initiatorAct2Act3 hP hholds₁ (hK.compressed_length _ hre) hreEs hreLs
  obtain ⟨hlen,hread₃⟩ := readActThree_eq hP (hK.compressed_length _ hls) hlsRe
  rw [hls₁] at hact₂ hck hsk hrk
  refine ⟨_,s₁,_,_,_,_,_,_,s₂,_,?_,hread₁,?_,hact₂,hlen,hread₃,?_,?_,?_⟩
  · rw [run_bind_returned hinit]
    exact hact₁
  · rw [Responder.writeActTwo, hesRe]
    rfl
  · exact hsk
  · exact hrk
  · exact hck

end Responses

/-- Points of the transparent packages add their coordinates, in either order. -/
theorem transparent_keys : KeyLaws transparent fun a => ∃ k, a = transparentKey k where
  compressed_length := by
    rintro _ ⟨k,rfl⟩
    simp [transparentKey]
  compressed := by
    rintro _ ⟨k,rfl⟩ _
    rfl
  agree := by
    rintro _ _ ⟨j,rfl⟩ ⟨k,rfl⟩
    refine ⟨_,rfl,?_⟩
    simp [ecdh, transparent, transparentKey, UInt8.add_comm]

theorem handshake_agreement_transparent :
    ∃ m₁ s₁ e t₁ m₂ temp_k2 t₂ m₃ s₂ keys,
      (do NoiseState.initializeState transparent; NoiseState.initiatorAct1 transparent).run
        (NoiseState.construct (transparentKey 1) (transparentKey 4) (transparentKey 7)) =
          (.returned m₁, s₁) ∧
      Responder.readActOne transparent (transparentKey 4) m₁ = some (e, t₁) ∧
      Responder.writeActTwo transparent (transparentKey 9) e t₁ = some (m₂, temp_k2, t₂) ∧
      (NoiseState.initiatorAct2Act3 transparent m₂).run s₁ = (.returned m₃, s₂) ∧ m₃.length = 66 ∧
      Responder.readActThree transparent (transparentKey 9) temp_k2 t₂ m₃ =
        some ((transparentKey 1).compressed, keys) ∧
      s₂.sk = some keys.rk ∧ s₂.rk = some keys.sk ∧ s₂.ck = some keys.ck :=
  handshake_agreement transparent_laws transparent_keys ⟨1,rfl⟩ ⟨7,rfl⟩ ⟨4,rfl⟩ ⟨9,rfl⟩

end CryptoPlaypen.Lightning
