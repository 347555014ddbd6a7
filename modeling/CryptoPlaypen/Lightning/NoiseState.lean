import CryptoPlaypen.Lightning.Crypto
import CryptoPlaypen.Objects.Method

/-! The Noise_XK state object: handshake of the initiator, framing of the
transport and rotation of the transport keys. Every method is one call that has
run to completion; fields that the constructor only declares start out missing. -/
namespace CryptoPlaypen.Lightning
open Buffer Objects

structure Key where
  priv : Bytes
  pub : Bytes
  compressed : Bytes
  deriving DecidableEq, Repr

structure NoiseState where
  ls : Key
  rs : Key
  es : Key
  h : Option Bytes
  ck : Option Bytes
  rk : Option Bytes
  sk : Option Bytes
  sn : Bytes
  rn : Bytes
  deriving DecidableEq, Repr

def ascii (s : String) : Bytes := s.toList.map fun c => UInt8.ofNat c.toNat

def protocolName : Bytes := ascii "Noise_XK_secp256k1_ChaChaPoly_SHA256"
def prologue : Bytes := ascii "lightning"

namespace NoiseState
open Method

/-- The constructor; `h`, `ck`, `rk` and `sk` stay undefined. -/
def construct (ls rs es : Key) : NoiseState :=
  { ls, rs, es, h := none, ck := none, rk := none, sk := none, sn := zeros 12, rn := zeros 12 }

section Methods
variable (P : Primitives)

def initializeState : Method NoiseState Unit := do
  assign fun s => { s with h := some (sha256 P protocolName) }
  assign fun s => { s with ck := s.h }
  let h ← attempt (← self).h
  assign fun s => { s with h := some (sha256 P (h ++ prologue)) }
  let h ← attempt (← self).h
  assign fun s => { s with h := some (sha256 P (h ++ s.rs.compressed)) }

def initiatorAct1 : Method NoiseState Bytes := do
  let s ← self
  let h ← attempt s.h
  assign fun s => { s with h := some (sha256 P (h ++ s.es.compressed)) }
  let ss ← attempt (ecdh P s.rs.pub s.es.priv)
  let ck ← attempt s.ck
  let temp_key1 := hkdf P ck ss
  assign fun s => { s with ck := some (slice temp_key1 0 32) }
  let temp_key1 := temp_key1.drop 32
  let h ← attempt (← self).h
  let c := ccpEncrypt P temp_key1 (zeros 12) h []
  assign fun s => { s with h := some (sha256 P (h ++ c)) }
  pure (zeros 1 ++ s.es.compressed ++ c)

def actThreeNonce : Bytes := [0, 0, 0, 0, 1, 0, 0, 0, 0, 0, 0, 0]

def initiatorAct2Act3 (m : Bytes) : Method NoiseState Bytes := do
  raiseIf (m.length ≠ 50)
  let v := (slice m 0 1).head?
  let re := slice m 1 34
  let c := m.drop 34
  raiseIf (v ≠ some 0)
  let s ← self
  let h ← attempt s.h
  assign fun s => { s with h := some (sha256 P (h ++ re)) }
  let ss ← attempt (ecdh P re s.es.priv)
  let ck ← attempt s.ck
  let temp_k2 := hkdf P ck ss
  assign fun s => { s with ck := some (slice temp_k2 0 32) }
  let temp_k2 := temp_k2.drop 32
  let h ← attempt (← self).h
  let _ ← attempt (ccpDecrypt P temp_k2 (zeros 12) h c)
  assign fun s => { s with h := some (sha256 P (h ++ c)) }
  let h ← attempt (← self).h
  let c := ccpEncrypt P temp_k2 actThreeNonce h s.ls.compressed
  assign fun s => { s with h := some (sha256 P (h ++ c)) }
  let ss ← attempt (ecdh P re s.ls.priv)
  let ck ← attempt (← self).ck
  let temp_k3 := hkdf P ck ss
  assign fun s => { s with ck := some (slice temp_k3 0 32) }
  let temp_k3 := temp_k3.drop 32
  let h ← attempt (← self).h
  let t := ccpEncrypt P temp_k3 (zeros 12) h []
  let ck ← attempt (← self).ck
  let sk := hkdf P ck []
  let rk := sk.drop 32
  let sk := slice sk 0 32
  assign fun s => { s with sk := some sk, rk := some rk }
  pure (zeros 1 ++ c ++ t)

def incrementSendingNonce : Method NoiseState Nat := do
  let s ← self
  let newValue := (← attempt (readUInt16LE s.sn 4)) + 1
  let sn ← attempt (writeUIntLE 2 newValue s.sn 4)
  assign fun s => { s with sn := sn }
  pure newValue

def incrementRecievingNonce : Method NoiseState Nat := do
  let s ← self
  let newValue := (← attempt (readUInt16LE s.rn 4)) + 1
  let rn ← attempt (writeUIntLE 2 newValue s.rn 4)
  assign fun s => { s with rn := rn }
  pure newValue

def rotateSendingKeys : Method NoiseState Unit := do
  let s ← self
  let ck ← attempt s.ck
  let sk ← attempt s.sk
  let result := hkdf P ck sk
  assign fun s => { s with sk := some (result.drop 32) }
  assign fun s => { s with ck := some (slice result 0 32) }
  assign fun s => { s with sn := zeros 12 }

def rotateRecievingKeys : Method NoiseState Unit := do
  let s ← self
  let ck ← attempt s.ck
  let rk ← attempt s.rk
  let result := hkdf P ck rk
  assign fun s => { s with rk := some (result.drop 32) }
  assign fun s => { s with ck := some (slice result 0 32) }
  assign fun s => { s with rn := zeros 12 }

/-- Advance the sending nonce after one use, rotating at the thousandth. -/
def finishSendingUse : Method NoiseState Unit := do
  let newValue ← incrementSendingNonce
  if 1000 ≤ newValue then rotateSendingKeys P else pure ()

def finishRecievingUse : Method NoiseState Unit := do
  let newValue ← incrementRecievingNonce
  if 1000 ≤ newValue then rotateRecievingKeys P else pure ()

/-- A missing key makes `createCipher` throw. -/
def encryptMessage (m : Bytes) : Method NoiseState Bytes := do
  let l ← attempt (writeUIntBE 2 m.length (zeros 2) 0)
  let s ← self
  let sk ← attempt s.sk
  let lc := ccpEncrypt P sk s.sn [] l
  finishSendingUse P
  let s ← self
  let sk ← attempt s.sk
  let c := ccpEncrypt P sk s.sn [] m
  finishSendingUse P
  pure (lc ++ c)

/-- `undefined.readUInt16BE()` throws after the nonce has been advanced. -/
def decryptLength (lc : Bytes) : Method NoiseState Nat := do
  let s ← self
  let rk ← attempt s.rk
  let l ← attempt (ccpDecrypt P rk s.rn [] lc)
  finishRecievingUse P
  let l ← attempt l
  attempt (readUInt16BE l 0)

def decryptMessage (c : Bytes) : Method NoiseState (Option Bytes) := do
  let s ← self
  let rk ← attempt s.rk
  let m ← attempt (ccpDecrypt P rk s.rn [] c)
  finishRecievingUse P
  pure m

end Methods
end NoiseState

def transparentKey (k : UInt8) : Key where
  priv := List.replicate 32 k
  pub := 2 :: List.replicate 32 k
  compressed := 2 :: List.replicate 32 k

def transparentInitiator : NoiseState :=
  ((NoiseState.initiatorAct1 transparent).run ((NoiseState.initializeState transparent).run
    (NoiseState.construct (transparentKey 1) (transparentKey 4) (transparentKey 7))).2).2

/-- An act two for it, whose tag is the front of the key both sides have mixed. -/
def transparentActTwo : Bytes := 0 :: 2 :: zeros 32 ++ 2 :: List.replicate 15 11

end CryptoPlaypen.Lightning
