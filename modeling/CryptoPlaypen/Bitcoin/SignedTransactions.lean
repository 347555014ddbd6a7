import CryptoPlaypen.Bitcoin.DerSignatures
import CryptoPlaypen.Bitcoin.ScriptDecoding
import CryptoPlaypen.Bitcoin.SignedMessages
import CryptoPlaypen.Bitcoin.SigningOrder

/-! The examples of the original format, from the objects to the bytes: every signature that the
bytes carry is one of the transaction that they decode to, whatever was signed before or after. -/
namespace CryptoPlaypen.Bitcoin
open Buffer List

structure KeyPair where
  priv : Bytes
  pub : Bytes
  deriving DecidableEq, Repr

/-- The curve signs every digest with this key. -/
structure KeyPair.Signs (key : KeyPair) (S : Signing) : Prop where
  length : key.pub.length = 33
  signs : ∀ hash : Bytes, hash.length = 32 → ∃ signature, S.sign hash key.priv = some signature

def Tx.withScriptSig (t : Tx) (i : Nat) (scriptSig : Bytes) : Tx :=
  { t with vins := t.vins.modify i fun vin => { vin with scriptSig := some scriptSig } }

/-- The signer of the examples that spend script hashes, whose encoder is the one above. -/
def P2sh.signInput (P : Packages) (S : Signing) (sha256 : Bytes → Bytes) (tx : Tx) (vindex : Nat)
    (privKey : Bytes) (hashType : Nat) : Option Bytes :=
  signWith (P2pkh.txToBuffer P) S sha256 tx vindex privKey hashType

section Storing
variable {t t' : Tx} {i j : Nat} {s : Bytes}

private theorem withScriptSig_unsigned (t : Tx) (i : Nat) (s : Bytes) :
    (t.withScriptSig i s).unsigned = t.unsigned := by
  refine congrArg (fun vins => { t with vins := vins }) (List.ext_getElem? fun k => ?_)
  simp only [Tx.withScriptSig, List.getElem?_map, List.getElem?_modify]
  cases t.vins[k]? with
  | none => rfl
  | some vin => by_cases hik : i = k <;> simp [hik, Vin.unsigned]

private theorem withScriptSig_get (hi : i < t.vins.length) :
    (t.withScriptSig i s).vins[i]? = some { t.vins[i] with scriptSig := some s } := by
  simp [Tx.withScriptSig, hi]

/-- What signing does not touch is the same in two transactions that differ in what it adds. -/
theorem map_of_unsigned (h : t.unsigned = t'.unsigned) {α : Type} {f : Vin → α}
    (hf : ∀ vin, f vin.unsigned = f vin) : t.vins.map f = t'.vins.map f := by
  have hkeep (t : Tx) : t.unsigned.vins.map f = t.vins.map f := by
    simp [Tx.unsigned, Function.comp_def, hf]
  rw [← hkeep t, h, hkeep]

private theorem agrees_of_unsigned (h : t.unsigned = t'.unsigned) : t.wire.Agrees t'.wire where
  version := by
    have hversion : t.unsigned.version = t'.unsigned.version := congrArg Tx.version h
    exact congrArg (fun v => (v % 2 ^ 32).toNat) hversion
  outpoints := by
    simpa [Tx.wire, TxIn.outpoint, P2pkh.wireIn, Vin.wire, Function.comp_def] using
      map_of_unsigned h (f := fun vin => (vin.hash,vin.vout)) fun _ => rfl
  sequences := by
    simpa [Tx.wire, P2pkh.wireIn, Vin.wire, Function.comp_def] using
      map_of_unsigned h (f := Vin.sequence) fun _ => rfl
  outputs := by
    have hvouts : t.unsigned.vouts = t'.unsigned.vouts := congrArg Tx.vouts h
    exact congrArg (List.map Vout.wire) hvouts
  locktime := by
    have hlocktime : t.unsigned.locktime = t'.unsigned.locktime := congrArg Tx.locktime h
    exact hlocktime

end Storing

section Compiled
variable {D : PushData} (pushLaws : PushDataLaws D)

end Compiled

section Signing
variable {P : Packages} {D : PushData} {S : Signing} {sha256 : Bytes → Bytes} (laws : PackageLaws P)
  (pushLaws : PushDataLaws D) (hencode : Bip66Laws S) (hsha : HashLength sha256) {t : Tx} {i : Nat}

include hencode hsha in
theorem KeyPair.Signs.signMessage {key : KeyPair} (hkey : key.Signs S) (message : Bytes) :
    ∃ sig, Bitcoin.signMessage S sha256 message key.priv 1 = some sig ∧ 2 ≤ sig.length ∧ sig.length ≤ 73 := by
  obtain ⟨signature,hsign⟩ := hkey.signs _ (hash256_length hsha message)
  obtain ⟨hr,hs⟩ := half_checks signature
  have hr' := hr.short
  have hs' := hs.short
  have hsigned : Bitcoin.signMessage S sha256 message key.priv 1 = encodeSig S signature 1 :=
    congrArg (Option.bind · (encodeSig S · 1)) hsign
  refine ⟨_,hsigned.trans (encodeSig_eq hencode signature (by decide)),?_⟩
  simp only [bip66Bytes, List.length_append, List.length_cons, List.length_nil]
  omega

/-- The input carries a signature of the transaction as it is, for each of these keys, between the
other pushes. -/
def SignedInput (S : Signing) (sha256 : Bytes → Bytes) (front back : List Chunk) (signers : List KeyPair)
    (t : Tx) (i : Nat) : Prop :=
  ∃ vin sigs scriptSig, t.vins[i]? = some vin ∧ vin.scriptSig = some scriptSig ∧
    Forall₂ (fun key sig => signMessage S sha256
      (t.wire.legacyMessage i (filteredPrevOutScript vin.script) 1) key.priv 1 = some sig) signers sigs ∧
    decodeScript scriptSig = some (front ++ sigs.map .data ++ back)

theorem SignedInput.store {front back : List Chunk} {signers : List KeyPair} {sigs : List Bytes} {s : Bytes}
    (hi : i < t.vins.length) (hsigned : Forall₂ (fun key sig => signMessage S sha256
      (t.wire.legacyMessage i (filteredPrevOutScript t.vins[i].script) 1) key.priv 1 = some sig) signers sigs)
    (hdecoded : decodeScript s = some (front ++ sigs.map .data ++ back)) :
    SignedInput S sha256 front back signers (t.withScriptSig i s) i := by
  refine ⟨_,sigs,s,withScriptSig_get hi,rfl,?_,hdecoded⟩
  rwa [(agrees_of_unsigned (withScriptSig_unsigned t i s)).legacyMessage]

include laws

include hencode hsha

include pushLaws

end Signing

end CryptoPlaypen.Bitcoin
