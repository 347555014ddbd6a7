import CryptoPlaypen.Bitcoin.SegwitRoundTrip
import CryptoPlaypen.Bitcoin.SignedTransactions

/-! The example that spends key hashes with witnesses, from the objects to the bytes. The signatures
are made for the outputs of `index`, and the bytes name those of `value`. -/
namespace CryptoPlaypen.Bitcoin
open Buffer List

namespace P2wpkhSpend

section Storing
variable {t t' : Tx} {i j : Nat} {witness : List Bytes}

end Storing

/-- The witness of the input is a signature and its key, which made it for this message. -/
def SignedInput (S : Signing) (key : KeyPair) (message : Bytes) (sha256 : Bytes → Bytes) (t : Tx) (i : Nat) :
    Prop :=
  ∃ vin sig, t.vins[i]? = some vin ∧ vin.witness = some [sig, key.pub] ∧
    signMessage S sha256 message key.priv 1 = some sig

section Signing
variable {P : Packages} {S : Signing} {sha256 : Bytes → Bytes} (laws : PackageLaws P)
  (hencode : Bip66Laws S) (hsha : HashLength sha256)
include laws hencode hsha

end Signing

end P2wpkhSpend
end CryptoPlaypen.Bitcoin
