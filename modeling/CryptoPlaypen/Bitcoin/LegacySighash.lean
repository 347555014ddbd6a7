import CryptoPlaypen.Bitcoin.HashCommitment
import CryptoPlaypen.Bitcoin.LegacyTransaction
import CryptoPlaypen.Bitcoin.Script
import CryptoPlaypen.Bitcoin.SegwitTransaction

/-! The digest that `signp2pkh` and `signInput` sign: the transaction with one
script left, behind it the hash type. The separator is filtered out of the bytes
of that script, not out of its opcodes. -/
namespace CryptoPlaypen.Bitcoin
open Buffer

/-- The signature of `secp256k1.sign` and the encoding of `bip66.encode`. -/
structure Signing where
  sign : Bytes → Bytes → Option Bytes
  encode : Bytes → Bytes → Option Bytes

def toDER (x : Bytes) : Bytes :=
  match x.dropWhile (· == 0) with
  | [] => [0]
  | b :: rest => if b &&& 0x80 ≠ 0 then 0 :: b :: rest else b :: rest

/-- `hashType & ~0x80`, of the 32 bits that the operator takes of a number. -/
def hashTypeMod (hashType : Int) : Nat :=
  let low := (hashType % 2 ^ 32).toNat
  low - (low &&& 0x80)

/-- A type with the sign bit set counts as negative, and 4 or more says as much. -/
def encodeSig (S : Signing) (signature : Bytes) (hashType : Int) : Option Bytes :=
  if hashTypeMod hashType = 0 ∨ 4 ≤ hashTypeMod hashType then none
  else do
    let der ← S.encode (toDER (slice signature 0 32)) (toDER (slice signature 32 64))
    pure (der ++ [UInt8.ofInt hashType])

/-- The copy that is signed: its own script, filtered, and no other. -/
def signingClone (tx : Tx) (vindex : Nat) : Option Tx := do
  let clone := cloneTx tx
  let vin ← clone.vins[vindex]?
  let filteredPrevOutScript := vin.script.filter fun op => op.toNat != OPS.OP_CODESEPARATOR
  let vins := clone.vins.mapIdx fun i vin =>
    { vin with script := if i = vindex then filteredPrevOutScript else [] }
  pure { clone with vins := vins }

/-- The buffer is extended by a fill that repeats it, and the type stored at the end. -/
def appendHashType (buffer : Bytes) (hashType : Nat) : Option Bytes :=
  let extended := allocFill (buffer.length + 4) buffer
  writeInt32LE hashType extended (extended.length - 4)

def sighash (txToBuffer : Tx → Option Bytes) (sha256 : Bytes → Bytes) (tx : Tx)
    (vindex hashType : Nat) : Option Bytes := do
  let clone ← signingClone tx vindex
  let buffer ← txToBuffer clone
  let message ← appendHashType buffer hashType
  pure (sha256 (sha256 message))

/-- Both signers, up to the encoder of their own module. -/
def signWith (txToBuffer : Tx → Option Bytes) (S : Signing) (sha256 : Bytes → Bytes) (tx : Tx)
    (vindex : Nat) (privKey : Bytes) (hashType : Nat) : Option Bytes := do
  let hash ← sighash txToBuffer sha256 tx vindex hashType
  let signature ← S.sign hash privKey
  encodeSig S signature hashType

def P2pkh.signp2pkh (P : Packages) (S : Signing) (sha256 : Bytes → Bytes) (tx : Tx) (vindex : Nat)
    (privKey : Bytes) (hashType : Nat) : Option Bytes :=
  signWith (P2pkh.txToBuffer P) S sha256 tx vindex privKey hashType

def P2wpkhSpend.signInput (P : Packages) (S : Signing) (sha256 : Bytes → Bytes) (tx : Tx)
    (vindex : Nat) (privKey : Bytes) (hashType : Nat) : Option Bytes :=
  signWith (P2wpkhSpend.txToBuffer P) S sha256 tx vindex privKey hashType

/-- The message that should be hashed: input `vindex` has its script, byte for byte,
and every other input an empty one. -/
def legacyPreimage (tx : Tx) (vindex hashType : Nat) : Bytes :=
  legacyBytes tx.wireVersion
    (tx.vins.mapIdx fun i vin => vin.wire vin.vout (if i = vindex then vin.script else []))
    (tx.vouts.map Vout.wire) tx.locktime ++ leBytes 4 hashType

def hashedInputs (index : Vin → Nat) (tx : Tx) (vindex : Nat) : List TxIn :=
  tx.vins.mapIdx fun i vin => vin.wire (index vin)
    (if i = vindex then vin.script.filter fun op => op.toNat != OPS.OP_CODESEPARATOR else [])

private theorem filter_separator_iff {script : Bytes} :
    (script.filter fun op => op.toNat != OPS.OP_CODESEPARATOR) = script ↔ 0xab ∉ script := by
  rw [List.filter_eq_self]
  constructor
  · intro h hmem
    exact absurd (h _ hmem) (by decide)
  · intro h op hop
    by_contra hne
    have hop171 : op = 0xab := UInt8.toNat_inj.mp (by simpa using hne)
    exact h (hop171 ▸ hop)

def signingVin (vindex i : Nat) (vin : Vin) : Vin where
  txid := vin.txid
  vout := vin.vout
  hash := vin.hash
  sequence := vin.sequence
  script := if i = vindex then vin.script.filter fun op => op.toNat != OPS.OP_CODESEPARATOR else []
  scriptSig := none
  witness := none
  value := none
  index := none

theorem signingClone_eq {tx : Tx} {vindex : Nat} (h : vindex < tx.vins.length) :
    signingClone tx vindex = some { tx with vins := tx.vins.mapIdx (signingVin vindex) } := by
  have hvin : (cloneTx tx).vins[vindex]? = some { signingVin vindex vindex tx.vins[vindex] with
      script := tx.vins[vindex].script } := by
    simp [cloneTx, signingVin, h]
  have hvouts : (cloneTx tx).vouts = tx.vouts := by simp [cloneTx]
  rw [signingClone, hvin, Option.bind_eq_bind, Option.bind_some, hvouts]
  refine congrArg some (congrArg (fun vins => { tx with vins := vins }) ?_)
  rw [List.mapIdx_eq_iff]
  intro i
  by_cases hi : i = vindex
  · subst hi
    simp [cloneTx, signingVin, h]
  · cases hv : tx.vins[i]? <;> simp [cloneTx, signingVin, hi, hv]

private theorem signingClone_fits {tx : Tx} (h : tx.Fits) (vindex : Nat) :
    Tx.Fits { tx with vins := tx.vins.mapIdx (signingVin vindex) } where
  version := h.version
  locktime := h.locktime
  counts := by simpa using h.counts
  vins := by
    intro v hv
    obtain ⟨i,hi,rfl⟩ := List.mem_mapIdx.mp hv
    have hfits := h.vins _ (List.getElem_mem hi)
    have hfilter := List.length_filter_le (fun op => op.toNat != OPS.OP_CODESEPARATOR)
      tx.vins[i].script
    refine ⟨hfits.hash,hfits.vout,hfits.sequence,?_,nofun,nofun⟩
    simp only [signingVin]
    split
    · exact Nat.lt_of_le_of_lt hfilter hfits.script
    · decide
  vouts := h.vouts

theorem appendHashType_eq (buffer : Bytes) {hashType : Nat} (h : hashType < 2 ^ 31) :
    appendHashType buffer hashType = some (buffer ++ leBytes 4 hashType) := by
  obtain ⟨back,hback,hsplit⟩ : ∃ back : Bytes, back.length = 4 ∧
      allocFill (buffer.length + 4) buffer = buffer ++ back := by
    refine ⟨(allocFill (buffer.length + 4) buffer).drop buffer.length,by simp,?_⟩
    conv_lhs => rw [← List.take_append_drop buffer.length (allocFill (buffer.length + 4) buffer)]
    rw [allocFill_self]
  have hoffset : (buffer ++ back).length - 4 = buffer.length := by
    rw [List.length_append, hback, Nat.add_sub_cancel]
  have hstore := writeInt32LE_append buffer back (show -2 ^ 31 ≤ (hashType : Int) by omega) (by omega)
    (by omega)
  rw [int32Bytes_natCast (by omega), List.drop_of_length_le (by omega), List.append_nil] at hstore
  rw [appendHashType, hsplit]
  exact hoffset ▸ hstore

theorem sighash_eq {txToBuffer : Tx → Option Bytes} {sha256 : Bytes → Bytes} {tx clone : Tx}
    {vindex hashType : Nat} {buffer : Bytes} (hclone : signingClone tx vindex = some clone)
    (hbuffer : txToBuffer clone = some buffer) (htype : hashType < 2 ^ 31) :
    sighash txToBuffer sha256 tx vindex hashType =
      some (hash256 sha256 (buffer ++ leBytes 4 hashType)) := by
  rw [sighash, hclone, Option.bind_eq_bind, Option.bind_some, hbuffer, Option.bind_eq_bind,
    Option.bind_some, appendHashType_eq buffer htype]
  rfl

/-- With at least one input the original format is longer than a digest. -/
theorem legacyBytes_length {version locktime : Nat} {inputs : List TxIn} {outputs : List TxOut}
    {t : TxIn} (hmem : t ∈ inputs) (hhash : t.hash.length = 32) :
    32 < (legacyBytes version inputs outputs locktime).length := by
  obtain ⟨before,after,rfl⟩ := List.append_of_mem hmem
  have hlength := TxIn.bytes_length hhash
  simp [legacyBytes, bodyBytes, counted]
  omega

theorem legacyBytes_inputs {version locktime : Nat} {inputs inputs' : List TxIn}
    {outputs : List TxOut} (hversion : version < 2 ^ 32) (hlocktime : locktime < 2 ^ 32)
    (hne : inputs ≠ [] ∧ inputs' ≠ []) (hcount : inputs.length < 2 ^ 64)
    (hcount' : inputs'.length < 2 ^ 64) (hcounto : outputs.length < 2 ^ 64)
    (hinputs : ∀ t ∈ inputs, t.Fits) (hinputs' : ∀ t ∈ inputs', t.Fits)
    (houtputs : ∀ t ∈ outputs, t.Fits)
    (h : legacyBytes version inputs outputs locktime = legacyBytes version inputs' outputs locktime) :
    inputs = inputs' := by
  have hdecode := decodeTx_legacyBytes hversion hlocktime hne.1 ⟨hcount,hcounto⟩ hinputs houtputs
  rw [h, decodeTx_legacyBytes hversion hlocktime hne.2 ⟨hcount',hcounto⟩ hinputs' houtputs] at hdecode
  exact (congrArg WireTx.inputs (Option.some.inj hdecode)).symm

section Digest
variable {tx : Tx} {vindex : Nat}

/-- The wire inputs that carry one script, for a choice of the index and the script. -/
theorem hashedInputs_fit (vindex : Nat) (h : tx.Fits) {index : Vin → Nat} {script : Vin → Bytes}
    (hindex : ∀ vin ∈ tx.vins, index vin < 2 ^ 32)
    (hscript : ∀ vin ∈ tx.vins, (script vin).length < 2 ^ 53) :
    ∀ t ∈ tx.vins.mapIdx fun i vin => vin.wire (index vin) (if i = vindex then script vin else []),
      t.Fits := by
  intro t ht
  obtain ⟨i,hi,rfl⟩ := List.mem_mapIdx.mp ht
  have hmem := List.getElem_mem hi
  refine (h.vins _ hmem).wire (hindex _ hmem) ?_
  split
  · exact hscript _ hmem
  · decide

/-- The inputs hashed are the right ones if the script has no separator byte and
the encoder takes the right index for every outpoint. -/
theorem hashedInputs_eq_iff {index : Vin → Nat} (h : vindex < tx.vins.length) :
    hashedInputs index tx vindex =
        (tx.vins.mapIdx fun i vin => vin.wire vin.vout (if i = vindex then vin.script else [])) ↔
      0xab ∉ tx.vins[vindex].script ∧ ∀ vin ∈ tx.vins, index vin = vin.vout := by
  rw [hashedInputs, List.mapIdx_eq_mapIdx_iff]
  constructor
  · intro heq
    have hindex : ∀ vin ∈ tx.vins, index vin = vin.vout := fun vin hvin => by
      obtain ⟨i,hi,rfl⟩ := List.getElem_of_mem hvin
      exact congrArg TxIn.index (heq i hi)
    have hscript := congrArg TxIn.script (heq vindex h)
    simp only [Vin.wire, if_true] at hscript
    exact ⟨filter_separator_iff.mp hscript,hindex⟩
  · rintro ⟨hclean,hindex⟩ i hi
    by_cases heq : i = vindex
    · subst heq
      simp only [if_true, filter_separator_iff.mpr hclean, hindex _ (List.getElem_mem hi)]
    · simp only [if_neg heq, hindex _ (List.getElem_mem hi)]

private theorem preimage_length (h : tx.Fits) (hvindex : vindex < tx.vins.length) (index : Vin → Nat)
    (script : Vin → Bytes) :
    32 < (legacyBytes tx.wireVersion
      (tx.vins.mapIdx fun i vin => vin.wire (index vin) (if i = vindex then script vin else []))
      (tx.vouts.map Vout.wire) tx.locktime).length :=
  legacyBytes_length (List.mem_mapIdx.mpr ⟨vindex,hvindex,rfl⟩)
    (h.vins _ (List.getElem_mem hvindex)).hash

def DigestsLegacy (txToBuffer : Tx → Option Bytes) (tx : Tx) (vindex : Nat) : Prop :=
  ∀ sha256, HashLength sha256 → sighash txToBuffer sha256 tx vindex 1 =
    some (hash256 sha256 (legacyPreimage tx vindex 1))

/-- Whatever the curve and the hash function, what is signed is that digest. -/
def SignsLegacy (signer : Signing → (Bytes → Bytes) → Tx → Nat → Bytes → Nat → Option Bytes)
    (tx : Tx) (vindex : Nat) : Prop :=
  ∀ S sha256 privKey, HashLength sha256 → signer S sha256 tx vindex privKey 1 =
    (S.sign (hash256 sha256 (legacyPreimage tx vindex 1)) privKey).bind fun signature =>
      encodeSig S signature 1

def signsOnly (digest : Bytes) : Signing where
  sign hash _ := if hash = digest then some [] else none
  encode _ _ := some []

private theorem signsOnly_sign (digest privKey : Bytes) :
    ((signsOnly digest).sign digest privKey).bind (encodeSig (signsOnly digest) · 1) = some [1] := by
  have hsign : (signsOnly digest).sign digest privKey = some [] := if_pos rfl
  rw [hsign]
  rfl

private theorem signsOnly_eq {digest hash privKey signature : Bytes}
    (h : (signsOnly digest).sign hash privKey = some signature) : hash = digest := by
  by_contra hne
  have hnone : (signsOnly digest).sign hash privKey = none := if_neg hne
  cases hnone.symm.trans h

private theorem signsLegacy_iff {txToBuffer : Tx → Option Bytes} :
    SignsLegacy (signWith txToBuffer) tx vindex ↔ DigestsLegacy txToBuffer tx vindex := by
  constructor
  · intro h sha256 hsha
    have hsigned := h (signsOnly (hash256 sha256 (legacyPreimage tx vindex 1))) sha256 [] hsha
    rw [signsOnly_sign] at hsigned
    obtain ⟨digest,hdigest,hcurve⟩ := Option.bind_eq_some_iff.mp hsigned
    obtain ⟨signature,hsignature,_⟩ := Option.bind_eq_some_iff.mp hcurve
    rw [hdigest, signsOnly_eq hsignature]
  · intro h S sha256 privKey hsha
    rw [signWith, h sha256 hsha]
    rfl

/-- For an encoder that writes the copy in the original format. -/
theorem sighash_iff (h : tx.Fits) (hvindex : vindex < tx.vins.length)
    {txToBuffer : Tx → Option Bytes} {index : Vin → Nat}
    (hindex : ∀ vin ∈ tx.vins, index vin < 2 ^ 32)
    (hbuffer : txToBuffer { tx with vins := tx.vins.mapIdx (signingVin vindex) } =
      some (legacyBytes tx.wireVersion (hashedInputs index tx vindex) (tx.vouts.map Vout.wire)
        tx.locktime)) :
    DigestsLegacy txToBuffer tx vindex ↔
      0xab ∉ tx.vins[vindex].script ∧ ∀ vin ∈ tx.vins, index vin = vin.vout := by
  have hne : tx.vins ≠ [] := List.ne_nil_of_length_pos (by omega)
  have hcounts := h.counts
  have hfilter : ∀ vin ∈ tx.vins,
      (vin.script.filter fun op => op.toNat != OPS.OP_CODESEPARATOR).length < 2 ^ 53 := fun vin hvin =>
    Nat.lt_of_le_of_lt (List.length_filter_le _ _) (h.vins vin hvin).script
  have hwritten := hashedInputs_fit vindex h hindex hfilter
  have hright := hashedInputs_fit vindex h (fun vin hvin => (h.vins vin hvin).vout)
    fun vin hvin => (h.vins vin hvin).script
  rw [← hashedInputs_eq_iff hvindex]
  simp only [DigestsLegacy, sighash_eq (signingClone_eq hvindex) hbuffer (show 1 < 2 ^ 31 by decide),
    Option.some.injEq]
  rw [hash256_eq_iff]
  · rw [legacyPreimage, List.append_left_inj]
    exact ⟨legacyBytes_inputs tx.wireVersion_lt h.locktime ⟨by simpa [hashedInputs] using hne,by simpa using hne⟩
      (by simp [hashedInputs]; omega) (by simp; omega) (by simp; omega) hwritten hright
      (outputs_fit h),fun heq => by rw [heq]⟩
  · have hlength := preimage_length h hvindex index fun vin =>
      vin.script.filter fun op => op.toNat != OPS.OP_CODESEPARATOR
    rw [List.length_append, hashedInputs]
    omega
  · have hlength := preimage_length h hvindex Vin.vout Vin.script
    rw [legacyPreimage, List.length_append]
    omega

theorem P2pkh.txToBuffer_signing {P : Packages} (laws : PackageLaws P) (h : tx.Fits) (vindex : Nat) :
    P2pkh.txToBuffer P { tx with vins := tx.vins.mapIdx (signingVin vindex) } =
      some (legacyBytes tx.wireVersion (hashedInputs Vin.vout tx vindex) (tx.vouts.map Vout.wire)
        tx.locktime) := by
  have hins : hashedInputs Vin.vout tx vindex =
      (tx.vins.mapIdx (signingVin vindex)).map P2pkh.wireIn := by
    rw [hashedInputs, List.mapIdx_eq_iff]
    intro i
    cases hv : tx.vins[i]? <;> simp [hv, P2pkh.wireIn, signingVin, Vin.wire]
  rw [P2pkh.txToBuffer_eq laws (signingClone_fits h vindex), hins]
  rfl

/-- The copy has no `value`, so the other encoder writes index 0 everywhere. -/
theorem P2wpkhSpend.txToBuffer_signing {P : Packages} (laws : PackageLaws P) (h : tx.Fits)
    (vindex : Nat) :
    P2wpkhSpend.txToBuffer P { tx with vins := tx.vins.mapIdx (signingVin vindex) } =
      some (legacyBytes tx.wireVersion (hashedInputs (fun _ => 0) tx vindex)
        (tx.vouts.map Vout.wire) tx.locktime) := by
  have hins : hashedInputs (fun _ => 0) tx vindex =
      (tx.vins.mapIdx (signingVin vindex)).map P2wpkhSpend.wireIn := by
    rw [hashedInputs, List.mapIdx_eq_iff]
    intro i
    cases hv : tx.vins[i]? <;>
      simp [hv, P2wpkhSpend.wireIn, P2wpkhSpend.scriptOf, signingVin, Vin.wire]
  have hcopy : ∀ vin ∈ tx.vins.mapIdx (signingVin vindex), vin.value = none ∧ vin.witness = none := by
    intro vin hvin
    obtain ⟨i,hi,rfl⟩ := List.mem_mapIdx.mp hvin
    exact ⟨rfl,rfl⟩
  have hmark : P2wpkhSpend.hasWitness (tx.vins.mapIdx (signingVin vindex)) = false := by
    rw [P2wpkhSpend.hasWitness, List.any_eq_false]
    exact fun vin hvin => by simp [(hcopy vin hvin).2]
  rw [P2wpkhSpend.txToBuffer_eq laws (signingClone_fits h vindex)
    (fun vin hvin => by simp [(hcopy vin hvin).1]), P2wpkhSpend.wireBytes, hmark, hins]
  rfl

/-- `signp2pkh` signs the digest of the right message exactly if the script that is
spent holds no separator byte, `signInput` only if moreover every outpoint has index 0. -/
theorem legacy_sighash_iff {P : Packages} (laws : PackageLaws P) (h : tx.Fits)
    (hvindex : vindex < tx.vins.length) :
    (SignsLegacy (P2pkh.signp2pkh P) tx vindex ↔ 0xab ∉ tx.vins[vindex].script) ∧
    (SignsLegacy (P2wpkhSpend.signInput P) tx vindex ↔
      0xab ∉ tx.vins[vindex].script ∧ ∀ vin ∈ tx.vins, vin.vout = 0) := by
  constructor
  · change SignsLegacy (signWith (P2pkh.txToBuffer P)) tx vindex ↔ _
    rw [signsLegacy_iff, sighash_iff h hvindex (fun vin hvin => (h.vins vin hvin).vout)
      (P2pkh.txToBuffer_signing laws h vindex)]
    simp
  · change SignsLegacy (signWith (P2wpkhSpend.txToBuffer P)) tx vindex ↔ _
    rw [signsLegacy_iff, sighash_iff h hvindex (fun _ _ => by decide)
      (P2wpkhSpend.txToBuffer_signing laws h vindex)]
    simp only [eq_comm]

end Digest

def keyHashTx (hash160PubKey : Bytes) : Tx where
  version := 2
  locktime := 0
  vins := [{
    txid := List.replicate 32 7
    vout := 0
    hash := List.replicate 32 7
    sequence := 0xffffffff
    script := (p2pkhScript wirePushData hash160PubKey).getD []
    scriptSig := none
    witness := none
    value := none
    index := none }]
  vouts := [{ script := [0x51], value := .number 900 }]

private theorem keyHashTx_script {hash160PubKey : Bytes} (h : hash160PubKey.length = 20) :
    (p2pkhScript wirePushData hash160PubKey).getD [] =
      [0x76, 0xa9, 0x14] ++ hash160PubKey ++ [0x88, 0xac] := by
  rw [p2pkhScript_eq wirePushData_laws h, Option.getD_some]

private theorem keyHashTx_fits {hash160PubKey : Bytes} (h : hash160PubKey.length = 20) :
    (keyHashTx hash160PubKey).Fits where
  version := by simp [keyHashTx]
  locktime := by simp [keyHashTx]
  counts := by simp [keyHashTx]
  vins := by
    simp only [keyHashTx, keyHashTx_script h, List.forall_mem_singleton]
    exact ⟨by simp,by simp,by simp,by simp [h],by simp,by simp⟩
  vouts := by
    simp only [keyHashTx, List.forall_mem_singleton]
    exact ⟨by simp,by decide⟩

/-- Behind another input, a key hash of zeros is signed for correctly by both. -/
theorem legacy_sighash_zeros :
    let tx := { keyHashTx (zeros 20) with vins := P2wpkhSpend.workedVin 0 :: (keyHashTx (zeros 20)).vins }
    SignsLegacy (P2pkh.signp2pkh wirePackages) tx 1 ∧ SignsLegacy (P2wpkhSpend.signInput wirePackages) tx 1 := by
  intro tx
  have hfits := keyHashTx_fits (zeros_length 20)
  have hclean : 0xab ∉ (p2pkhScript wirePushData (zeros 20)).getD [] := by
    rw [keyHashTx_script (by simp)]
    decide
  have hboth := legacy_sighash_iff wirePackages_laws
    (show tx.Fits from { hfits with
      counts := by simp [tx, keyHashTx]
      vins := List.forall_mem_cons.mpr ⟨P2wpkhSpend.workedVin_fits (by decide),hfits.vins⟩ })
    (show 1 < tx.vins.length by simp [tx, keyHashTx])
  exact ⟨hboth.1.mpr hclean,hboth.2.mpr ⟨hclean,by simp [tx, keyHashTx, P2wpkhSpend.workedVin]⟩⟩

/-- One separator byte in the key hash, and both sign the digest of another message. -/
theorem legacy_sighash_fails :
    (∀ sha256, sighash (P2pkh.txToBuffer wirePackages) sha256 (keyHashTx (0xab :: zeros 19)) 0 1 =
      some (hash256 sha256 (legacyBytes 2 (hashedInputs Vin.vout (keyHashTx (0xab :: zeros 19)) 0)
        [⟨900, [0x51]⟩] 0 ++ leBytes 4 1))) ∧
    legacyBytes 2 (hashedInputs Vin.vout (keyHashTx (0xab :: zeros 19)) 0) [⟨900, [0x51]⟩] 0 ++
      leBytes 4 1 ≠ legacyPreimage (keyHashTx (0xab :: zeros 19)) 0 1 ∧
    ¬ SignsLegacy (P2pkh.signp2pkh wirePackages) (keyHashTx (0xab :: zeros 19)) 0 ∧
    ¬ SignsLegacy (P2wpkhSpend.signInput wirePackages) (keyHashTx (0xab :: zeros 19)) 0 := by
  have hfits : (keyHashTx (0xab :: zeros 19)).Fits := keyHashTx_fits (by simp)
  have hvindex : 0 < (keyHashTx (0xab :: zeros 19)).vins.length := by simp [keyHashTx]
  have hdirty : 0xab ∈ (p2pkhScript wirePushData (0xab :: zeros 19)).getD [] := by
    rw [keyHashTx_script (by simp)]
    decide
  have hbuffer := P2pkh.txToBuffer_signing wirePackages_laws hfits 0
  have hspend := P2wpkhSpend.txToBuffer_signing wirePackages_laws hfits 0
  refine ⟨fun sha256 => sighash_eq (signingClone_eq hvindex) hbuffer (by decide),by decide +kernel,?_,?_⟩
  · intro hsigns
    have hright := signsLegacy_iff.mp hsigns
    rw [sighash_iff hfits hvindex (fun vin hvin => (hfits.vins vin hvin).vout) hbuffer] at hright
    exact hright.1 hdirty
  · intro hsigns
    have hright := signsLegacy_iff.mp hsigns
    rw [sighash_iff hfits hvindex (fun _ _ => by decide) hspend] at hright
    exact hright.1 hdirty

end CryptoPlaypen.Bitcoin
