import CryptoPlaypen.Buffer.NodeBuffer
import CryptoPlaypen.Buffer.Utf8
import CryptoPlaypen.Objects.Json
import CryptoPlaypen.Objects.Method

/-! The wallet of a seed, the file it is kept in, and both ways to restore it. From the file the seed
comes back; the other way calls the constructor without an argument, which throws. -/
namespace CryptoPlaypen.Lightning
open Buffer Objects

/-- Calls into `crypto`, and what its buffers and texts make of values that no wallet writes. -/
structure WalletCrypto where
  /-- `createCipher('aes256', key)`: what `update` and `final` return. -/
  createCipher : Bytes → Bytes → Bytes × Bytes
  /-- `createDecipher('aes256', key)`; either call may throw. -/
  createDecipher : Bytes → Bytes → Option (Bytes × Bytes)
  /-- Passphrase, salt, iterations and length, with `'sha512'`. -/
  pbkdf2Sync : List Char → Bytes → Nat → Nat → Bytes
  /-- `Buffer.from(value, 'hex')`, if the value is no string. -/
  bufferFrom : Json → Option Bytes
  /-- `value.toString('hex')`, if the value is no string. -/
  toString : Json → Option (List Char)

section Crypto
variable (P : WalletCrypto)

def aesEncrypt (key buffer : Bytes) : Bytes :=
  let (result, final) := P.createCipher key buffer
  result ++ final

def aesDecrypt (key buffer : Bytes) : Option Bytes := do
  let (result, final) ← P.createDecipher key buffer
  pure (result ++ final)

/-- The key and the salt. Without a salt there is a random one. -/
def generateKey (random : Bytes) (passphrase : List Char) (salt : Option Bytes) : Bytes × Bytes :=
  let salt := salt.getD random
  let key := P.pbkdf2Sync passphrase salt 100000 128
  (key,salt)

end Crypto

/-- What the wallet relies on: decryption undoes encryption under the same key. -/
structure WalletLaws (P : WalletCrypto) : Prop where
  decrypt_encrypt : ∀ key buffer, aesDecrypt P key (aesEncrypt P key buffer) = some buffer

abbrev Files := String → Option Bytes

def readFile (path : String) : Method Files Bytes := do
  let files ← Method.self
  Method.attempt (files path)

def writeFile (path : String) (data : Bytes) : Method Files Unit :=
  Method.assign fun files p => if p = path then some data else files p

def getWalletPath : String := "./wallet.dat"

section WalletIo
variable (P : WalletCrypto) (random : Bytes)

def writeWallet (passphrase walletJson : List Char) : Method Files Unit :=
  let buffer := fromText walletJson
  let (key, salt) := generateKey P random passphrase none
  let buffer := aesEncrypt P key buffer
  let buffer := salt ++ buffer
  writeFile getWalletPath buffer

def readWallet (passphrase : List Char) : Method Files Json := do
  let buffer ← readFile getWalletPath
  let salt := slice buffer 0 16
  let buffer := slice buffer 16 buffer.length
  let (key, _) := generateKey P random passphrase (some salt)
  let buffer ← Method.attempt (aesDecrypt P key buffer)
  Method.attempt (Json.parse (toText buffer))

end WalletIo

inductive SeedValue where
  | undefined
  | buffer (b : Bytes)
  | json (v : Json)

/-- The argument of the constructor: none, an object with a seed, or what was parsed. -/
inductive Options where
  | undefined
  | withSeed (seed : SeedValue)
  | json (v : Json)

structure Wallet where
  seed : SeedValue

namespace Wallet

def seedKey : List Char := ['s','e','e','d']

/-- `json.seed`, which throws on `null`. -/
def seedOf (v : Json) : Option SeedValue :=
  (v.property seedKey).map fun p => p.elim .undefined .json

/-- The pattern of the constructor; `undefined` has no properties. -/
def destructured : Options → Option SeedValue
  | .undefined => none
  | .withSeed seed => some seed
  | .json v => seedOf v

section Methods
variable (P : WalletCrypto)

/-- `Buffer.from(seed, 'hex')` -/
def hexBuffer : SeedValue → Option Bytes
  | .undefined => none
  | .buffer b => some b
  | .json (.string text) => some (fromHex text)
  | .json v => P.bufferFrom v

/-- `seed.toString('hex')`; a string ignores the encoding. -/
def hexText : SeedValue → Option (List Char)
  | .undefined => none
  | .buffer b => some (hex b)
  | .json (.string text) => some text
  | .json v => P.toString v

def construct (options : Options) : Option Wallet := do
  let seed ← destructured options
  match seed with
  | .buffer b => pure ⟨.buffer b⟩
  | seed => do
    let b ← hexBuffer P seed
    pure ⟨.buffer b⟩

/-- The setter keeps the value as it is. -/
def setSeed (_ : Wallet) (val : SeedValue) : Wallet := ⟨val⟩

def fromJson (json : Json) : Option Wallet := do
  let wallet ← construct P .undefined
  let seed ← seedOf json
  pure (wallet.setSeed seed)

def toJson (wallet : Wallet) : Option (List Char) := do
  let seed ← hexText P wallet.seed
  pure (Json.stringify [(seedKey,seed)])

def generate (random seed : Bytes) (passphrase : List Char) : Method Files Wallet := do
  let wallet ← Method.attempt (construct P (.withSeed (.buffer seed)))
  let walletJson ← Method.attempt (toJson P wallet)
  writeWallet P random passphrase walletJson
  pure wallet

def unlock (random : Bytes) (passphrase : List Char) : Method Files Wallet := do
  let walletJson ← readWallet P random passphrase
  Method.attempt (construct P (.json walletJson))

/-- A wallet is written to the file, and a new one is made of what is read. -/
def saveAndUnlock (random : Bytes) (passphrase : List Char) (wallet : Wallet) : Method Files Wallet := do
  let walletJson ← Method.attempt (toJson P wallet)
  writeWallet P random passphrase walletJson
  unlock P random passphrase

def rebuild (wallet : Wallet) : Option Wallet := do
  let text ← toJson P wallet
  let json ← Json.parse text
  fromJson P json

/-- Both ways give a wallet with the seed, as a buffer. -/
def Restored (random seed : Bytes) (passphrase : List Char) (files : Files) : Prop :=
  ((saveAndUnlock P random passphrase ⟨.buffer seed⟩).run files).1 = .returned ⟨.buffer seed⟩ ∧
    rebuild P ⟨.buffer seed⟩ = some ⟨.buffer seed⟩

end Methods

section Restoring
variable {P : WalletCrypto}

def seedText (seed : Bytes) : List Char := Json.stringify [(seedKey,hex seed)]

private theorem toJson_buffer (P : WalletCrypto) (seed : Bytes) :
    toJson P ⟨.buffer seed⟩ = some (seedText seed) := rfl

/-- What is parsed from it makes a wallet with the seed. -/
theorem construct_parsed (P : WalletCrypto) (seed : Bytes) :
    (Json.parse (seedText seed)).bind (fun v => construct P (.json v)) = some ⟨.buffer seed⟩ := by
  rw [seedText, Json.parse_stringify, Option.bind_some]
  change (some ⟨.buffer (fromHex (hex seed))⟩ : Option Wallet) = _
  rw [fromHex_hex]

def walletFile (P : WalletCrypto) (random : Bytes) (passphrase walletJson : List Char) : Bytes :=
  random ++ aesEncrypt P (P.pbkdf2Sync passphrase random 100000 128) (fromText walletJson)

private theorem run_writeWallet (P : WalletCrypto) (random : Bytes) (passphrase walletJson : List Char)
    (files : Files) :
    ∃ files', (writeWallet P random passphrase walletJson).run files = (.returned (),files') ∧
      files' getWalletPath = some (walletFile P random passphrase walletJson) :=
  ⟨_,rfl,if_pos rfl⟩

/-- The salt is the first 16 bytes of the file, and so the key is the same. -/
theorem run_readWallet (laws : WalletLaws P) {random : Bytes} (hrandom : random.length = 16)
    (other : Bytes) {passphrase walletJson : List Char} {files : Files}
    (hfile : files getWalletPath = some (walletFile P random passphrase walletJson)) :
    (readWallet P other passphrase).run files = (.ofOption (Json.parse walletJson),files) := by
  have hread : (readFile getWalletPath).run files =
      (.returned (walletFile P random passphrase walletJson),files) := by
    rw [readFile, Method.run_bind_returned (Method.run_self files), hfile]
    rfl
  have hsalt : slice (walletFile P random passphrase walletJson) 0 16 = random := by
    rw [slice, walletFile, List.drop_zero, ← hrandom, List.take_left]
  have hrest : slice (walletFile P random passphrase walletJson) 16
      (walletFile P random passphrase walletJson).length =
        aesEncrypt P (P.pbkdf2Sync passphrase random 100000 128) (fromText walletJson) := by
    rw [slice, List.take_length, walletFile, ← hrandom, List.drop_left]
  rw [readWallet, Method.run_bind_returned hread]
  simp only [hsalt, hrest, generateKey, Option.getD_some, laws.decrypt_encrypt]
  rw [Method.run_bind_returned (Method.run_attempt_some _ _), toText_fromText, Method.run_attempt]

private theorem run_unlock (laws : WalletLaws P) {random : Bytes} (hrandom : random.length = 16) (other : Bytes)
    {seed : Bytes} {passphrase : List Char} {files : Files}
    (hfile : files getWalletPath = some (walletFile P random passphrase (seedText seed))) :
    (unlock P other passphrase).run files = (.returned ⟨.buffer seed⟩,files) := by
  have hread := run_readWallet laws hrandom other hfile
  obtain ⟨v,hv,hconstruct⟩ := Option.bind_eq_some_iff.mp (construct_parsed P seed)
  rw [hv] at hread
  rw [unlock, Method.run_bind_returned hread, hconstruct]
  rfl

/-- A wallet that has been generated can be unlocked from then on. -/
theorem unlock_generate (laws : WalletLaws P) {random : Bytes} (hrandom : random.length = 16)
    (seed : Bytes) (passphrase : List Char) (files : Files) :
    ∃ files', (generate P random seed passphrase).run files = (.returned ⟨.buffer seed⟩,files') ∧
      ∀ other, (unlock P other passphrase).run files' = (.returned ⟨.buffer seed⟩,files') := by
  obtain ⟨files',hwrite,hfile⟩ := run_writeWallet P random passphrase (seedText seed) files
  refine ⟨files',?_,fun other => run_unlock laws hrandom other hfile⟩
  have hconstruct : construct P (.withSeed (.buffer seed)) = some ⟨.buffer seed⟩ := rfl
  rw [generate, hconstruct, Method.run_bind_returned (Method.run_attempt_some _ _), toJson_buffer,
    Method.run_bind_returned (Method.run_attempt_some _ _), Method.run_bind_returned hwrite]
  rfl

/-- From the file the seed comes back. -/
theorem run_saveAndUnlock (laws : WalletLaws P) {random : Bytes} (hrandom : random.length = 16)
    (seed : Bytes) (passphrase : List Char) (files : Files) :
    ((saveAndUnlock P random passphrase ⟨.buffer seed⟩).run files).1 = .returned ⟨.buffer seed⟩ := by
  obtain ⟨files',hwrite,hfile⟩ := run_writeWallet P random passphrase (seedText seed) files
  rw [saveAndUnlock, toJson_buffer, Method.run_bind_returned (Method.run_attempt_some _ _),
    Method.run_bind_returned hwrite, run_unlock laws hrandom random hfile]

/-- Without its argument the constructor throws. -/
theorem construct_undefined (P : WalletCrypto) : construct P .undefined = none := rfl

private theorem rebuild_throws (P : WalletCrypto) (wallet : Wallet) : rebuild P wallet = none := by
  have hthrows (json : Json) : fromJson P json = none := by
    rw [fromJson, construct_undefined]
    rfl
  rw [rebuild]
  cases toJson P wallet with
  | none => rfl
  | some text =>
    change (Json.parse text).bind (fun json => fromJson P json) = none
    simp only [hthrows]
    cases Json.parse text <;> rfl

/-- On no seed do both ways give it back: the file does, and `fromJson` throws. -/
theorem restored_never (laws : WalletLaws P) {random : Bytes} (hrandom : random.length = 16)
    (seed : Bytes) (passphrase : List Char) (files : Files) :
    ¬ Restored P random seed passphrase files ∧
      ((saveAndUnlock P random passphrase ⟨.buffer seed⟩).run files).1 = .returned ⟨.buffer seed⟩ ∧
      rebuild P ⟨.buffer seed⟩ = none := by
  have hthrows := rebuild_throws P ⟨.buffer seed⟩
  refine ⟨fun hrestored => ?_,run_saveAndUnlock laws hrandom seed passphrase files,hthrows⟩
  cases hthrows.symm.trans hrestored.2

end Restoring

/-- A cipher that adds a block of zeros, and a key that shows what it was made of. -/
def openVault : WalletCrypto where
  createCipher _ buffer := (buffer,zeros 16)
  createDecipher _ buffer :=
    if 16 ≤ buffer.length then some (buffer.take (buffer.length - 16),[]) else none
  pbkdf2Sync passphrase salt _ length := (fromText passphrase ++ salt ++ zeros length).take length
  bufferFrom _ := none
  toString _ := none

private theorem openVault_laws : WalletLaws openVault where
  decrypt_encrypt key buffer := by
    have hlength : (buffer ++ zeros 16).length = buffer.length + 16 := by simp
    have hencrypted : aesEncrypt openVault key buffer = buffer ++ zeros 16 := rfl
    have hdecipher : openVault.createDecipher key (buffer ++ zeros 16) = some (buffer,[]) := by
      change (if _ then some ((buffer ++ zeros 16).take _,[]) else none) = _
      rw [hlength, if_pos (Nat.le_add_left _ _), Nat.add_sub_cancel, List.take_left]
    rw [hencrypted, aesDecrypt, hdecipher]
    exact congrArg some (List.append_nil buffer)

theorem restored_never_pair : ¬ Restored openVault (zeros 16) [0xab,0xcd] ['p','w'] (fun _ => none) ∧
    ((saveAndUnlock openVault (zeros 16) ['p','w'] ⟨.buffer [0xab,0xcd]⟩).run (fun _ => none)).1 =
      .returned ⟨.buffer [0xab,0xcd]⟩ ∧
    rebuild openVault ⟨.buffer [0xab,0xcd]⟩ = none :=
  restored_never openVault_laws (by decide) _ _ _

theorem restored_fails : ¬ Restored openVault (zeros 16) [0xab,0xcd] ['p','w'] (fun _ => none) ∧
    rebuild openVault ⟨.buffer [0xab,0xcd]⟩ = none :=
  have hthrows := rebuild_throws openVault ⟨.buffer [0xab,0xcd]⟩
  ⟨fun hrestored => Option.some_ne_none _ (hrestored.2.symm.trans hthrows),hthrows⟩

end Wallet

end CryptoPlaypen.Lightning
