import CryptoPlaypen.Blockmode.Blocks

/-! The loops of `main`, with `attack` as a parameter that gives the status of a response.
The program ends in `none` where it calls `log.Fatal`. -/
namespace CryptoPlaypen.PaddingOracle
open Buffer Blockmode

/-- The second slice is as long as the first. -/
def xorDecrypted (slice decrypted : Bytes) : Bytes := xorBytes slice decrypted

def xorPadding (slice : Bytes) (padlen : Nat) : Bytes := slice.map (· ^^^ UInt8.ofNat padlen)

/-- The ciphertext up to the block after the current one, with the current one changed. -/
def query (c0 : Bytes) (blockIndex : Nat) (decryptedBlock : Bytes) (pos : Nat) (g : UInt8) : Bytes :=
  let c := c0.take ((blockIndex + 2) * 16)
  let block := (c.drop (blockIndex * 16)).take 16
  let block := block.set pos (block.getD pos 0 ^^^ g)
  let block := xorDecrypted block decryptedBlock
  let block := block.take pos ++ xorPadding (block.drop pos) (16 - pos)
  c.take (blockIndex * 16) ++ block ++ c.drop (blockIndex * 16 + 16)

/-- The loop on guesses, where `result` is the status for a guess. It breaks at the first 404,
and at the end takes the last 200 if it was not for the guess zero. -/
def tryGuesses (result : UInt8 → Nat) (decryptedBlock : Bytes) (pos : Nat) :
    List Nat → UInt8 → Option Bytes
  | [], _ => some decryptedBlock
  | g :: gs, possible =>
    if result (UInt8.ofNat g) = 404 then some (decryptedBlock.set pos (UInt8.ofNat g))
    else
      let possible := if result (UInt8.ofNat g) = 200 then UInt8.ofNat g else possible
      if g = 255 then if possible > 0 then some (decryptedBlock.set pos possible) else none
      else tryGuesses result decryptedBlock pos gs possible

def decryptPosition (attack : Bytes → Nat) (c0 : Bytes) (blockIndex : Nat)
    (state : Bytes × Bytes) (pos : Nat) : Option (Bytes × Bytes) := do
  let (decryptedBlock, decrypted) := state
  let decryptedBlock ← tryGuesses (fun g => attack (query c0 blockIndex decryptedBlock pos g))
    decryptedBlock pos (List.range 256) 0
  let decrypted := decrypted.take ((blockIndex + 1) * 16) ++ decryptedBlock ++
    decrypted.drop ((blockIndex + 2) * 16)
  pure (decryptedBlock, decrypted)

def decryptBlock (attack : Bytes → Nat) (c0 decrypted : Bytes) (blockIndex : Nat) : Option Bytes := do
  let state ← (List.range 16).reverse.foldlM (decryptPosition attack c0 blockIndex) (zeros 16, decrypted)
  pure state.2

/-- The blocks from the last to the first after the iv. -/
def main (attack : Bytes → Nat) (c0 : Bytes) : Option Bytes :=
  let blockCount := c0.length / 16
  (List.range (blockCount - 1)).reverse.foldlM (decryptBlock attack c0) (zeros c0.length)

end CryptoPlaypen.PaddingOracle
