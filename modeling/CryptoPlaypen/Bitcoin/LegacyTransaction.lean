import CryptoPlaypen.Bitcoin.Transaction

/-! The encoder of `example-p2pkh.js`: an input carries its `scriptSig`, or its
`script` as long as it has none. -/
namespace CryptoPlaypen.Bitcoin.P2pkh
open Buffer

def calcTxBytes (P : Packages) (vins : List Vin) (vouts : List Vout) : Nat :=
  4 + P.encodingLength vins.length +
    vinsBytes P (vins.map fun vin => (vin.scriptSig.getD vin.script).length) +
    P.encodingLength vouts.length + voutsBytes P vouts + 4

def writeVin (P : Packages) (vin : Vin) : CellWriter UInt8 Unit := do
  BufferCursor.writeBytes vin.hash
  BufferCursor.writeUInt32LE vin.vout
  match vin.scriptSig with
  | some scriptSig => BufferCursor.writeSized P scriptSig
  | none => BufferCursor.writeSized P vin.script
  BufferCursor.writeUInt32LE vin.sequence

def txToBuffer (P : Packages) (tx : Tx) : Option Bytes := do
  let cursor ← serialized (calcTxBytes P tx.vins tx.vouts) do
    BufferCursor.writeInt32LE tx.version
    BufferCursor.writeBytes (P.encode tx.vins.length)
    tx.vins.forM (writeVin P)
    BufferCursor.writeBytes (P.encode tx.vouts.length)
    tx.vouts.forM (writeVout P)
    BufferCursor.writeUInt32LE tx.locktime
  pure cursor.buffer

def wireIn (vin : Vin) : TxIn := vin.wire vin.vout (vin.scriptSig.getD vin.script)

theorem script_length {vin : Vin} (h : vin.Fits) :
    (vin.scriptSig.getD vin.script).length < 2 ^ 53 := by
  cases hsig : vin.scriptSig with
  | none => exact h.script
  | some scriptSig => exact h.scriptSig scriptSig hsig

theorem wireIn_fits {vin : Vin} (h : vin.Fits) : (wireIn vin).Fits := h.wire h.vout (script_length h)

variable {P : Packages} (laws : PackageLaws P)
include laws

private theorem writes_vin {vin : Vin} (h : vin.Fits) : Writes (writeVin P vin) (wireIn vin).bytes := by
  have hscript := BufferCursor.writes_sized laws (script_length h)
  have hvin := (BufferCursor.writes_bytes vin.hash).seq <| (BufferCursor.writes_uint32LE h.vout).seq <|
    hscript.seq (BufferCursor.writes_uint32LE h.sequence)
  unfold writeVin
  cases hsig : vin.scriptSig <;> simpa [wireIn, Vin.wire, TxIn.bytes, hsig] using hvin

/-- The buffer is sized exactly, and filled with the original format. -/
theorem txToBuffer_eq {tx : Tx} (h : tx.Fits) :
    txToBuffer P tx = some (legacyBytes tx.wireVersion (tx.vins.map wireIn)
      (tx.vouts.map Vout.wire) tx.locktime) := by
  have hwrites := (BufferCursor.writes_int32LE h.version.1 h.version.2).seq <|
    writes_body laws h.counts h.vouts wireIn (fun vin hvin => writes_vin laws (h.vins vin hvin))
      (BufferCursor.writes_uint32LE h.locktime)
  have hvins := vinsBytes_eq laws wireIn (fun vin hvin => (h.vins vin hvin).hash)
    fun vin hvin => script_length (h.vins vin hvin)
  have hsize : calcTxBytes P tx.vins tx.vouts = (int32Bytes tx.version ++
      (bodyBytes (tx.vins.map wireIn) (tx.vouts.map Vout.wire) ++ leBytes 4 tx.locktime)).length := by
    change 4 + _ + vinsBytes P (tx.vins.map fun vin => (wireIn vin).script.length) + _ + _ + 4 = _
    rw [hvins, voutsBytes_eq laws h.vouts, laws.encodingLength _ h.counts.1,
      laws.encodingLength _ h.counts.2]
    simp [bodyBytes, counted, List.flatMap_map]
    omega
  obtain ⟨c,hc,hbuffer,_⟩ := serialized_of_writes hwrites hsize
  rw [txToBuffer, hc]
  exact congrArg some hbuffer

end CryptoPlaypen.Bitcoin.P2pkh
