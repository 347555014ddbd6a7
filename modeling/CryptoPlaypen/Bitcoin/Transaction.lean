import CryptoPlaypen.Bitcoin.BufferCursor
import CryptoPlaypen.Bitcoin.WireFormat

/-! The transaction objects that the signing examples build, and what of them the
encoders of both formats have in common. -/
namespace CryptoPlaypen.Bitcoin
open Buffer

/-- `value` and `index` are properties that the examples never set. -/
structure Vin where
  txid : Bytes
  vout : Nat
  hash : Bytes
  sequence : Nat
  script : Bytes
  scriptSig : Option Bytes
  witness : Option (List Bytes)
  value : Option Nat
  index : Option Nat
  deriving DecidableEq, Repr

structure Vout where
  script : Bytes
  value : Amount
  deriving DecidableEq, Repr

structure Tx where
  version : Int
  locktime : Nat
  vins : List Vin
  vouts : List Vout
  deriving DecidableEq, Repr

/-- The field widths of an input; a length is below 2^53 in any program. -/
structure Vin.Fits (vin : Vin) : Prop where
  hash : vin.hash.length = 32
  vout : vin.vout < 2 ^ 32
  sequence : vin.sequence < 2 ^ 32
  script : vin.script.length < 2 ^ 53
  scriptSig : ∀ s ∈ vin.scriptSig, s.length < 2 ^ 53
  witness : ∀ stack ∈ vin.witness, stack.length < 2 ^ 53 ∧ ∀ d ∈ stack, d.length < 2 ^ 53

structure Vout.Fits (vout : Vout) : Prop where
  script : vout.script.length < 2 ^ 53
  value : vout.value.Fits

structure Tx.Fits (tx : Tx) : Prop where
  version : -2 ^ 31 ≤ tx.version ∧ tx.version < 2 ^ 31
  locktime : tx.locktime < 2 ^ 32
  counts : tx.vins.length < 2 ^ 53 ∧ tx.vouts.length < 2 ^ 53
  vins : ∀ vin ∈ tx.vins, vin.Fits
  vouts : ∀ vout ∈ tx.vouts, vout.Fits

def Tx.wireVersion (tx : Tx) : Nat := (tx.version % 2 ^ 32).toNat

def Vin.wire (vin : Vin) (index : Nat) (script : Bytes) : TxIn :=
  ⟨vin.hash, index, script, vin.sequence⟩

def Vout.wire (vout : Vout) : TxOut := ⟨vout.value.units, vout.script⟩

def cloneBuffer (buffer : Bytes) : Bytes := copyInto buffer (zeros buffer.length) 0

/-- The copy has none of the properties that are not listed. -/
def cloneTx (tx : Tx) : Tx where
  version := tx.version
  locktime := tx.locktime
  vins := tx.vins.map fun vin => {
    txid := cloneBuffer vin.txid
    vout := vin.vout
    hash := cloneBuffer vin.hash
    sequence := vin.sequence
    script := cloneBuffer vin.script
    scriptSig := none
    witness := none
    value := none
    index := none }
  vouts := tx.vouts.map fun vout => { script := cloneBuffer vout.script, value := vout.value }

def vinsBytes (P : Packages) (lens : List Nat) : Nat :=
  lens.foldl (fun sum len => sum + 40 + P.encodingLength len + len) 0

def voutsBytes (P : Packages) (vouts : List Vout) : Nat :=
  (vouts.map fun vout => vout.script.length).foldl
    (fun sum len => sum + 8 + P.encodingLength len + len) 0

/-- The body of the loop over the outputs in every encoder. -/
def writeVout (P : Packages) (vout : Vout) : CellWriter UInt8 Unit := do
  BufferCursor.writeUInt64LE P vout.value
  BufferCursor.writeSized P vout.script

@[simp] theorem cloneBuffer_eq (buffer : Bytes) : cloneBuffer buffer = buffer := by
  have hcopy := copyInto_append buffer [] (zeros buffer.length) (by simp)
  simpa [cloneBuffer, zeros] using hcopy

theorem Tx.wireVersion_lt (tx : Tx) : tx.wireVersion < 2 ^ 32 := by
  have := Int.emod_lt_of_pos tx.version (show (0 : Int) < 2 ^ 32 by decide)
  have := Int.emod_nonneg tx.version (show (2 ^ 32 : Int) ≠ 0 by decide)
  simp only [wireVersion]
  omega

theorem Tx.Fits.wireVersion {tx : Tx} (h : tx.Fits) (h0 : 0 ≤ tx.version) :
    (tx.wireVersion : Int) = tx.version := by
  have := h.version.2
  simp only [Tx.wireVersion]
  omega

theorem Vin.Fits.wire {vin : Vin} (h : vin.Fits) {index : Nat} (hindex : index < 2 ^ 32)
    {script : Bytes} (hscript : script.length < 2 ^ 53) : (vin.wire index script).Fits :=
  ⟨h.hash,hindex,lt_widest hscript,h.sequence⟩

theorem Vout.Fits.wire {vout : Vout} (h : vout.Fits) : vout.wire.Fits :=
  ⟨h.value.units_lt,lt_widest h.script⟩

theorem outputs_fit {tx : Tx} (h : tx.Fits) : ∀ t ∈ tx.vouts.map Vout.wire, t.Fits := by
  intro t ht
  obtain ⟨vout,hvout,rfl⟩ := List.mem_map.mp ht
  exact (h.vouts vout hvout).wire

variable {P : Packages} (laws : PackageLaws P)
include laws

theorem vinsBytes_eq {vins : List Vin} (win : Vin → TxIn)
    (hhash : ∀ vin ∈ vins, (win vin).hash.length = 32)
    (hscript : ∀ vin ∈ vins, (win vin).script.length < 2 ^ 53) :
    vinsBytes P (vins.map fun vin => (win vin).script.length) =
      (vins.flatMap fun vin => (win vin).bytes).length := by
  rw [vinsBytes, List.foldl_map, foldl_length vins (fun vin => (win vin).bytes)]
  · exact Nat.zero_add _
  · intro vin hvin sum
    rw [laws.encodingLength _ (hscript vin hvin), TxIn.bytes_length (hhash vin hvin)]
    simp [sized]
    omega

theorem voutsBytes_eq {vouts : List Vout} (h : ∀ vout ∈ vouts, vout.Fits) :
    voutsBytes P vouts = (vouts.flatMap fun vout => vout.wire.bytes).length := by
  rw [voutsBytes, List.foldl_map, foldl_length vouts (fun vout => vout.wire.bytes)]
  · exact Nat.zero_add _
  · intro vout hvout sum
    rw [laws.encodingLength _ (h vout hvout).script, TxOut.bytes_length]
    simp [Vout.wire, sized]
    omega

private theorem writes_vout {vout : Vout} (h : vout.Fits) : Writes (writeVout P vout) vout.wire.bytes :=
  (BufferCursor.writes_uint64LE laws h.value).seq (BufferCursor.writes_sized laws h.script)

theorem writes_vouts {vouts : List Vout} (h : ∀ vout ∈ vouts, vout.Fits) :
    Writes (vouts.forM (writeVout P)) (vouts.flatMap fun vout => vout.wire.bytes) :=
  Writes.loop vouts _ _ fun vout hvout => writes_vout laws (h vout hvout)

/-- Both counts, the inputs and the outputs, before whatever an encoder writes next. -/
theorem writes_body {vins : List Vin} {vouts : List Vout}
    (hcounts : vins.length < 2 ^ 53 ∧ vouts.length < 2 ^ 53) (hvouts : ∀ vout ∈ vouts, vout.Fits)
    {writeVin : Vin → CellWriter UInt8 Unit} (win : Vin → TxIn)
    (hvins : ∀ vin ∈ vins, Writes (writeVin vin) (win vin).bytes)
    {w : CellWriter UInt8 Unit} {out : Bytes} (hw : Writes w out) :
    Writes (do
      BufferCursor.writeBytes (P.encode vins.length)
      vins.forM writeVin
      BufferCursor.writeBytes (P.encode vouts.length)
      vouts.forM (writeVout P)
      w) (bodyBytes (vins.map win) (vouts.map Vout.wire) ++ out) := by
  rw [laws.encode _ hcounts.1, laws.encode _ hcounts.2]
  have hwrites := (BufferCursor.writes_bytes (compactSize vins.length)).seq <|
    (Writes.loop vins writeVin _ hvins).seq <|
    (BufferCursor.writes_bytes (compactSize vouts.length)).seq <| (writes_vouts laws hvouts).seq hw
  exact hwrites.congr (by simp [bodyBytes, counted, List.flatMap_map, List.append_assoc])

end CryptoPlaypen.Bitcoin
