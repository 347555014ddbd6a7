import CryptoPlaypen.Bitcoin.BlockParser
import CryptoPlaypen.Bitcoin.LegacyTransaction

/-! Legacy transactions from the encoder of one directory to the parser of another. -/
namespace CryptoPlaypen.Bitcoin.P2pkh
open Buffer

def parsedIn (t : TxIn) : ParsedInput where
  previousOutput := { hash := hex t.hash.reverse, index := t.index }
  scriptLength := t.script.length
  sig := hex t.script
  seq := hex (leBytes 4 t.sequence)

def parsedOut (t : TxOut) : ParsedOutput where
  value := t.value
  scriptLength := t.script.length
  script := hex t.script

def parsedTx (tx : Tx) : ParsedTx where
  version := tx.version.toNat
  inCount := tx.vins.length
  txIns := tx.vins.map fun vin => parsedIn (wireIn vin)
  outCount := tx.vouts.length
  txOuts := tx.vouts.map fun vout => parsedOut vout.wire

private theorem reads_outPoint {hash : Bytes} {index : Nat} (hhash : hash.length = 32)
    (hindex : index < 2 ^ 32) :
    Reads parseOutPoint (hash ++ leBytes 4 index) { hash := hex hash.reverse, index } := by
  rw [← reverse_hex]
  exact (reads_readbytes hhash).bind <|
    (reads_readUInt32 hindex).map fun index => OutPoint.mk (reverse (hex hash)) index

private theorem reads_script {script : Bytes} (h : script.length < 2 ^ 53) :
    Reads (readbytes (toJSNumber script.length)) script script :=
  reads_readbytes (toJSNumber_of_lt h).symm

private theorem reads_parseTxInput {t : TxIn} (h : t.Fits) (hscript : t.script.length < 2 ^ 53) :
    Reads parseTxInput t.bytes (parsedIn t) := by
  have hparsed : parsedIn t = ⟨⟨hex t.hash.reverse, t.index⟩, toJSNumber t.script.length,
      hex t.script, hex (leBytes 4 t.sequence)⟩ := by
    rw [toJSNumber_of_lt hscript]
    rfl
  rw [hparsed, TxIn.bytes, sized, List.append_assoc, ← List.append_assoc]
  exact (reads_outPoint h.hash h.index).bind <| (reads_varint h.script).bind <|
    (reads_script hscript).bind <| (reads_readbytes (leBytes_length 4 t.sequence)).map
      fun seq => ParsedInput.mk _ _ _ (hex seq)

private theorem reads_parseTxOutput {t : TxOut} (h : t.Fits) (hscript : t.script.length < 2 ^ 53) :
    Reads parseTxOutput t.bytes (parsedOut t) := by
  have hvalue : bigInt (reverse (hex (leBytes 8 t.value))) = some t.value := by
    rw [reverse_hex]
    exact bigInt_hex_reverse h.value
  have hparsed : parsedOut t = ⟨t.value, toJSNumber t.script.length, hex t.script⟩ := by
    rw [toJSNumber_of_lt hscript]
    rfl
  rw [hparsed, TxOut.bytes, sized]
  exact (reads_readbytes (leBytes_length 8 t.value)).bind <| (reads_value hvalue).bind <|
    (reads_varint h.script).bind <| (reads_script hscript).map fun script =>
      ParsedOutput.mk _ _ (hex script)

/-- A transaction up to its lock time, from its fields on the wire. -/
theorem reads_wireTx {version : Nat} {inputs : List TxIn} {outputs : List TxOut}
    (hversion : version < 2 ^ 32) (hcounts : inputs.length < 2 ^ 53 ∧ outputs.length < 2 ^ 53)
    (hinputs : ∀ t ∈ inputs, t.Fits ∧ t.script.length < 2 ^ 53)
    (houtputs : ∀ t ∈ outputs, t.Fits ∧ t.script.length < 2 ^ 53) :
    Reads parseTxs (leBytes 4 version ++ bodyBytes inputs outputs)
      ⟨version, inputs.length, inputs.map parsedIn, outputs.length, outputs.map parsedOut⟩ := by
  have hins : Reads (Reader.times (toJSNumber inputs.length) parseTxInput)
      (inputs.flatMap TxIn.bytes) (inputs.map parsedIn) := by
    rw [toJSNumber_of_lt hcounts.1]
    exact Reads.times inputs _ _ fun t ht => reads_parseTxInput (hinputs t ht).1 (hinputs t ht).2
  have houts : Reads (Reader.times (toJSNumber outputs.length) parseTxOutput)
      (outputs.flatMap TxOut.bytes) (outputs.map parsedOut) := by
    rw [toJSNumber_of_lt hcounts.2]
    exact Reads.times outputs _ _ fun t ht => reads_parseTxOutput (houtputs t ht).1 (houtputs t ht).2
  have hparsed : (⟨version, inputs.length, inputs.map parsedIn, outputs.length,
      outputs.map parsedOut⟩ : ParsedTx) = ⟨version, toJSNumber inputs.length, inputs.map parsedIn,
      toJSNumber outputs.length, outputs.map parsedOut⟩ := by
    rw [toJSNumber_of_lt hcounts.1, toJSNumber_of_lt hcounts.2]
  rw [hparsed, bodyBytes, counted, counted, List.append_assoc]
  exact (reads_readUInt32 hversion).bind <| (reads_varint (lt_widest hcounts.1)).bind <|
    hins.bind <| (reads_varint (lt_widest hcounts.2)).bind <|
    houts.map fun txOuts => ParsedTx.mk _ _ _ _ txOuts

variable {tx : Tx}

private theorem reads_parseTxs (h : tx.Fits) (h0 : 0 ≤ tx.version) :
    Reads parseTxs (leBytes 4 tx.wireVersion ++
      bodyBytes (tx.vins.map wireIn) (tx.vouts.map Vout.wire)) (parsedTx tx) := by
  have hversion : tx.wireVersion = tx.version.toNat := by
    have := h.wireVersion h0
    omega
  have hcounts : (tx.vins.map wireIn).length < 2 ^ 53 ∧ (tx.vouts.map Vout.wire).length < 2 ^ 53 := by
    simpa using h.counts
  have hread := reads_wireTx tx.wireVersion_lt hcounts
    (by simpa using fun vin hvin => ⟨wireIn_fits (h.vins vin hvin),script_length (h.vins vin hvin)⟩)
    (by simpa using fun vout hvout => ⟨(h.vouts vout hvout).wire,(h.vouts vout hvout).script⟩)
  rw [List.length_map, List.length_map, List.map_map, List.map_map] at hread
  rw [parsedTx, ← hversion]
  exact hread

/-- The parser returns what the encoder was given, and stops before the lock time. -/
theorem legacy_parse_round_trip {P : Packages} (laws : PackageLaws P) (h : tx.Fits)
    (h0 : 0 ≤ tx.version) :
    ∃ b, txToBuffer P tx = some b ∧
      parseTxs.run b = some (parsedTx tx, leBytes 4 tx.locktime) := by
  refine ⟨_,txToBuffer_eq laws h,?_⟩
  rw [legacyBytes, ← List.append_assoc]
  exact reads_parseTxs h h0 (leBytes 4 tx.locktime)

def paymentTx : Tx where
  version := 2
  locktime := 500000
  vins := [
    { txid := List.replicate 32 1, vout := 1, hash := List.replicate 32 1, sequence := 0xffffffff
      script := [0x51], scriptSig := some [0x30, 0x44], witness := none, value := none, index := none },
    { txid := List.replicate 32 2, vout := 7, hash := List.replicate 32 2, sequence := 0xfffffffe
      script := [0x76, 0xa9], scriptSig := none, witness := none, value := none, index := none }]
  vouts := [{ script := [0x52], value := .number 900 }, { script := [], value := .bn 11010000 }]

private theorem paymentTx_fits : paymentTx.Fits where
  version := by simp [paymentTx]
  locktime := by simp [paymentTx]
  counts := by simp [paymentTx]
  vins := by
    simp only [paymentTx, List.forall_mem_cons, List.not_mem_nil, false_imp_iff, implies_true, and_true]
    exact ⟨⟨by simp,by simp,by simp,by simp,by simp,by simp⟩,
      ⟨by simp,by simp,by simp,by simp,by simp,by simp⟩⟩
  vouts := by
    simp only [paymentTx, List.forall_mem_cons, List.not_mem_nil, false_imp_iff, implies_true, and_true]
    exact ⟨⟨by simp,by decide⟩,⟨by simp,by decide⟩⟩

theorem legacy_parse_round_trip_payment :
    ∃ b, txToBuffer wirePackages paymentTx = some b ∧
      parseTxs.run b = some (parsedTx paymentTx, leBytes 4 500000) :=
  legacy_parse_round_trip wirePackages_laws paymentTx_fits (by decide)

end CryptoPlaypen.Bitcoin.P2pkh
