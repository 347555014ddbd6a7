import CryptoPlaypen.Bitcoin.LegacyRoundTrip

/-! `parseBlock` on whole blocks. It calls `parseTxs` once, which reads a single
transaction and stops before its lock time, whatever count it has just read. -/
namespace CryptoPlaypen.Bitcoin
open Buffer

def decimal : Nat → Nat → List Char
  | 0, _ => []
  | width + 1, n => decimal width (n / 10) ++ [Char.ofNat (48 + n % 10)]

/-- `new Date(time * 1000).toISOString()`, with years that start in March. -/
def isoDate (time : Nat) : List Char :=
  let days := time / 86400 + 719468
  let dayOfEra := days % 146097
  let yearOfEra :=
    (dayOfEra - dayOfEra / 1460 + dayOfEra / 36524 - dayOfEra / 146096) / 365
  let dayOfYear := dayOfEra - (365 * yearOfEra + yearOfEra / 4 - yearOfEra / 100)
  let march := (5 * dayOfYear + 2) / 153
  let day := dayOfYear - (153 * march + 2) / 5 + 1
  let month := if march < 10 then march + 3 else march - 9
  let year := yearOfEra + days / 146097 * 400 + if month ≤ 2 then 1 else 0
  decimal 4 year ++ ['-'] ++ decimal 2 month ++ ['-'] ++ decimal 2 day ++ ['T'] ++
    decimal 2 (time % 86400 / 3600) ++ [':'] ++ decimal 2 (time % 3600 / 60) ++ [':'] ++
    decimal 2 (time % 60) ++ ['.', '0', '0', '0', 'Z']

example : isoDate 1231006505 = "2009-01-03T18:15:05.000Z".toList := by decide

structure ParsedBlock where
  version : Nat
  hashPreviousBlock : List Char
  hashMerkleRoot : List Char
  time : Nat
  date : List Char
  bits : Nat
  nonce : Nat
  txCount : Nat
  txs : ParsedTx
  deriving DecidableEq, Repr

/-- The count is returned, and not used. -/
def parseBlock : Reader UInt8 ParsedBlock := do
  let version ← readUInt32
  let hashPreviousBlock ← readbytes 32
  let hashMerkleRoot ← readbytes 32
  let time ← readUInt32
  let bits ← readUInt32
  let nonce ← readUInt32
  let count ← varint
  let txCount := toJSNumber count
  let txs ← parseTxs
  pure {
    version, hashPreviousBlock := reverse (hex hashPreviousBlock)
    hashMerkleRoot := reverse (hex hashMerkleRoot)
    time, date := isoDate time, bits, nonce, txCount, txs }

structure LegacyTx where
  version : Nat
  inputs : List TxIn
  outputs : List TxOut
  locktime : Nat

structure Block where
  version : Nat
  previous : Bytes
  merkleRoot : Bytes
  time : Nat
  bits : Nat
  nonce : Nat
  txs : List LegacyTx

def LegacyTx.bytes (t : LegacyTx) : Bytes := legacyBytes t.version t.inputs t.outputs t.locktime

def Block.bytes (b : Block) : Bytes :=
  leBytes 4 b.version ++ (b.previous ++ (b.merkleRoot ++ (leBytes 4 b.time ++
    (leBytes 4 b.bits ++ (leBytes 4 b.nonce ++ counted LegacyTx.bytes b.txs)))))

structure LegacyTx.Fits (t : LegacyTx) : Prop where
  version : t.version < 2 ^ 32
  locktime : t.locktime < 2 ^ 32
  inputs : ∀ i ∈ t.inputs, i.hash.length = 32 ∧ i.index < 2 ^ 32 ∧ i.sequence < 2 ^ 32
  outputs : ∀ o ∈ t.outputs, o.value < 2 ^ 64

/-- The field widths of a block. It is held in one buffer, so its size is a number
that the language holds exactly. -/
structure Block.Fits (b : Block) : Prop where
  version : b.version < 2 ^ 32
  previous : b.previous.length = 32
  merkleRoot : b.merkleRoot.length = 32
  time : b.time < 2 ^ 32
  bits : b.bits < 2 ^ 32
  nonce : b.nonce < 2 ^ 32
  txs : ∀ t ∈ b.txs, t.Fits
  size : b.bytes.length < 2 ^ 53

def LegacyTx.parsed (t : LegacyTx) : ParsedTx where
  version := t.version
  inCount := t.inputs.length
  txIns := t.inputs.map P2pkh.parsedIn
  outCount := t.outputs.length
  txOuts := t.outputs.map P2pkh.parsedOut

/-- What `parseBlock` returns once it has found the given transaction. -/
def Block.parsed (b : Block) (txs : ParsedTx) : ParsedBlock where
  version := b.version
  hashPreviousBlock := hex b.previous.reverse
  hashMerkleRoot := hex b.merkleRoot.reverse
  time := b.time
  date := isoDate b.time
  bits := b.bits
  nonce := b.nonce
  txCount := b.txs.length
  txs := txs

/-- All of the bytes are consumed, and the header, the count and the transactions
come back in order. -/
def ParsedWhole (b : Block) : Prop :=
  ∃ txs, parseBlock.run b.bytes = some (b.parsed txs, []) ∧ [txs] = b.txs.map LegacyTx.parsed

/-- A counted list is no shorter than its count, nor than any of its records. -/
theorem counted_length_le {α : Type} (enc : α → Bytes) {items : List α}
    (h : ∀ a ∈ items, 0 < (enc a).length) :
    items.length ≤ (counted enc items).length ∧
      ∀ a ∈ items, (enc a).length ≤ (counted enc items).length := by
  have hall : items.length ≤ (items.flatMap enc).length ∧
      ∀ a ∈ items, (enc a).length ≤ (items.flatMap enc).length := by
    induction items with
    | nil => simp
    | cons a items ih =>
      have hfirst := h a List.mem_cons_self
      obtain ⟨hcount,hrecords⟩ := ih fun b hb => h b (List.mem_cons_of_mem _ hb)
      rw [List.flatMap_cons, List.length_append, List.length_cons]
      refine ⟨by omega,List.forall_mem_cons.mpr ⟨by omega,fun b hb => ?_⟩⟩
      have := hrecords b hb
      omega
  rw [counted, List.length_append]
  exact ⟨by omega,fun a ha => by have := hall.2 a ha; omega⟩

private theorem sized_length_le (bs : Bytes) : bs.length ≤ (sized bs).length := by simp [sized]

/-- The counts and scripts of a transaction are no longer than its bytes. -/
theorem LegacyTx.Fits.wire {t : LegacyTx} (h : t.Fits) (hsize : t.bytes.length < 2 ^ 53) :
    (t.inputs.length < 2 ^ 53 ∧ t.outputs.length < 2 ^ 53) ∧
      (∀ i ∈ t.inputs, i.Fits ∧ i.script.length < 2 ^ 53) ∧
      ∀ o ∈ t.outputs, o.Fits ∧ o.script.length < 2 ^ 53 := by
  have hin (i : TxIn) (hi : i ∈ t.inputs) := TxIn.bytes_length (h.inputs i hi).1
  have hins := counted_length_le TxIn.bytes fun i hi => by rw [hin i hi]; omega
  have hout (o : TxOut) (_ : o ∈ t.outputs) : 0 < o.bytes.length := by
    rw [TxOut.bytes_length]
    omega
  have houts := counted_length_le TxOut.bytes hout
  simp only [LegacyTx.bytes, legacyBytes, bodyBytes, List.length_append] at hsize
  refine ⟨⟨by omega,by omega⟩,fun i hi => ?_,fun o ho => ?_⟩
  · have hle := hins.2 i hi
    have hscript := sized_length_le i.script
    rw [hin i hi] at hle
    have hlt : i.script.length < 2 ^ 53 := by omega
    obtain ⟨hhash,hindex,hsequence⟩ := h.inputs i hi
    exact ⟨⟨hhash,hindex,lt_widest hlt,hsequence⟩,hlt⟩
  · have hle := houts.2 o ho
    have hscript := sized_length_le o.script
    rw [TxOut.bytes_length] at hle
    have hlt : o.script.length < 2 ^ 53 := by omega
    exact ⟨⟨h.outputs o ho,lt_widest hlt⟩,hlt⟩

theorem LegacyTx.Fits.reads {t : LegacyTx} (h : t.Fits) (hsize : t.bytes.length < 2 ^ 53) :
    Reads parseTxs (leBytes 4 t.version ++ bodyBytes t.inputs t.outputs) t.parsed :=
  have hwire := h.wire hsize
  P2pkh.reads_wireTx h.version hwire.1 hwire.2.1 hwire.2.2

section Runs
variable {b : Block} (h : b.Fits)
include h

theorem Block.Fits.txs_size : b.txs.length < 2 ^ 53 ∧ ∀ t ∈ b.txs, t.bytes.length < 2 ^ 53 := by
  have hsize := h.size
  have htx (t : LegacyTx) (_ : t ∈ b.txs) : 0 < t.bytes.length := by simp [LegacyTx.bytes, legacyBytes]
  have hrecords := counted_length_le LegacyTx.bytes htx
  simp only [Block.bytes, List.length_append] at hsize
  exact ⟨by omega,fun t ht => by have := hrecords.2 t ht; omega⟩

/-- After the header and the count, the one call of `parseTxs` decides. -/
theorem run_parseBlock :
    parseBlock.run b.bytes =
      (parseTxs.run (b.txs.flatMap LegacyTx.bytes)).map fun (txs,rest) => (b.parsed txs,rest) := by
  have hcount := h.txs_size.1
  rw [parseBlock, Block.bytes, counted, (reads_readUInt32 h.version).run_bind,
    (reads_readbytes h.previous).run_bind, (reads_readbytes h.merkleRoot).run_bind,
    (reads_readUInt32 h.time).run_bind, (reads_readUInt32 h.bits).run_bind,
    (reads_readUInt32 h.nonce).run_bind, (reads_varint (lt_widest hcount)).run_bind,
    StateT.run_bind]
  simp only [reverse_hex, toJSNumber_of_lt hcount]
  cases parseTxs.run (b.txs.flatMap LegacyTx.bytes) <;> rfl

/-- An empty block ends where the parser expects a transaction. -/
theorem run_parseBlock_nil (hnil : b.txs = []) : parseBlock.run b.bytes = none := by
  rw [run_parseBlock h, hnil]
  rfl

/-- Of any other block the first transaction is returned, and its lock time and the
other transactions are left. -/
theorem run_parseBlock_cons {t : LegacyTx} {rest : List LegacyTx} (hcons : b.txs = t :: rest) :
    parseBlock.run b.bytes =
      some (b.parsed t.parsed, leBytes 4 t.locktime ++ rest.flatMap LegacyTx.bytes) := by
  have hmem : t ∈ b.txs := hcons ▸ List.mem_cons_self
  have hread := (h.txs t hmem).reads (h.txs_size.2 t hmem)
  have hbytes : t.bytes ++ rest.flatMap LegacyTx.bytes =
      (leBytes 4 t.version ++ bodyBytes t.inputs t.outputs) ++
        (leBytes 4 t.locktime ++ rest.flatMap LegacyTx.bytes) := by
    simp [LegacyTx.bytes, legacyBytes, List.append_assoc]
  rw [run_parseBlock h, hcons, List.flatMap_cons, hbytes, hread]
  rfl

/-- No block at all is parsed whole: the parser throws on an empty one, and stops
before the first lock time of any other. -/
theorem whole_block_never : ¬ ParsedWhole b := by
  rintro ⟨txs,hrun,_⟩
  cases hcons : b.txs with
  | nil =>
    rw [run_parseBlock_nil h hcons] at hrun
    cases hrun
  | cons t rest =>
    rw [run_parseBlock_cons h hcons] at hrun
    have hrest := congrArg (fun r => r.2.length) (Option.some.inj hrun)
    simp at hrest

end Runs

def genesisLike : Block where
  version := 1
  previous := zeros 32
  merkleRoot := List.replicate 32 0x3b
  time := 1231006505
  bits := 486604799
  nonce := 2083236893
  txs := [{
    version := 1
    inputs := [{ hash := zeros 32, index := 0xffffffff, script := [4, 0xff, 0xff], sequence := 0xffffffff }]
    outputs := [{ value := 5000000000, script := [0x41, 0xac] }]
    locktime := 0 }]

theorem genesisLike_fits : genesisLike.Fits where
  version := by decide
  previous := by decide
  merkleRoot := by decide
  time := by decide
  bits := by decide
  nonce := by decide
  txs := by
    simp only [genesisLike, List.forall_mem_singleton]
    exact ⟨by decide,by decide,by simp,by simp⟩
  size := by decide +kernel

/-- Even of the one block the repository parses, the lock time is left. -/
theorem whole_block_genesis : ¬ ParsedWhole genesisLike := whole_block_never genesisLike_fits

/-- A block of one transaction leaves four bytes, and an empty block throws. -/
theorem whole_block_fails :
    parseBlock.run genesisLike.bytes =
      some (genesisLike.parsed ((genesisLike.txs.map LegacyTx.parsed).headD ⟨0, 0, [], 0, []⟩), zeros 4) ∧
    ¬ ParsedWhole genesisLike ∧
    parseBlock.run { genesisLike with txs := [] }.bytes = none := by
  refine ⟨run_parseBlock_cons genesisLike_fits rfl,?_,by decide⟩
  rintro ⟨txs,hrun,_⟩
  rw [run_parseBlock_cons genesisLike_fits rfl] at hrun
  have hrest := congrArg (fun r => r.2.length) (Option.some.inj hrun)
  simp at hrest

end CryptoPlaypen.Bitcoin
