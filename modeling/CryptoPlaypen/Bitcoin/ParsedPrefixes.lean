import CryptoPlaypen.Bitcoin.WholeBlocks
import CryptoPlaypen.Buffer.PrefixReads

/-! The parser on bytes of any origin. What it accepts is decided by the bytes it consumes: whatever
follows them changes nothing, and a block cut short among them throws. -/
namespace CryptoPlaypen.Bitcoin
open Buffer

private theorem prefixed_attempt {α : Type} (value : Option α) : Prefixed (attempt value) := by
  intro input a rest h
  obtain ⟨b,rfl,hb⟩ := Option.map_eq_some_iff.mp h
  cases hb
  exact ⟨[],rfl,reads_value rfl⟩

private theorem prefixed_readbytes (len : Nat) : Prefixed (readbytes len) := Prefixed.token.times len

private theorem prefixed_readUInt32 : Prefixed readUInt32 :=
  (prefixed_readbytes 4).bind fun _ => prefixed_attempt _

/-- In each of its four forms a count ends where its first byte says. -/
theorem prefixed_varint : Prefixed varint := by
  refine Prefixed.token.bind fun byte => ?_
  split
  · exact Prefixed.pure _
  · split
    · exact Prefixed.token.bind fun low => Prefixed.token.bind fun high => Prefixed.pure _
    · split
      · exact (prefixed_readbytes 4).bind fun _ => prefixed_attempt _
      · exact (prefixed_readbytes 8).bind fun _ => prefixed_attempt _

private theorem prefixed_parseOutPoint : Prefixed parseOutPoint :=
  (prefixed_readbytes 32).bind fun _ => prefixed_readUInt32.bind fun _ => Prefixed.pure _

private theorem prefixed_parseTxInput : Prefixed parseTxInput :=
  prefixed_parseOutPoint.bind fun _ => prefixed_varint.bind fun _ =>
    (prefixed_readbytes _).bind fun _ => (prefixed_readbytes 4).bind fun _ => Prefixed.pure _

private theorem prefixed_parseTxOutput : Prefixed parseTxOutput :=
  (prefixed_readbytes 8).bind fun _ => (prefixed_attempt _).bind fun _ =>
    prefixed_varint.bind fun _ => (prefixed_readbytes _).bind fun _ => Prefixed.pure _

private theorem prefixed_parseTxs : Prefixed parseTxs :=
  prefixed_readUInt32.bind fun _ => prefixed_varint.bind fun _ =>
    (prefixed_parseTxInput.times _).bind fun _ => prefixed_varint.bind fun _ =>
      (prefixed_parseTxOutput.times _).bind fun _ => Prefixed.pure _

private theorem prefixed_parseBlock : Prefixed parseBlock :=
  prefixed_readUInt32.bind fun _ => (prefixed_readbytes 32).bind fun _ =>
    (prefixed_readbytes 32).bind fun _ => prefixed_readUInt32.bind fun _ =>
      prefixed_readUInt32.bind fun _ => prefixed_readUInt32.bind fun _ =>
        prefixed_varint.bind fun _ => prefixed_parseTxs.bind fun _ => Prefixed.pure _

/-- A block that parses does so with anything behind it, and with nothing less. -/
theorem parseBlock_prefix {input rest : Bytes} {b : ParsedBlock}
    (h : parseBlock.run input = some (b, rest)) :
    ∃ used, input = used ++ rest ∧ (∀ more, parseBlock.run (used ++ more) = some (b, more)) ∧
      ∀ k < used.length, parseBlock.run (used.take k) = none := by
  obtain ⟨used,hinput,hused⟩ := prefixed_parseBlock _ _ _ h
  exact ⟨used,hinput,hused,fun k hk => prefixed_parseBlock.run_take hused hk⟩

/-- The genesis block's shape is decided four bytes before its end. -/
theorem parseBlock_prefix_genesis : ∃ used, genesisLike.bytes = used ++ zeros 4 ∧
    (∀ more, parseBlock.run (used ++ more) = some
      (genesisLike.parsed ((genesisLike.txs.map LegacyTx.parsed).headD ⟨0, 0, [], 0, []⟩), more)) ∧
    ∀ k < used.length, parseBlock.run (used.take k) = none :=
  parseBlock_prefix (run_parseBlock_cons genesisLike_fits rfl)

end CryptoPlaypen.Bitcoin
