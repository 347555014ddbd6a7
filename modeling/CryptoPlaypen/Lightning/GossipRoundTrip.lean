import CryptoPlaypen.Buffer.SequentialReads
import CryptoPlaypen.Lightning.Messages

/-! Gossip messages through `serialize` and the factory. The offset codec is an
inverse pair; the two codecs over the positional reader and writer are not. -/
namespace CryptoPlaypen.Lightning
open Buffer

def GossipShaped : Message → Prop
  | .channelAnnouncement m =>
    (∀ s ∈ [m.node_signature_1, m.node_signature_2, m.bitcoin_signature_1, m.bitcoin_signature_2],
      s.length = 64) ∧ m.features.length ≤ 65535 ∧ m.chain_hash.length ≤ 4 ∧
    m.short_channel_id < 256 ∧
    ∀ k ∈ [m.node_id_1, m.node_id_2, m.bitcoin_key_1, m.bitcoin_key_2], k.length = 33
  | .channelUpdate m =>
    m.signature.length = 64 ∧ m.chain_hash.length = 32 ∧ m.htlc_minimum_msat.length = 8 ∧
    m.short_channel_id < 2 ^ 8 ∧ m.flags < 2 ^ 16 ∧ m.cltv_expiry_delta < 2 ^ 16 ∧
    m.timestamp < 2 ^ 32 ∧ m.fee_base_msat < 2 ^ 32 ∧ m.fee_proportional_millionths < 2 ^ 32
  | .announcementSignatures m =>
    m.channel_id < 2 ^ 32 ∧ m.short_channel_id < 2 ^ 8 ∧ m.node_signature.length = 8 ∧
    m.bitcoin_signature.length = 8
  | _ => False

/-- The message serializes without an exception, its writes lie in the buffer and
tile it, and the factory returns the message. -/
def GossipIntact (m : Message) : Prop :=
  ∃ c, m.serialize = some c ∧ (∀ r ∈ c.extents, r.2 ≤ c.buffer.length) ∧
    Tiles 0 c.extents c.buffer.length ∧ Message.deserialize c.buffer = some (some m)

namespace AnnouncementSignaturesMessage
variable {m : AnnouncementSignaturesMessage}

def wire (m : AnnouncementSignaturesMessage) : Bytes :=
  beBytes 4 m.channel_id ++ (beBytes 1 m.short_channel_id ++ (m.node_signature ++ m.bitcoin_signature))

private theorem serialize_wire (h : GossipShaped (.announcementSignatures m)) :
    ∃ c, m.serialize = some c ∧ c.buffer = beBytes 2 259 ++ m.wire ∧
      Tiles 0 c.extents c.buffer.length := by
  obtain ⟨hid,hshort,hnode,hbitcoin⟩ := h
  have hwrites : WritesAt 0 _ (beBytes 2 259 ++ m.wire) :=
    (writesAt_uint 2 0 (show 259 < 256 ^ 2 by decide)).seq <|
    (writesAt_uint 4 2 (show m.channel_id < 256 ^ 4 from hid)).seq <|
    (writesAt_uint 1 6 (show m.short_channel_id < 256 ^ 1 from hshort)).seq <|
    (writesAt_bytes m.node_signature 7).seq <|
    show WritesAt (7 + m.node_signature.length) _ _ by
      rw [hnode]
      exact writesAt_bytes m.bitcoin_signature 15
  obtain ⟨c,hc,hbuffer,htiles⟩ :=
    serialized_of_writesAt hwrites (show 23 = _ by simp [wire, hnode, hbitcoin])
  exact ⟨c,hc,hbuffer,by rw [hbuffer]; exact htiles⟩

private theorem deserialize_wire (h : GossipShaped (.announcementSignatures m)) :
    deserialize m.wire = some m := by
  obtain ⟨hid,hshort,hnode,hbitcoin⟩ := h
  have hfirst : readUInt32BE m.wire 0 = some m.channel_id := readUIntBE_append 4 [] _ hid
  have hsecond : readUInt8 m.wire 4 = some m.short_channel_id := by
    simpa [wire] using readUIntBE_append 1 (beBytes 4 m.channel_id) _ hshort
  have hthird : slice m.wire 5 13 = m.node_signature := by
    simpa [wire, hnode] using
      slice_append (beBytes 4 m.channel_id ++ beBytes 1 m.short_channel_id) m.node_signature _
  have hfourth : slice m.wire 13 21 = m.bitcoin_signature := by
    simpa [wire, hnode, hbitcoin] using slice_append
      (beBytes 4 m.channel_id ++ beBytes 1 m.short_channel_id ++ m.node_signature)
      m.bitcoin_signature []
  simp only [deserialize, hfirst, hsecond, hthird, hfourth, Option.bind_eq_bind, Option.bind_some]

end AnnouncementSignaturesMessage

/-- A number reaches `writeBytes`, whatever the fields hold. -/
theorem ChannelAnnouncement.serialize_throws (m : ChannelAnnouncement) : m.serialize = none := by
  have hstop (w : CellWriter UInt8 Unit) :
      (do BufferWriter.writeBytes (.number m.short_channel_id); w) = failure := rfl
  simp only [serialize, hstop, CellWriter.bind_failure]
  rfl

/-- A slice from offset 64 to 32 is empty, so the decoded chain hash always is. -/
theorem ChannelUpdate.deserialize_chain_hash {payload : Bytes} {m : ChannelUpdate}
    (h : deserialize payload = some m) : m.chain_hash = [] := by
  obtain ⟨⟨n,r⟩,hread,rfl⟩ := Option.map_eq_some_iff.mp h
  simp only [read, run_bind_some] at hread
  obtain ⟨_,_,hsignature,chain_hash,_,hchain,_,_,_,_,_,_,_,_,_,_,_,_,_,_,_,_,_,_,_,_,_,hpure⟩ := hread
  cases hpure
  obtain ⟨_,rfl⟩ := BufferReader.run_readBytes hsignature
  obtain ⟨he,_⟩ := BufferReader.run_readBytes hchain
  exact he.trans (slice_of_le _ (by simp))

/-- The factory reads the type back and hands the rest to the codec of that type. -/
theorem deserialize_typed {n : Nat} (h : n < 65536) (payload : Bytes) :
    readUInt16BE (beBytes 2 n ++ payload) 0 = some n ∧ (beBytes 2 n ++ payload).drop 2 = payload :=
  ⟨readUIntBE_append 2 [] payload h,List.drop_left' (beBytes_length 2 n)⟩

private theorem announcementSignatures_intact {m : AnnouncementSignaturesMessage}
    (h : GossipShaped (.announcementSignatures m)) : GossipIntact (.announcementSignatures m) := by
  obtain ⟨c,hc,hbuffer,htiles⟩ := m.serialize_wire h
  obtain ⟨htype,hpayload⟩ := deserialize_typed (n := 259) (by decide) m.wire
  refine ⟨c,hc,htiles.last_le,htiles,?_⟩
  rw [Message.deserialize, hbuffer, htype, hpayload]
  simp only [Option.bind_eq_bind, Option.bind_some, AnnouncementSignaturesMessage.deserialize_wire h,
    Option.map_some]

private theorem channelAnnouncement_not_intact (m : ChannelAnnouncement) :
    ¬ GossipIntact (.channelAnnouncement m) := by
  rintro ⟨c,hc,_⟩
  rw [Message.serialize, m.serialize_throws] at hc
  cases hc

private theorem deserialize_channelUpdate {b : Bytes} {m : ChannelUpdate}
    (h : Message.deserialize b = some (some (.channelUpdate m))) :
    ChannelUpdate.deserialize (b.drop 2) = some m := by
  obtain ⟨type,_,hmatch⟩ := Option.bind_eq_some_iff.mp h
  dsimp only at hmatch
  split at hmatch <;> simp_all [Option.map_eq_some_iff]

/-- Whatever bytes it is read from, a decoded update has lost a non-empty chain hash. -/
theorem channelUpdate_not_intact {m : ChannelUpdate} (h : m.chain_hash ≠ []) :
    ¬ GossipIntact (.channelUpdate m) := by
  rintro ⟨c,_,_,_,hback⟩
  exact h (ChannelUpdate.deserialize_chain_hash (deserialize_channelUpdate hback))

/-- Of the well-shaped gossip messages exactly the announcement signatures, the
only ones with an offset codec, survive a round trip. -/
theorem gossip_round_trip_iff (m : Message) (h : GossipShaped m) :
    GossipIntact m ↔ m.type = 259 := by
  cases m with
  | announcementSignatures m => exact ⟨fun _ => rfl,fun _ => announcementSignatures_intact h⟩
  | channelAnnouncement m =>
    exact ⟨fun hi => absurd hi (channelAnnouncement_not_intact m),nofun⟩
  | channelUpdate m =>
    have hne : m.chain_hash ≠ [] := List.ne_nil_of_length_pos (by have := h.2.1; omega)
    exact ⟨fun hi => absurd hi (channelUpdate_not_intact hne),nofun⟩
  | init m | error m | ping m | pong m => exact h.elim

/-- An exchange of signatures that comes back unchanged. -/
theorem gossip_round_trip_signatures :
    GossipIntact (.announcementSignatures {
      channel_id := 305419896, short_channel_id := 7
      node_signature := List.replicate 8 1, bitcoin_signature := List.replicate 8 2 }) :=
  (gossip_round_trip_iff _ (by exact ⟨by decide,by decide,rfl,rfl⟩)).mpr rfl

/-- A well-shaped update whose chain hash is lost, and a well-shaped announcement
that cannot be serialized at all. -/
theorem gossip_round_trip_fails :
    let update : Message := .channelUpdate {
      signature := zeros 64, chain_hash := List.replicate 32 1, short_channel_id := 1
      timestamp := 1, flags := 0, cltv_expiry_delta := 144, htlc_expiry_delta := none
      htlc_minimum_msat := zeros 8, fee_base_msat := 1000, fee_proportional_millionths := 1 }
    let announcement : Message := .channelAnnouncement {
      node_signature_1 := zeros 64, node_signature_2 := zeros 64
      bitcoin_signature_1 := zeros 64, bitcoin_signature_2 := zeros 64
      features := [], chain_hash := zeros 4, short_channel_id := 1
      node_id_1 := zeros 33, node_id_2 := zeros 33
      bitcoin_key_1 := zeros 33, bitcoin_key_2 := zeros 33 }
    (GossipShaped update ∧ ¬ GossipIntact update) ∧
      GossipShaped announcement ∧ ¬ GossipIntact announcement := by
  intro update announcement
  refine ⟨⟨?_,channelUpdate_not_intact (by decide)⟩,?_,channelAnnouncement_not_intact _⟩
  · exact ⟨rfl,rfl,rfl,by decide,by decide,by decide,by decide,by decide,by decide⟩
  · exact ⟨by decide,by decide,by decide,by decide,by decide⟩

end CryptoPlaypen.Lightning
