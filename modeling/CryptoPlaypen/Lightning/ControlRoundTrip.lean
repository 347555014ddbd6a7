import CryptoPlaypen.Lightning.GossipRoundTrip

/-! Control messages through `serialize` and the factory, and which of them come
back: each codec pair is inverse on a part of its messages only. -/
namespace CryptoPlaypen.Lightning
open Buffer

/-- The control messages, with the field values a peer may give them. -/
def ControlShaped : Message → Prop
  | .init m => m.globalFeatures < 2 ^ 16 ∧ m.localFeatures < 2 ^ 16
  | .error m => m.channel_id < 2 ^ 32
  | .ping m => m.byteslen = m.ignored.length
  | .pong m => m.ignored.length ≤ 65531
  | _ => False

def ControlIntact (m : Message) : Prop :=
  ∃ c, m.serialize = some c ∧ Message.deserialize c.buffer = some (some m)

def ControlPreserved : Message → Prop
  | .init m => m.globalFeatures = m.localFeatures
  | .ping m => m.num_pong_bytes < 2 ^ 16 ∧ m.ignored.length < 2 ^ 16
  | .pong m => m.ignored = []
  | _ => False

private theorem beBytes_one (b : UInt8) : beBytes 1 b.toNat = [b] := by simp [beBytes, leBytes]

private theorem putUIntBE_range {w val offset : Nat} {c d : Cursor UInt8}
    (h : (putUIntBE w val offset).run c = some ((), d)) : val < 256 ^ w := by
  by_contra hlarge
  change (writeUIntBE w val c.buffer offset).map _ = _ at h
  rw [writeUIntBE_overflow w _ _ (by omega)] at h
  cases h

namespace InitMessage

/-- The local features replace the global ones, and two bytes stay zero. -/
theorem serialize_eq (m : InitMessage) (hg : m.globalFeatures < 2 ^ 16)
    (hl : m.localFeatures < 2 ^ 16) :
    ∃ c, m.serialize = some c ∧
      c.buffer = beBytes 2 16 ++ (beBytes 2 m.localFeatures ++ zeros 2) := by
  obtain ⟨first,_,hfirst⟩ :=
    writesAt_uint 2 0 (show 16 < 256 ^ 2 by decide) [] (zeros 6) 0 [] rfl (by simp)
  obtain ⟨second,_,hsecond⟩ :=
    writesAt_uint 2 2 hg (beBytes 2 16) (zeros 4) 0 ([] ++ first) rfl (by simp)
  obtain ⟨third,_,hthird⟩ := writesAt_uint 2 2 hl (beBytes 2 16)
    (beBytes 2 m.globalFeatures ++ zeros 2) 0 ([] ++ first ++ second) rfl (by simp)
  have hrun : (do
      putUIntBE 2 16 0
      putUIntBE 2 m.globalFeatures 2
      putUIntBE 2 m.localFeatures 2 : CellWriter UInt8 Unit).run ⟨zeros 6, 0, []⟩ =
        some ((), ⟨beBytes 2 16 ++ (beBytes 2 m.localFeatures ++ zeros 2), 0, _⟩) :=
    run_bind_some.mpr ⟨_,_,hfirst,run_bind_some.mpr ⟨_,_,hsecond,hthird⟩⟩
  exact ⟨_,congrArg (Option.map Prod.snd) hrun,rfl⟩

end InitMessage

namespace PingMessage
variable {m : PingMessage}

def wire (m : PingMessage) : Bytes :=
  beBytes 2 m.num_pong_bytes ++ (beBytes 2 m.byteslen ++ m.ignored)

theorem serialize_wire (hn : m.num_pong_bytes < 2 ^ 16) (hl : m.ignored.length < 2 ^ 16)
    (hm : m.byteslen = m.ignored.length) :
    ∃ c, m.serialize = some c ∧ c.buffer = beBytes 2 18 ++ m.wire := by
  have hbody (b : UInt8) (i : Nat) : WritesAt (6 + i) (putUIntBE 1 b.toNat (6 + i)) [b] :=
    beBytes_one b ▸ writesAt_uint 1 (6 + i) b.toNat_lt
  have hloop := WritesAt.loop m.ignored _ id 6 0 hbody
  rw [List.map_id] at hloop
  have hwrites : WritesAt 0 _ (beBytes 2 18 ++ m.wire) :=
    (writesAt_uint 2 0 (show 18 < 256 ^ 2 by decide)).seq <|
    (writesAt_uint 2 2 hn).seq <| (writesAt_uint 2 4 (hm ▸ hl)).seq hloop
  obtain ⟨c,hc,hbuffer,_⟩ :=
    serialized_of_writesAt hwrites (show 2 + 2 + 2 + m.byteslen = _ by simp [wire, hm]; omega)
  exact ⟨c,hc,hbuffer⟩

private theorem deserialize_wire (hn : m.num_pong_bytes < 2 ^ 16) (hl : m.byteslen < 2 ^ 16) :
    deserialize m.wire = some m := by
  have hfirst : readUInt16BE m.wire 0 = some m.num_pong_bytes := readUIntBE_append 2 [] _ hn
  have hsecond : readUInt16BE m.wire 2 = some m.byteslen := by
    simpa [wire] using readUIntBE_append 2 (beBytes 2 m.num_pong_bytes) _ hl
  have hthird : m.wire.drop 4 = m.ignored := by
    rw [wire, ← List.append_assoc]
    exact List.drop_left' (by simp)
  simp only [deserialize, hfirst, hsecond, hthird, Option.bind_eq_bind, Option.bind_some]

/-- Values beyond 16 bits make a write throw. -/
theorem range_of_serialize {c : Cursor UInt8} (h : m.serialize = some c) :
    m.num_pong_bytes < 2 ^ 16 ∧ m.byteslen < 2 ^ 16 := by
  obtain ⟨⟨_,d⟩,hrun,_⟩ := Option.map_eq_some_iff.mp h
  simp only [run_bind_some] at hrun
  obtain ⟨_,_,_,_,_,hn,_,_,hl,_⟩ := hrun
  exact ⟨putUIntBE_range hn,putUIntBE_range hl⟩

end PingMessage

namespace PongMessage
open BufferReader BufferWriter
variable {m : PongMessage}

theorem serialize_wire (h : m.ignored.length < 2 ^ 16) :
    ∃ c, m.serialize = some c ∧
      c.buffer = beBytes 2 19 ++ (beBytes 2 m.ignored.length ++ m.ignored) := by
  have hwrites : Writes _ (beBytes 2 19 ++ (beBytes 2 m.ignored.length ++ m.ignored)) :=
    (writes_uint 2 (show 19 < 256 ^ 2 by decide)).seq <| (writes_uint 2 h).seq <|
    writes_bytes m.ignored
  obtain ⟨c,hc,hbuffer,_⟩ :=
    serialized_of_writes hwrites (show 4 + m.ignored.length = _ by simp; omega)
  exact ⟨c,hc,hbuffer⟩

/-- The decoder slices from offset 2 to the length, two bytes short. -/
theorem deserialize_wire (ignored : Bytes) (h : ignored.length < 2 ^ 16) :
    deserialize (beBytes 2 ignored.length ++ ignored) =
      some { ignored := slice (beBytes 2 ignored.length ++ ignored) 2 ignored.length } := by
  have hread : Buffer.readUInt16BE (beBytes 2 ignored.length ++ ignored) 0 = some ignored.length :=
    readUIntBE_append 2 [] ignored h
  have hlen : BufferReader.readUInt16BE.run ⟨beBytes 2 ignored.length ++ ignored, 0⟩ =
      some (ignored.length, ⟨beBytes 2 ignored.length ++ ignored, 2⟩) := run_readStandard hread
  have hbytes : (readBytes ignored.length).run ⟨beBytes 2 ignored.length ++ ignored, 2⟩ = some
      (slice (beBytes 2 ignored.length ++ ignored) 2 ignored.length,
        ⟨beBytes 2 ignored.length ++ ignored, 2 + ignored.length⟩) := if_pos (by simp)
  rw [deserialize, run_bind_some.mpr ⟨_,_,hlen,hbytes⟩]
  rfl

/-- The decoded bytes are two short of the written ones, unless there are none. -/
theorem slice_wire_eq (ignored : Bytes) :
    slice (beBytes 2 ignored.length ++ ignored) 2 ignored.length = ignored ↔ ignored = [] := by
  constructor
  · intro he
    have hshort := slice_length_le (beBytes 2 ignored.length ++ ignored) 2 ignored.length
    rw [he] at hshort
    exact List.eq_nil_of_length_eq_zero (by omega)
  · rintro rfl
    exact slice_of_le _ (by simp)

end PongMessage

/-- A message survives exactly if it is the one that its own bytes decode to. -/
theorem controlIntact_iff_of_decoded {m m' : Message} {c : Cursor UInt8}
    (hc : m.serialize = some c) (hback : Message.deserialize c.buffer = some (some m')) :
    ControlIntact m ↔ m' = m := by
  constructor
  · rintro ⟨d,hd,he⟩
    cases hc.symm.trans hd
    exact Option.some.inj (Option.some.inj (hback.symm.trans he))
  · rintro rfl
    exact ⟨c,hc,hback⟩

private theorem init_intact_iff {m : InitMessage} (h : ControlShaped (.init m)) :
    ControlIntact (.init m) ↔ m.globalFeatures = m.localFeatures := by
  obtain ⟨c,hc,hbuffer⟩ := m.serialize_eq h.1 h.2
  obtain ⟨htype,hpayload⟩ := deserialize_typed (n := 16) (by decide) (beBytes 2 m.localFeatures ++ zeros 2)
  have hread : readUInt16BE (beBytes 2 m.localFeatures ++ zeros 2) 0 = some m.localFeatures :=
    readUIntBE_append 2 [] _ h.2
  have hback : Message.deserialize c.buffer =
      some (some (.init { globalFeatures := m.localFeatures, localFeatures := m.localFeatures })) := by
    simp only [Message.deserialize, hbuffer, htype, hpayload, InitMessage.deserialize, hread,
      Option.bind_eq_bind, Option.bind_some, Option.map_some]
  rw [controlIntact_iff_of_decoded (m := .init m) hc hback]
  constructor
  · intro he
    injection he with he
    exact (congrArg InitMessage.globalFeatures he).symm
  · intro he
    cases m
    cases he
    rfl

/-- The serializer reads the length of a property that is never there. -/
theorem error_not_intact (m : ErrorMessage) : ¬ ControlIntact (.error m) := by
  rintro ⟨c,hc,_⟩
  cases hc

private theorem ping_intact_iff {m : PingMessage} (h : ControlShaped (.ping m)) :
    ControlIntact (.ping m) ↔ m.num_pong_bytes < 2 ^ 16 ∧ m.ignored.length < 2 ^ 16 := by
  have hm : m.byteslen = m.ignored.length := h
  constructor
  · rintro ⟨c,hc,_⟩
    exact hm ▸ m.range_of_serialize hc
  · rintro ⟨hn,hl⟩
    obtain ⟨c,hc,hbuffer⟩ := m.serialize_wire hn hl hm
    obtain ⟨htype,hpayload⟩ := deserialize_typed (n := 18) (by decide) m.wire
    refine ⟨c,hc,?_⟩
    simp only [Message.deserialize, hbuffer, htype, hpayload, m.deserialize_wire hn (hm ▸ hl),
      Option.bind_eq_bind, Option.bind_some, Option.map_some]

private theorem pong_intact_iff {m : PongMessage} (h : ControlShaped (.pong m)) :
    ControlIntact (.pong m) ↔ m.ignored = [] := by
  have hlen : m.ignored.length < 2 ^ 16 := Nat.lt_of_le_of_lt h (by decide)
  obtain ⟨c,hc,hbuffer⟩ := m.serialize_wire hlen
  obtain ⟨htype,hpayload⟩ :=
    deserialize_typed (n := 19) (by decide) (beBytes 2 m.ignored.length ++ m.ignored)
  have hback : Message.deserialize c.buffer = some (some (.pong
      { ignored := slice (beBytes 2 m.ignored.length ++ m.ignored) 2 m.ignored.length })) := by
    simp only [Message.deserialize, hbuffer, htype, hpayload, PongMessage.deserialize_wire _ hlen,
      Option.bind_eq_bind, Option.bind_some, Option.map_some]
  rw [controlIntact_iff_of_decoded (m := .pong m) hc hback, ← PongMessage.slice_wire_eq]
  constructor
  · intro he
    injection he with he
    exact congrArg PongMessage.ignored he
  · intro he
    rw [he]

/-- A control message survives a round trip exactly on the preserved part of its
class: equal features, a ping within 16 bits, an empty pong, and no error at all. -/
theorem control_round_trip_iff (m : Message) (h : ControlShaped m) :
    ControlIntact m ↔ ControlPreserved m := by
  cases m with
  | init m => exact init_intact_iff h
  | error m => exact ⟨fun hi => error_not_intact m hi,False.elim⟩
  | ping m => exact ping_intact_iff h
  | pong m => exact pong_intact_iff h
  | channelAnnouncement m | channelUpdate m | announcementSignatures m => exact h.elim

/-- A ping with three ignored bytes comes back. -/
theorem control_round_trip_ping :
    ControlIntact (.ping { num_pong_bytes := 8, byteslen := 3, ignored := [1, 2, 3] }) :=
  (control_round_trip_iff _ (by exact rfl)).mpr (by exact ⟨by decide,by decide⟩)

/-- Features that differ, an error, and a pong of four bytes, none of which comes back. -/
theorem control_round_trip_fails :
    let init : Message := .init { globalFeatures := 1, localFeatures := 2 }
    let error : Message := .error { channel_id := 1, data := [7] }
    let pong : Message := .pong (PongMessage.createReply 4)
    (ControlShaped init ∧ ¬ ControlIntact init) ∧ (ControlShaped error ∧ ¬ ControlIntact error) ∧
      ControlShaped pong ∧ ¬ ControlIntact pong := by
  have hinit : ControlShaped (.init { globalFeatures := 1, localFeatures := 2 }) :=
    ⟨by decide,by decide⟩
  have hpong : ControlShaped (.pong (PongMessage.createReply 4)) := by
    simp [ControlShaped, PongMessage.createReply]
  refine ⟨⟨hinit,fun hi => ?_⟩,⟨show 1 < 2 ^ 32 by decide,error_not_intact _⟩,hpong,fun hi => ?_⟩
  · exact absurd ((init_intact_iff hinit).mp hi) (by decide)
  · exact absurd ((pong_intact_iff hpong).mp hi) (by decide)

end CryptoPlaypen.Lightning
