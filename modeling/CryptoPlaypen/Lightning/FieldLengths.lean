import CryptoPlaypen.Lightning.GossipRoundTrip

/-! The lengths of the byte fields of a decoded message, for payloads that end anywhere. -/
namespace CryptoPlaypen.Lightning
open Buffer

namespace BufferReader
variable {α β : Type} {m : StateT BufferReader Option α} {r : BufferReader} {j k : Nat}

def skip (r : BufferReader) (k : Nat) : BufferReader := { r with position := r.position + k }

private theorem skip_skip (r : BufferReader) (j k : Nat) : (r.skip j).skip k = r.skip (j + k) := by
  simp [skip, Nat.add_assoc]

/-- On this reader the read moves past `k` bytes, or throws if fewer are left. -/
structure Takes (m : StateT BufferReader Option α) (r : BufferReader) (k : Nat) : Prop where
  enough : r.position + k ≤ r.buffer.length → ∃ a, m.run r = some (a,r.skip k)
  short : r.buffer.length < r.position + k → m.run r = none

theorem Takes.bind {f : α → StateT BufferReader Option β} (hm : Takes m r j)
    (hf : ∀ a, m.run r = some (a,r.skip j) → Takes (f a) (r.skip j) k) : Takes (m >>= f) r (j + k) := by
  constructor
  · intro h
    obtain ⟨a,ha⟩ := hm.enough (by omega)
    obtain ⟨b,hb⟩ := (hf a ha).enough (by simp only [skip]; omega)
    exact ⟨b,run_bind_some.mpr ⟨a,_,ha,by rw [hb, skip_skip]⟩⟩
  · intro h
    by_cases hfirst : r.buffer.length < r.position + j
    · rw [StateT.run_bind, hm.short hfirst]
      rfl
    · obtain ⟨a,ha⟩ := hm.enough (by omega)
      rw [StateT.run_bind, ha]
      exact (hf a ha).short (by simp only [skip]; omega)

theorem Takes.map (g : α → β) (hm : Takes m r k) : Takes (do let a ← m; pure (g a)) r k := by
  constructor
  · intro h
    obtain ⟨a,ha⟩ := hm.enough h
    exact ⟨g a,run_bind_some.mpr ⟨a,_,ha,rfl⟩⟩
  · intro h
    rw [StateT.run_bind, hm.short h]
    rfl

private theorem takes_uint (w : Nat) (r : BufferReader) : Takes (readStandard (readUIntBE w) w) r w where
  enough h := ⟨_,run_readStandard (if_pos h)⟩
  short h := run_readStandard_eof (if_neg (Nat.not_le.mpr h))

private theorem takes_bytes (len : Nat) (r : BufferReader) : Takes (readBytes len) r len where
  enough h := ⟨_,run_readBytes_of_le h⟩
  short h := run_readBytes_eof (Nat.not_le.mpr h)

end BufferReader

def typeMap : List Nat := [16,17,18,19,256,258,259]

/-- The byte fields of a message have the sizes its codec declares, and those with a prefix
the length it announces. -/
def FullFields (payload : Bytes) : Message → Prop
  | .init _ => True
  | .error m => readUInt16BE payload 4 = some m.data.length
  | .ping m => readUInt16BE payload 2 = some m.ignored.length
  | .pong m => readUInt16BE payload 0 = some m.ignored.length
  | .channelAnnouncement m =>
    (∀ s ∈ [m.node_signature_1,m.node_signature_2,m.bitcoin_signature_1,m.bitcoin_signature_2],
      s.length = 64) ∧ readUInt16BE payload 256 = some m.features.length ∧ m.chain_hash.length = 4 ∧
    ∀ k ∈ [m.node_id_1,m.node_id_2,m.bitcoin_key_1,m.bitcoin_key_2], k.length = 33
  | .channelUpdate m =>
    m.signature.length = 64 ∧ m.chain_hash.length = 32 ∧ m.htlc_minimum_msat.length = 8
  | .announcementSignatures m => m.node_signature.length = 8 ∧ m.bitcoin_signature.length = 8

def Complete (type : Nat) (payload : Bytes) : Prop :=
  ∀ m, Message.deserialize (beBytes 2 type ++ payload) = some (some m) → FullFields payload m

/-- The payloads of a type whose fields are full or which are refused: for gossip that is read
by position the refused ones only. -/
def FullPayload (payload : Bytes) : Nat → Prop
  | 18 => ∀ n, readUInt16BE payload 2 = some n → payload.length = 4 + n
  | 19 => ∀ n, readUInt16BE payload 0 = some n → n = 0 ∨ payload.length < 2 + n
  | 256 => ∀ n, readUInt16BE payload 256 = some n → payload.length < 395 + n
  | 258 => payload.length < 121
  | 259 => payload.length < 5 ∨ 21 ≤ payload.length
  | _ => True

section Types
variable {payload : Bytes}

private theorem complete_iff_of_decoder {α : Type} {type : Nat} (decode : Bytes → Option α) (wrap : α → Message)
    (h : Message.deserialize (beBytes 2 type ++ payload) = (decode payload).map fun m => some (wrap m)) :
    Complete type payload ↔ ∀ m, decode payload = some m → FullFields payload (wrap m) := by
  rw [Complete, h]
  constructor
  · exact fun hall m hm => hall (wrap m) (by rw [hm]; rfl)
  · intro hall m hm
    obtain ⟨a,ha,he⟩ := Option.map_eq_some_iff.mp hm
    cases he
    exact hall a ha

private theorem length_of_readUIntBE {w n offset : Nat} {b : Bytes} (h : readUIntBE w b offset = some n) :
    offset + w ≤ b.length := by
  by_contra hshort
  rw [readUIntBE, if_neg hshort] at h
  cases h

private theorem complete_init : Complete 16 payload := by
  obtain ⟨htype,hpayload⟩ := deserialize_typed (n := 16) (by decide) payload
  refine (complete_iff_of_decoder InitMessage.deserialize .init ?_).mpr fun _ _ => trivial
  rw [Message.deserialize, htype, hpayload]
  rfl

/-- The constructor throws before anything is read. -/
theorem complete_error : Complete 17 payload := by
  obtain ⟨htype,hpayload⟩ := deserialize_typed (n := 17) (by decide) payload
  refine (complete_iff_of_decoder ErrorMessage.deserialize .error ?_).mpr fun _ h => nomatch h
  rw [Message.deserialize, htype, hpayload]
  rfl

private theorem complete_ping_iff : Complete 18 payload ↔ FullPayload payload 18 := by
  obtain ⟨htype,hpayload⟩ := deserialize_typed (n := 18) (by decide) payload
  rw [complete_iff_of_decoder PingMessage.deserialize .ping
    (by rw [Message.deserialize, htype, hpayload]; rfl)]
  cases hlen : readUInt16BE payload 2 with
  | none => simp [PingMessage.deserialize, FullPayload, hlen]
  | some n =>
    have hroom := length_of_readUIntBE hlen
    have hfirst : readUInt16BE payload 0 = some (beValue ((payload.drop 0).take 2)) := if_pos (by omega)
    simp only [PingMessage.deserialize, FullPayload, FullFields, hlen, hfirst, Option.bind_eq_bind,
      Option.bind_some, Option.some.injEq, forall_eq', List.length_drop]
    omega

private theorem complete_pong_iff : Complete 19 payload ↔ FullPayload payload 19 := by
  obtain ⟨htype,hpayload⟩ := deserialize_typed (n := 19) (by decide) payload
  rw [complete_iff_of_decoder PongMessage.deserialize .pong
    (by rw [Message.deserialize, htype, hpayload]; rfl)]
  cases hlen : readUInt16BE payload 0 with
  | none =>
    have hnone : BufferReader.readUInt16BE.run ⟨payload,0⟩ = none :=
      BufferReader.run_readStandard_eof hlen
    simp [PongMessage.deserialize, FullPayload, hlen, hnone]
  | some n =>
    have hsome : BufferReader.readUInt16BE.run ⟨payload,0⟩ = some (n,⟨payload,2⟩) :=
      BufferReader.run_readStandard hlen
    by_cases hroom : 2 + n ≤ payload.length
    · have hbytes : (BufferReader.readBytes n).run ⟨payload,2⟩ = some (slice payload 2 n,⟨payload,2 + n⟩) :=
        BufferReader.run_readBytes_of_le hroom
      have hslice : (slice payload 2 n).length = n - 2 := by
        simp only [slice, List.length_drop, List.length_take]
        omega
      simp only [PongMessage.deserialize, FullPayload, FullFields, hlen, StateT.run_bind, hsome, hbytes,
        Option.bind_eq_bind, Option.bind_some, Option.some.injEq, forall_eq', hslice]
      omega
    · have hbytes : (BufferReader.readBytes n).run ⟨payload,2⟩ = none :=
        BufferReader.run_readBytes_eof hroom
      simp only [PongMessage.deserialize, FullPayload, hlen, StateT.run_bind, hsome, hbytes,
        Option.bind_eq_bind, Option.bind_some, Option.bind_none, Option.some.injEq, forall_eq',
        reduceCtorEq, false_implies, implies_true, true_iff]
      omega

theorem ChannelAnnouncement.takes_read {n : Nat} (h : readUInt16BE payload 256 = some n) :
    BufferReader.Takes read ⟨payload,0⟩ (395 + n) := by
  have hsize : 395 + n = 64 + (64 + (64 + (64 + (2 + (n + (4 + (1 + (33 + (33 + (33 + 33)))))))))) := by
    omega
  rw [hsize, read]
  refine (BufferReader.takes_bytes 64 _).bind fun _ _ => (BufferReader.takes_bytes 64 _).bind fun _ _ =>
    (BufferReader.takes_bytes 64 _).bind fun _ _ => (BufferReader.takes_bytes 64 _).bind fun _ _ =>
    (BufferReader.takes_uint 2 _).bind fun len hlen => ?_
  -- the prefix is read behind four signatures
  obtain rfl : len = n := by
    have hprefix := (BufferReader.run_readStandard h).symm.trans hlen
    exact (Prod.mk.inj (Option.some.inj hprefix)).1.symm
  exact (BufferReader.takes_bytes len _).bind fun _ _ => (BufferReader.takes_bytes 4 _).bind fun _ _ =>
    (BufferReader.takes_uint 1 _).bind fun _ _ => (BufferReader.takes_bytes 33 _).bind fun _ _ =>
    (BufferReader.takes_bytes 33 _).bind fun _ _ => (BufferReader.takes_bytes 33 _).bind fun _ _ =>
    (BufferReader.takes_bytes 33 _).map _

/-- A decoded announcement has lost its second signature, whatever its features. -/
theorem ChannelAnnouncement.deserialize_some {m : ChannelAnnouncement} (h : deserialize payload = some m) :
    m.node_signature_2 = [] ∧ ∃ n, readUInt16BE payload 256 = some n := by
  obtain ⟨⟨_,r⟩,hread,rfl⟩ := Option.map_eq_some_iff.mp h
  simp only [read, run_bind_some] at hread
  obtain ⟨_,_,hfirst,node_signature_2,_,hsecond,_,_,hthird,_,_,hfourth,n,_,hlen,_,_,_,_,_,_,_,_,_,_,_,_,_,_,_,
    _,_,_,_,_,_,hpure⟩ := hread
  cases hpure
  obtain ⟨_,rfl⟩ := BufferReader.run_readBytes hfirst
  obtain ⟨he,rfl⟩ := BufferReader.run_readBytes hsecond
  obtain ⟨_,rfl⟩ := BufferReader.run_readBytes hthird
  obtain ⟨_,rfl⟩ := BufferReader.run_readBytes hfourth
  refine ⟨he.trans (slice_of_le _ (by simp)),n,?_⟩
  obtain ⟨_,hv,heq⟩ := Option.map_eq_some_iff.mp hlen
  cases heq
  exact hv

private theorem complete_channelAnnouncement_iff : Complete 256 payload ↔ FullPayload payload 256 := by
  obtain ⟨htype,hpayload⟩ := deserialize_typed (n := 256) (by decide) payload
  rw [complete_iff_of_decoder ChannelAnnouncement.deserialize .channelAnnouncement
    (by rw [Message.deserialize, htype, hpayload]; rfl)]
  constructor
  · intro hall n hn
    by_contra hlong
    obtain ⟨m,hread⟩ := (ChannelAnnouncement.takes_read hn).enough (by simp; omega)
    have hm : ChannelAnnouncement.deserialize payload = some m := congrArg (Option.map Prod.fst) hread
    have hsecond := (hall m hm).1 m.node_signature_2 (by simp)
    rw [(ChannelAnnouncement.deserialize_some hm).1] at hsecond
    cases hsecond
  · intro hshort m hm
    obtain ⟨n,hn⟩ := (ChannelAnnouncement.deserialize_some hm).2
    have hthrows := (ChannelAnnouncement.takes_read hn).short (by simpa using hshort n hn)
    rw [ChannelAnnouncement.deserialize, hthrows] at hm
    cases hm

theorem ChannelUpdate.takes_read : BufferReader.Takes read ⟨payload,0⟩ 121 := by
  change BufferReader.Takes read ⟨payload,0⟩ (64 + (32 + (1 + (4 + (2 + (2 + (8 + (4 + 4))))))))
  exact (BufferReader.takes_bytes 64 _).bind fun _ _ => (BufferReader.takes_bytes 32 _).bind fun _ _ =>
    (BufferReader.takes_uint 1 _).bind fun _ _ => (BufferReader.takes_uint 4 _).bind fun _ _ =>
    (BufferReader.takes_uint 2 _).bind fun _ _ => (BufferReader.takes_uint 2 _).bind fun _ _ =>
    (BufferReader.takes_bytes 8 _).bind fun _ _ => (BufferReader.takes_uint 4 _).bind fun _ _ =>
    (BufferReader.takes_uint 4 _).map _

private theorem complete_channelUpdate_iff : Complete 258 payload ↔ FullPayload payload 258 := by
  obtain ⟨htype,hpayload⟩ := deserialize_typed (n := 258) (by decide) payload
  rw [complete_iff_of_decoder ChannelUpdate.deserialize .channelUpdate
    (by rw [Message.deserialize, htype, hpayload]; rfl)]
  constructor
  · intro hall
    by_contra hlong
    obtain ⟨m,hread⟩ := ChannelUpdate.takes_read.enough (by simpa [FullPayload] using hlong)
    have hm : ChannelUpdate.deserialize payload = some m := congrArg (Option.map Prod.fst) hread
    have hchain := (hall m hm).2.1
    rw [ChannelUpdate.deserialize_chain_hash hm] at hchain
    cases hchain
  · intro hshort m hm
    have hthrows := ChannelUpdate.takes_read.short (by rw [Nat.zero_add]; exact hshort)
    rw [ChannelUpdate.deserialize, hthrows] at hm
    cases hm

private theorem complete_announcementSignatures_iff : Complete 259 payload ↔ FullPayload payload 259 := by
  obtain ⟨htype,hpayload⟩ := deserialize_typed (n := 259) (by decide) payload
  rw [complete_iff_of_decoder AnnouncementSignaturesMessage.deserialize .announcementSignatures
    (by rw [Message.deserialize, htype, hpayload]; rfl)]
  have hnode : (slice payload 5 13).length = min 13 payload.length - 5 := by simp [slice]
  have hbitcoin : (slice payload 13 21).length = min 21 payload.length - 13 := by simp [slice]
  by_cases hshort : payload.length < 5
  · refine iff_of_true (fun m hm => ?_) (.inl hshort)
    have hnone : readUInt8 payload 4 = none := if_neg (by omega)
    simp [AnnouncementSignaturesMessage.deserialize, hnone] at hm
  · have hid : readUInt32BE payload 0 = some (beValue ((payload.drop 0).take 4)) := if_pos (by omega)
    have hchannel : readUInt8 payload 4 = some (beValue ((payload.drop 4).take 1)) := if_pos (by omega)
    simp only [AnnouncementSignaturesMessage.deserialize, FullPayload, FullFields, hid, hchannel,
      Option.bind_eq_bind, Option.bind_some, Option.some.injEq, forall_eq', hnode, hbitcoin]
    omega

end Types

/-- The fields that come back are full exactly for the payloads with the announced lengths, and
for those that are refused. -/
theorem complete_iff {type : Nat} (h : type ∈ typeMap) (payload : Bytes) :
    Complete type payload ↔ FullPayload payload type := by
  simp only [typeMap, List.mem_cons, List.not_mem_nil, or_false] at h
  rcases h with rfl | rfl | rfl | rfl | rfl | rfl | rfl
  · exact iff_of_true complete_init trivial
  · exact iff_of_true complete_error trivial
  · exact complete_ping_iff
  · exact complete_pong_iff
  · exact complete_channelAnnouncement_iff
  · exact complete_channelUpdate_iff
  · exact complete_announcementSignatures_iff

/-- A ping that brings the one byte it announces. -/
theorem complete_ping_one : Complete 18 [0,8,0,1,7] :=
  (complete_iff (by decide) _).mpr fun n hn => by
    obtain rfl : 1 = n := Option.some.inj hn
    rfl

/-- Signatures cut short after one byte come back with that byte, a ping with more than it
announces comes back with all of it, and the second signature of an announcement is empty. -/
theorem complete_fails : ¬ Complete 259 [0,0,0,1,2,9] ∧ ¬ Complete 18 [0,8,0,0,7] ∧
    ¬ Complete 256 (zeros 395) := by
  refine ⟨fun h => ?_,fun h => ?_,fun h => ?_⟩
  · rcases complete_announcementSignatures_iff.mp h with hlen | hlen
    · exact absurd hlen (by decide)
    · exact absurd hlen (by decide)
  · exact absurd (complete_ping_iff.mp h 0 rfl) (by decide)
  · exact absurd (complete_channelAnnouncement_iff.mp h 0 (by decide +kernel)) (by simp)

end CryptoPlaypen.Lightning
