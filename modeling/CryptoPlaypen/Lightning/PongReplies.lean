import CryptoPlaypen.Lightning.NoiseAtomicity
import CryptoPlaypen.Lightning.ControlRoundTrip
import CryptoPlaypen.Lightning.PeerChunking

/-! The reply to a ping, from the number the peer asks for to the frame on the socket. -/
namespace CryptoPlaypen.Lightning
open Buffer Objects Method NoiseState

section Replies
variable {P : Primitives} {c : PeerClient} {s : NoiseState}

/-- Whatever the counter, a message that fits its prefix is sealed. -/
theorem Sending.run_encryptMessage (h : Sending s) {m : Bytes} (hm : m.length ≤ 65535) :
    ∃ frame t, (encryptMessage P m).run s = (.returned frame,t) := by
  have hmid := within_finishSendingUse (P := P) s h
  obtain ⟨⟨K,hK⟩,⟨C,hC⟩,⟨j,hj,hsn⟩,_⟩ := h
  have hfirst := run_finishSendingUse (P := P) hC hK hsn hj
  change Sending ((finishSendingUse P).run s).2 at hmid
  rw [hfirst] at hmid
  change Sending (afterSending P s C K j) at hmid
  obtain ⟨⟨K',hK'⟩,⟨C',hC'⟩,⟨k,hk,hsn'⟩,_⟩ := hmid
  have hsecond := run_finishSendingUse (P := P) hC' hK' hsn' hk
  refine ⟨ccpEncrypt P K s.sn [] (beBytes 2 m.length) ++ ccpEncrypt P K' (nonce k) [] m,
    afterSending P (afterSending P s C K j) C' K' k,?_⟩
  simp only [encryptMessage, run_bind, writeLength hm, run_attempt_some, run_self, hK, hfirst, hK', hsn',
    hsecond, run_pure]

/-- A message that serializes is sent if and only if its frame is sealed. -/
theorem run_sendMessage {m : Message} {b : Cursor UInt8} (hb : m.serialize = some b) :
    (PeerClient.sendMessage P m).run c = match (encryptMessage P b.buffer).run c.noiseState with
      | (.returned frame,t) =>
        (.returned (),{ c with noiseState := t, written := c.written ++ [frame] })
      | (.threw,t) => (.threw,{ c with noiseState := t }) := by
  simp only [PeerClient.sendMessage, run_bind, hb, run_attempt_some, PeerClient.run_onNoise]
  rcases (encryptMessage P b.buffer).run c.noiseState with ⟨_ | _,t⟩ <;> rfl

def pongBytes (n : Nat) : Bytes := beBytes 2 19 ++ (beBytes 2 n ++ zeros n)

theorem createReply_serialize {n : Nat} (hn : n < 2 ^ 16) :
    ∃ b, (PongMessage.createReply n).serialize = some b ∧ b.buffer = pongBytes n := by
  have hlength : (PongMessage.createReply n).ignored.length = n := zeros_length n
  obtain ⟨b,hb,hbuffer⟩ := PongMessage.serialize_wire (hlength.symm ▸ hn)
  rw [hlength] at hbuffer
  exact ⟨b,hb,hbuffer⟩

theorem pongBytes_length (n : Nat) : (pongBytes n).length = 4 + n := by
  simp [pongBytes]
  omega

/-- The number comes from two bytes. -/
theorem num_pong_bytes_lt {payload : Bytes} {m : PingMessage} (h : PingMessage.deserialize payload = some m) :
    m.num_pong_bytes < 2 ^ 16 := by
  simp only [PingMessage.deserialize, Option.bind_eq_bind, Option.bind_eq_some_iff] at h
  obtain ⟨n,hn,_,_,he⟩ := h
  cases he
  have hlength : ((payload.drop 0).take 2).reverse.length ≤ 2 := by simp
  rw [readUInt16BE, readUIntBE] at hn
  split at hn
  · cases hn
    exact (leValue_lt _).trans_le (Nat.pow_le_pow_right (by decide) hlength)
  · cases hn

/-- Only the ping codec makes pings. -/
theorem deserialize_ping {buffer : Bytes} {m : PingMessage}
    (h : Message.deserialize buffer = some (some (.ping m))) :
    ∃ payload, PingMessage.deserialize payload = some m := by
  simp only [Message.deserialize, Option.bind_eq_bind, Option.bind_eq_some_iff] at h
  obtain ⟨type,_,h⟩ := h
  split at h
  case h_3 =>
    obtain ⟨a,ha,he⟩ := Option.map_eq_some_iff.mp h
    cases he
    exact ⟨_,ha⟩
  case h_8 => cases h
  all_goals
    obtain ⟨a,_,he⟩ := Option.map_eq_some_iff.mp h
    cases he

end Replies

/-- Routing the ping writes one frame to the socket, and the frame seals the reply. -/
def Answered (P : Primitives) (c : PeerClient) (m : PingMessage) : Prop :=
  ∃ b frame t, (PongMessage.createReply m.num_pong_bytes).serialize = some b ∧
    b.buffer = beBytes 2 19 ++ (beBytes 2 m.num_pong_bytes ++ zeros m.num_pong_bytes) ∧
    (encryptMessage P b.buffer).run c.noiseState = (.returned frame,t) ∧
    (PeerClient.routeMessage P (some (.ping m))).run c =
      (.returned (),{ c with noiseState := t, written := c.written ++ [frame] })

private theorem answered_iff_le {P : Primitives} {c : PeerClient} (hc : Reachable P c.noiseState)
    (hsk : c.noiseState.sk ≠ none) {m : PingMessage} (hm : m.num_pong_bytes < 2 ^ 16) :
    Answered P c m ↔ m.num_pong_bytes ≤ 65531 := by
  have hsending : Sending c.noiseState :=
    ⟨Option.ne_none_iff_exists'.mp hsk,hc.sound.keyed (.inr (.inl hsk))⟩
  obtain ⟨b,hb,hbuffer⟩ := createReply_serialize hm
  have hlength : b.buffer.length = 4 + m.num_pong_bytes := by rw [hbuffer, pongBytes_length]
  constructor
  · rintro ⟨b',frame,t,hb',_,hrun,_⟩
    cases hb.symm.trans hb'
    by_contra hlarge
    rw [run_encryptMessage_overflow (by omega)] at hrun
    cases hrun
  · intro hle
    obtain ⟨frame,t,hrun⟩ := hsending.run_encryptMessage (P := P) (m := b.buffer) (by omega)
    refine ⟨b,frame,t,hb,hbuffer,hrun,?_⟩
    have hsend := run_sendMessage (P := P) (c := c) (m := .pong (PongMessage.createReply m.num_pong_bytes)) hb
    rw [hrun] at hsend
    change (Outcome.returned (),((PeerClient.sendMessage P _).run c).2) = _
    rw [hsend]

/-- After the handshake a ping is answered exactly if it asks for at most 65531 bytes. -/
theorem ping_answered_iff {P : Primitives} {c : PeerClient} (hc : Reachable P c.noiseState)
    (hsk : c.noiseState.sk ≠ none) {buffer : Bytes} {m : PingMessage}
    (hm : Message.deserialize buffer = some (some (.ping m))) :
    Answered P c m ↔ m.num_pong_bytes ≤ 65531 := by
  obtain ⟨payload,hpayload⟩ := deserialize_ping hm
  exact answered_iff_le hc hsk (num_pong_bytes_lt hpayload)

def readyClient : PeerClient :=
  { PeerClient.construct (transparentKey 1) (transparentKey 4) (transparentKey 7) with
    noiseState := transparentReady, completedAct := 3 }

/-- A ping that asks for eight bytes and brings three. -/
theorem ping_answered_eight :
    Answered transparent readyClient { num_pong_bytes := 8, byteslen := 3, ignored := [1,2,3] } :=
  (ping_answered_iff transparentReady_reachable (by decide)
    (show Message.deserialize [0,18,0,8,0,3,1,2,3] = some (some (.ping _)) from rfl)).mpr (by decide)

/-- A ping that asks for 65532 bytes is accepted, and nothing is written. -/
theorem ping_unanswered :
    Message.deserialize [0,18,255,252,0,0] =
      some (some (.ping { num_pong_bytes := 65532, byteslen := 0, ignored := [] })) ∧
    ¬ Answered transparent readyClient { num_pong_bytes := 65532, byteslen := 0, ignored := [] } := by
  refine ⟨rfl,fun h => ?_⟩
  have hle := (answered_iff_le transparentReady_reachable (by decide) (by decide)).mp h
  exact absurd hle (by decide)

end CryptoPlaypen.Lightning
