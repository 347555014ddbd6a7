import CryptoPlaypen.Lightning.PongReplies
import CryptoPlaypen.Lightning.ReceivingOrder
import CryptoPlaypen.Objects.Triples
import Mathlib.Order.Basic

/-! Whole runs of the peer client: the ping timer and the socket take turns from the
construction on, whatever the peer sends. Everything the client writes is found in closed form,
and every pong answers a ping of its own among the bytes that the socket brought. -/
namespace CryptoPlaypen.Lightning
open Buffer Objects Method NoiseState

inductive PeerEvent where
  | ping : PeerEvent
  | data : Bytes → PeerEvent
  deriving DecidableEq, Repr

def PeerEvent.bytes : PeerEvent → Bytes
  | .ping => []
  | .data d => d

namespace PeerClient
variable (P : Primitives)

/-- The timer's handler only logs what `sendMessage` throws. -/
def ping (c : PeerClient) : PeerClient :=
  ((sendMessage P (.ping { PingMessage.construct with num_pong_bytes := 8 })).run c).2

def handle (c : PeerClient) : PeerEvent → PeerClient
  | .ping => ping P c
  | .data d => onData P c d

end PeerClient

def initBytes : Bytes := beBytes 2 16 ++ zeros 4

def pingBytes : Bytes := beBytes 2 18 ++ (beBytes 2 8 ++ zeros 2)

/-- A position of the receiving key schedule, and an offset into the bytes that the socket brought. -/
abbrev Place := Nat × Nat

/-- The body of an answered ping, and the place where it was opened. -/
structure Asked where
  place : Place
  body : Bytes

def Asked.after (a : Asked) : Place := (a.place.1 + 1, a.place.2 + a.body.length)

def Asked.Lies (heard : Bytes) (a : Asked) : Prop :=
  ∃ front rest, heard = front ++ (a.body ++ rest) ∧ front.length = a.place.2

/-- What an event after the handshake makes the client send, and the ping that asks for it. The bytes
are those of all events so far. -/
inductive Answers (P : Primitives) (rkey : Nat → Bytes) (heard : Bytes) :
    PeerEvent → List Bytes → List Asked → Prop where
  | ping : Answers P rkey heard .ping [pingBytes] []
  | silent (d : Bytes) : Answers P rkey heard (.data d) [] []
  | pong (d : Bytes) {a : Asked} {m : Bytes} {p : PingMessage} : a.Lies heard →
      OpensAt P rkey a.place.1 a.body m → Message.deserialize m = some (some (.ping p)) →
      p.num_pong_bytes ≤ 65531 → Answers P rkey heard (.data d) [pongBytes p.num_pong_bytes] [a]

/-- The answers to the events of a run, on a socket that has brought some bytes before. -/
inductive Log (P : Primitives) (rkey : Nat → Bytes) :
    Bytes → List PeerEvent → List (List Bytes × List Asked) → Prop where
  | nil {heard : Bytes} : Log P rkey heard [] []
  | cons {heard : Bytes} {e : PeerEvent} {events : List PeerEvent} {r : List Bytes × List Asked}
      {log : List (List Bytes × List Asked)} : Answers P rkey (heard ++ e.bytes) e r.1 r.2 →
      Log P rkey (heard ++ e.bytes) events log → Log P rkey heard (e :: events) (r :: log)

/-- Message number `i` under its key, whose turn comes every 500 messages. -/
def sealedFrame (P : Primitives) (key : Nat → Bytes) (i : Nat) (m : Bytes) : Bytes :=
  sealedLength P (key (i / 500)) (2 * (i % 500)) m ++ sealedBody P (key (i / 500)) (2 * (i % 500)) m

def Ready (K : Bytes) (k : Nat) (s : NoiseState) : Prop :=
  s.sk = some K ∧ s.sn = nonce k ∧ ∃ C, s.ck = some C

structure Sealed (P : Primitives) (acts plain : List Bytes) (key : Nat → Bytes) (c : PeerClient) :
    Prop where
  written : c.written = acts ++ plain.mapIdx (sealedFrame P key)
  chained : Chained P key (plain.length / 500)
  ready : Ready (key (plain.length / 500)) (2 * (plain.length % 500)) c.noiseState

/-- A client of the transport that has taken the bytes up to a place, with the rest of them in its
buffer. The first sending key is `K`. -/
structure Transmits (P : Primitives) (K : Bytes) (acts plain : List Bytes) (heard : Bytes)
    (rkey : Nat → Bytes) (q : Place) (c : PeerClient) : Prop where
  act : c.completedAct = 3
  sealing : ∃ key, key 0 = K ∧ Sealed P acts plain key c
  listens : ListensAt P rkey q.1 c.noiseState
  carried : ∃ taken, heard = taken ++ c._buffer ∧ taken.length = q.2

def Unkeyed (s : NoiseState) : Prop :=
  s.sk = none ∧ s.sn = nonce 0 ∧ s.rn = nonce 0 ∧ ∃ C, s.ck = some C

/-- A client whose handshake is not complete, and which has written act one at most. -/
structure Opening (heard : Bytes) (c : PeerClient) : Prop where
  sk : c.noiseState.sk = none
  carried : ∃ taken, heard = taken ++ c._buffer
  act : c.completedAct = 0 ∧ c.written = [] ∨
    c.completedAct = 1 ∧ Unkeyed c.noiseState ∧ ∃ actOne, c.written = [actOne]

/-- Frames depend on the keys that their numbers reach. -/
theorem sealedFrames_congr {P : Primitives} {key key' : Nat → Bytes} {plain : List Bytes}
    (h : ∀ e ≤ plain.length / 500, key e = key' e) :
    plain.mapIdx (sealedFrame P key) = plain.mapIdx (sealedFrame P key') := by
  refine List.ext_getElem (by simp) fun i hi _ => ?_
  simp only [List.length_mapIdx] at hi
  simp only [List.getElem_mapIdx, sealedFrame, h _ (Nat.div_le_div_right (Nat.le_of_lt hi))]

section Sending
variable {P : Primitives} {K heard : Bytes} {acts plain : List Bytes} {key rkey : Nat → Bytes}
  {q : Place} {c : PeerClient} {m : Message} {b : Cursor UInt8}

/-- One message more is one frame more, and every five hundredth rotates the key. -/
theorem Sealed.sendMessage (h : Sealed P acts plain key c) (hb : m.serialize = some b)
    (hm : b.buffer.length ≤ 65535) :
    ∃ key', key' 0 = key 0 ∧
      Sealed P acts (plain ++ [b.buffer]) key' ((PeerClient.sendMessage P m).run c).2 := by
  obtain ⟨hsk,hsn,C,hck⟩ := h.ready
  obtain ⟨hck',hsk',_,hsn',_⟩ := afterSending_fields (P := P) c.noiseState plain.length hck hsk
  have hrun := run_sendMessage (P := P) (c := c) hb
  rw [run_encryptMessage hck hsk hsn (by omega) hm] at hrun
  rw [hrun]
  have hwritten : c.written ++ [sealedFrame P key plain.length b.buffer] =
      acts ++ (plain ++ [b.buffer]).mapIdx (sealedFrame P key) := by
    simp only [h.written, List.mapIdx_append, List.mapIdx_cons, List.mapIdx_nil, List.append_assoc,
      Nat.zero_add]
  have hcount : (plain ++ [b.buffer]).length = plain.length + 1 := List.length_append
  by_cases hlast : (plain.length + 1) % 500 = 0
  · have hnext : (plain.length + 1) / 500 = plain.length / 500 + 1 := by omega
    rw [advance_last _ hlast] at hck' hsk'
    refine ⟨extendKeys key (plain.length / 500) (rotate P (C,key (plain.length / 500))).2,
      extendKeys_le (Nat.zero_le _) _,?_,?_,?_⟩
    · refine hwritten.trans (congrArg (acts ++ ·) ?_)
      -- the last of these frames is still under the old key
      rw [List.mapIdx_append, List.mapIdx_append]
      refine congr (congrArg _ (sealedFrames_congr fun e he => (extendKeys_le he _).symm)) ?_
      simp only [List.mapIdx_cons, List.mapIdx_nil, sealedFrame, Nat.zero_add, extendKeys_le (Nat.le_refl _)]
    · rw [hcount, hnext]
      exact h.chained.rotate C
    · rw [hcount, hnext, extendKeys_next]
      exact ⟨hsk',hsn',_,hck'⟩
  · have hsame : (plain.length + 1) / 500 = plain.length / 500 := by omega
    rw [advance_mid _ hlast] at hck' hsk'
    refine ⟨key,rfl,hwritten,?_,?_⟩
    · rw [hcount, hsame]
      exact h.chained
    · rw [hcount, hsame]
      exact ⟨hsk',hsn',_,hck'⟩

theorem Transmits.sendMessage (h : Transmits P K acts plain heard rkey q c)
    (hb : m.serialize = some b) (hm : b.buffer.length ≤ 65535) :
    Transmits P K acts (plain ++ [b.buffer]) heard rkey q ((PeerClient.sendMessage P m).run c).2 := by
  obtain ⟨key,hfirst,hkey⟩ := h.sealing
  obtain ⟨written,hframe⟩ := PeerClient.sendMessage_frame (P := P) m c
  obtain ⟨key',hsame,hsent⟩ := hkey.sendMessage hb hm
  have hlisten := listening_encryptMessage (P := P) b.buffer c.noiseState h.listens.listening
  rw [hframe] at hsent ⊢
  refine ⟨h.act,⟨key',hsame.trans hfirst,hsent⟩,⟨h.listens.chained,?_⟩,h.carried⟩
  rw [afterSend, hb]
  exact hlisten

/-- What does not fit its prefix is not sent. -/
theorem sendMessage_oversize (hb : m.serialize = some b) (hm : 65535 < b.buffer.length) :
    ((PeerClient.sendMessage P m).run c).2 = c := by
  have hrun := run_sendMessage (P := P) (c := c) hb
  rw [run_encryptMessage_overflow hm] at hrun
  rw [hrun]

/-- Without a key nothing is sent. -/
theorem sendMessage_unkeyed (hb : m.serialize = some b) (hsk : c.noiseState.sk = none) :
    ((PeerClient.sendMessage P m).run c).2 = c := by
  have hrun := run_sendMessage (P := P) (c := c) hb
  rw [run_encryptMessage_unkeyed hsk] at hrun
  rw [hrun]

private theorem initMessage_serialize :
    ∃ b, (Message.init InitMessage.construct).serialize = some b ∧ b.buffer = initBytes := ⟨_,rfl,rfl⟩

private theorem pingMessage_serialize :
    ∃ b, (Message.ping { PingMessage.construct with num_pong_bytes := 8 }).serialize = some b ∧
      b.buffer = pingBytes := ⟨_,rfl,rfl⟩

end Sending

section Receiving
variable {P : Primitives} {K : Bytes} {k : Nat}

/-- Receiving moves the other counter, and a rotation replaces the chaining key by another. -/
theorem ready_finishRecievingUse : Within (Method.Keeps (Ready K k)) (finishRecievingUse P) := by
  refine Within.bind ?_ fun newValue => Within.cond ?_ (Within.pure _)
  · exact Within.self.bind fun _ => (Within.attempt _).bind fun _ => (Within.attempt _).bind fun _ =>
      (Within.assign fun _ h => by exact h).bind fun _ => Within.pure _
  · exact Within.self.bind fun _ => (Within.attempt _).bind fun _ => (Within.attempt _).bind fun _ =>
      (Within.assign fun _ h => by exact h).bind fun _ =>
      (Within.assign fun _ h => by exact ⟨h.1,h.2.1,_,rfl⟩).bind fun _ =>
      Within.assign fun _ h => by exact h

private theorem ready_decryptLength (lc : Bytes) : Within (Method.Keeps (Ready K k)) (decryptLength P lc) :=
  Within.self.bind fun _ => (Within.attempt _).bind fun _ => (Within.attempt _).bind fun _ =>
    ready_finishRecievingUse.bind fun _ => (Within.attempt _).bind fun _ => Within.attempt _

private theorem ready_decryptMessage (c : Bytes) : Within (Method.Keeps (Ready K k)) (decryptMessage P c) :=
  Within.self.bind fun _ => (Within.attempt _).bind fun _ => (Within.attempt _).bind fun _ =>
    ready_finishRecievingUse.bind fun _ => Within.pure _

variable {acts plain : List Bytes} {heard : Bytes} {rkey rkey' : Nat → Bytes} {q q' : Place}
  {c : PeerClient} {d body : Bytes}

/-- A new noise state that seals as before leaves the frames as they are. -/
theorem Transmits.received (h : Transmits P K acts plain heard rkey q c) {s : NoiseState} {p : Nat}
    (hready : ∀ {K k}, Ready K k c.noiseState → Ready K k s) (hs : ListensAt P rkey' p s) :
    Transmits P K acts plain heard rkey' (p,q.2) { c with noiseState := s } := by
  obtain ⟨key,hfirst,hkey⟩ := h.sealing
  exact ⟨h.act,⟨key,hfirst,hkey.written,hkey.chained,hready hkey.ready⟩,hs,h.carried⟩

/-- The pending length plays no part. -/
theorem Transmits.pend (h : Transmits P K acts plain heard rkey q c) (l : Option Nat) :
    Transmits P K acts plain heard rkey q { c with l := l } := by
  obtain ⟨key,hfirst,hkey⟩ := h.sealing
  exact ⟨h.act,⟨key,hfirst,hkey.written,hkey.chained,hkey.ready⟩,h.listens,h.carried⟩

theorem Transmits.hear (h : Transmits P K acts plain heard rkey q c) (d : Bytes) :
    Transmits P K acts plain (heard ++ d) rkey q { c with _buffer := c._buffer ++ d } := by
  obtain ⟨key,hfirst,hkey⟩ := h.sealing
  obtain ⟨taken,hheard,htaken⟩ := h.carried
  refine ⟨h.act,⟨key,hfirst,hkey.written,hkey.chained,hkey.ready⟩,h.listens,taken,?_,htaken⟩
  rw [hheard, List.append_assoc]

/-- A part of the buffer that is taken stands where the client was. -/
theorem Transmits.take (h : Transmits P K acts plain heard rkey q c) (n : Nat) (decrypted : List Bytes) :
    Transmits P K acts plain heard rkey (q.1,q.2 + (c._buffer.take n).length)
        { c with _buffer := c._buffer.drop n, decrypted := decrypted } ∧
      Asked.Lies heard ⟨q,c._buffer.take n⟩ := by
  obtain ⟨key,hfirst,hkey⟩ := h.sealing
  obtain ⟨taken,hheard,htaken⟩ := h.carried
  refine ⟨⟨h.act,⟨key,hfirst,hkey.written,hkey.chained,hkey.ready⟩,h.listens,
    taken ++ c._buffer.take n,?_,?_⟩,taken,c._buffer.drop n,?_,htaken⟩
  · rw [hheard, List.append_assoc, List.take_append_drop]
  · rw [List.length_append, htaken]
  · rw [hheard, List.take_append_drop]

/-- The client after an event: with the answer sent, if there was one, and further on. -/
def Replied (P : Primitives) (K : Bytes) (acts plain : List Bytes) (heard : Bytes) (rkey : Nat → Bytes)
    (q : Place) (d : Bytes) (c : PeerClient) : Prop :=
  ∃ piece asked rkey' q', SameTo q.1 rkey rkey' ∧ q ≤ q' ∧ Answers P rkey' heard (.data d) piece asked ∧
    (∀ a ∈ asked, q ≤ a.place ∧ a.after ≤ q') ∧ Transmits P K acts (plain ++ piece) heard rkey' q' c

def Opened (P : Primitives) (K : Bytes) (acts plain : List Bytes) (heard : Bytes) (rkey : Nat → Bytes)
    (q : Place) (body : Bytes) (m : Option Bytes) (c : PeerClient) : Prop :=
  ∃ rkey' q', SameTo q.1 rkey rkey' ∧ q ≤ q' ∧ Transmits P K acts plain heard rkey' q' c ∧
    ∀ b, m = some b → ∃ a : Asked, a.body = body ∧ a.Lies heard ∧ q ≤ a.place ∧ a.after ≤ q' ∧
      OpensAt P rkey' a.place.1 body b

theorem Transmits.silent (h : Transmits P K acts plain heard rkey' q' c)
    (hsame : SameTo q.1 rkey rkey') (hle : q ≤ q') : Replied P K acts plain heard rkey q d c :=
  ⟨[],[],rkey',q',hsame,hle,.silent d,nofun,(List.append_nil plain).symm ▸ h⟩

theorem Opened.silent {m : Option Bytes} (h : Opened P K acts plain heard rkey q body m c) :
    Replied P K acts plain heard rkey q d c := by
  obtain ⟨rkey',q',hsame,hle,hsent,_⟩ := h
  exact hsent.silent hsame hle

theorem Transmits.decryptMessage (body : Bytes) :
    Triple (fun c => Transmits P K acts plain heard rkey (q.1,q.2 + body.length) c ∧
        Asked.Lies heard ⟨q,body⟩)
      (PeerClient.onNoise (decryptMessage P body)) (Opened P K acts plain heard rkey q body)
      (Opened P K acts plain heard rkey q body none) := by
  rintro c ⟨h,front,rest,hheard,hfront⟩
  obtain ⟨rkey',p,hsame,hle,hlisten,hopen⟩ := h.listens.decryptMessage body
  have hsent := h.received (fun hr => ready_decryptMessage body c.noiseState hr) hlisten
  have hon : q ≤ (p,q.2 + body.length) := ⟨hle,Nat.le_add_right _ _⟩
  rw [PeerClient.run_onNoise]
  rcases hrun : (NoiseState.decryptMessage P body).run c.noiseState with ⟨m | _,s⟩
  · rw [hrun] at hsent hopen
    refine ⟨rkey',_,hsame,hon,hsent,fun b hb => ?_⟩
    obtain ⟨x,hx,hlt,hat⟩ := hopen b (congrArg Outcome.returned hb)
    exact ⟨⟨(x,q.2),body⟩,rfl,⟨front,rest,hheard,hfront⟩,⟨hx,Nat.le_refl _⟩,⟨hlt,Nat.le_refl _⟩,hat⟩
  · rw [hrun] at hsent
    exact ⟨rkey',_,hsame,hon,hsent,nofun⟩

/-- The answer to a ping is one message, unless it is too long. -/
theorem Opened.routeMessage {b : Bytes} {m : Option Message} (hm : Message.deserialize b = some m) :
    Triple (Opened P K acts plain heard rkey q body (some b)) (PeerClient.routeMessage P m)
      (fun _ => Replied P K acts plain heard rkey q d) (Replied P K acts plain heard rkey q d) := by
  intro c h
  rcases m with _ | message
  · exact h.silent
  cases message with
  | ping p =>
    obtain ⟨payload,hpayload⟩ := deserialize_ping hm
    obtain ⟨reply,hreply,hbuffer⟩ := createReply_serialize (num_pong_bytes_lt hpayload)
    have hlength : reply.buffer.length = 4 + p.num_pong_bytes := by rw [hbuffer, pongBytes_length]
    change Replied P K acts plain heard rkey q d ((PeerClient.sendMessage P _).run c).2
    by_cases hle : p.num_pong_bytes ≤ 65531
    · obtain ⟨rkey',q',hsame,hq,hsent,hopen⟩ := h
      obtain ⟨a,rfl,hlies,hfrom,hto,hat⟩ := hopen b rfl
      have hnext := hsent.sendMessage (m := .pong (PongMessage.createReply p.num_pong_bytes)) hreply (by omega)
      rw [hbuffer] at hnext
      refine ⟨_,[a],rkey',q',hsame,hq,.pong d hlies hat hm hle,fun y hy => ?_,hnext⟩
      rw [List.mem_singleton.mp hy]
      exact ⟨hfrom,hto⟩
    · rw [sendMessage_oversize (m := .pong (PongMessage.createReply p.num_pong_bytes)) hreply (by omega)]
      exact h.silent
  | _ => exact h.silent

theorem Transmits.receiveBody (d : Bytes) (l : Nat) :
    Triple (Transmits P K acts plain heard rkey q) (PeerClient.receiveBody P l)
      (fun _ => Replied P K acts plain heard rkey q d) (Replied P K acts plain heard rkey q d) := by
  refine Triple.self_eq.bind fun c => Triple.cond ?_ ?_
  · exact Triple.assign fun s h => (h.1.pend (some l)).silent (SameTo.refl q.1 rkey) le_rfl
  · refine (Triple.assign (J := fun s =>
      Transmits P K acts plain heard rkey (q.1,q.2 + (slice c._buffer 0 (l + 16)).length) s ∧
        Asked.Lies heard ⟨q,slice c._buffer 0 (l + 16)⟩) ?_).bind fun _ => ?_
    · rintro s ⟨h,rfl⟩
      exact h.take (l + 16) _
    refine ((Transmits.decryptMessage _).mono (fun _ _ h => h) fun _ h => h.silent).bind fun opened => ?_
    refine (Triple.attempt_some fun _ h => h.silent).bind fun b => ?_
    refine (Triple.attempt_some fun _ h => h.1.silent).bind fun m c h => ?_
    obtain ⟨⟨hopened,rfl⟩,hm⟩ := h
    exact Opened.routeMessage hm c hopened

/-- An answer that was found further on. -/
theorem Replied.earlier (h : Replied P K acts plain heard rkey' q' d c) (hsame : SameTo q.1 rkey rkey')
    (hle : q ≤ q') : Replied P K acts plain heard rkey q d c := by
  obtain ⟨piece,asked,rkey₁,q₁,hsame₁,hle₁,hanswer,hbounds,hsent⟩ := h
  exact ⟨piece,asked,rkey₁,q₁,hsame.trans hsame₁ hle.1,hle.trans hle₁,hanswer,
    fun a ha => ⟨hle.trans (hbounds a ha).1,(hbounds a ha).2⟩,hsent⟩

/-- Whatever the peer sends, the client answers with one pong or not at all. -/
theorem Transmits.onData (h : Transmits P K acts plain heard rkey q c) (d : Bytes) :
    Replied P K acts plain (heard ++ d) rkey q d (PeerClient.onData P c d) := by
  have hheard := (h.hear d).pend none
  by_cases hl : c.l = none ∨ c.l = some 0
  · rw [PeerClient.onData_prefix h.act hl]
    obtain ⟨rkey',p,hsame,hle,hlisten⟩ := h.listens.decryptLength ((c._buffer ++ d).take 18)
    have hsent := (hheard.take 18 c.decrypted).1.received
      (fun hr => ready_decryptLength ((c._buffer ++ d).take 18) c.noiseState hr) hlisten
    have hon : q ≤ (p,q.2 + ((c._buffer ++ d).take 18).length) := ⟨hle,Nat.le_add_right _ _⟩
    rcases hrun : (decryptLength P ((c._buffer ++ d).take 18)).run c.noiseState with ⟨l | _,s⟩
    · rw [hrun] at hsent
      exact Replied.earlier ((Transmits.receiveBody d l).after hsent) hsame hon
    · rw [hrun] at hsent
      exact hsent.silent hsame hon
  · obtain ⟨l,hpending⟩ : ∃ l, c.l = some (l + 1) := by
      rcases hcl : c.l with _ | _ | l
      · exact absurd (.inl hcl) hl
      · exact absurd (.inr hcl) hl
      · exact ⟨l,rfl⟩
    rw [PeerClient.onData_pending h.act hpending]
    exact (Transmits.receiveBody d (l + 1)).after hheard

/-- One event: what it emits is sent, and the receiving side does not go back. -/
theorem Transmits.handle (h : Transmits P K acts plain heard rkey q c) (e : PeerEvent) :
    ∃ piece asked rkey' q', SameTo q.1 rkey rkey' ∧ q ≤ q' ∧
      Answers P rkey' (heard ++ e.bytes) e piece asked ∧ (∀ a ∈ asked, q ≤ a.place ∧ a.after ≤ q') ∧
      Transmits P K acts (plain ++ piece) (heard ++ e.bytes) rkey' q' (PeerClient.handle P c e) := by
  cases e with
  | ping =>
    obtain ⟨b,hb,hbuffer⟩ := pingMessage_serialize
    have hsent := h.sendMessage hb (by rw [hbuffer]; decide)
    rw [hbuffer] at hsent
    exact ⟨_,[],rkey,q,SameTo.refl q.1 rkey,le_rfl,.ping,nofun,(List.append_nil heard).symm ▸ hsent⟩
  | data d => exact h.onData d

theorem Answers.later {e : PeerEvent} {piece : List Bytes} {asked : List Asked}
    (h : Answers P rkey heard e piece asked) (hsame : SameTo q.1 rkey rkey')
    (hat : ∀ a ∈ asked, a.after ≤ q) : Answers P rkey' heard e piece asked := by
  cases h with
  | ping => exact .ping
  | silent d => exact .silent d
  | pong d hlies hopen hm hle =>
    rename_i a m p
    have hbefore : a.place.1 ≤ q.1 := (Nat.le_succ _).trans (hat a List.mem_cons_self).1
    refine .pong d hlies ?_ hm hle
    rw [OpensAt, hsame _ (Nat.div_le_div_right hbefore)]
    exact hopen

theorem Answers.pairwise {e : PeerEvent} {piece : List Bytes} {asked : List Asked}
    (h : Answers P rkey heard e piece asked) : asked.Pairwise (fun a b => a.after ≤ b.place) := by
  cases h with
  | ping => exact .nil
  | silent d => exact .nil
  | pong d hlies hopen hm hle => exact List.pairwise_singleton _ _

/-- The run lemma: every event adds what it emits to the messages sent so far, and the pings that ask
for it stand after those of the events before. -/
theorem Transmits.run (h : Transmits P K acts plain heard rkey q c) (events : List PeerEvent) :
    ∃ log rkey' q', SameTo q.1 rkey rkey' ∧ q ≤ q' ∧ Log P rkey' heard events log ∧
      (∀ a ∈ log.flatMap Prod.snd, q ≤ a.place ∧ a.after ≤ q') ∧
      (log.flatMap Prod.snd).Pairwise (fun a b => a.after ≤ b.place) ∧
      Transmits P K acts (plain ++ log.flatMap Prod.fst) (heard ++ events.flatMap PeerEvent.bytes) rkey' q'
        (events.foldl (PeerClient.handle P) c) := by
  induction events generalizing plain heard rkey q c with
  | nil =>
    refine ⟨[],rkey,q,SameTo.refl q.1 rkey,le_rfl,.nil,nofun,.nil,?_⟩
    simpa using h
  | cons e events ih =>
    obtain ⟨piece,asked,rkey₁,q₁,hsame₁,hle₁,hanswer,hfirst,hnext⟩ := h.handle e
    obtain ⟨log,rkey₂,q₂,hsame₂,hle₂,hanswers,hrest,hsorted,hlast⟩ := ih hnext
    refine ⟨(piece,asked) :: log,rkey₂,q₂,hsame₁.trans hsame₂ hle₁.1,hle₁.trans hle₂,
      .cons (hanswer.later hsame₂ fun a ha => (hfirst a ha).2) hanswers,?_,?_,?_⟩
    · intro a ha
      rw [List.flatMap_cons] at ha
      rcases List.mem_append.mp ha with ha | ha
      · exact ⟨(hfirst a ha).1,(hfirst a ha).2.trans hle₂⟩
      · exact ⟨hle₁.trans (hrest a ha).1,(hrest a ha).2⟩
    · rw [List.flatMap_cons]
      exact List.pairwise_append.mpr ⟨hanswer.pairwise,hsorted,
        fun a ha b hb => (hfirst a ha).2.trans (hrest b hb).1⟩
    · rwa [List.flatMap_cons, List.flatMap_cons, ← List.append_assoc, ← List.append_assoc]

end Receiving

section Handshake
variable {P : Primitives} {heard : Bytes} {c : PeerClient}

private theorem initiatorAct2Act3_keys (m : Bytes) : Triple Unkeyed (initiatorAct2Act3 P m)
    (fun _ s => (∃ K, Ready K 0 s) ∧ ∃ K, Listening K 0 s) Unkeyed := by
  have hE : ∀ s, Unkeyed s → Unkeyed s := fun _ h => h
  refine (Triple.raiseIf _ hE).bind fun _ => (Triple.raiseIf _ hE).bind fun _ => Triple.self.bind fun _ =>
    (Triple.attempt hE).bind fun _ => (Triple.assign (J := Unkeyed) fun _ h => by exact h).bind fun _ =>
    (Triple.attempt hE).bind fun _ => (Triple.attempt hE).bind fun _ =>
    (Triple.assign (J := Unkeyed) fun _ h => by exact ⟨h.1,h.2.1,h.2.2.1,_,rfl⟩).bind fun _ =>
    Triple.self.bind fun _ => (Triple.attempt hE).bind fun _ => (Triple.attempt hE).bind fun _ =>
    (Triple.assign (J := Unkeyed) fun _ h => by exact h).bind fun _ => Triple.self.bind fun _ =>
    (Triple.attempt hE).bind fun _ => (Triple.assign (J := Unkeyed) fun _ h => by exact h).bind fun _ =>
    (Triple.attempt hE).bind fun _ => Triple.self.bind fun _ => (Triple.attempt hE).bind fun _ =>
    (Triple.assign (J := Unkeyed) fun _ h => by exact ⟨h.1,h.2.1,h.2.2.1,_,rfl⟩).bind fun _ =>
    Triple.self.bind fun _ => (Triple.attempt hE).bind fun _ => Triple.self.bind fun _ =>
    (Triple.attempt hE).bind fun _ =>
    (Triple.assign (J := fun s => (∃ K, Ready K 0 s) ∧ ∃ K, Listening K 0 s)
      fun _ h => by exact ⟨⟨_,rfl,h.2.1,h.2.2.2⟩,_,rfl,h.2.2⟩).bind fun _ => Triple.pure fun _ h => h

/-- Act two, and what the client makes of it. -/
theorem onData_reply {d : Bytes} (hact : c.completedAct = 1) (h : 50 ≤ (c._buffer ++ d).length) :
    PeerClient.onData P c d =
      match (initiatorAct2Act3 P ((c._buffer ++ d).take 50)).run c.noiseState with
      | (.returned reply, s) => ((PeerClient.sendMessage P (.init InitMessage.construct)).run
          { c with _buffer := (c._buffer ++ d).drop 50, completedAct := 3, noiseState := s
                   written := c.written ++ [reply] }).2
      | (.threw, s) => { c with _buffer := (c._buffer ++ d).drop 50, noiseState := s } := by
  simp only [PeerClient.onData, PeerClient.receive, run_bind, run_assign, run_self, hact]
  rw [if_pos ⟨trivial,h⟩]
  simp only [run_bind, run_assign, PeerClient.run_onNoise, slice, List.drop_zero]
  rcases (initiatorAct2Act3 P ((c._buffer ++ d).take 50)).run c.noiseState with ⟨_ | _,s⟩ <;> rfl

theorem Opening.ping (h : Opening heard c) : PeerClient.ping P c = c := by
  obtain ⟨b,hb,_⟩ := pingMessage_serialize
  exact sendMessage_unkeyed hb h.sk

structure Accepted (P : Primitives) (heard : Bytes) (c : PeerClient) (acts : List Bytes) (K : Bytes)
    (rkey : Nat → Bytes) (q : Place) : Prop where
  sendingKey : c.noiseState.sk = some K
  receivingKey : c.noiseState.rk = some (rkey 0)
  actTwo : 50 ≤ q.2
  transmits : Transmits P K acts [initBytes] heard rkey q c

theorem Opening.accept (hact : c.completedAct = 1) {actOne d reply : Bytes} {s : NoiseState} {K R : Bytes}
    (hwritten : c.written = [actOne]) (hheard : ∃ taken, heard = taken ++ c._buffer)
    (hfull : 50 ≤ (c._buffer ++ d).length)
    (hrun : (initiatorAct2Act3 P ((c._buffer ++ d).take 50)).run c.noiseState = (.returned reply,s))
    (hready : Ready K 0 s) (hlisten : Listening R 0 s) :
    ∃ q, Accepted P (heard ++ d) (PeerClient.onData P c d) [actOne,reply] K (fun _ => R) q := by
  obtain ⟨taken,hheard⟩ := hheard
  obtain ⟨b,hb,hbuffer⟩ := initMessage_serialize
  have hlistens : ListensAt P (fun _ => R) 0 s := ⟨chained_zero,hlisten⟩
  rw [onData_reply hact hfull, hrun]
  have hstart : Transmits P K [actOne,reply] [] (heard ++ d) (fun _ => R)
      (0,(taken ++ (c._buffer ++ d).take 50).length) { c with
        _buffer := (c._buffer ++ d).drop 50, completedAct := 3, noiseState := s
        written := c.written ++ [reply] } := by
    refine ⟨rfl,⟨fun _ => K,rfl,by simp [hwritten],chained_zero,hready⟩,hlistens,_,?_,rfl⟩
    rw [hheard, List.append_assoc, List.append_assoc, List.take_append_drop]
  have hsent := hstart.sendMessage hb (by rw [hbuffer]; decide)
  rw [hbuffer] at hsent
  obtain ⟨key,hfirst,hkey⟩ := hsent.sealing
  refine ⟨_,hfirst ▸ hkey.ready.1,hsent.listens.listening.1,?_,hsent⟩
  rw [List.length_append, List.length_take_of_le hfull]
  exact Nat.le_add_left _ _

/-- Before the handshake is complete, an event leaves it so or completes it. -/
theorem Opening.onData (h : Opening heard c) (d : Bytes) :
    Opening (heard ++ d) (PeerClient.onData P c d) ∨ ∃ actOne actThree K rkey q,
      Accepted P (heard ++ d) (PeerClient.onData P c d) [actOne,actThree] K rkey q := by
  obtain ⟨hsk,⟨taken,hheard⟩,⟨hact,hwritten⟩ | ⟨hact,hunkeyed,actOne,hwritten⟩⟩ := h
  · left
    have hrun : PeerClient.onData P c d = { c with _buffer := c._buffer ++ d } := by
      simp only [PeerClient.onData, PeerClient.receive, run_bind, run_assign, run_self, hact]
      rfl
    rw [hrun]
    exact ⟨hsk,⟨taken,by rw [hheard, List.append_assoc]⟩,.inl ⟨hact,hwritten⟩⟩
  by_cases hfull : 50 ≤ (c._buffer ++ d).length
  · have hkeys := initiatorAct2Act3_keys (P := P) ((c._buffer ++ d).take 50) c.noiseState hunkeyed
    rcases hrun : (initiatorAct2Act3 P ((c._buffer ++ d).take 50)).run c.noiseState with ⟨reply | _,s⟩
    · rw [hrun] at hkeys
      obtain ⟨⟨K,hready⟩,R,hlisten⟩ := hkeys
      obtain ⟨q,haccepted⟩ := Opening.accept hact hwritten ⟨taken,hheard⟩ hfull hrun hready hlisten
      exact .inr ⟨actOne,reply,K,_,q,haccepted⟩
    · rw [hrun] at hkeys
      rw [onData_reply hact hfull, hrun]
      refine .inl ⟨hkeys.1,⟨taken ++ (c._buffer ++ d).take 50,?_⟩,.inr ⟨hact,hkeys,actOne,hwritten⟩⟩
      rw [hheard, List.append_assoc, List.append_assoc, List.take_append_drop]
  · left
    rw [PeerClient.onData_collect hact (by omega)]
    exact ⟨hsk,⟨taken,by rw [hheard, List.append_assoc]⟩,.inr ⟨hact,hunkeyed,actOne,hwritten⟩⟩

theorem Opening.handle (h : Opening heard c) (e : PeerEvent) :
    Opening (heard ++ e.bytes) (PeerClient.handle P c e) ∨ ∃ d actOne actThree K rkey q, e = PeerEvent.data d ∧
      Accepted P (heard ++ d) (PeerClient.handle P c e) [actOne,actThree] K rkey q := by
  cases e with
  | ping =>
    rw [PeerClient.handle, h.ping]
    exact .inl ((List.append_nil heard).symm ▸ h)
  | data d =>
    refine (h.onData d).imp_right ?_
    rintro ⟨actOne,actThree,K,rkey,q,haccepted⟩
    exact ⟨d,actOne,actThree,K,rkey,q,rfl,haccepted⟩

/-- A run leaves the handshake open, or one of its events completes it. -/
theorem Opening.run (h : Opening heard c) (events : List PeerEvent) :
    Opening (heard ++ events.flatMap PeerEvent.bytes) (events.foldl (PeerClient.handle P) c) ∨
    ∃ front d later actOne actThree K rkey q, events = front ++ .data d :: later ∧
      Accepted P (heard ++ (front ++ [PeerEvent.data d]).flatMap PeerEvent.bytes)
        ((front ++ [PeerEvent.data d]).foldl (PeerClient.handle P) c) [actOne,actThree] K rkey q := by
  induction events generalizing heard c with
  | nil => exact .inl (by simpa using h)
  | cons e events ih =>
    rcases h.handle (P := P) e with hstill | ⟨d,actOne,actThree,K,rkey,q,rfl,haccepted⟩
    · rw [List.flatMap_cons, ← List.append_assoc]
      refine (ih hstill).imp_right ?_
      rintro ⟨front,d,later,actOne,actThree,K,rkey,q,rfl,haccepted⟩
      rw [List.append_assoc, ← List.flatMap_cons] at haccepted
      exact ⟨e :: front,d,later,actOne,actThree,K,rkey,q,rfl,haccepted⟩
    · refine .inr ⟨[],d,events,actOne,actThree,K,rkey,q,rfl,?_⟩
      simpa [PeerEvent.bytes] using haccepted

end Handshake

end CryptoPlaypen.Lightning
