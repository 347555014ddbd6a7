import CryptoPlaypen.Lightning.NoiseDuplex

/-! Full-duplex agreement. The invariant relates each sender's keys to the
receiver's keys advanced over the frames in flight; the chaining keys are related
only while the opposite direction has no rotation on its way. -/
namespace CryptoPlaypen.Lightning
open Buffer Objects NoiseState

/-- The counter of a receiver, which has used one more nonce inside a frame. -/
def Channel.receiveCounter (c : Channel) : Nat :=
  2 * (c.received % 500) + if c.half then 1 else 0

structure Agreement (P : Primitives) (d : Duplex) (ck sk rk : Side → Bytes) : Prop where
  chain : ∀ x, (d.node x).ck = some (ck x)
  sendKey : ∀ x, (d.node x).sk = some (sk x)
  receiveKey : ∀ x, (d.node x).rk = some (rk x)
  sendCounter : ∀ x, (d.node x).sn = nonce (2 * ((d.channel x).sent % 500))
  receiveCounter : ∀ x, (d.node x.peer).rn = nonce (d.channel x).receiveCounter
  count : ∀ x, (d.channel x).sent = (d.channel x).received + (d.channel x).wire.length
  frames : ∀ x, Framed P (ck x.peer, rk x.peer) (d.channel x).received (d.channel x).wire
  keyAgrees : ∀ x, sk x =
    (keysAfter P (ck x.peer, rk x.peer) (d.channel x).received (d.channel x).wire.length).2
  chainAgrees : ∀ x, (d.channel x.peer).Settled → (ck x, sk x) =
    keysAfter P (ck x.peer, rk x.peer) (d.channel x).received (d.channel x).wire.length
  oneSided : ∀ x, (d.channel x).Settled ∨ (d.channel x.peer).Settled
  correct : ∀ v ∈ d.deliveries, v.Correct

section Invariant
variable {P : Primitives} {d e : Duplex} {ck sk rk : Side → Bytes} {x : Side} {m : Bytes}

theorem AfterHandshake.agreement (h : AfterHandshake d) : ∃ ck sk rk, Agreement P d ck sk rk := by
  choose C K R hc hk hr using h.keys
  have hchain (x) : C x = C x.peer := by
    have := h.chain x
    rw [hc, hc] at this
    exact Option.some.inj this
  have hcross (x) : K x = R x.peer := by
    have := h.cross x
    rw [hk, hr] at this
    exact Option.some.inj this
  refine ⟨C,K,R,⟨hc,hk,hr,?_,?_,?_,?_,?_,?_,?_,?_⟩⟩
  · intro x; rw [h.idle, (h.counters x).1]; rfl
  · intro x; rw [h.idle, (h.counters x.peer).2]; rfl
  · intro x; rw [h.idle]; rfl
  · intro x; rw [h.idle]; trivial
  · intro x; rw [h.idle]; exact hcross x
  · intro x _; rw [h.idle, hchain x, hcross x]; rfl
  · intro x; rw [h.idle]; exact Or.inl rfl
  · rw [h.fresh]; intro v hv; cases hv

/-- The opposite direction, seen from this one. -/
theorem Agreement.frames_peer (h : Agreement P d ck sk rk) (x : Side) :
    Framed P (ck x, rk x) (d.channel x.peer).received (d.channel x.peer).wire := by
  have hframes := h.frames x.peer
  rwa [Side.peer_peer] at hframes

theorem Agreement.keyAgrees_peer (h : Agreement P d ck sk rk) (x : Side) : sk x.peer =
    (keysAfter P (ck x, rk x) (d.channel x.peer).received (d.channel x.peer).wire.length).2 := by
  have hkeys := h.keyAgrees x.peer
  rwa [Side.peer_peer] at hkeys

theorem Agreement.chainAgrees_peer (h : Agreement P d ck sk rk) (hs : (d.channel x).Settled) :
    (ck x.peer, sk x.peer) =
      keysAfter P (ck x, rk x) (d.channel x.peer).received (d.channel x.peer).wire.length := by
  have hchains := h.chainAgrees x.peer
  rw [Side.peer_peer] at hchains
  exact hchains hs

theorem Agreement.correct_append (h : Agreement P d ck sk rk) {v : Delivery} (hv : v.Correct) :
    ∀ w ∈ d.deliveries ++ [v], w.Correct := by
  intro w hw
  rcases List.mem_append.mp hw with hw | hw
  · exact h.correct w hw
  · rwa [List.mem_singleton.mp hw]

/-- A settled direction has no rotation on its wire. -/
theorem Agreement.settled_wire (h : Agreement P d ck sk rk) (hs : (d.channel x).Settled) :
    ((d.channel x).received + (d.channel x).wire.length) / 500 = (d.channel x).received / 500 := by
  rwa [Channel.Settled, h.count x] at hs

/-- The effect of sending on the sender's keys is one step of the schedule. -/
theorem afterSending_fields (s : NoiseState) {C K : Bytes} (n : Nat) (hc : s.ck = some C)
    (hk : s.sk = some K) :
    (afterSending P s C K (2 * (n % 500) + 1)).ck = some (advance P (C, K) n).1 ∧
    (afterSending P s C K (2 * (n % 500) + 1)).sk = some (advance P (C, K) n).2 ∧
    (afterSending P s C K (2 * (n % 500) + 1)).rk = s.rk ∧
    (afterSending P s C K (2 * (n % 500) + 1)).sn = nonce (2 * ((n + 1) % 500)) ∧
    (afterSending P s C K (2 * (n % 500) + 1)).rn = s.rn := by
  by_cases hlast : (n + 1) % 500 = 0
  · rw [afterSending, if_neg (by omega), advance, if_pos hlast, hlast]
    exact ⟨rfl,rfl,rfl,rfl,rfl⟩
  · rw [afterSending, if_pos (by omega), advance, if_neg hlast,
      show 2 * (n % 500) + 1 + 1 = 2 * ((n + 1) % 500) by omega]
    exact ⟨hc,hk,rfl,rfl,rfl⟩

theorem afterReceiving_fields (s : NoiseState) {C K : Bytes} (n : Nat) (hc : s.ck = some C)
    (hk : s.rk = some K) :
    (afterReceiving P s C K (2 * (n % 500) + 1)).ck = some (advance P (C, K) n).1 ∧
    (afterReceiving P s C K (2 * (n % 500) + 1)).rk = some (advance P (C, K) n).2 ∧
    (afterReceiving P s C K (2 * (n % 500) + 1)).sk = s.sk ∧
    (afterReceiving P s C K (2 * (n % 500) + 1)).rn = nonce (2 * ((n + 1) % 500)) ∧
    (afterReceiving P s C K (2 * (n % 500) + 1)).sn = s.sn := by
  by_cases hlast : (n + 1) % 500 = 0
  · rw [afterReceiving, if_neg (by omega), advance, if_pos hlast, hlast]
    exact ⟨rfl,rfl,rfl,rfl,rfl⟩
  · rw [afterReceiving, if_pos (by omega), advance, if_neg hlast,
      show 2 * (n % 500) + 1 + 1 = 2 * ((n + 1) % 500) by omega]
    exact ⟨hc,hk,rfl,rfl,rfl⟩

/-- A frame sent in turn extends the wire by one step of the schedule, and a
rotation it triggers starts from the chaining key the receiver will use. -/
theorem Agreement.send (h : Agreement P d ck sk rk) (hm : m.length ≤ 65535)
    (hturn : ((d.channel x).sent + 1) % 500 = 0 → (d.channel x.peer).Settled) :
    ∃ e ck' sk', d.step P (.send x m) = some e ∧ Agreement P e ck' sk' rk := by
  let c := d.channel x
  let keys := advance P (ck x, sk x) c.sent
  let s := afterSending P (d.node x) (ck x) (sk x) (2 * (c.sent % 500) + 1)
  let frame := sealedLength P (sk x) (2 * (c.sent % 500)) m ++ sealedBody P (sk x) (2 * (c.sent % 500)) m
  let c' : Channel := { c with wire := c.wire ++ [(m, frame)], sent := c.sent + 1 }
  have hrun : (encryptMessage P m).run (d.node x) = (.returned frame, s) :=
    run_encryptMessage (h.chain x) (h.sendKey x) (h.sendCounter x) (by omega) hm
  obtain ⟨hck,hsk,hrk,hsn,hrn⟩ :=
    afterSending_fields (P := P) (d.node x) c.sent (h.chain x) (h.sendKey x)
  have hcount : c.sent = c.received + c.wire.length := h.count x
  -- the keys in use at the end of the wire, as the receiver will reach them
  have hkey : sk x = (keysAfter P (ck x.peer, rk x.peer) c.received c.wire.length).2 := h.keyAgrees x
  have hstill (hne : (c.sent + 1) % 500 ≠ 0) : c'.Settled ↔ c.Settled := by
    simp only [Channel.Settled, c', show (c.sent + 1) / 500 = c.sent / 500 by omega]
  have hsided : c'.Settled ∨ (d.channel x.peer).Settled := by
    by_cases hlast : (c.sent + 1) % 500 = 0
    · exact Or.inr (hturn hlast)
    · exact (h.oneSided x).imp_left (hstill hlast).mpr
  refine ⟨{ d with node := Function.update d.node x s, channel := Function.update d.channel x c' },
    Function.update ck x keys.1,Function.update sk x keys.2,Duplex.step_send hrun,?_⟩
  constructor
  case correct => exact h.correct
  all_goals refine (Side.forall_iff x _).mpr ⟨?_,?_⟩
  all_goals simp only [Function.update_self, Side.peer_peer, ne_eq, Side.peer_ne, not_false_eq_true,
    Function.update_of_ne]
  case chain.refine_1 => exact hck
  case chain.refine_2 => exact h.chain _
  case sendKey.refine_1 => exact hsk
  case sendKey.refine_2 => exact h.sendKey _
  case receiveKey.refine_1 => exact hrk.trans (h.receiveKey x)
  case receiveKey.refine_2 => exact h.receiveKey _
  case sendCounter.refine_1 => exact hsn
  case sendCounter.refine_2 => exact h.sendCounter _
  case receiveCounter.refine_1 => exact h.receiveCounter x
  case receiveCounter.refine_2 => exact hrn.trans (by simpa using h.receiveCounter x.peer)
  case count.refine_1 => simp [c', hcount]; omega
  case count.refine_2 => exact h.count _
  case frames.refine_1 =>
    refine (framed_snoc _ _ _ _ _).mpr ⟨h.frames x,hm,?_⟩
    rw [← hkey, ← hcount]
  case frames.refine_2 =>
    by_cases hlast : (c.sent + 1) % 500 = 0
    · exact framed_chain (h.settled_wire (hturn hlast)) (h.frames_peer x)
    · simpa only [keys, advance_mid _ hlast] using h.frames_peer x
  case keyAgrees.refine_1 =>
    rw [List.length_append, List.length_singleton, keysAfter, ← hcount]
    by_cases hlast : (c.sent + 1) % 500 = 0
    · rw [← h.chainAgrees x (hturn hlast)]
    · simpa only [keys, advance_mid _ hlast] using hkey
  case keyAgrees.refine_2 =>
    have hold := h.keyAgrees_peer x
    by_cases hlast : (c.sent + 1) % 500 = 0
    · rw [keysAfter_settled _ _ (h.settled_wire (hturn hlast))] at hold ⊢
      exact hold
    · simpa only [keys, advance_mid _ hlast] using hold
  case chainAgrees.refine_1 =>
    intro hs
    rw [List.length_append, List.length_singleton, keysAfter, ← hcount, ← h.chainAgrees x hs]
  case chainAgrees.refine_2 =>
    intro hs
    by_cases hlast : (c.sent + 1) % 500 = 0
    · have : (c.sent + 1) / 500 = c.received / 500 := hs
      omega
    · simpa only [keys, advance_mid _ hlast] using h.chainAgrees_peer ((hstill hlast).mp hs)
  case oneSided.refine_1 => exact hsided
  case oneSided.refine_2 => exact hsided.symm

theorem sealed_take (hP : AeadLaws P) (K : Bytes) (k : Nat) (m : Bytes) :
    (sealedLength P K k m ++ sealedBody P K k m).take 18 = sealedLength P K k m :=
  List.take_left' (by rw [sealedLength, ccpEncrypt_length hP, beBytes_length])

theorem sealed_drop (hP : AeadLaws P) (K : Bytes) (k : Nat) (m : Bytes) :
    (sealedLength P K k m ++ sealedBody P K k m).drop 18 = sealedBody P K k m :=
  List.drop_left' (by rw [sealedLength, ccpEncrypt_length hP, beBytes_length])

theorem Agreement.deliverLength (hP : AeadLaws P) (h : Agreement P d ck sk rk)
    {frame : Bytes} {rest : List (Bytes × Bytes)} (hhalf : (d.channel x).half = false)
    (hwire : (d.channel x).wire = (m, frame) :: rest) :
    ∃ e, d.step P (.deliverLength x) = some e ∧ Agreement P e ck sk rk := by
  let c := d.channel x
  let k := 2 * (c.received % 500)
  have hframes := h.frames x
  rw [hwire] at hframes
  obtain ⟨hm,hframe,_⟩ := hframes
  have hrn : (d.node x.peer).rn = nonce k := by
    have := h.receiveCounter x
    rwa [Channel.receiveCounter, hhalf] at this
  have hrun := run_decryptLength hP (h.chain x.peer) (h.receiveKey x.peer) hrn (by omega) hm
  rw [afterReceiving, if_pos (by omega), ← sealed_take hP (rk x.peer) k m, ← hframe] at hrun
  refine ⟨_,Duplex.step_deliverLength hhalf hwire hrun,?_⟩
  constructor
  case correct => exact h.correct_append rfl
  all_goals refine (Side.forall_iff x _).mpr ⟨?_,?_⟩
  all_goals simp only [Function.update_self, Side.peer_peer, ne_eq, Side.peer_ne, Side.ne_peer,
    not_false_eq_true, Function.update_of_ne]
  case chain.refine_1 | chain.refine_2 => exact h.chain _
  case sendKey.refine_1 | sendKey.refine_2 => exact h.sendKey _
  case receiveKey.refine_1 | receiveKey.refine_2 => exact h.receiveKey _
  case sendCounter.refine_1 | sendCounter.refine_2 => exact h.sendCounter _
  case receiveCounter.refine_1 => rfl
  case receiveCounter.refine_2 => simpa using h.receiveCounter x.peer
  case count.refine_1 => exact hwire ▸ h.count x
  case count.refine_2 => exact h.count _
  case frames.refine_1 => exact hwire ▸ h.frames x
  case frames.refine_2 => exact h.frames_peer x
  case keyAgrees.refine_1 => exact hwire ▸ h.keyAgrees x
  case keyAgrees.refine_2 => exact h.keyAgrees_peer x
  case chainAgrees.refine_1 => exact hwire ▸ h.chainAgrees x
  case chainAgrees.refine_2 => exact h.chainAgrees_peer
  case oneSided.refine_1 => exact h.oneSided x
  case oneSided.refine_2 => exact (h.oneSided x).symm

/-- Delivering a body moves the receiver one step along the schedule; if that
step rotates, the opposite direction has nothing on its way that depends on it. -/
theorem Agreement.deliverMessage (hP : AeadLaws P) (h : Agreement P d ck sk rk)
    {frame : Bytes} {rest : List (Bytes × Bytes)} (hhalf : (d.channel x).half = true)
    (hwire : (d.channel x).wire = (m, frame) :: rest) :
    ∃ e ck' rk', d.step P (.deliverMessage x) = some e ∧ Agreement P e ck' sk rk' := by
  let c := d.channel x
  let k := 2 * (c.received % 500)
  let keys := advance P (ck x.peer, rk x.peer) c.received
  let s := afterReceiving P (d.node x.peer) (ck x.peer) (rk x.peer) (k + 1)
  let c' : Channel := { c with wire := rest, half := false, received := c.received + 1 }
  have hframes := h.frames x
  have hkeys := h.keyAgrees x
  have hchains := h.chainAgrees x
  have hcount : c.sent = c.received + (rest.length + 1) := by
    have := h.count x
    rwa [hwire, List.length_cons] at this
  rw [hwire] at hframes hkeys hchains
  obtain ⟨_,hframe,hrest⟩ := hframes
  rw [List.length_cons, keysAfter_advance] at hkeys hchains
  have hrn : (d.node x.peer).rn = nonce (k + 1) := by
    have := h.receiveCounter x
    rwa [Channel.receiveCounter, hhalf] at this
  have hrun : (decryptMessage P (frame.drop 18)).run (d.node x.peer) = (.returned (some m), s) := by
    rw [hframe, sealed_drop hP]
    exact run_decryptMessage hP (h.chain x.peer) (h.receiveKey x.peer) hrn (by omega)
  obtain ⟨hck,hrk,hsk,hrn',hsn⟩ :=
    afterReceiving_fields (P := P) (d.node x.peer) c.received (h.chain x.peer) (h.receiveKey x.peer)
  -- a rotation can only be delivered while the opposite direction is settled
  have hopposite (hlast : (c.received + 1) % 500 = 0) : (d.channel x.peer).Settled := by
    refine (h.oneSided x).resolve_left fun hs => ?_
    have : c.sent / 500 = c.received / 500 := hs
    omega
  have hstill (hne : (c.received + 1) % 500 ≠ 0) : c'.Settled ↔ c.Settled := by
    simp only [Channel.Settled, c', show (c.received + 1) / 500 = c.received / 500 by omega]
  have hsided : c'.Settled ∨ (d.channel x.peer).Settled := by
    by_cases hlast : (c.received + 1) % 500 = 0
    · exact Or.inr (hopposite hlast)
    · exact (h.oneSided x).imp_left (hstill hlast).mpr
  refine ⟨_,Function.update ck x.peer keys.1,Function.update rk x.peer keys.2,
    Duplex.step_deliverMessage hhalf hwire hrun,?_⟩
  constructor
  case correct => exact h.correct_append rfl
  all_goals refine (Side.forall_iff x _).mpr ⟨?_,?_⟩
  all_goals simp only [Function.update_self, Side.peer_peer, ne_eq, Side.peer_ne, Side.ne_peer,
    not_false_eq_true, Function.update_of_ne]
  case chain.refine_1 => exact h.chain _
  case chain.refine_2 => exact hck
  case sendKey.refine_1 => exact h.sendKey _
  case sendKey.refine_2 => exact hsk.trans (h.sendKey _)
  case receiveKey.refine_1 => exact h.receiveKey _
  case receiveKey.refine_2 => exact hrk
  case sendCounter.refine_1 => exact h.sendCounter _
  case sendCounter.refine_2 => exact hsn.trans (h.sendCounter _)
  case receiveCounter.refine_1 => exact hrn'
  case receiveCounter.refine_2 => simpa using h.receiveCounter x.peer
  case count.refine_1 =>
    change c.sent = c.received + 1 + rest.length
    omega
  case count.refine_2 => exact h.count _
  case frames.refine_1 => exact hrest
  case frames.refine_2 => exact h.frames_peer x
  case keyAgrees.refine_1 => exact hkeys
  case keyAgrees.refine_2 => exact h.keyAgrees_peer x
  case chainAgrees.refine_1 => exact hchains
  case chainAgrees.refine_2 =>
    intro hs
    by_cases hlast : (c.received + 1) % 500 = 0
    · have hdone : (c.received + 1 + rest.length) / 500 = (c.received + 1) / 500 := by
        have : c.sent / 500 = (c.received + 1) / 500 := hs
        omega
      have hsame := hchains (hopposite hlast)
      have hkeep := h.keyAgrees_peer x
      rw [keysAfter_settled _ _ hdone] at hsame
      rw [keysAfter_settled _ _ (h.settled_wire (hopposite hlast))] at hkeep ⊢
      exact Prod.ext (congrArg Prod.fst hsame).symm hkeep
    · simpa only [keys, advance_mid _ hlast] using h.chainAgrees_peer ((hstill hlast).mp hs)
  case oneSided.refine_1 => exact hsided
  case oneSided.refine_2 => exact hsided.symm

/-- A refused message changes nothing. -/
theorem step_send_overflow (hm : 65535 < m.length) : d.step P (.send x m) = some d := by
  simp only [Duplex.step, run_encryptMessage_overflow hm, Function.update_eq_self]

theorem Agreement.step (hP : AeadLaws P) (h : Agreement P d ck sk rk) {a : Action}
    (hturn : d.InTurn a) (hstep : d.step P a = some e) :
    ∃ ck' sk' rk', Agreement P e ck' sk' rk' := by
  cases a with
  | send x m =>
    by_cases hm : m.length ≤ 65535
    · obtain ⟨e',ck',sk',he,hnew⟩ := h.send hm (hturn hm)
      rw [hstep] at he
      exact ⟨ck',sk',rk,Option.some.inj he ▸ hnew⟩
    · rw [step_send_overflow (by omega)] at hstep
      exact ⟨ck,sk,rk,Option.some.inj hstep ▸ h⟩
  | deliverLength x =>
    cases hhalf : (d.channel x).half with
    | true => simp [Duplex.step, hhalf] at hstep
    | false =>
      cases hwire : (d.channel x).wire with
      | nil => simp [Duplex.step, hhalf, hwire] at hstep
      | cons p rest =>
        obtain ⟨e',he,hnew⟩ := h.deliverLength hP hhalf hwire
        rw [hstep] at he
        exact ⟨ck,sk,rk,Option.some.inj he ▸ hnew⟩
  | deliverMessage x =>
    cases hhalf : (d.channel x).half with
    | false => simp [Duplex.step, hhalf] at hstep
    | true =>
      cases hwire : (d.channel x).wire with
      | nil => simp [Duplex.step, hhalf, hwire] at hstep
      | cons p rest =>
        obtain ⟨e',ck',rk',he,hnew⟩ := h.deliverMessage hP hhalf hwire
        rw [hstep] at he
        exact ⟨ck',sk,rk',Option.some.inj he ▸ hnew⟩

theorem TurnTaking.agreement (hP : AeadLaws P) {d₀ : Duplex} (h₀ : AfterHandshake d₀)
    (h : TurnTaking P d₀ d) : ∃ ck sk rk, Agreement P d ck sk rk := by
  induction h with
  | start => exact h₀.agreement
  | call _ hturn hstep ih =>
    obtain ⟨ck,sk,rk,ha⟩ := ih
    exact ha.step hP hturn hstep

/-- In every run whose calls are taken in turn, with any number of rotations in
both directions, each decryption returns what was encrypted. -/
theorem full_duplex_agreement (hP : AeadLaws P) {d₀ : Duplex} (h₀ : AfterHandshake d₀)
    (h : TurnTaking P d₀ d) : ∀ v ∈ d.deliveries, v.Correct := by
  obtain ⟨ck,sk,rk,ha⟩ := h.agreement hP h₀
  exact ha.correct

end Invariant

def pair (c a b : Bytes) : Duplex where
  node x :=
    { ls := ⟨[], [], []⟩, rs := ⟨[], [], []⟩, es := ⟨[], [], []⟩, h := none, ck := some c,
      sk := some (if x = .near then a else b), rk := some (if x = .near then b else a),
      sn := zeros 12, rn := zeros 12 }
  channel _ := ⟨[], false, 0, 0⟩
  deliveries := []

theorem pair_afterHandshake (c a b : Bytes) : AfterHandshake (pair c a b) where
  keys _ := ⟨_,_,_,rfl,rfl,rfl⟩
  chain _ := rfl
  cross x := by cases x <;> rfl
  counters _ := ⟨rfl,rfl⟩
  idle _ := rfl
  fresh := rfl

def Duplex.Quiet (d : Duplex) : Prop := ∀ x, (d.channel x).wire = [] ∧ (d.channel x).half = false

section Exchanges
variable {P : Primitives} {d d₀ : Duplex}

/-- From a quiet state a message goes over, and the next state is quiet. -/
private theorem TurnTaking.message (hP : AeadLaws P) (h₀ : AfterHandshake d₀) (h : TurnTaking P d₀ d)
    (hquiet : d.Quiet) (x : Side) {m : Bytes} (hm : m.length ≤ 65535) :
    ∃ e, TurnTaking P d₀ e ∧ e.Quiet ∧ (e.channel x).sent = (d.channel x).sent + 1 ∧
      (e.channel x.peer).sent = (d.channel x.peer).sent ∧
      e.deliveries.length = d.deliveries.length + 2 := by
  obtain ⟨ck,sk,rk,ha⟩ := h.agreement hP h₀
  obtain ⟨hwire,hhalf⟩ := hquiet x
  obtain ⟨hwire',hhalf'⟩ := hquiet x.peer
  have hsettled : (d.channel x.peer).Settled := by
    rw [Channel.Settled, ha.count, hwire', List.length_nil, Nat.add_zero]
  have hsend := h.call (a := .send x m) (fun _ _ => hsettled) (Duplex.step_send
    (run_encryptMessage (ha.chain x) (ha.sendKey x) (ha.sendCounter x) (by omega) hm))
  have hlength := hsend.call (a := .deliverLength x) trivial (Duplex.step_deliverLength
    (by simpa using hhalf) (by dsimp only; rw [Function.update_self, hwire]; rfl) rfl)
  have hmessage := hlength.call (a := .deliverMessage x) trivial (Duplex.step_deliverMessage
    (by simp) (by dsimp only; rw [Function.update_self, Function.update_self, hwire]; rfl) rfl)
  refine ⟨_,hmessage,(Side.forall_iff x _).mpr ⟨?_,?_⟩,?_,?_,?_⟩
  · simp
  · simp [Function.update_of_ne, Side.peer_ne, hwire', hhalf']
  · simp
  · simp [Function.update_of_ne, Side.peer_ne]
  · simp

/-- Any number of messages goes over in each direction. -/
private theorem exchanges (hP : AeadLaws P) (h₀ : AfterHandshake d₀) (n : Nat) :
    ∃ d, TurnTaking P d₀ d ∧ d.Quiet ∧ (∀ x, (d.channel x).sent = n) ∧
      d.deliveries.length = 4 * n := by
  induction n with
  | zero =>
    refine ⟨d₀,.start,fun x => ?_,fun x => ?_,?_⟩
    · rw [h₀.idle]
      exact ⟨rfl,rfl⟩
    · rw [h₀.idle]
    · rw [h₀.fresh]
      rfl
  | succ n ih =>
    obtain ⟨d,hd,hquiet,hsent,hcount⟩ := ih
    obtain ⟨e,he,hquiet,hnear,hfar,hmore⟩ :=
      hd.message hP h₀ hquiet .near (m := []) (Nat.zero_le _)
    obtain ⟨f,hf,hquiet,hfar',hnear',hmore'⟩ :=
      he.message hP h₀ hquiet .far (m := []) (Nat.zero_le _)
    refine ⟨f,hf,hquiet,(Side.forall_iff .near _).mpr ⟨?_,?_⟩,?_⟩
    · rw [← hsent .near, ← hnear]
      exact hnear'
    · rw [← hsent Side.near.peer, ← hfar]
      exact hfar'
    · omega

end Exchanges

/-- A thousand and one messages each way, so that every key is rotated twice. -/
theorem full_duplex_agreement_exchange :
    ∃ d, TurnTaking transparent (pair (zeros 32) [1] [2]) d ∧ (∀ x, (d.channel x).sent = 1001) ∧
      d.deliveries.length = 4 * 1001 ∧ ∀ v ∈ d.deliveries, v.Correct := by
  have hpair := pair_afterHandshake (zeros 32) [1] [2]
  obtain ⟨d,hrun,_,hsent,hcount⟩ := exchanges transparent_laws hpair 1001
  exact ⟨d,hrun,hsent,hcount,full_duplex_agreement transparent_laws hpair hrun⟩

end CryptoPlaypen.Lightning
