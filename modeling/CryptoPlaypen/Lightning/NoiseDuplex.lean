import CryptoPlaypen.Lightning.NoiseTransport
import Mathlib.Logic.Function.Basic

/-! Two transport endpoints joined by a FIFO of frames in each direction. Calls
are interleaved freely, and every result of a decryption is recorded. -/
namespace CryptoPlaypen.Lightning
open Buffer Objects NoiseState

inductive Side where
  | near | far
  deriving DecidableEq, Repr

def Side.peer : Side → Side
  | .near => .far
  | .far => .near

@[simp] theorem Side.peer_peer (x : Side) : x.peer.peer = x := by cases x <;> rfl

@[simp] theorem Side.peer_ne (x : Side) : x.peer ≠ x := by cases x <;> decide

@[simp] theorem Side.ne_peer (x : Side) : x ≠ x.peer := by cases x <;> decide

theorem Side.forall_iff (x : Side) (p : Side → Prop) : (∀ y, p y) ↔ p x ∧ p x.peer := by
  constructor
  · exact fun h => ⟨h _,h _⟩
  · rintro ⟨hx,hp⟩ y
    cases x <;> cases y <;> assumption

/-- The frames one side has sent: those still to be delivered, each with its
message, and whether the length prefix of the first has been delivered. -/
structure Channel where
  wire : List (Bytes × Bytes)
  half : Bool
  sent : Nat
  received : Nat
  deriving DecidableEq, Repr

inductive Delivery where
  | length : Nat → Outcome Nat → Delivery
  | message : Bytes → Outcome (Option Bytes) → Delivery
  deriving DecidableEq, Repr

def Delivery.Correct : Delivery → Prop
  | .length n result => result = .returned n
  | .message m result => result = .returned (some m)

/-- Both endpoints, the channel each side sends on, and the results so far. -/
structure Duplex where
  node : Side → NoiseState
  channel : Side → Channel
  deliveries : List Delivery

inductive Action where
  | send : Side → Bytes → Action
  | deliverLength : Side → Action
  | deliverMessage : Side → Action
  deriving DecidableEq, Repr

/-- One completed call. A delivery action names the sender; it is disabled when
the channel has no frame, or the prefix and body would come out of order. -/
def Duplex.step (P : Primitives) (d : Duplex) : Action → Option Duplex
  | .send x m =>
    let c := d.channel x
    match (encryptMessage P m).run (d.node x) with
    | (.returned frame, s) => some { d with
        node := Function.update d.node x s
        channel := Function.update d.channel x
          { c with wire := c.wire ++ [(m, frame)], sent := c.sent + 1 } }
    | (.threw, s) => some { d with node := Function.update d.node x s }
  | .deliverLength x =>
    let c := d.channel x
    match c.half, c.wire with
    | false, (m, frame) :: _ =>
      let (result, s) := (decryptLength P (frame.take 18)).run (d.node x.peer)
      some {
        node := Function.update d.node x.peer s
        channel := Function.update d.channel x { c with half := true }
        deliveries := d.deliveries ++ [.length m.length result] }
    | _, _ => none
  | .deliverMessage x =>
    let c := d.channel x
    match c.half, c.wire with
    | true, (m, frame) :: rest =>
      let (result, s) := (decryptMessage P (frame.drop 18)).run (d.node x.peer)
      some {
        node := Function.update d.node x.peer s
        channel := Function.update d.channel x
          { c with wire := rest, half := false, received := c.received + 1 }
        deliveries := d.deliveries ++ [.message m result] }
    | _, _ => none

section Steps
variable {P : Primitives} {d : Duplex} {x : Side} {m frame : Bytes} {rest : List (Bytes × Bytes)}
  {s : NoiseState}

theorem Duplex.step_send (hrun : (encryptMessage P m).run (d.node x) = (.returned frame, s)) :
    d.step P (.send x m) = some { d with
      node := Function.update d.node x s
      channel := Function.update d.channel x { d.channel x with
        wire := (d.channel x).wire ++ [(m, frame)], sent := (d.channel x).sent + 1 } } := by
  simp only [Duplex.step, hrun]

theorem Duplex.step_deliverLength (hhalf : (d.channel x).half = false)
    (hwire : (d.channel x).wire = (m, frame) :: rest) {result : Outcome Nat}
    (hrun : (decryptLength P (frame.take 18)).run (d.node x.peer) = (result, s)) :
    d.step P (.deliverLength x) = some {
      node := Function.update d.node x.peer s
      channel := Function.update d.channel x { d.channel x with half := true }
      deliveries := d.deliveries ++ [.length m.length result] } := by
  simp only [Duplex.step, hhalf, hwire, hrun]

theorem Duplex.step_deliverMessage (hhalf : (d.channel x).half = true)
    (hwire : (d.channel x).wire = (m, frame) :: rest) {result : Outcome (Option Bytes)}
    (hrun : (decryptMessage P (frame.drop 18)).run (d.node x.peer) = (result, s)) :
    d.step P (.deliverMessage x) = some {
      node := Function.update d.node x.peer s
      channel := Function.update d.channel x { d.channel x with
        wire := rest, half := false, received := (d.channel x).received + 1 }
      deliveries := d.deliveries ++ [.message m result] } := by
  simp only [Duplex.step, hhalf, hwire, hrun]

end Steps

def Duplex.exec (P : Primitives) (d : Duplex) (acts : List Action) : Option Duplex :=
  acts.foldlM (Duplex.step P) d

/-- Two endpoints that have just finished one handshake with each other. -/
structure AfterHandshake (d : Duplex) : Prop where
  keys : ∀ x, ∃ C K R, (d.node x).ck = some C ∧ (d.node x).sk = some K ∧ (d.node x).rk = some R
  chain : ∀ x, (d.node x).ck = (d.node x.peer).ck
  cross : ∀ x, (d.node x).sk = (d.node x.peer).rk
  counters : ∀ x, (d.node x).sn = zeros 12 ∧ (d.node x).rn = zeros 12
  idle : ∀ x, d.channel x = ⟨[], false, 0, 0⟩
  fresh : d.deliveries = []

/-- Every rotation the sender has made has been made by the receiver. -/
def Channel.Settled (c : Channel) : Prop := c.sent / 500 = c.received / 500

/-- The 500th message of a key is sent only when no rotation of the opposite
direction is still on its way. Every other call is unrestricted. -/
def Duplex.InTurn (d : Duplex) : Action → Prop
  | .send x m => m.length ≤ 65535 → ((d.channel x).sent + 1) % 500 = 0 →
      (d.channel x.peer).Settled
  | _ => True

/-- The states of the runs from d₀ whose every call is taken in turn. -/
inductive TurnTaking (P : Primitives) (d₀ : Duplex) : Duplex → Prop where
  | start : TurnTaking P d₀ d₀
  | call {d e : Duplex} {a : Action} : TurnTaking P d₀ d → d.InTurn a → d.step P a = some e →
      TurnTaking P d₀ e

section KeySchedule
variable (P : Primitives)

/-- The keys after message number n: the 500th message of a key is followed by
its rotation. -/
def advance (keys : Bytes × Bytes) (n : Nat) : Bytes × Bytes :=
  if (n + 1) % 500 = 0 then rotate P keys else keys

def keysAfter (keys : Bytes × Bytes) (n : Nat) : Nat → Bytes × Bytes
  | 0 => keys
  | j + 1 => advance P (keysAfter keys n j) (n + j)

/-- The wire holds the messages from number n on, each sealed under its keys. -/
def Framed (keys : Bytes × Bytes) : Nat → List (Bytes × Bytes) → Prop
  | _, [] => True
  | n, (m, frame) :: rest => m.length ≤ 65535 ∧
      frame = sealedLength P keys.2 (2 * (n % 500)) m ++ sealedBody P keys.2 (2 * (n % 500)) m ∧
      Framed (advance P keys n) (n + 1) rest

end KeySchedule

section KeyScheduleLemmas
variable {P : Primitives}

theorem advance_last (keys : Bytes × Bytes) {n : Nat} (h : (n + 1) % 500 = 0) :
    advance P keys n = rotate P keys := if_pos h

theorem advance_mid (keys : Bytes × Bytes) {n : Nat} (h : (n + 1) % 500 ≠ 0) :
    advance P keys n = keys := if_neg h

theorem keysAfter_advance (keys : Bytes × Bytes) (n j : Nat) :
    keysAfter P keys n (j + 1) = keysAfter P (advance P keys n) (n + 1) j := by
  induction j with
  | zero => rfl
  | succ j ih => rw [keysAfter, ih, keysAfter, show n + (j + 1) = n + 1 + j by omega]

theorem keysAfter_settled (keys : Bytes × Bytes) (n : Nat) {j : Nat}
    (h : (n + j) / 500 = n / 500) : keysAfter P keys n j = keys := by
  induction j with
  | zero => rfl
  | succ j ih => rw [keysAfter, ih (by omega), advance_mid keys (by omega)]

theorem framed_snoc (keys : Bytes × Bytes) (n : Nat) (wire : List (Bytes × Bytes))
    (m frame : Bytes) : Framed P keys n (wire ++ [(m, frame)]) ↔
      Framed P keys n wire ∧ m.length ≤ 65535 ∧
        frame = sealedLength P (keysAfter P keys n wire.length).2 (2 * ((n + wire.length) % 500)) m ++
          sealedBody P (keysAfter P keys n wire.length).2 (2 * ((n + wire.length) % 500)) m := by
  induction wire generalizing keys n with
  | nil => simp [Framed, keysAfter]
  | cons p wire ih =>
    have hn : n + 1 + wire.length = n + (wire.length + 1) := by omega
    simp only [List.cons_append, Framed, ih, List.length_cons, keysAfter_advance, hn, and_assoc]

/-- Without a rotation on the wire the chaining key plays no part. -/
theorem framed_chain {C D K : Bytes} {n : Nat} {wire : List (Bytes × Bytes)}
    (hw : (n + wire.length) / 500 = n / 500) (h : Framed P (C, K) n wire) :
    Framed P (D, K) n wire := by
  induction wire generalizing n with
  | nil => trivial
  | cons p wire ih =>
    rw [List.length_cons] at hw
    obtain ⟨hm,hf,hrest⟩ := h
    refine ⟨hm,hf,?_⟩
    cases wire with
    | nil => trivial
    | cons q wire =>
      rw [List.length_cons] at hw
      rw [advance_mid _ (by omega)] at hrest ⊢
      exact ih (by rw [List.length_cons]; omega) hrest

end KeyScheduleLemmas
end CryptoPlaypen.Lightning
