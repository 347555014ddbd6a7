import CryptoPlaypen.Lightning.NoiseTransport

/-! Overlapping `encryptMessage` calls. A call runs without interruption up to a
rotation, where it awaits first the derivation and then the rotation itself;
every order of starts and resumptions is a schedule. -/
namespace CryptoPlaypen.Lightning
open Buffer Objects Method NoiseState

inductive Part where
  | length | body
  deriving DecidableEq, Repr

/-- One use of the sending key: who encrypted what, under which key and nonce. The
epoch is the number of rotations the key results from. -/
structure Use where
  call : Nat
  part : Part
  epoch : Nat
  sn : Bytes
  deriving DecidableEq, Repr

inductive After where
  | body : Bytes → Bytes → After
  | finish : Bytes → After
  deriving DecidableEq, Repr

/-- Where a suspended call waits: in `_rotateSendingKeys` for `hkdf`, whose
arguments were read when it was called, or for `_rotateSendingKeys` to return. -/
inductive Await where
  | rotating : Bytes → Nat → Await
  | rotated : Await
  deriving DecidableEq, Repr

structure Suspended where
  call : Nat
  after : After
  await : Await
  deriving DecidableEq, Repr

/-- The endpoint with its suspended calls, and records of the calls started, the
key uses and the frames returned. -/
structure Overlap where
  node : NoiseState
  epoch : Nat
  calls : Nat
  suspended : List Suspended
  uses : List Use
  resolved : List (Nat × Bytes)
  deriving DecidableEq, Repr

inductive OverlapAction where
  | start : Bytes → OverlapAction
  | resume : Nat → OverlapAction
  deriving DecidableEq, Repr

namespace Overlap
variable (P : Primitives)

def onNode {α : Type} (m : Method NoiseState α) : Method Overlap α := fun o =>
  ((m.run o.node).1, { o with node := (m.run o.node).2 })

def encryptPart (call : Nat) (part : Part) (m : Bytes) : Method Overlap Bytes := do
  let o ← self
  let sk ← attempt o.node.sk
  assign fun o => { o with uses := o.uses ++ [⟨call, part, o.epoch, o.node.sn⟩] }
  pure (ccpEncrypt P sk o.node.sn [] m)

/-- `await this._rotateSendingKeys()`, up to the derivation it awaits. -/
def beginRotation (call : Nat) (after : After) : Method Overlap Unit := do
  let o ← self
  let ck ← attempt o.node.ck
  let sk ← attempt o.node.sk
  assign fun o => { o with
    suspended := o.suspended ++ [⟨call, after, .rotating (hkdf P ck sk) (o.epoch + 1)⟩] }

def finish (call : Nat) (result : Bytes) : Method Overlap Unit :=
  assign fun o => { o with resolved := o.resolved ++ [(call, result)] }

/-- `encryptMessage` from the encryption of the body on. -/
def encryptBody (call : Nat) (lc m : Bytes) : Method Overlap Unit := do
  let c ← encryptPart P call .body m
  let newValue ← onNode incrementSendingNonce
  if 1000 ≤ newValue then beginRotation P call (.finish (lc ++ c)) else finish call (lc ++ c)

def start (m : Bytes) : Method Overlap Unit := do
  let call := (← self).calls
  assign fun o => { o with calls := o.calls + 1 }
  let l ← attempt (writeUIntBE 2 m.length (zeros 2) 0)
  let lc ← encryptPart P call .length l
  let newValue ← onNode incrementSendingNonce
  if 1000 ≤ newValue then beginRotation P call (.body lc m) else encryptBody P call lc m

/-- The rest of `_rotateSendingKeys` once `hkdf` has resolved. -/
def endRotation (result : Bytes) (epoch : Nat) (o : Overlap) : Overlap :=
  { o with
    node := { o.node with
      sk := some (result.drop 32), ck := some (slice result 0 32), sn := zeros 12 }
    epoch := epoch }

def resume (i : Nat) : Method Overlap Unit := do
  match (← self).suspended[i]? with
  | none => pure ()
  | some s => match s.await with
    | .rotating result epoch =>
      assign (endRotation result epoch)
      assign fun o => { o with
        suspended := o.suspended.eraseIdx i ++ [{ s with await := .rotated }] }
    | .rotated =>
      assign fun o => { o with suspended := o.suspended.eraseIdx i }
      match s.after with
      | .body lc m => encryptBody P s.call lc m
      | .finish result => finish s.call result

/-- One uninterrupted stretch; an exception only rejects the call that runs. -/
def step (o : Overlap) : OverlapAction → Overlap
  | .start m => ((start P m).run o).2
  | .resume i => ((resume P i).run o).2

def Calm (o : Overlap) : Prop := ∀ s ∈ o.suspended, s.await = .rotated

def StartsCalm : Overlap → List OverlapAction → Prop
  | _, [] => True
  | o, .start m :: acts => (m.length ≤ 65535 → o.Calm) ∧ StartsCalm (o.step P (.start m)) acts
  | o, .resume i :: acts => StartsCalm (o.step P (.resume i)) acts

end Overlap

/-- The uses follow the sequence (0,0), ..., (0,999), (1,0), ..., a thousand to an
epoch, never repeat a key and nonce, and give each message two neighbouring places. -/
structure WellUsed (uses : List Use) : Prop where
  sequence : ∀ (i : Nat) (u : Use), uses[i]? = some u → u.epoch = i / 1000 ∧ u.sn = nonce (i % 1000)
  distinct : ∀ (i j : Nat) (u v : Use), uses[i]? = some u → uses[j]? = some v →
    u.epoch = v.epoch → u.sn = v.sn → i = j
  once : ∀ (i j : Nat) (u v : Use), uses[i]? = some u → uses[j]? = some v →
    u.call = v.call → u.part = v.part → i = j
  paired : ∀ (i : Nat) (u : Use), uses[i]? = some u → u.part = .length →
    ∃ v, uses[i + 1]? = some v ∧ v.part = .body ∧ v.call = u.call

structure FreshSender (o : Overlap) : Prop where
  chain : ∃ C, o.node.ck = some C
  key : ∃ K, o.node.sk = some K
  counter : o.node.sn = zeros 12
  epoch : o.epoch = 0
  calls : o.calls = 0
  suspended : o.suspended = []
  uses : o.uses = []

end CryptoPlaypen.Lightning
