import CryptoPlaypen.Lightning.Messages
import CryptoPlaypen.Lightning.NoiseState

/-! The initiator's peer client: the socket handler with its carried buffer and
length, and the replies it sends. Each handler runs to completion. -/
namespace CryptoPlaypen.Lightning
open Buffer Objects Method NoiseState

/-- The client's fields, with two records of what it did: the socket writes, and
the arguments of `decryptMessage`. -/
structure PeerClient where
  noiseState : NoiseState
  _buffer : Bytes
  l : Option Nat
  completedAct : Nat
  written : List Bytes
  decrypted : List Bytes
  deriving DecidableEq, Repr

namespace PeerClient
variable (P : Primitives)

def onNoise {α : Type} (m : Method NoiseState α) : Method PeerClient α := fun c =>
  ((m.run c.noiseState).1, { c with noiseState := (m.run c.noiseState).2 })

def sendMessage (m : Message) : Method PeerClient Unit := do
  let m ← attempt m.serialize
  let m ← onNoise (encryptMessage P m.buffer)
  assign fun c => { c with written := c.written ++ [m] }

def construct (ls rs es : Key) : PeerClient :=
  { noiseState := NoiseState.construct ls rs es, _buffer := [], l := none, completedAct := 0
    written := [], decrypted := [] }

def onConnected (c : PeerClient) : PeerClient :=
  ((do
    onNoise (initializeState P)
    let m ← onNoise (initiatorAct1 P)
    assign fun c => { c with written := c.written ++ [m] }
    assign fun c => { c with completedAct := 1 } : Method PeerClient Unit).run c).2

/-- `message.type` throws on `undefined`. The reply is not awaited, so that an
exception in it does not reach the handler. -/
def routeMessage : Option Message → Method PeerClient Unit
  | none => raise
  | some (.ping m) => fun c =>
    (.returned (), ((sendMessage P (.pong (PongMessage.createReply m.num_pong_bytes))).run c).2)
  | some _ => pure ()

/-- The second half of the transport branch, from the test for an empty buffer. -/
def receiveBody (l : Nat) : Method PeerClient Unit := do
  let c ← self
  if c._buffer.length = 0 then
    assign fun c => { c with l := some l }
  else
    let body := slice c._buffer 0 (l + 16)
    assign fun c => { c with _buffer := c._buffer.drop (l + 16), decrypted := c.decrypted ++ [body] }
    let m ← onNoise (decryptMessage P body)
    let m ← attempt m
    let m ← attempt (Message.deserialize m)
    routeMessage P m

/-- The body of the handler inside its `try`; `!l` also holds of a zero length. -/
def receive (data : Bytes) : Method PeerClient Unit := do
  assign fun c => { c with _buffer := c._buffer ++ data }
  let c ← self
  if c.completedAct = 1 ∧ 50 ≤ c._buffer.length then
    let m := slice c._buffer 0 50
    assign fun c => { c with _buffer := c._buffer.drop 50 }
    let m ← onNoise (initiatorAct2Act3 P m)
    assign fun c => { c with written := c.written ++ [m] }
    assign fun c => { c with completedAct := 3 }
    sendMessage P (.init InitMessage.construct)
  else if c.completedAct = 3 then
    assign fun c => { c with l := none }
    match c.l with
    | some (l + 1) => receiveBody P (l + 1)
    | _ =>
      let lc := slice c._buffer 0 18
      assign fun c => { c with _buffer := c._buffer.drop 18 }
      let l ← onNoise (decryptLength P lc)
      receiveBody P l
  else pure ()

/-- The handler only logs what `receive` throws. -/
def onData (c : PeerClient) (data : Bytes) : PeerClient := ((receive P data).run c).2

end PeerClient
end CryptoPlaypen.Lightning
