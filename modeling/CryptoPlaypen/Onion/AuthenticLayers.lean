import CryptoPlaypen.Onion.Ex2

/-! What the HMACs keep out. A node that reads a packet under the builder's point reads its own
layer, or it has been shown an HMAC that the builder has not made. -/
namespace CryptoPlaypen.Onion.Ex2
open Buffer

section Nodes
variable {Secret : Type} (io : BigBufio) (C : Crypto Secret) (v : UInt8) (e : Secret)
  (hops : List (Secret × Bytes))

structure Layer (sharedSecret : Bytes) where
  before : List (Secret × Bytes)
  hop : Secret × Bytes
  after : List (Secret × Bytes)
  split : hops = before ++ hop :: after
  secret : C.ecdh (C.getPublicKey hop.1) e = some sharedSecret

/-- The packet is what is built for such a hop. It is read for its data, and returned is what is
built for those behind it, under version 0. -/
def Genuine (sharedSecret packet data : Bytes) (next : Option Bytes) : Prop :=
  ∃ layer : Layer C e hops sharedSecret, built io C v.toNat e (layer.hop :: layer.after) = some packet ∧
    data = layer.hop.2 ∧ next = (built io C v.toNat e layer.after).map fun inner => 0 :: inner.tail

/-- The HMAC is right, and the packet is not what is built for any hop of this secret. -/
def Forged (sharedSecret packet : Bytes) : Prop :=
  (∃ m, packet = m ++ C.hmac sharedSecret m) ∧
    ∀ layer : Layer C e hops sharedSecret, built io C v.toNat e (layer.hop :: layer.after) ≠ some packet

end Nodes

section Authentic
variable {Secret : Type} {io : BigBufio} {C : Crypto Secret} (hio : io.Documented) (laws : C.Laws)
  {e : Secret}
include hio laws

/-- A packet that is read ends with the HMAC of what comes before. -/
theorem read_authenticated {b : UInt8} {rest : Bytes} (hrest : rest ≠ []) {nodeKeys keys : List Secret}
    {data : Bytes} {next : Option Bytes}
    (hread : read io C (b :: (C.getPublicKey e ++ rest)) nodeKeys = some (data,next,keys)) :
    ∃ key sharedSecret m, nodeKeys.head? = some key ∧
      C.ecdh (C.getPublicKey e) key = some sharedSecret ∧
      b :: (C.getPublicKey e ++ rest) = m ++ C.hmac sharedSecret m := by
  have hpoint := laws.getPublicKey_length e
  have hpos := List.length_pos_iff.mpr hrest
  have hsize : (b :: (C.getPublicKey e ++ rest)).length - 33 - 32 - 1 = rest.length - 32 := by
    rw [List.length_cons, List.length_append, hpoint]
    omega
  have hpayload : io.readBytes (some (rest.length - 32)) rest =
      some (rest.take (rest.length - 32),rest.drop (rest.length - 32)) :=
    hio.readBytes _ _ (Nat.sub_le _ _)
  have hlast : io.readBytes none (rest.drop (rest.length - 32)) =
      some (rest.drop (rest.length - 32),[]) := by
    refine hio.readRest _ (List.ne_nil_of_length_pos ?_)
    rw [List.length_drop]
    omega
  rw [read, hsize] at hread
  generalize hcovered : (b :: (C.getPublicKey e ++ rest)).take
    ((b :: (C.getPublicKey e ++ rest)).length - 32) = m at hread
  obtain ⟨_,hversion,hread⟩ := Option.bind_eq_some_iff.mp hread
  cases (hio.readUInt8 _ _).symm.trans hversion
  obtain ⟨_,hephemeral,hread⟩ := Option.bind_eq_some_iff.mp hread
  cases (readBytes_append hio hpoint rest).symm.trans hephemeral
  obtain ⟨_,hmiddle,hread⟩ := Option.bind_eq_some_iff.mp hread
  cases hpayload.symm.trans hmiddle
  obtain ⟨_,hend,hread⟩ := Option.bind_eq_some_iff.mp hread
  cases hlast.symm.trans hend
  obtain ⟨key,hkey,hread⟩ := Option.bind_eq_some_iff.mp hread
  obtain ⟨sharedSecret,hshared,hread⟩ := Option.bind_eq_some_iff.mp hread
  refine ⟨key,sharedSecret,m,hkey,hshared,?_⟩
  have hmac : rest.drop (rest.length - 32) = C.hmac sharedSecret m := by
    by_contra hwrong
    change (if rest.drop (rest.length - 32) ≠ C.hmac sharedSecret m then none else _) = _ at hread
    rw [if_pos hwrong] at hread
    cases hread
  -- the HMAC is as long as it should be, so as many bytes are behind the point
  have hlong := congrArg List.length hmac
  rw [List.length_drop, laws.hmac_length] at hlong
  have hbehind : (b :: (C.getPublicKey e ++ rest)).drop
      ((b :: (C.getPublicKey e ++ rest)).length - 32) = rest.drop (rest.length - 32) := by
    have hlength : (b :: (C.getPublicKey e ++ rest)).length - 32 =
        (b :: C.getPublicKey e).length + (rest.length - 32) := by
      simp only [List.length_cons, List.length_append]
      omega
    rw [hlength, ← List.cons_append, List.drop_length_add_append]
  rw [← hmac, ← hbehind, ← hcovered, List.take_append_drop]

/-- Nothing is built behind the last hop, and elsewhere only the version changes. -/
theorem built_behind (v : UInt8) {hops : List (Secret × Bytes)} (hdata : ∀ hop ∈ hops, hop.2.length < 2 ^ 64) :
    (built io C v.toNat e hops).map (fun inner => 0 :: inner.tail) =
      if (onion C v e hops).lastPayload = [] then none
      else some (covered C 0 e ((onion C v e hops).lastPayload ++ (onion C v e hops).lastHmac)) := by
  cases hops with
  | nil => rfl
  | cons hop hops =>
    rw [built_eq hio laws v e hop hdata, if_neg (onion_payload_ne_nil C v e hop hops)]
    rfl

/-- Whatever packet any node accepts with the point of the builder, and whoever it comes from: it
is genuine, and the node gets what this layer holds, or its HMAC was made without the builder. -/
theorem accepted_layer_genuine (v : UInt8) {hops : List (Secret × Bytes)}
    (hdata : ∀ hop ∈ hops, hop.2.length < 2 ^ 53) {b : UInt8} {rest : Bytes} (hrest : rest ≠ [])
    {nodeKeys keys : List Secret} {data : Bytes} {next : Option Bytes}
    (hread : read io C (b :: (C.getPublicKey e ++ rest)) nodeKeys = some (data,next,keys)) :
    ∃ key sharedSecret, nodeKeys.head? = some key ∧ C.ecdh (C.getPublicKey e) key = some sharedSecret ∧
      (Genuine io C v e hops sharedSecret (b :: (C.getPublicKey e ++ rest)) data next ∨
        Forged io C v e hops sharedSecret (b :: (C.getPublicKey e ++ rest))) := by
  obtain ⟨key,sharedSecret,m,hkey,hshared,hpacket⟩ := read_authenticated hio laws hrest hread
  refine ⟨key,sharedSecret,hkey,hshared,?_⟩
  by_cases hmade : ∃ layer : Layer C e hops sharedSecret,
      built io C v.toNat e (layer.hop :: layer.after) = some (b :: (C.getPublicKey e ++ rest))
  · left
    obtain ⟨layer,hbuilt⟩ := hmade
    have hsize : ∀ hop ∈ layer.hop :: layer.after, hop.2.length < 2 ^ 64 := fun hop hmem =>
      (hdata hop (layer.split ▸ List.mem_append_right _ hmem)).trans (by decide)
    have hafter : ∀ hop ∈ layer.after, hop.2.length < 2 ^ 64 := fun hop hmem =>
      hsize hop (List.mem_cons_of_mem _ hmem)
    have hlayer := read_layer hio laws v e key nodeKeys.tail (onion C v e layer.after).lastPayload
      (hsize _ List.mem_cons_self) (onion_hmac_length laws v e layer.after) rfl
      ((laws.ecdh_comm key e).symm.trans hshared)
    have hsame : some (b :: (C.getPublicKey e ++ rest)) = _ :=
      hbuilt.symm.trans (built_eq hio laws v e layer.hop hsize)
    simp only [onion, layer.secret, Option.getD_some, Option.some.injEq] at hsame
    rw [hsame, List.eq_cons_of_mem_head? hkey, hlayer] at hread
    cases hread
    exact ⟨layer,hbuilt,rfl,(built_behind hio laws v hafter).symm⟩
  · exact .inr ⟨⟨m,hpacket⟩,fun layer hbuilt => hmade ⟨layer,hbuilt⟩⟩

end Authentic

/-- The second of two nodes, with the packet that the first one has returned. -/
theorem accepted_layer_genuine_second :
    ∃ key sharedSecret, [(4 : UInt8)].head? = some key ∧
      toyCrypto.ecdh (toyCrypto.getPublicKey 5) key = some sharedSecret ∧
      (Genuine bigBufio toyCrypto 0 5 [(3, [0x11]), (4, [0x22])] sharedSecret
          (covered toyCrypto 0 5 ((onion toyCrypto 0 5 [(4, [0x22])]).lastPayload ++
            (onion toyCrypto 0 5 [(4, [0x22])]).lastHmac)) [0x22] none ∨
        Forged bigBufio toyCrypto 0 5 [(3, [0x11]), (4, [0x22])] sharedSecret
          (covered toyCrypto 0 5 ((onion toyCrypto 0 5 [(4, [0x22])]).lastPayload ++
            (onion toyCrypto 0 5 [(4, [0x22])]).lastHmac))) :=
  accepted_layer_genuine bigBufio_documented toyCrypto_laws 0 (by decide)
    (List.append_ne_nil_of_left_ne_nil (onion_payload_ne_nil toyCrypto 0 5 (4, [0x22]) []) _)
    (read_onion bigBufio_documented toyCrypto_laws 0 5 4 (show [0x22].length < 2 ^ 64 by decide) [])

end CryptoPlaypen.Onion.Ex2
