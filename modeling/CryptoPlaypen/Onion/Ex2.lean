import CryptoPlaypen.Onion.Bufio

/-! The onion with an HMAC in each layer. The HMAC of a hop's packet lies in the payload of the
hop before it, and all hops have the same ephemeral point. -/
namespace CryptoPlaypen.Onion.Ex2
open Buffer

/-- The package for the curve and the HMAC. A secret is a valid one, and a point need not be. -/
structure Crypto (Secret : Type) where
  getPublicKey : Secret → Bytes
  ecdh : Bytes → Secret → Option Bytes
  hmac : Bytes → Bytes → Bytes

structure Crypto.Laws {Secret : Type} (C : Crypto Secret) : Prop where
  getPublicKey_length : ∀ k, (C.getPublicKey k).length = 33
  ecdh : ∀ k e, ∃ sharedSecret, C.ecdh (C.getPublicKey k) e = some sharedSecret
  ecdh_comm : ∀ k e, C.ecdh (C.getPublicKey e) k = C.ecdh (C.getPublicKey k) e
  hmac_length : ∀ key m, (C.hmac key m).length = 32

section Code
variable {Secret : Type} (io : BigBufio) (C : Crypto Secret)

/-- The hop data that is read, the next packet if there is one, and the keys that are left. A
packet of less than 66 bytes has less than 32 for its HMAC and is refused with the others. -/
def read (packet : Bytes) (nodeKeys : List Secret) : Option (Bytes × Option Bytes × List Secret) := do
  let (_version, packetReader) ← io.readUInt8 packet
  let (ephemeralPoint, packetReader) ← io.readBytes (some 33) packetReader
  let (payload, packetReader) ← io.readBytes (some (packet.length - 33 - 32 - 1)) packetReader
  let (hmac, _) ← io.readBytes none packetReader
  let nodeKey ← nodeKeys.head?
  let sharedSecret ← C.ecdh ephemeralPoint nodeKey
  let calcedHmac := C.hmac sharedSecret (packet.take (packet.length - 32))
  if hmac ≠ calcedHmac then none
  else
    let (hopDataLen, payloadReader) ← io.readBigSize payload
    let (hopData, payloadReader) ← io.readBytes (some hopDataLen) payloadReader
    let (nextHmac, payloadReader) ← io.readBytes (some 32) payloadReader
    let (nextPayload, _) ← if payloadReader = [] then some ([],payloadReader) else
      io.readBytes none payloadReader
    if nextPayload.length = 0 then pure (hopData,none,nodeKeys.tail)
    else
      -- the version that was read is not what is written
      let packetWriter ← io.writeUInt8 0 []
      let packetWriter ← io.writeBytes ephemeralPoint packetWriter
      let packetWriter ← io.writeBytes nextPayload packetWriter
      let packetWriter ← io.writeBytes nextHmac packetWriter
      pure (hopData,some packetWriter,nodeKeys.tail)

structure Wrapped where
  lastHmac : Bytes
  lastPayload : Bytes
  lastPacket : Option Bytes

def wrap (version : Nat) (ephemeralSecret : Secret) (last : Wrapped) (hopData nodeId : Bytes) :
    Option Wrapped := do
  let sharedSecret ← C.ecdh nodeId ephemeralSecret
  let hopPayloadWriter ← io.writeBigSize hopData.length []
  let hopPayloadWriter ← io.writeBytes hopData hopPayloadWriter
  let hopPayloadWriter ← io.writeBytes last.lastHmac hopPayloadWriter
  let hopPayload ← io.writeBytes last.lastPayload hopPayloadWriter
  let packetWriter ← io.writeUInt8 version []
  let packetWriter ← io.writeBytes (C.getPublicKey ephemeralSecret) packetWriter
  let packet ← io.writeBytes hopPayload packetWriter
  pure ⟨C.hmac sharedSecret packet,hopPayload,some packet⟩

/-- The lists are the reversed ones, whose heads are popped. -/
def wrapAll (version : Nat) (ephemeralSecret : Secret) :
    List Bytes → List Bytes → Wrapped → Option Wrapped
  | [], _, last => some last
  | _ :: _, [], _ => none
  | hopData :: info, nodeId :: nodeIds, last => do
    let last ← wrap io C version ephemeralSecret last hopData nodeId
    wrapAll version ephemeralSecret info nodeIds last

/-- Without any hop there is no packet to concatenate. -/
def build (version : Nat) (info : List Bytes) (ephemeralSecret : Secret) (nodeIds : List Bytes) :
    Option Bytes := do
  let last ← wrapAll io C version ephemeralSecret info.reverse nodeIds.reverse ⟨zeros 32,[],none⟩
  let lastPacket ← last.lastPacket
  pure (lastPacket ++ last.lastHmac)

def built (version : Nat) (ephemeralSecret : Secret) (hops : List (Secret × Bytes)) : Option Bytes :=
  build io C version (hops.map Prod.snd) ephemeralSecret ((hops.map Prod.fst).map C.getPublicKey)

/-- Each hop reads its own data with its own key and returns the packet that would have been
built for the hops behind it; the last one returns nothing. -/
inductive Accepts (version : Nat) (ephemeralSecret : Secret) : Bytes → List (Secret × Bytes) → Prop where
  | last {packet data : Bytes} {key : Secret} :
      read io C packet [key] = some (data,none,[]) →
      Accepts version ephemeralSecret packet [(key,data)]
  | next {packet nextPacket data : Bytes} {key : Secret} {hop : Secret × Bytes}
      {hops : List (Secret × Bytes)} :
      read io C packet (key :: (hop :: hops).map Prod.fst) =
        some (data,some nextPacket,(hop :: hops).map Prod.fst) →
      built io C version ephemeralSecret (hop :: hops) = some nextPacket →
      Accepts version ephemeralSecret nextPacket (hop :: hops) →
      Accepts version ephemeralSecret packet ((key,data) :: hop :: hops)

def covered (v : UInt8) (ephemeralSecret : Secret) (payload : Bytes) : Bytes :=
  v :: (C.getPublicKey ephemeralSecret ++ payload)

/-- The state of the builder after these hops, by recursion from the first hop inwards. -/
def onion (v : UInt8) (ephemeralSecret : Secret) : List (Secret × Bytes) → Wrapped
  | [] => ⟨zeros 32,[],none⟩
  | (key, data) :: hops =>
    let inner := onion v ephemeralSecret hops
    let payload := bigSize data.length ++ (data ++ (inner.lastHmac ++ inner.lastPayload))
    let sharedSecret := (C.ecdh (C.getPublicKey key) ephemeralSecret).getD []
    ⟨C.hmac sharedSecret (covered C v ephemeralSecret payload),payload,
      some (covered C v ephemeralSecret payload)⟩

end Code

theorem onion_hmac_length {Secret : Type} {C : Crypto Secret} (laws : C.Laws) (v : UInt8)
    (ephemeralSecret : Secret) (hops : List (Secret × Bytes)) :
    (onion C v ephemeralSecret hops).lastHmac.length = 32 := by
  cases hops with
  | nil => exact zeros_length 32
  | cons hop hops => exact laws.hmac_length _ _

theorem onion_payload_ne_nil {Secret : Type} (C : Crypto Secret) (v : UInt8) (ephemeralSecret : Secret)
    (hop : Secret × Bytes) (hops : List (Secret × Bytes)) :
    (onion C v ephemeralSecret (hop :: hops)).lastPayload ≠ [] := by
  have hpos := bigSize_length_pos hop.2.length
  exact List.append_ne_nil_of_left_ne_nil (List.ne_nil_of_length_pos hpos) _

section Build
variable {Secret : Type} {io : BigBufio} {C : Crypto Secret} (hio : io.Documented) (laws : C.Laws)

private theorem wrapAll_append (version : Nat) (e : Secret) {info nodeIds : List Bytes}
    (h : info.length = nodeIds.length) (info' nodeIds' : List Bytes) (last : Wrapped) :
    wrapAll io C version e (info ++ info') (nodeIds ++ nodeIds') last =
      (wrapAll io C version e info nodeIds last).bind (wrapAll io C version e info' nodeIds') := by
  induction info generalizing nodeIds last with
  | nil =>
    cases nodeIds with
    | nil => rfl
    | cons nodeId nodeIds => cases h
  | cons hopData info ih =>
    cases nodeIds with
    | nil => cases h
    | cons nodeId nodeIds =>
      change (wrap io C version e last hopData nodeId).bind _ =
        ((wrap io C version e last hopData nodeId).bind _).bind _
      rw [Option.bind_assoc]
      refine congrArg _ (funext fun next => ?_)
      exact ih (Nat.succ.inj h) next

include hio laws

private theorem wrap_eq (v : UInt8) (e key : Secret) {data : Bytes} (hdata : data.length < 2 ^ 64)
    (hops : List (Secret × Bytes)) :
    wrap io C v.toNat e (onion C v e hops) data (C.getPublicKey key) =
      some (onion C v e ((key, data) :: hops)) := by
  obtain ⟨sharedSecret,hecdh⟩ := laws.ecdh key e
  simp [wrap, onion, covered, hecdh, hio.writeBigSize _ _ hdata, hio.writeBytes, hio.writeUInt8]

/-- Popping hop after hop from the ends leaves the recursion from the front. -/
theorem wrapAll_eq (v : UInt8) (e : Secret) {hops : List (Secret × Bytes)}
    (hdata : ∀ hop ∈ hops, hop.2.length < 2 ^ 64) :
    wrapAll io C v.toNat e (hops.map Prod.snd).reverse ((hops.map Prod.fst).map C.getPublicKey).reverse
      ⟨zeros 32,[],none⟩ = some (onion C v e hops) := by
  induction hops with
  | nil => rfl
  | cons hop hops ih =>
    have hinner := ih fun x hx => hdata x (List.mem_cons_of_mem _ hx)
    rw [List.map_cons, List.map_cons, List.map_cons, List.reverse_cons, List.reverse_cons,
      wrapAll_append v.toNat e (by simp), hinner, Option.bind_some]
    change (wrap io C v.toNat e (onion C v e hops) hop.2 (C.getPublicKey hop.1)).bind some = _
    rw [wrap_eq hio laws v e hop.1 (hdata hop List.mem_cons_self) hops]
    rfl

theorem built_eq (v : UInt8) (e : Secret) (hop : Secret × Bytes) {hops : List (Secret × Bytes)}
    (hdata : ∀ x ∈ hop :: hops, x.2.length < 2 ^ 64) :
    built io C v.toNat e (hop :: hops) =
      some (covered C v e ((onion C v e (hop :: hops)).lastPayload ++
        (onion C v e (hop :: hops)).lastHmac)) := by
  rw [built, build, wrapAll_eq hio laws v e hdata]
  change some (covered C v e _ ++ _) = _
  rw [covered, covered, List.cons_append, List.append_assoc]
  rfl

end Build

section Read
variable {Secret : Type} {io : BigBufio} {C : Crypto Secret} (hio : io.Documented) (laws : C.Laws)
include hio

theorem readBytes_append {n : Nat} {front : Bytes} (h : front.length = n) (back : Bytes) :
    io.readBytes (some n) (front ++ back) = some (front,back) := by
  rw [hio.readBytes n _ (by rw [List.length_append]; omega), List.take_left' h, List.drop_left' h]

include laws

/-- The reader takes a layer off, whatever is inside, and puts the version 0 in front. -/
theorem read_layer (v : UInt8) (e key : Secret) (keys : List Secret) {data nextHmac : Bytes}
    (nextPayload : Bytes) (hdata : data.length < 2 ^ 64) (hnext : nextHmac.length = 32)
    {payload sharedSecret : Bytes}
    (hpayload : payload = bigSize data.length ++ (data ++ (nextHmac ++ nextPayload)))
    (hecdh : C.ecdh (C.getPublicKey key) e = some sharedSecret) :
    read io C (covered C v e (payload ++ C.hmac sharedSecret (covered C v e payload))) (key :: keys) =
      some (data,if nextPayload = [] then none else some (covered C 0 e (nextPayload ++ nextHmac)),
        keys) := by
  have hpoint := laws.getPublicKey_length e
  have hmac := laws.hmac_length sharedSecret (covered C v e payload)
  generalize hmacOf : C.hmac sharedSecret (covered C v e payload) = mac at hmac
  have hlength : (covered C v e (payload ++ mac)).length - 33 - 32 - 1 = payload.length := by
    simp only [covered, List.length_cons, List.length_append]
    omega
  have hcovered : (covered C v e (payload ++ mac)).take
      ((covered C v e (payload ++ mac)).length - 32) = covered C v e payload := by
    have happend : covered C v e (payload ++ mac) = covered C v e payload ++ mac := by
      rw [covered, covered, List.cons_append, List.append_assoc]
    rw [happend, List.length_append, hmac, Nat.add_sub_cancel, List.take_left]
  have hrest : io.readBytes none mac = some (mac,[]) :=
    hio.readRest _ (List.ne_nil_of_length_pos (by omega))
  have hshared : C.ecdh (C.getPublicKey e) key = some sharedSecret :=
    (laws.ecdh_comm key e).trans hecdh
  have haccepted : ¬mac ≠ C.hmac sharedSecret (v :: (C.getPublicKey e ++ payload)) :=
    not_not_intro hmacOf.symm
  have hwrite : io.writeUInt8 0 [] = some [0] := hio.writeUInt8 0 []
  rw [read, hlength, hcovered]
  simp only [covered, hio.readUInt8, readBytes_append hio hpoint, readBytes_append hio rfl, hrest,
    hshared, Option.bind_eq_bind, Option.bind_some, List.head?_cons, List.tail_cons]
  rw [if_neg haccepted, hpayload, hio.readBigSize _ _ hdata]
  simp only [readBytes_append hio rfl, readBytes_append hio hnext, Option.bind_some]
  by_cases hinner : nextPayload = []
  · rw [if_pos hinner, if_pos hinner]
    rfl
  · have hpos : ¬nextPayload.length = 0 := fun hzero => hinner (List.eq_nil_of_length_eq_zero hzero)
    rw [if_neg hinner, if_neg hinner, hio.readRest _ hinner, Option.bind_some, if_neg hpos]
    simp only [hwrite, hio.writeBytes, Option.bind_some, List.cons_append, List.nil_append,
      List.append_assoc]
    rfl

/-- A hop reads its own data and returns, under version 0, what is left for the others. -/
theorem read_onion (v : UInt8) (e key : Secret) {data : Bytes} (hdata : data.length < 2 ^ 64)
    (hops : List (Secret × Bytes)) :
    read io C (covered C v e ((onion C v e ((key, data) :: hops)).lastPayload ++
      (onion C v e ((key, data) :: hops)).lastHmac)) (key :: hops.map Prod.fst) =
        some (data,if hops = [] then none else some (covered C 0 e ((onion C v e hops).lastPayload ++
          (onion C v e hops).lastHmac)),hops.map Prod.fst) := by
  obtain ⟨sharedSecret,hecdh⟩ := laws.ecdh key e
  have hread := read_layer hio laws v e key (hops.map Prod.fst)
    (onion C v e hops).lastPayload hdata (onion_hmac_length laws v e hops) rfl hecdh
  simp only [onion, hecdh, Option.getD_some]
  rw [hread]
  cases hops with
  | nil => rfl
  | cons hop hops => rw [if_neg (onion_payload_ne_nil C v e hop hops), if_neg (List.cons_ne_nil _ _)]

end Read

section Runs
variable {Secret : Type} {io : BigBufio} {C : Crypto Secret} (hio : io.Documented) (laws : C.Laws)
include hio laws

/-- Under version 0 every hop returns the packet for the others. -/
theorem accepts_zero (e : Secret) (hop : Secret × Bytes) {hops : List (Secret × Bytes)}
    (hdata : ∀ x ∈ hop :: hops, x.2.length < 2 ^ 64) :
    Accepts io C 0 e (covered C 0 e ((onion C 0 e (hop :: hops)).lastPayload ++
      (onion C 0 e (hop :: hops)).lastHmac)) (hop :: hops) := by
  induction hops generalizing hop with
  | nil => exact .last (read_onion hio laws 0 e hop.1 (hdata hop List.mem_cons_self) [])
  | cons next hops ih =>
    have hrest : ∀ x ∈ next :: hops, x.2.length < 2 ^ 64 := fun x hx =>
      hdata x (List.mem_cons_of_mem _ hx)
    have hread := read_onion hio laws 0 e hop.1 (hdata hop List.mem_cons_self) (next :: hops)
    exact .next hread (built_eq hio laws 0 e next hrest) (ih next hrest)

/-- With any other version the first hop returns a packet for the others that is not theirs. -/
theorem not_accepts {v : UInt8} (hv : v ≠ 0) (e : Secret) (hop next : Secret × Bytes)
    {hops : List (Secret × Bytes)} (hdata : ∀ x ∈ hop :: next :: hops, x.2.length < 2 ^ 64)
    {packet : Bytes} (hbuilt : built io C v.toNat e (hop :: next :: hops) = some packet) :
    ¬Accepts io C v.toNat e packet (hop :: next :: hops) := by
  intro haccepts
  have hread := read_onion hio laws v e hop.1 (hdata hop List.mem_cons_self) (next :: hops)
  rw [built_eq hio laws v e hop hdata] at hbuilt
  cases hbuilt
  cases haccepts with
  | next hreturned hnext _ =>
    rw [hread, if_neg (List.cons_ne_nil _ _)] at hreturned
    rw [built_eq hio laws v e next fun x hx => hdata x (List.mem_cons_of_mem _ hx)] at hnext
    cases hreturned
    exact hv (List.cons.inj (Option.some.inj hnext)).1

/-- The packet for these hops is accepted by one after the other. -/
def Accepted (io : BigBufio) (C : Crypto Secret) (version : Nat) (e : Secret)
    (hops : List (Secret × Bytes)) : Prop :=
  ∃ packet, built io C version e hops = some packet ∧ Accepts io C version e packet hops

/-- Every hop accepts its packet exactly if the version is 0 or there is one hop only. -/
theorem accepted_iff (v : UInt8) (e : Secret) {hops : List (Secret × Bytes)} (hne : hops ≠ [])
    (hdata : ∀ hop ∈ hops, hop.2.length < 2 ^ 53) :
    Accepted io C v.toNat e hops ↔ v = 0 ∨ hops.length = 1 := by
  have hsize : ∀ hop ∈ hops, hop.2.length < 2 ^ 64 := fun hop hmem =>
    (hdata hop hmem).trans (by decide)
  obtain ⟨hop,hops,rfl⟩ := List.exists_cons_of_ne_nil hne
  constructor
  · rintro ⟨packet,hbuilt,haccepts⟩
    cases hops with
    | nil => exact .inr rfl
    | cons next hops =>
      refine .inl (by_contra fun hv => ?_)
      exact not_accepts hio laws hv e hop next hsize hbuilt haccepts
  · rintro (rfl | hone)
    · exact ⟨_,built_eq hio laws 0 e hop hsize,accepts_zero hio laws e hop hsize⟩
    · cases List.eq_nil_of_length_eq_zero (Nat.succ.inj hone)
      exact ⟨_,built_eq hio laws v e hop hsize,
        .last (read_onion hio laws v e hop.1 (hsize hop List.mem_cons_self) [])⟩

end Runs

/-- Secrets of one byte: the shared secret of two of them is their product. -/
def toyCrypto : Crypto UInt8 where
  getPublicKey k := k :: zeros 32
  ecdh point k := point.head?.map fun b => [b * k]
  hmac key m := (key ++ m ++ zeros 32).take 32

theorem toyCrypto_laws : toyCrypto.Laws where
  getPublicKey_length _ := rfl
  ecdh _ _ := ⟨_,rfl⟩
  ecdh_comm k e := congrArg (fun b => some [b]) (UInt8.mul_comm e k)
  hmac_length key m := by
    rw [toyCrypto, List.length_take, List.length_append, zeros_length]
    omega

/-- Two hops under version 0. -/
theorem accepted_two : Accepted bigBufio toyCrypto 0 5 [(3, [0x11]), (4, [0x22])] :=
  (accepted_iff bigBufio_documented toyCrypto_laws 0 5 (by decide) (by decide)).mpr (.inl rfl)

/-- Under version 1 the second hop gets version 0 and refuses its packet. -/
theorem accepted_fails : ¬Accepted bigBufio toyCrypto 1 5 [(3, [0x11]), (4, [0x22])] ∧
    ∃ packet nextPacket, built bigBufio toyCrypto 1 5 [(3, [0x11]), (4, [0x22])] = some packet ∧
      read bigBufio toyCrypto packet [3, 4] = some ([0x11],some nextPacket,[4]) ∧
      read bigBufio toyCrypto nextPacket [4] = none := by
  constructor
  · rintro ⟨packet,hbuilt,haccepts⟩
    exact not_accepts bigBufio_documented toyCrypto_laws (show (1 : UInt8) ≠ 0 by decide) 5 _ _
      (by decide) hbuilt haccepts
  · have hread := read_onion bigBufio_documented toyCrypto_laws 1 5 3
      (show [0x11].length < 2 ^ 64 by decide) [(4, [0x22])]
    rw [if_neg (List.cons_ne_nil _ _)] at hread
    exact ⟨_,_,built_eq bigBufio_documented toyCrypto_laws 1 5 (3, [0x11]) (by decide),hread,
      by decide +kernel⟩

end CryptoPlaypen.Onion.Ex2
