import CryptoPlaypen.Onion.Bufio

/-! The onion without any cryptography. The builder writes the length of a hop's data as a
BigSize and the reader reads it as a byte, so they agree as long as it is one. -/
namespace CryptoPlaypen.Onion.Ex1
open Buffer

/-- The hop data that is read, and the next packet if there is one; `none` is a thrown error. -/
def read (io : Bufio) (packet : Bytes) : Option (Bytes × Option Bytes) := do
  let (version, packetReader) ← io.readUInt8 packet
  let (payload, _) ← io.readBytes none packetReader
  let (len, payloadReader) ← io.readUInt8 payload
  let (data, payloadReader) ← io.readBytes (some len) payloadReader
  let (nextPayload, _) ← if payloadReader = [] then some ([],payloadReader) else
    io.readBytes none payloadReader
  if nextPayload.length = 0 then pure (data,none)
  else
    let nextPacket ← io.writeUInt8 version []
    let nextPacket ← io.writeBytes nextPayload nextPacket
    pure (data,some nextPacket)

/-- The data is popped from the end, and each hop's is put before what has been built. -/
def build (io : Bufio) (version : Nat) (data : List Bytes) : Option Bytes := do
  let lastHopData ← data.reverse.foldlM (fun lastHopData currentHopData => do
    let w ← io.writeBigSize currentHopData.length []
    let w ← io.writeBytes currentHopData w
    io.writeBytes lastHopData w) []
  let packet ← io.writeUInt8 version []
  io.writeBytes lastHopData packet

/-- Reading a packet, and then each one that was returned, gives these hop data until none
is returned. -/
inductive Delivers (io : Bufio) : Bytes → List Bytes → Prop where
  | last {packet data : Bytes} : read io packet = some (data,none) → Delivers io packet [data]
  | next {packet data nextPacket : Bytes} {rest : List Bytes} :
      read io packet = some (data,some nextPacket) → Delivers io nextPacket rest →
      Delivers io packet (data :: rest)

def layers (data : List Bytes) : Bytes := data.foldr (fun d inner => bigSize d.length ++ d ++ inner) []

private theorem layers_ne_nil (d : Bytes) (data : List Bytes) : layers (d :: data) ≠ [] := by
  intro hnil
  have hlength := congrArg List.length hnil
  have hpos := bigSize_length_pos d.length
  simp only [layers, List.foldr_cons, List.length_append, List.length_nil] at hlength
  omega

section
variable {io : Bufio} (hio : io.Documented)
include hio

private theorem build_eq (v : UInt8) {data : List Bytes} (hlen : ∀ d ∈ data, d.length < 2 ^ 64) :
    build io v.toNat data = some (v :: layers data) := by
  have hloop : data.reverse.foldlM (fun lastHopData currentHopData => do
      let w ← io.writeBigSize currentHopData.length []
      let w ← io.writeBytes currentHopData w
      io.writeBytes lastHopData w) [] = some (layers data) := by
    rw [List.foldlM_reverse]
    induction data with
    | nil => rfl
    | cons d data ih =>
      rw [List.foldrM_cons, ih fun x hx => hlen x (List.mem_cons_of_mem d hx)]
      simp [hio.writeBigSize _ _ (hlen d List.mem_cons_self), hio.writeBytes, layers]
  rw [build, hloop]
  simp [hio.writeUInt8, hio.writeBytes]

/-- What is read of a packet whose payload starts with a byte. -/
theorem read_eq (v k : UInt8) (r : Bytes) : read io (v :: k :: r) =
    if k.toNat ≤ r.length then
      some (r.take k.toNat,if r.drop k.toNat = [] then none else some (v :: r.drop k.toNat))
    else none := by
  have hpayload : io.readBytes none (k :: r) = some (k :: r,[]) := hio.readRest _ (List.cons_ne_nil k r)
  by_cases hk : k.toNat ≤ r.length
  · rw [if_pos hk]
    by_cases hrest : r.drop k.toNat = []
    · simp [read, hio.readUInt8, hpayload, hio.readBytes _ _ hk, hrest]
    · have hlength : ¬ r.length ≤ k.toNat := fun hle => hrest (List.drop_eq_nil_of_le hle)
      simp [read, hio.readUInt8, hpayload, hio.readBytes _ _ hk, hlength, hio.readRest _ hrest,
        hio.writeUInt8, hio.writeBytes]
  · rw [if_neg hk]
    simp [read, hio.readUInt8, hpayload, hio.readBytes_eof _ _ (Nat.not_le.mp hk)]

/-- A read splits the payload into the data and what the next packet carries. -/
theorem read_some {v k : UInt8} {r d : Bytes} {next : Option Bytes}
    (h : read io (v :: k :: r) = some (d,next)) :
    ∃ inner, r = d ++ inner ∧ next = if inner = [] then none else some (v :: inner) := by
  rw [read_eq hio] at h
  split at h
  · cases h
    exact ⟨r.drop k.toNat,(List.take_append_drop _ _).symm,rfl⟩
  · cases h

/-- A length of one byte is read as it was written. -/
theorem read_layer (v : UInt8) {d : Bytes} (hd : d.length < 253) (inner : Bytes) :
    read io (v :: (bigSize d.length ++ d ++ inner)) =
      some (d,if inner = [] then none else some (v :: inner)) := by
  have hsize : bigSize d.length = [UInt8.ofNat d.length] := if_pos hd
  have hbyte : (UInt8.ofNat d.length).toNat = d.length :=
    UInt8.toNat_ofNat_of_lt' (show d.length < 256 by omega)
  have hcons : [UInt8.ofNat d.length] ++ d ++ inner = UInt8.ofNat d.length :: (d ++ inner) := by simp
  rw [hsize, hcons, read_eq hio, hbyte, if_pos (by simp), List.take_left, List.drop_left]

private theorem payload_of_read {v : UInt8} {payload d : Bytes} {next : Option Bytes} (hpayload : payload ≠ [])
    (h : read io (v :: payload) = some (d,next)) :
    ∃ k inner, payload = k :: (d ++ inner) ∧ next = if inner = [] then none else some (v :: inner) := by
  obtain ⟨k,r,rfl⟩ := List.exists_cons_of_ne_nil hpayload
  obtain ⟨inner,rfl,hnext⟩ := read_some hio h
  exact ⟨k,inner,rfl,hnext⟩

/-- All that is delivered has been read with one byte of length each. -/
theorem Delivers.length_eq {v : UInt8} {payload : Bytes} {data : List Bytes} (hpayload : payload ≠ [])
    (h : Delivers io (v :: payload) data) : (data.map fun d => 1 + d.length).sum = payload.length := by
  generalize hpacket : v :: payload = packet at h
  induction h generalizing payload with
  | last hread =>
    subst hpacket
    obtain ⟨k,inner,rfl,hnext⟩ := payload_of_read hio hpayload hread
    split at hnext
    · rename_i hinner
      simp [hinner]
      omega
    · cases hnext
  | next hread _ ih =>
    subst hpacket
    obtain ⟨k,inner,rfl,hnext⟩ := payload_of_read hio hpayload hread
    split at hnext
    · cases hnext
    · rename_i hinner
      cases hnext
      have hrest := ih hinner rfl
      simp only [List.map_cons, List.sum_cons, hrest, List.length_cons, List.length_append]
      omega

/-- With short data each layer is peeled off the next. -/
theorem delivers_layers (v : UInt8) (d : Bytes) (data : List Bytes)
    (hshort : ∀ x ∈ d :: data, x.length < 253) :
    Delivers io (v :: layers (d :: data)) (d :: data) := by
  induction data generalizing d with
  | nil =>
    have hread := read_layer hio v (hshort d List.mem_cons_self) []
    exact .last hread
  | cons e data ih =>
    have hread := read_layer hio v (hshort d List.mem_cons_self) (layers (e :: data))
    rw [if_neg (layers_ne_nil e data)] at hread
    exact .next hread (ih e fun x hx => hshort x (List.mem_cons_of_mem d hx))

end

private theorem layers_length (data : List Bytes) :
    (data.map fun d => 1 + d.length).sum ≤ (layers data).length ∧
      ((data.map fun d => 1 + d.length).sum = (layers data).length → ∀ d ∈ data, d.length < 253) := by
  induction data with
  | nil => simp [layers]
  | cons d data ih =>
    have hlength : (layers (d :: data)).length =
        (bigSize d.length).length + d.length + (layers data).length := by simp [layers]; omega
    have hpos := bigSize_length_pos d.length
    rw [hlength, List.map_cons, List.sum_cons]
    refine ⟨by omega,fun heq => ?_⟩
    intro x hx
    rcases List.mem_cons.mp hx with rfl | hx
    · exact (bigSize_length_eq_one_iff _).mp (by omega)
    · exact ih.2 (by omega) x hx

/-- The packet for the hops gives the first hop's data and the packet for the others, and all
data in order when it is read until the end. -/
def Peels (io : Bufio) (version : Nat) (d : Bytes) (data : List Bytes) : Prop :=
  ∃ packet, build io version (d :: data) = some packet ∧
    read io packet = some (d,if data = [] then none else build io version data) ∧
    Delivers io packet (d :: data)

/-- Layers come off exactly if the data of every hop has less than 253 bytes. -/
theorem peels_iff {io : Bufio} (hio : io.Documented) (v : UInt8) (d : Bytes) (data : List Bytes)
    (hlen : ∀ x ∈ d :: data, x.length < 2 ^ 16) :
    Peels io v.toNat d data ↔ ∀ x ∈ d :: data, x.length < 253 := by
  have hbuild : build io v.toNat (d :: data) = some (v :: layers (d :: data)) :=
    build_eq hio v fun x hx => (hlen x hx).trans (by decide)
  constructor
  · rintro ⟨packet,hpacket,_,hdelivers⟩
    rw [hbuild, Option.some.injEq] at hpacket
    subst hpacket
    exact (layers_length (d :: data)).2 (hdelivers.length_eq hio (layers_ne_nil d data))
  · intro hshort
    refine ⟨_,hbuild,?_,delivers_layers hio v d data hshort⟩
    have hread := read_layer hio v (hshort d List.mem_cons_self) (layers data)
    cases data with
    | nil => exact hread
    | cons e data =>
      rw [if_neg (layers_ne_nil e data)] at hread
      rw [if_neg (List.cons_ne_nil e data),
        build_eq hio v fun x hx => (hlen x (List.mem_cons_of_mem d hx)).trans (by decide)]
      exact hread

/-- Two hops with four bytes each. -/
theorem peels_two : Peels bufio 0 [0x11,0x11,0x11,0x11] [[0x22,0x22,0x22,0x22]] :=
  (peels_iff bufio_documented 0 _ _ (by decide)).mpr (by decide)

/-- The length 253 is written in three bytes; two of them are read as data, and two bytes of
the data as a further packet. -/
theorem peels_fails : (build bufio 0 [zeros 253]).bind (read bufio) =
      some ([0,0xfd] ++ zeros 251,some [0,0,0]) ∧ ¬ Peels bufio 0 (zeros 253) [] := by
  have hread : (build bufio 0 [zeros 253]).bind (read bufio) =
      some ([0,0xfd] ++ zeros 251,some [0,0,0]) := by decide +kernel
  refine ⟨hread,?_⟩
  rintro ⟨packet,hbuild,hpeel,_⟩
  rw [hbuild, Option.bind_some, hpeel] at hread
  cases congrArg Prod.snd (Option.some.inj hread)

end CryptoPlaypen.Onion.Ex1
