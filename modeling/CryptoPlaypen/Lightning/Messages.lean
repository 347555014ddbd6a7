import CryptoPlaypen.Lightning.BufferReader

/-! The peer messages and their codecs, field by field in the order of the
sources. A codec result of `none` is a thrown exception. -/
namespace CryptoPlaypen.Lightning
open Buffer

structure InitMessage where
  globalFeatures : Nat
  localFeatures : Nat
  deriving DecidableEq, Repr

structure ErrorMessage where
  channel_id : Nat
  data : Bytes
  deriving DecidableEq, Repr

structure PingMessage where
  num_pong_bytes : Nat
  byteslen : Nat
  ignored : Bytes
  deriving DecidableEq, Repr

structure PongMessage where
  ignored : Bytes
  deriving DecidableEq, Repr

structure ChannelAnnouncement where
  node_signature_1 : Bytes
  node_signature_2 : Bytes
  bitcoin_signature_1 : Bytes
  bitcoin_signature_2 : Bytes
  features : Bytes
  chain_hash : Bytes
  short_channel_id : Nat
  node_id_1 : Bytes
  node_id_2 : Bytes
  bitcoin_key_1 : Bytes
  bitcoin_key_2 : Bytes
  deriving DecidableEq, Repr

/-- `htlc_expiry_delta` is declared and never assigned by the codec. -/
structure ChannelUpdate where
  signature : Bytes
  chain_hash : Bytes
  short_channel_id : Nat
  timestamp : Nat
  flags : Nat
  cltv_expiry_delta : Nat
  htlc_expiry_delta : Option Nat
  htlc_minimum_msat : Bytes
  fee_base_msat : Nat
  fee_proportional_millionths : Nat
  deriving DecidableEq, Repr

structure AnnouncementSignaturesMessage where
  channel_id : Nat
  short_channel_id : Nat
  node_signature : Bytes
  bitcoin_signature : Bytes
  deriving DecidableEq, Repr

inductive Message where
  | init : InitMessage → Message
  | error : ErrorMessage → Message
  | ping : PingMessage → Message
  | pong : PongMessage → Message
  | channelAnnouncement : ChannelAnnouncement → Message
  | channelUpdate : ChannelUpdate → Message
  | announcementSignatures : AnnouncementSignaturesMessage → Message
  deriving DecidableEq, Repr

def Message.type : Message → Nat
  | .init _ => 16
  | .error _ => 17
  | .ping _ => 18
  | .pong _ => 19
  | .channelAnnouncement _ => 256
  | .channelUpdate _ => 258
  | .announcementSignatures _ => 259

namespace InitMessage

def construct : InitMessage := { globalFeatures := 0, localFeatures := 0 }

/-- Both reads are at offset 0. -/
def deserialize (payload : Bytes) : Option InitMessage := do
  let globalFeatures ← readUInt16BE payload 0
  let localFeatures ← readUInt16BE payload 0
  some { globalFeatures, localFeatures }

/-- Both features are written at offset 2. -/
def serialize (m : InitMessage) : Option (Cursor UInt8) := serialized 6 do
  putUIntBE 2 16 0
  putUIntBE 2 m.globalFeatures 2
  putUIntBE 2 m.localFeatures 2

end InitMessage

namespace ErrorMessage

/-- The constructor destructures its argument, so `new ErrorMessage()` throws. -/
def construct (args : Option (Nat × Bytes)) : Option ErrorMessage := do
  let (channel_id, data) ← args
  some { channel_id, data }

def deserialize (payload : Bytes) : Option ErrorMessage := do
  let inst ← construct none
  let channel_id ← readUInt32BE payload 0
  let len ← readUInt16BE payload 4
  some { inst with channel_id := channel_id, data := slice payload 6 len }

/-- The property `serialize` reads; nothing ever assigns it. -/
def payload (_ : ErrorMessage) : Option Bytes := none

def serialize (m : ErrorMessage) : Option (Cursor UInt8) := do
  let payload ← m.payload
  serialized (2 + 2 + payload.length) do
    putUIntBE 2 17 0
    putUIntBE 2 payload.length 2
    payload.zipIdx.forM fun (b, i) => putUIntBE 1 b.toNat (i + 4)

end ErrorMessage

namespace PingMessage

def construct : PingMessage := { num_pong_bytes := 1, byteslen := 0, ignored := [] }

def deserialize (payload : Bytes) : Option PingMessage := do
  let num_pong_bytes ← readUInt16BE payload 0
  let byteslen ← readUInt16BE payload 2
  some { num_pong_bytes, byteslen, ignored := payload.drop 4 }

def serialize (m : PingMessage) : Option (Cursor UInt8) :=
  serialized (2 + 2 + 2 + m.byteslen) do
    putUIntBE 2 18 0
    putUIntBE 2 m.num_pong_bytes 2
    putUIntBE 2 m.byteslen 4
    m.ignored.zipIdx.forM fun (b, i) => putUIntBE 1 b.toNat (6 + i)

end PingMessage

namespace PongMessage
open BufferReader BufferWriter

def deserialize (payload : Bytes) : Option PongMessage := do
  let ((ignored : Bytes), _) ← (do
    let byteslen ← BufferReader.readUInt16BE
    readBytes byteslen).run ⟨payload, 0⟩
  some { ignored }

def serialize (m : PongMessage) : Option (Cursor UInt8) := serialized (4 + m.ignored.length) do
  writeUInt16BE 19
  writeUInt16BE m.ignored.length
  writeBytes (.bytes m.ignored)

def createReply (num_pong_bytes : Nat) : PongMessage := { ignored := zeros num_pong_bytes }

end PongMessage

namespace ChannelAnnouncement
open BufferReader BufferWriter

def read : StateT BufferReader Option ChannelAnnouncement := do
  let node_signature_1 ← readBytes 64
  let node_signature_2 ← readBytes 64
  let bitcoin_signature_1 ← readBytes 64
  let bitcoin_signature_2 ← readBytes 64
  let len ← BufferReader.readUInt16BE
  let features ← readBytes len
  let chain_hash ← readBytes 4
  let short_channel_id ← BufferReader.readUInt8
  let node_id_1 ← readBytes 33
  let node_id_2 ← readBytes 33
  let bitcoin_key_1 ← readBytes 33
  let bitcoin_key_2 ← readBytes 33
  pure {
    node_signature_1, node_signature_2, bitcoin_signature_1, bitcoin_signature_2, features,
    chain_hash, short_channel_id, node_id_1, node_id_2, bitcoin_key_1, bitcoin_key_2 }

def deserialize (payload : Bytes) : Option ChannelAnnouncement :=
  (read.run ⟨payload, 0⟩).map Prod.fst

def serialize (m : ChannelAnnouncement) : Option (Cursor UInt8) :=
  serialized (172 + m.features.length) do
    writeUInt16BE 256
    writeBytes (.bytes m.node_signature_1)
    writeBytes (.bytes m.node_signature_2)
    writeBytes (.bytes m.bitcoin_signature_1)
    writeBytes (.bytes m.bitcoin_signature_2)
    writeUInt16BE m.features.length
    writeBytes (.bytes m.features)
    writeBytes (.bytes m.chain_hash)
    writeBytes (.number m.short_channel_id)
    writeBytes (.bytes m.node_id_1)
    writeBytes (.bytes m.node_id_2)
    writeBytes (.bytes m.bitcoin_key_1)
    writeBytes (.bytes m.bitcoin_key_2)

end ChannelAnnouncement

namespace ChannelUpdate
open BufferReader BufferWriter

def read : StateT BufferReader Option ChannelUpdate := do
  let signature ← readBytes 64
  let chain_hash ← readBytes 32
  let short_channel_id ← BufferReader.readUInt8
  let timestamp ← BufferReader.readUInt32BE
  let flags ← BufferReader.readUInt16BE
  let cltv_expiry_delta ← BufferReader.readUInt16BE
  let htlc_minimum_msat ← readBytes 8
  let fee_base_msat ← BufferReader.readUInt32BE
  let fee_proportional_millionths ← BufferReader.readUInt32BE
  pure {
    signature, chain_hash, short_channel_id, timestamp, flags, cltv_expiry_delta,
    htlc_expiry_delta := none, htlc_minimum_msat, fee_base_msat, fee_proportional_millionths }

def deserialize (payload : Bytes) : Option ChannelUpdate := (read.run ⟨payload, 0⟩).map Prod.fst

def serialize (m : ChannelUpdate) : Option (Cursor UInt8) := serialized 123 do
  writeUInt16BE 258
  writeBytes (.bytes m.signature)
  writeBytes (.bytes m.chain_hash)
  writeUInt8 m.short_channel_id
  writeUInt32BE m.timestamp
  writeUInt16BE m.flags
  writeUInt16BE m.cltv_expiry_delta
  writeBytes (.bytes m.htlc_minimum_msat)
  writeUInt32BE m.fee_base_msat
  writeUInt32BE m.fee_proportional_millionths

end ChannelUpdate

namespace AnnouncementSignaturesMessage

def deserialize (payload : Bytes) : Option AnnouncementSignaturesMessage := do
  let channel_id ← readUInt32BE payload 0
  let short_channel_id ← readUInt8 payload 4
  some {
    channel_id, short_channel_id
    node_signature := slice payload 5 13
    bitcoin_signature := slice payload 13 21 }

def serialize (m : AnnouncementSignaturesMessage) : Option (Cursor UInt8) := serialized 23 do
  putUIntBE 2 259 0
  putUIntBE 4 m.channel_id 2
  putUIntBE 1 m.short_channel_id 6
  putBytes m.node_signature 7
  putBytes m.bitcoin_signature 15

end AnnouncementSignaturesMessage

namespace Message

def serialize : Message → Option (Cursor UInt8)
  | .init m => m.serialize
  | .error m => m.serialize
  | .ping m => m.serialize
  | .pong m => m.serialize
  | .channelAnnouncement m => m.serialize
  | .channelUpdate m => m.serialize
  | .announcementSignatures m => m.serialize

/-- The factory; an unknown type is only logged and gives `undefined`, the inner `none`. -/
def deserialize (buffer : Bytes) : Option (Option Message) := do
  let type ← readUInt16BE buffer 0
  let payload := buffer.drop 2
  match type with
  | 16 => (InitMessage.deserialize payload).map fun m => some (.init m)
  | 17 => (ErrorMessage.deserialize payload).map fun m => some (.error m)
  | 18 => (PingMessage.deserialize payload).map fun m => some (.ping m)
  | 19 => (PongMessage.deserialize payload).map fun m => some (.pong m)
  | 256 => (ChannelAnnouncement.deserialize payload).map fun m => some (.channelAnnouncement m)
  | 258 => (ChannelUpdate.deserialize payload).map fun m => some (.channelUpdate m)
  | 259 =>
    (AnnouncementSignaturesMessage.deserialize payload).map fun m => some (.announcementSignatures m)
  | _ => some none

end Message
end CryptoPlaypen.Lightning
