import CryptoPlaypen.Bitcoin.ParsedPrefixes
import CryptoPlaypen.Bitcoin.MerkleTree

/-! The hash of a block as `bitcoin-block.js` computes it, from the fields of the header and the
hashes of the transactions. It binds both, and it can be checked against what was parsed. -/
namespace CryptoPlaypen.Bitcoin
open Buffer MerkleTree Hashing

/-- A number of more than four bytes throws. -/
def littleEndian (num : Nat) : Option Bytes := writeUIntLE 4 num (zeros 4) 0

/-- What a block hash is computed from. A transaction is named by the text of its hash, back to
front as it is shown. -/
@[ext] structure BlockFields where
  version : Nat
  hashPreviousBlock : List Char
  txids : List (List Char)
  time : Nat
  bits : Nat
  nonce : Nat
  deriving DecidableEq, Repr

structure HashedBlock where
  blockHash : List Char
  hashed : List Bytes
  deriving DecidableEq, Repr

def leaves (txids : List (List Char)) : List Bytes := txids.map fun txid => fromHex (reverse txid)

def blockHash (sha256 : Bytes → Bytes) (depth : Nat) (f : BlockFields) : Option HashedBlock := do
  let version ← littleEndian f.version
  let hashPreviousBlock := fromHex f.hashPreviousBlock
  let hashMerkleRoot ← merkleRoot sha256 depth (leaves f.txids)
  let time ← littleEndian f.time
  let bits ← littleEndian f.bits
  let nonce ← littleEndian f.nonce
  let header := version ++ (hashPreviousBlock ++ (hashMerkleRoot.root ++ (time ++ (bits ++ nonce))))
  pure ⟨reverse (hex (dhash sha256 header)),hashMerkleRoot.hashed ++ [header]⟩

/-- The 64 lower-case digits of a hash. -/
def HashText (text : List Char) : Prop := ∃ bs : Bytes, bs.length = 32 ∧ hex bs = text

structure BlockFields.Fits (f : BlockFields) : Prop where
  version : f.version < 2 ^ 32
  previous : HashText f.hashPreviousBlock
  txids : ∀ txid ∈ f.txids, HashText txid
  coinbase : f.txids ≠ []
  time : f.time < 2 ^ 32
  bits : f.bits < 2 ^ 32
  nonce : f.nonce < 2 ^ 32

def BlockFields.header (f : BlockFields) (root : Bytes) : Bytes :=
  leBytes 4 f.version ++ (fromHex f.hashPreviousBlock ++ (root ++ (leBytes 4 f.time ++
    (leBytes 4 f.bits ++ leBytes 4 f.nonce))))

private theorem littleEndian_eq {num : Nat} (h : num < 2 ^ 32) : littleEndian num = some (leBytes 4 num) := by
  have hwrite := writeUIntLE_append 4 [] (zeros 4) h (zeros_length 4).ge
  have hnone : (zeros 4).drop 4 = [] := rfl
  simpa [littleEndian, hnone] using hwrite

theorem HashText.fromHex_length {text : List Char} (h : HashText text) : (fromHex text).length = 32 := by
  obtain ⟨bs,hbs,rfl⟩ := h
  rwa [fromHex_hex]

theorem HashText.fromHex_inj {a b : List Char} (ha : HashText a) (hb : HashText b)
    (h : fromHex a = fromHex b) : a = b := by
  obtain ⟨as,_,rfl⟩ := ha
  obtain ⟨bs,_,rfl⟩ := hb
  rw [fromHex_hex, fromHex_hex] at h
  rw [h]

/-- A text turned around is the text of another hash. -/
theorem HashText.reverse {text : List Char} (h : HashText text) : HashText (reverse text) := by
  obtain ⟨bs,hbs,rfl⟩ := h
  exact ⟨bs.reverse,by rwa [List.length_reverse],(reverse_hex bs).symm⟩

private theorem reverse_reverse_hex (bs : Bytes) : reverse (reverse (hex bs)) = hex bs := by
  rw [reverse_hex, reverse_hex, List.reverse_reverse]

theorem HashText.reverse_reverse {text : List Char} (h : HashText text) :
    Bitcoin.reverse (Bitcoin.reverse text) = text := by
  obtain ⟨bs,_,rfl⟩ := h
  exact reverse_reverse_hex bs

section Leaves
variable {txids others : List (List Char)}

private theorem leaves_length (txids : List (List Char)) : (leaves txids).length = txids.length :=
  List.length_map _

private theorem leaves_hashes (h : ∀ txid ∈ txids, HashText txid) : ∀ x ∈ leaves txids, x.length = 32 := by
  intro x hx
  obtain ⟨txid,htxid,rfl⟩ := List.mem_map.mp hx
  exact (h txid htxid).reverse.fromHex_length

private theorem leaves_injective (h : ∀ txid ∈ txids, HashText txid) (hothers : ∀ txid ∈ others, HashText txid)
    (heq : leaves txids = leaves others) : txids = others := by
  induction txids generalizing others with
  | nil => exact (List.map_eq_nil_iff.mp heq.symm).symm
  | cons txid txids ih =>
    cases others with
    | nil => cases heq
    | cons other others =>
      obtain ⟨hhead,htail⟩ := List.cons.inj heq
      have htext := h txid List.mem_cons_self
      have hother := hothers other List.mem_cons_self
      have hreverse := htext.reverse.fromHex_inj hother.reverse hhead
      have hsame : txid = other := by
        rw [← htext.reverse_reverse, hreverse, hother.reverse_reverse]
      rw [hsame, ih (fun t ht => h t (List.mem_cons_of_mem _ ht))
        (fun t ht => hothers t (List.mem_cons_of_mem _ ht)) htail]

end Leaves

/-- The root is a single leaf, or a hash. -/
theorem root_length {sha256 : Bytes → Bytes} (hsha : HashLength sha256) {depth : Nat}
    {chunks : List Bytes} (hchunks : ∀ x ∈ chunks, x.length = 32) {m : Rooted}
    (hm : recurseNodes sha256 depth chunks = some m) : m.root.length = 32 := by
  induction depth generalizing chunks m with
  | zero => cases hm
  | succ depth ih =>
    by_cases hone : chunks.length = 1
    · obtain ⟨root,rfl⟩ := List.length_eq_one_iff.mp hone
      cases hm
      exact hchunks _ (List.mem_singleton_self _)
    · rw [recurseNodes_level sha256 depth hone] at hm
      obtain ⟨inner,hinner,rfl⟩ := Option.map_eq_some_iff.mp hm
      refine ih (m := inner) (fun x hx => ?_) hinner
      obtain ⟨c,_,rfl⟩ := List.mem_map.mp hx
      exact hash256_length hsha c

section Hashes
variable {sha256 : Bytes → Bytes} {depth : Nat} {f g : BlockFields}

private theorem blockHash_eq (hf : f.Fits) {m : Rooted}
    (hm : merkleRoot sha256 depth (leaves f.txids) = some m) :
    blockHash sha256 depth f =
      some ⟨reverse (hex (dhash sha256 (f.header m.root))),m.hashed ++ [f.header m.root]⟩ := by
  rw [blockHash, littleEndian_eq hf.version, littleEndian_eq hf.time, littleEndian_eq hf.bits,
    littleEndian_eq hf.nonce, hm]
  rfl

private theorem exists_root (hf : f.Fits) (hdepth : Nat.clog 2 f.txids.length < depth) :
    ∃ m, merkleRoot sha256 depth (leaves f.txids) = some m := by
  rw [← leaves_length] at hdepth
  refine exists_recurseNodes sha256 ?_ hdepth
  rw [leaves_length]
  exact List.length_pos_of_ne_nil hf.coinbase

/-- Two headers are the same field by field. -/
theorem header_injective (hf : f.Fits) (hg : g.Fits) {root other : Bytes} (hroot : root.length = 32)
    (hother : other.length = 32) (h : f.header root = g.header other) :
    f.version = g.version ∧ f.hashPreviousBlock = g.hashPreviousBlock ∧ root = other ∧
      f.time = g.time ∧ f.bits = g.bits ∧ f.nonce = g.nonce := by
  have hsize (m n : Nat) : (leBytes 4 m).length = (leBytes 4 n).length := by simp
  obtain ⟨hversion,h⟩ := List.append_inj h (hsize _ _)
  obtain ⟨hprevious,h⟩ := List.append_inj h
    (hf.previous.fromHex_length.trans hg.previous.fromHex_length.symm)
  obtain ⟨hroots,h⟩ := List.append_inj h (hroot.trans hother.symm)
  obtain ⟨htime,h⟩ := List.append_inj h (hsize _ _)
  obtain ⟨hbits,hnonce⟩ := List.append_inj h (hsize _ _)
  exact ⟨leBytes_injective hf.version hg.version hversion,hf.previous.fromHex_inj hg.previous hprevious,
    hroots,leBytes_injective hf.time hg.time htime,leBytes_injective hf.bits hg.bits hbits,
    leBytes_injective hf.nonce hg.nonce hnonce⟩

/-- Hashes that print the same are the same. -/
theorem dhash_of_printed {a b : Bytes}
    (h : reverse (hex (dhash sha256 a)) = reverse (hex (dhash sha256 b))) :
    dhash sha256 a = dhash sha256 b := by
  rw [reverse_hex, reverse_hex] at h
  exact List.reverse_injective (hex_injective h)

/-- The hash binds every field of the header and the list of transactions behind it: blocks of as
many transactions with one hash are one block, or two of the hashed strings collide. -/
theorem blockHash_binds (hsha : HashLength sha256) (hf : f.Fits) (hg : g.Fits)
    (hcount : f.txids.length = g.txids.length) (hdepth : Nat.clog 2 f.txids.length < depth) :
    ∃ r s, blockHash sha256 depth f = some r ∧ blockHash sha256 depth g = some s ∧
      (r.blockHash = s.blockHash → f = g ∨ Collision (dhash sha256) (r.hashed ++ s.hashed)) := by
  obtain ⟨m,hm⟩ : ∃ m, merkleRoot sha256 depth (leaves f.txids) = some m := exists_root hf hdepth
  obtain ⟨n,hn⟩ : ∃ n, merkleRoot sha256 depth (leaves g.txids) = some n :=
    exists_root hg (hcount ▸ hdepth)
  refine ⟨_,_,blockHash_eq hf hm,blockHash_eq hg hn,fun hsame => ?_⟩
  by_cases hheader : f.header m.root = g.header n.root
  · -- the same header was hashed, and with it the same root
    have hleaves := leaves_hashes hf.txids
    have hothers := leaves_hashes hg.txids
    obtain ⟨hversion,hprevious,hroot,htime,hbits,hnonce⟩ :=
      header_injective hf hg (root_length hsha hleaves hm) (root_length hsha hothers hn) hheader
    have hlength : (leaves f.txids).length = (leaves g.txids).length := by
      rw [leaves_length, leaves_length, hcount]
    rcases eq_or_collision_of_root hsha hlength hleaves hothers hm hn hroot with heq | hcollision
    · have htxids := leaves_injective hf.txids hg.txids heq
      exact .inl (BlockFields.ext hversion hprevious htxids htime hbits hnonce)
    · refine .inr (hcollision.mono (List.append_subset.mpr ⟨fun x hx => ?_,fun x hx => ?_⟩)) <;> simp [hx]
  · exact .inr ⟨_,by simp,_,by simp,hheader,dhash_of_printed hsame⟩

end Hashes

/-- The digits of a hash that is all one byte. -/
theorem hashText_replicate (byte : UInt8) : HashText (hex (List.replicate 32 byte)) :=
  ⟨_,List.length_replicate,rfl⟩

/-- The header of the genesis block over three transactions, the second under a name of choice. -/
def genesisFields (byte : UInt8) : BlockFields where
  version := 1
  hashPreviousBlock := hex (zeros 32)
  txids := [0x3b, byte, 0x07].map fun byte => hex (List.replicate 32 byte)
  time := 1231006505
  bits := 486604799
  nonce := 2083236893

private theorem genesisFields_fits (byte : UInt8) : (genesisFields byte).Fits where
  version := show 1 < 2 ^ 32 by decide
  previous := hashText_replicate 0
  txids := List.forall_mem_map.mpr fun byte _ => hashText_replicate byte
  coinbase := List.cons_ne_nil _ _
  time := show 1231006505 < 2 ^ 32 by decide
  bits := show 486604799 < 2 ^ 32 by decide
  nonce := show 2083236893 < 2 ^ 32 by decide

theorem blockHash_binds_genesis : ∃ r s,
    blockHash foldHash 3 (genesisFields 1) = some r ∧ blockHash foldHash 3 (genesisFields 2) = some s ∧
    (r.blockHash = s.blockHash → genesisFields 1 = genesisFields 2 ∨
      Collision (dhash foldHash) (r.hashed ++ s.hashed)) :=
  blockHash_binds foldHash_length (genesisFields_fits 1) (genesisFields_fits 2) rfl
    (show Nat.clog 2 3 < 3 by decide +kernel)

section Parsed
variable {input rest : Bytes} {b : ParsedBlock}

private theorem readUInt32_run {iter out : Bytes} {n : Nat} (h : readUInt32.run iter = some (n, out)) :
    n < 2 ^ 32 ∧ iter = leBytes 4 n ++ out := by
  obtain ⟨bytes,mid,hbytes,hvalue⟩ := run_bind_some.mp h
  obtain ⟨hlength,rfl⟩ := run_times_token hbytes
  obtain ⟨value,hread,hout⟩ := Option.map_eq_some_iff.mp hvalue
  cases hout
  rw [readUInt32LE, readUIntLE, if_pos hlength.ge, List.drop_zero, List.take_of_length_le hlength.le] at hread
  obtain rfl := Option.some.inj hread
  have hlt := leValue_lt bytes
  rw [hlength] at hlt
  refine ⟨hlt,congrArg (· ++ _) (leValue_injective (by rw [hlength, leBytes_length]) ?_)⟩
  rw [leValue_leBytes, Nat.mod_eq_of_lt hlt]

def ParsedBlock.fields (b : ParsedBlock) (txids : List (List Char)) : BlockFields where
  version := b.version
  hashPreviousBlock := reverse b.hashPreviousBlock
  txids := txids
  time := b.time
  bits := b.bits
  nonce := b.nonce

/-- Whatever is parsed, its first 80 bytes are the header that the returned fields spell. -/
theorem parseBlock_header (h : parseBlock.run input = some (b, rest)) :
    HashText b.hashMerkleRoot ∧ (∀ txids, (∀ txid ∈ txids, HashText txid) → txids ≠ [] →
      (b.fields txids).Fits) ∧
    ∀ txids, input.take 80 = (b.fields txids).header (fromHex (reverse b.hashMerkleRoot)) := by
  obtain ⟨version,_,hversion,h⟩ := run_bind_some.mp h
  obtain ⟨previous,_,hprevious,h⟩ := run_bind_some.mp h
  obtain ⟨root,_,hroot,h⟩ := run_bind_some.mp h
  obtain ⟨time,_,htime,h⟩ := run_bind_some.mp h
  obtain ⟨bits,_,hbits,h⟩ := run_bind_some.mp h
  obtain ⟨nonce,_,hnonce,h⟩ := run_bind_some.mp h
  obtain ⟨count,_,_,h⟩ := run_bind_some.mp h
  obtain ⟨txs,_,_,h⟩ := run_bind_some.mp h
  cases h
  obtain ⟨hversionLt,rfl⟩ := readUInt32_run hversion
  obtain ⟨hpreviousLength,rfl⟩ := run_times_token hprevious
  obtain ⟨hrootLength,rfl⟩ := run_times_token hroot
  obtain ⟨htimeLt,rfl⟩ := readUInt32_run htime
  obtain ⟨hbitsLt,rfl⟩ := readUInt32_run hbits
  obtain ⟨hnonceLt,rfl⟩ := readUInt32_run hnonce
  refine ⟨HashText.reverse ⟨root,hrootLength,rfl⟩,fun txids htxids hne => ?_,fun txids => ?_⟩
  · have hshown : HashText (reverse (reverse (hex previous))) :=
      ⟨previous,hpreviousLength,(reverse_reverse_hex previous).symm⟩
    exact ⟨hversionLt,hshown,htxids,hne,htimeLt,hbitsLt,hnonceLt⟩
  · rw [BlockFields.header, ParsedBlock.fields, reverse_reverse_hex, reverse_reverse_hex, fromHex_hex,
      fromHex_hex]
    simp only [← List.append_assoc]
    exact List.take_left' (by simp [hpreviousLength, hrootLength])

/-- The block hash computed from what was parsed and a list of transactions is the hash of the bytes
exactly if their root is the one in the header, but for a collision. -/
theorem parsed_block_checks {sha256 : Bytes → Bytes} (hsha : HashLength sha256)
    (h : parseBlock.run input = some (b, rest)) {txids : List (List Char)}
    (htxids : ∀ txid ∈ txids, HashText txid) (hne : txids ≠ []) {depth : Nat}
    (hdepth : Nat.clog 2 txids.length < depth) :
    ∃ m r, merkleRoot sha256 depth (leaves txids) = some m ∧
      blockHash sha256 depth (b.fields txids) = some r ∧
      (reverse (hex m.root) = b.hashMerkleRoot →
        r.blockHash = reverse (hex (dhash sha256 (input.take 80)))) ∧
      (r.blockHash = reverse (hex (dhash sha256 (input.take 80))) →
        reverse (hex m.root) = b.hashMerkleRoot ∨ Collision (dhash sha256) (input.take 80 :: r.hashed)) := by
  obtain ⟨hroot,hfits,hheader⟩ := parseBlock_header h
  have hf := hfits txids htxids hne
  obtain ⟨m,hm⟩ : ∃ m, merkleRoot sha256 depth (leaves txids) = some m := exists_root hf hdepth
  refine ⟨m,_,hm,blockHash_eq hf hm,fun hshown => ?_,fun hsame => ?_⟩
  · have hbytes : fromHex (reverse b.hashMerkleRoot) = m.root := by
      rw [← hshown, reverse_reverse_hex, fromHex_hex]
    rw [hheader txids, hbytes]
  · by_cases heq : (b.fields txids).header m.root = input.take 80
    · left
      rw [hheader txids] at heq
      have hlength := root_length hsha (leaves_hashes htxids) hm
      have hbytes := (header_injective hf hf hlength hroot.reverse.fromHex_length heq).2.2.1
      obtain ⟨root,_,hshown⟩ := hroot
      rw [hbytes, ← hshown, reverse_hex root, fromHex_hex, reverse_hex, List.reverse_reverse]
    · exact .inr ⟨_,by simp,_,by simp,heq,dhash_of_printed hsame⟩

end Parsed

theorem parsed_block_checks_genesis :
    let txids := [0x3b, 0x01, 0x07].map fun byte => hex (List.replicate 32 byte)
    ∃ m r, merkleRoot foldHash 3 (leaves txids) = some m ∧
      blockHash foldHash 3 ((genesisLike.parsed ((genesisLike.txs.map
        LegacyTx.parsed).headD ⟨0, 0, [], 0, []⟩)).fields txids) = some r ∧
      (reverse (hex m.root) = hex genesisLike.merkleRoot.reverse →
        r.blockHash = reverse (hex (dhash foldHash (genesisLike.bytes.take 80)))) ∧
      (r.blockHash = reverse (hex (dhash foldHash (genesisLike.bytes.take 80))) →
        reverse (hex m.root) = hex genesisLike.merkleRoot.reverse ∨
          Collision (dhash foldHash) (genesisLike.bytes.take 80 :: r.hashed)) :=
  have htxids : ∀ txid ∈ ([0x3b, 0x01, 0x07] : Bytes).map fun byte => hex (List.replicate 32 byte),
      HashText txid := List.forall_mem_map.mpr fun byte _ => hashText_replicate byte
  parsed_block_checks foldHash_length (run_parseBlock_cons genesisLike_fits rfl) htxids (by simp)
    (show Nat.clog 2 3 < 3 by decide +kernel)

end CryptoPlaypen.Bitcoin
