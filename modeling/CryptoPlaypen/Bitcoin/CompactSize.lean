import CryptoPlaypen.Buffer.ByteEncoding
import CryptoPlaypen.Buffer.SequentialReads

/-! Byte readers and the CompactSize encoding of lengths and counts: one byte, or
a marker byte before a little-endian integer of two, four or eight bytes. -/
namespace CryptoPlaypen.Bitcoin
open Buffer

def readBytes (k : Nat) : Reader UInt8 Bytes := Reader.times k Reader.token

def readLE (w : Nat) : Reader UInt8 Nat := do
  let bs ← readBytes w
  pure (leValue bs)

def compactSize (n : Nat) : Bytes :=
  if n < 0xfd then [UInt8.ofNat n]
  else if n < 2 ^ 16 then 0xfd :: leBytes 2 n
  else if n < 2 ^ 32 then 0xfe :: leBytes 4 n
  else 0xff :: leBytes 8 n

def readCompactSize : Reader UInt8 Nat := do
  let marker ← Reader.token
  if marker.toNat < 0xfd then pure marker.toNat
  else if marker.toNat = 0xfd then readLE 2
  else if marker.toNat = 0xfe then readLE 4
  else readLE 8

def sized (bs : Bytes) : Bytes := compactSize bs.length ++ bs

def readSized : Reader UInt8 Bytes := do
  let n ← readCompactSize
  readBytes n

def counted {α : Type} (enc : α → Bytes) (items : List α) : Bytes :=
  compactSize items.length ++ items.flatMap enc

def readCounted {α : Type} (r : Reader UInt8 α) : Reader UInt8 (List α) := do
  let n ← readCompactSize
  Reader.times n r

/-- An integer that a number holds exactly fits the widest form. -/
theorem lt_widest {n : Nat} (h : n < 2 ^ 53) : n < 2 ^ 64 := Nat.lt_trans h (by decide)

/-- A loop that adds the sizes of the items adds their sum. -/
theorem foldl_sum {α : Type} (items : List α) (size : α → Nat) (add : Nat → α → Nat)
    (hadd : ∀ c ∈ items, ∀ sum, add sum c = sum + size c) (start : Nat) :
    items.foldl add start = start + (items.map size).sum := by
  induction items generalizing start with
  | nil => rfl
  | cons c items ih =>
    rw [List.foldl_cons, hadd c List.mem_cons_self start,
      ih fun d hd => hadd d (List.mem_cons_of_mem _ hd), List.map_cons, List.sum_cons, Nat.add_assoc]

/-- A sum of lengths is the length of what is written. -/
theorem foldl_length {α : Type} (items : List α) (out : α → Bytes) (add : Nat → α → Nat)
    (hadd : ∀ c ∈ items, ∀ sum, add sum c = sum + (out c).length) (start : Nat) :
    items.foldl add start = start + (items.flatMap out).length := by
  rw [foldl_sum items (fun c => (out c).length) add hadd, List.length_flatMap]

theorem reads_bytes (bs : Bytes) : Reads (readBytes bs.length) bs bs := by
  have h := Reads.times bs (fun b => [b]) id fun b _ => Reads.token b
  rwa [List.flatMap_singleton', List.map_id] at h

theorem reads_bytes_of_length {bs : Bytes} {k : Nat} (h : bs.length = k) :
    Reads (readBytes k) bs bs := h ▸ reads_bytes bs

theorem reads_LE (w : Nat) {n : Nat} (h : n < 256 ^ w) : Reads (readLE w) (leBytes w n) n := by
  have hread := (reads_bytes_of_length (leBytes_length w n)).map leValue
  rwa [leValue_leBytes, Nat.mod_eq_of_lt h] at hread

/-- Every length below 2^64 is read back from its encoding. -/
theorem reads_compactSize {n : Nat} (h : n < 2 ^ 64) : Reads readCompactSize (compactSize n) n := by
  unfold compactSize
  split
  · have hn : (UInt8.ofNat n).toNat = n := UInt8.toNat_ofNat_of_lt' (show n < 256 by omega)
    intro rest
    rw [readCompactSize, (Reads.token _).run_bind, hn, if_pos (by assumption)]
    rfl
  · split
    · exact (Reads.token 0xfd).bind (reads_LE 2 (by omega))
    · split
      · exact (Reads.token 0xfe).bind (reads_LE 4 (by omega))
      · exact (Reads.token 0xff).bind (reads_LE 8 (by omega))

theorem reads_sized {bs : Bytes} (h : bs.length < 2 ^ 64) : Reads readSized (sized bs) bs :=
  (reads_compactSize h).bind (reads_bytes bs)

theorem reads_counted {α β : Type} {r : Reader UInt8 β} (items : List α) (enc : α → Bytes)
    (out : α → β) (hcount : items.length < 2 ^ 64) (hr : ∀ c ∈ items, Reads r (enc c) (out c)) :
    Reads (readCounted r) (counted enc items) (items.map out) :=
  (reads_compactSize hcount).bind (Reads.times items enc out hr)

private theorem consumes_bytes (k : Nat) : Consumes (readBytes k) k := by
  have h := (Consumes.token (τ := UInt8)).times k
  rwa [Nat.mul_one] at h

theorem consumes_LE (w : Nat) : Consumes (readLE w) w :=
  (consumes_bytes w).bind fun _ => Consumes.pure _

private theorem consumes_compactSize : Consumes readCompactSize 1 := by
  refine Consumes.token.bind (k := 0) fun marker => ?_
  split
  · exact Consumes.pure _
  · split
    · exact (consumes_LE 2).mono (by omega)
    · split
      · exact (consumes_LE 4).mono (by omega)
      · exact (consumes_LE 8).mono (by omega)

theorem consumes_sized : Consumes readSized 1 :=
  consumes_compactSize.bind (k := 0) fun n => (consumes_bytes n).mono (by omega)

theorem consumes_counted {α : Type} {r : Reader UInt8 α} (hr : Consumes r 0) :
    Consumes (readCounted r) 1 :=
  consumes_compactSize.bind (k := 0) fun n => hr.times n

end CryptoPlaypen.Bitcoin
