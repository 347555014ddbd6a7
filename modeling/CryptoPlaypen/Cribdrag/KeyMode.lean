import CryptoPlaypen.Cribdrag.TwoTimePad

/-! The mode `key` of `q2.js`: from a guess at a part of one plaintext it makes a piece of the key and
shows every ciphertext under it. The rows are right all together or not at all. -/
namespace CryptoPlaypen.Cribdrag.Q2
open Buffer Blockmode

/-- `buffer.toString('ascii')`, by the codes of its characters: the highest bit is dropped. -/
def ascii (buf : Bytes) : Bytes := buf.map (· &&& 0x7f)

def genKey (cipher plain : Bytes) (start : Nat) : Bytes :=
  (List.range (plain.length + start)).map fun i =>
    if start ≤ i then byteAt cipher i ^^^ byteAt plain (i - start) else 0

def keyTest (ciphers : List Bytes) (key : Bytes) : List Bytes :=
  ciphers.map fun cipher => ascii (xor key cipher key.length)

/-- A number that names no ciphertext throws as soon as one of its bytes is read. -/
def keyMode (ciphers : List Bytes) (text : Bytes) (cipher index : Nat) : Option (List Bytes) :=
  match ciphers[cipher]? with
  | some c => some (keyTest ciphers (genKey c text index))
  | none => if text = [] then some (keyTest ciphers (genKey [] [] index)) else none

private theorem and_xor_distrib (a b c : UInt8) : (a ^^^ b) &&& c = (a &&& c) ^^^ (b &&& c) := by
  rw [← UInt8.toNat_inj]
  simp only [UInt8.toNat_and, UInt8.toNat_xor, Nat.and_xor_distrib_right]

/-- A byte shown under a guessed key is the one that was encrypted exactly if the guess is. -/
theorem shown_iff (a b g k : UInt8) :
    (b ^^^ k ^^^ g ^^^ (a ^^^ k) ^^^ 0) &&& 0x7f = a &&& 0x7f ↔ g &&& 0x7f = b &&& 0x7f := by
  have hpad : b ^^^ k ^^^ g ^^^ (a ^^^ k) ^^^ 0 = g ^^^ b ^^^ a := by
    rw [UInt8.xor_zero, UInt8.xor_comm (b ^^^ k) g, ← UInt8.xor_assoc g b k, xor_key_cancel]
  rw [hpad, and_xor_distrib, and_xor_distrib]
  calc g &&& 0x7f ^^^ b &&& 0x7f ^^^ a &&& 0x7f = a &&& 0x7f
      ↔ g &&& 0x7f ^^^ b &&& 0x7f ^^^ a &&& 0x7f = 0 ^^^ a &&& 0x7f := by rw [UInt8.zero_xor]
    _ ↔ g &&& 0x7f ^^^ b &&& 0x7f = 0 := UInt8.xor_left_inj _
    _ ↔ g &&& 0x7f = b &&& 0x7f := UInt8.xor_eq_zero_iff

section Bytes
variable {b c : Bytes} {i k n : Nat}

private theorem byteAt_ascii (b : Bytes) (i : Nat) : byteAt (ascii b) i = byteAt b i &&& 0x7f := by
  rw [byteAt, byteAt, ascii, List.getD_eq_getElem?_getD, List.getD_eq_getElem?_getD, List.getElem?_map]
  cases b[i]? with
  | none => rfl
  | some byte => rfl

private theorem byteAt_drop (b : Bytes) (k i : Nat) : byteAt (b.drop k) i = byteAt b (k + i) := by
  simp [byteAt]

private theorem byteAt_slice (b : Bytes) (h : i < n) : byteAt (slice b k (k + n)) i = byteAt b (k + i) := by
  simp [byteAt, slice, List.getElem?_take_of_lt (show k + i < k + n by omega)]

private theorem byteAt_xor (b c : Bytes) (h : i < n) :
    byteAt (xor b c n) i = byteAt b i ^^^ byteAt c i ^^^ 0 := by
  simp [byteAt, xor, List.getElem?_range h]

private theorem byteAt_genKey (cipher plain : Bytes) (start : Nat) (h : i < plain.length) :
    byteAt (genKey cipher plain start) (start + i) = byteAt cipher (start + i) ^^^ byteAt plain i := by
  simp [byteAt, genKey, List.getElem?_range (show start + i < plain.length + start by omega)]

private theorem byteAt_genKey_before (cipher plain : Bytes) {start : Nat} (h : i < start) :
    byteAt (genKey cipher plain start) i = 0 := by
  have hnot : ¬ start ≤ i := Nat.not_le.mpr h
  simp [byteAt, genKey, List.getElem?_range (show i < plain.length + start by omega), hnot]

private theorem byteAt_take (b : Bytes) (h : i < n) : byteAt (b.take n) i = byteAt b i := by
  simp [byteAt, List.getElem?_take_of_lt h]

private theorem byteAt_append_zeros (b : Bytes) (n i : Nat) : byteAt (b ++ zeros n) i = byteAt b i := by
  rw [byteAt, byteAt, List.getD_eq_getElem?_getD, List.getD_eq_getElem?_getD]
  by_cases hi : i < b.length
  · rw [List.getElem?_append_left hi]
  · rw [List.getElem?_append_right (Nat.not_lt.mp hi), List.getElem?_eq_none (Nat.not_lt.mp hi), zeros,
      List.getElem?_replicate]
    split <;> rfl

private theorem byteAt_xorBytes (hlength : b.length ≤ c.length) (h : i < b.length) :
    byteAt (xorBytes b c) i = byteAt b i ^^^ byteAt c i := by
  have hc : i < c.length := by omega
  simp [byteAt, xorBytes, h, hc]

private theorem eq_iff_byteAt (hb : b.length = n) (hc : c.length = n) :
    b = c ↔ ∀ i < n, byteAt b i = byteAt c i := by
  refine ⟨fun h i _ => h ▸ rfl,fun h => List.ext_getElem (hb.trans hc.symm) fun i hi hi' => ?_⟩
  simpa [byteAt, hi, hi'] using h i (hb ▸ hi)

end Bytes

section Rows
variable {pad text m p : Bytes} {plains : List Bytes} {start : Nat}

def padded (pad : Bytes) (plains : List Bytes) : List Bytes := plains.map fun m => xorBytes m pad

def keyRow (pad p text : Bytes) (start : Nat) (m : Bytes) : Bytes :=
  ascii (xor (genKey (xorBytes p pad) text start) (xorBytes m pad) (text.length + start))

private theorem keyRow_length (pad p text : Bytes) (start : Nat) (m : Bytes) :
    (keyRow pad p text start m).length = text.length + start := by
  simp [keyRow, ascii, xor]

/-- Before the place of the guess the row shows the ciphertext, and zeros where it has ended. -/
theorem keyRow_before (pad p text : Bytes) (start : Nat) (m : Bytes) :
    (keyRow pad p text start m).take start = ascii ((xorBytes m pad ++ zeros start).take start) := by
  refine (eq_iff_byteAt (n := start) ?_ ?_).mpr fun i hi => ?_
  · rw [List.length_take, keyRow_length]
    omega
  · rw [ascii, List.length_map, List.length_take, List.length_append, zeros_length]
    omega
  · rw [byteAt_take _ hi, keyRow, byteAt_ascii, byteAt_xor _ _ (by omega), byteAt_genKey_before _ _ hi,
      byteAt_ascii, byteAt_take _ hi, byteAt_append_zeros, UInt8.zero_xor, UInt8.xor_zero]

/-- At its place the row is right exactly if the guess is. -/
theorem keyRow_iff (hp : p.length ≤ pad.length) (hm : m.length ≤ pad.length)
    (hplace : start + text.length ≤ p.length) (hfits : start + text.length ≤ m.length) :
    (keyRow pad p text start m).drop start = ascii (slice m start (start + text.length)) ↔
      ascii text = ascii (slice p start (start + text.length)) := by
  have hrow : ((keyRow pad p text start m).drop start).length = text.length := by
    rw [List.length_drop, keyRow_length, Nat.add_sub_cancel]
  have hwindow {b : Bytes} (h : start + text.length ≤ b.length) :
      (ascii (slice b start (start + text.length))).length = text.length := by
    rw [ascii, List.length_map, slice_length h]
  have hguess : (ascii text).length = text.length := List.length_map _
  rw [eq_iff_byteAt hrow (hwindow hfits), eq_iff_byteAt hguess (hwindow hplace)]
  refine forall₂_congr fun i hi => ?_
  rw [byteAt_drop, keyRow, byteAt_ascii, byteAt_xor _ _ (by omega), byteAt_genKey _ _ _ hi,
    byteAt_xorBytes hp (by omega), byteAt_xorBytes hm (by omega), byteAt_ascii, byteAt_slice _ hi,
    byteAt_ascii, byteAt_ascii, byteAt_slice _ hi]
  exact shown_iff _ _ _ _

/-- A guess that lies within its ciphertext gives a row for each one. Before the guess a row shows its
ciphertext. Where the guess reaches, the rows of those that are long enough show what was encrypted
if the guess is right, and none of them does if it is wrong. -/
theorem key_rows_agree (hpad : ∀ m ∈ plains, m.length ≤ pad.length) {cipher : Nat}
    (hcipher : plains[cipher]? = some p) (hplace : start + text.length ≤ p.length) :
    ∃ rows, keyMode (padded pad plains) text cipher start = some rows ∧ rows.length = plains.length ∧
      ∀ (i : Nat) m, plains[i]? = some m → ∃ row : Bytes, rows[i]? = some row ∧
        row.take start = ascii ((xorBytes m pad ++ zeros start).take start) ∧
        (start + text.length ≤ m.length →
          (row.drop start = ascii (slice m start (start + text.length)) ↔
            ascii text = ascii (slice p start (start + text.length)))) := by
  have hp := hpad p (List.mem_of_getElem? hcipher)
  have hrows : keyMode (padded pad plains) text cipher start =
      some (plains.map (keyRow pad p text start)) := by
    have hkey : (genKey (xorBytes p pad) text start).length = text.length + start := by simp [genKey]
    rw [keyMode, padded, List.getElem?_map, hcipher]
    simp only [Option.map_some, keyTest, List.map_map, hkey]
    rfl
  refine ⟨_,hrows,List.length_map _,fun i m hi => ⟨keyRow pad p text start m,?_,?_,?_⟩⟩
  · rw [List.getElem?_map, hi]
    rfl
  · exact keyRow_before pad p text start m
  · exact keyRow_iff hp (hpad m (List.mem_of_getElem? hi)) hplace

/-- Of three words under one pad, the last letter of one is guessed, and another one is too short. -/
theorem key_rows_agree_letter : ∃ rows,
    keyMode (padded [1,2,3] [[0x61,0x62,0x63],[0x64],[0x65,0x66,0x67]]) [0x63] 0 2 = some rows ∧
      rows.length = 3 ∧
      ∀ (i : Nat) m, ([[0x61,0x62,0x63],[0x64],[0x65,0x66,0x67]] : List Bytes)[i]? = some m →
        ∃ row : Bytes, rows[i]? = some row ∧
          row.take 2 = ascii ((xorBytes m [1,2,3] ++ zeros 2).take 2) ∧
          (2 + ([0x63] : Bytes).length ≤ m.length →
            (row.drop 2 = ascii (slice m 2 (2 + ([0x63] : Bytes).length)) ↔
              ascii [0x63] = ascii (slice [0x61,0x62,0x63] 2 (2 + ([0x63] : Bytes).length)))) :=
  key_rows_agree (by decide) rfl (by decide)

end Rows

end CryptoPlaypen.Cribdrag.Q2
