import CryptoPlaypen.Bitcoin.Script

/-! The grammar of scripts, read back from the bytes that the compiler emits. -/
namespace CryptoPlaypen.Bitcoin
open Buffer

namespace Chunk

/-- An opcode that is no push, or data whose length a push can announce. -/
def Valid : Chunk → Prop
  | opcode op => op < 256 ∧ (op = 0 ∨ 0x4e < op)
  | data d => d.length < 2 ^ 32

instance : DecidablePred Valid := fun chunk =>
  match chunk with
  | opcode op => inferInstanceAs (Decidable (op < 256 ∧ (op = 0 ∨ 0x4e < op)))
  | data d => inferInstanceAs (Decidable (d.length < 2 ^ 32))

/-- The policy of minimal pushes: what a single opcode can push is that opcode. -/
def minimalForm : Chunk → Chunk
  | data [] => opcode 0x00
  | data [b] =>
    if 1 ≤ b.toNat ∧ b.toNat ≤ 16 then opcode (0x50 + b.toNat)
    else if b = 0x81 then opcode 0x4f
    else data [b]
  | chunk => chunk

end Chunk

def readPushed (w : Nat) : Reader UInt8 Chunk := do
  let len ← readLE w
  let d ← readBytes len
  pure (.data d)

/-- A push gives its length in the opcode itself or in the one, two or four bytes after it. -/
def readChunk : Reader UInt8 Chunk := do
  let op ← Reader.token
  if op = 0x4c then readPushed 1
  else if op = 0x4d then readPushed 2
  else if op = 0x4e then readPushed 4
  else if 1 ≤ op.toNat ∧ op.toNat ≤ 0x4b then do
    let d ← readBytes op.toNat
    pure (.data d)
  else pure (.opcode op.toNat)

/-- Every chunk takes a byte at least, so the length is fuel enough. -/
def decodeScript (script : Bytes) : Option (List Chunk) :=
  Reader.untilEnd readChunk script.length script

theorem Chunk.Valid.fits {chunk : Chunk} (h : chunk.Valid) : chunk.Fits := by
  cases chunk with
  | opcode op => exact h.1
  | data d => exact h

private theorem ofNat_ne {n : Nat} {b : UInt8} (hn : n < 256) (h : n ≠ b.toNat) : UInt8.ofNat n ≠ b := by
  intro he
  apply h
  rw [← he, UInt8.toNat_ofNat_of_lt' hn]

/-- A first byte that is none of the three opcodes with an operand. -/
theorem run_readChunk {n : Nat} (h : n < 256) (hop : n < 0x4c ∨ 0x4e < n) (rest : Bytes) :
    readChunk.run (UInt8.ofNat n :: rest) =
      if 1 ≤ n ∧ n ≤ 0x4b then (do
        let d ← readBytes n
        pure (.data d) : Reader UInt8 Chunk).run rest
      else some (.opcode n, rest) := by
  have h1 : UInt8.ofNat n ≠ 0x4c := ofNat_ne h (show n ≠ 0x4c by omega)
  have h2 : UInt8.ofNat n ≠ 0x4d := ofNat_ne h (show n ≠ 0x4d by omega)
  have h4 : UInt8.ofNat n ≠ 0x4e := ofNat_ne h (show n ≠ 0x4e by omega)
  change ((if _ then _ else _ : Reader UInt8 Chunk)).run rest = _
  rw [if_neg h1, if_neg h2, if_neg h4, UInt8.toNat_ofNat_of_lt' h]
  split <;> rfl

private theorem reads_opcode {op : Nat} (h : (Chunk.opcode op).Valid) :
    Reads readChunk (leBytes 1 op) (.opcode op) := by
  intro rest
  have hop := h.2
  exact (run_readChunk h.1 (by omega) rest).trans (if_neg (by omega))

private theorem reads_pushed (w : Nat) {d : Bytes} (h : d.length < 256 ^ w) :
    Reads (readPushed w) (leBytes w d.length ++ d) (.data d) :=
  (reads_LE w h).bind ((reads_bytes d).map Chunk.data)

/-- Data that no opcode stands for is read back, at every size of its prefix. -/
theorem reads_data {d : Bytes} (hne : d ≠ []) (h : d.length < 2 ^ 32) :
    Reads readChunk (pushLength d.length ++ d) (.data d) := by
  have hpos := List.length_pos_iff.mpr hne
  unfold pushLength
  split
  · intro rest
    have hread := ((reads_bytes d).map Chunk.data) rest
    exact (run_readChunk (by omega) (by omega) (d ++ rest)).trans ((if_pos (by omega)).trans hread)
  · split
    · exact (Reads.token 0x4c).bind (reads_pushed 1 (by omega))
    · split
      · exact (Reads.token 0x4d).bind (reads_pushed 2 (by omega))
      · exact (Reads.token 0x4e).bind (reads_pushed 4 (by omega))

/-- The opcode that the compiler takes is the one of the policy, and is no push. -/
theorem minimalForm_of_asMinimalOP {d : Bytes} {op : Nat} (h : asMinimalOP d = some op) :
    (Chunk.data d).minimalForm = .opcode op ∧ (Chunk.opcode op).Valid := by
  unfold asMinimalOP at h
  split at h
  · cases h
    exact ⟨rfl,by decide,.inl rfl⟩
  · split at h
    · cases h
      rename_i b hb
      refine ⟨if_pos hb,?_⟩
      simp only [Chunk.Valid, OPS.OP_RESERVED]
      omega
    · split at h <;> cases h
      rename_i hb hneg
      exact ⟨(if_neg hb).trans (if_pos hneg),by decide,.inr (by decide)⟩
  · cases h

private theorem minimalForm_of_none {d : Bytes} (h : asMinimalOP d = none) :
    (Chunk.data d).minimalForm = .data d ∧ d ≠ [] := by
  match d, h with
  | [b], h =>
    simp only [asMinimalOP] at h
    split at h
    · cases h
    · split at h
      · cases h
      · rename_i hb hneg
        exact ⟨(if_neg hb).trans (if_neg hneg),nofun⟩
  | _ :: _ :: _, _ => exact ⟨rfl,nofun⟩

private theorem reads_chunk {chunk : Chunk} (h : chunk.Valid) : Reads readChunk chunk.bytes chunk.minimalForm := by
  cases chunk with
  | opcode op => exact reads_opcode h
  | data d =>
    cases hmin : asMinimalOP d with
    | some op =>
      obtain ⟨hform,hvalid⟩ := minimalForm_of_asMinimalOP hmin
      simp only [Chunk.bytes, hmin, hform]
      exact reads_opcode hvalid
    | none =>
      obtain ⟨hform,hne⟩ := minimalForm_of_none hmin
      simp only [Chunk.bytes, hmin, hform]
      exact reads_data hne h

theorem Chunk.bytes_ne_nil (chunk : Chunk) : chunk.bytes ≠ [] := by
  cases chunk with
  | opcode op => exact List.cons_ne_nil _ _
  | data d =>
    cases hmin : asMinimalOP d with
    | some op =>
      simp only [Chunk.bytes, hmin]
      exact List.cons_ne_nil _ _
    | none =>
      simp only [Chunk.bytes, hmin]
      exact List.append_ne_nil_of_right_ne_nil _ (minimalForm_of_none hmin).2

theorem decodeScript_bytes {chunks : List Chunk} (h : ∀ chunk ∈ chunks, chunk.Valid) :
    decodeScript (chunks.flatMap Chunk.bytes) = some (chunks.map Chunk.minimalForm) :=
  Reads.untilEnd chunks Chunk.bytes Chunk.minimalForm (fun chunk hmem => reads_chunk (h chunk hmem))
    (fun chunk _ => chunk.bytes_ne_nil) _ (Nat.le_refl _)

section Compiler
variable {D : PushData} (laws : PushDataLaws D)
include laws

private theorem compileScript_filledExactly {chunks : List Chunk} (h : ∀ chunk ∈ chunks, chunk.Fits) :
    FilledExactly (scriptSize D chunks) (chunks.forM (writeChunk D)) (compileScript D chunks) := by
  have hsize : Stores (chunks.forM (writeChunk D)) (scriptSize D chunks) :=
    (writes_chunks laws h).stores.congr (scriptSize_eq laws h).symm
  obtain ⟨c,hc,hlength,hposition,-⟩ := filledExactly_of_stores hsize rfl
  refine ⟨c,hc,hlength,hposition,?_⟩
  rw [compileScript, hc]
  exact if_pos hposition

private theorem compileScript_decoded {chunks : List Chunk} (h : ∀ chunk ∈ chunks, chunk.Valid) :
    (compileScript D chunks).bind decodeScript = some (chunks.map Chunk.minimalForm) := by
  rw [compileScript_eq laws fun chunk hmem => (h chunk hmem).fits]
  exact decodeScript_bytes h

/-- The compiler fills exactly what it allocates, the grammar reads the result back as the
minimal pushes, and equal results therefore come from equal minimal pushes. -/
theorem compileScript_decodable {chunks : List Chunk} (h : ∀ chunk ∈ chunks, chunk.Valid) :
    FilledExactly (scriptSize D chunks) (chunks.forM (writeChunk D)) (compileScript D chunks) ∧
      (compileScript D chunks).bind decodeScript = some (chunks.map Chunk.minimalForm) ∧
      ∀ others : List Chunk, (∀ chunk ∈ others, chunk.Valid) →
        compileScript D others = compileScript D chunks →
          others.map Chunk.minimalForm = chunks.map Chunk.minimalForm := by
  refine ⟨compileScript_filledExactly laws fun chunk hmem => (h chunk hmem).fits,
    compileScript_decoded laws h,fun others hothers hsame => ?_⟩
  have hdecoded := compileScript_decoded laws hothers
  rw [hsame, compileScript_decoded laws h] at hdecoded
  exact (Option.some.inj hdecoded).symm

end Compiler

/-- A minimal push, a direct push and an opcode. -/
theorem compileScript_decodable_three :
    compileScript wirePushData [.data [5], .data [7, 8], .opcode 0xac] = some [0x55, 2, 7, 8, 0xac] ∧
      decodeScript [0x55, 2, 7, 8, 0xac] = some [.opcode 0x55, .data [7, 8], .opcode 0xac] := by
  have h : ∀ chunk ∈ [Chunk.data [5], .data [7, 8], .opcode 0xac], chunk.Valid := by decide
  have hcompiled : compileScript wirePushData [.data [5], .data [7, 8], .opcode 0xac] =
      some [0x55, 2, 7, 8, 0xac] := by decide
  obtain ⟨-,hdecoded,-⟩ := compileScript_decodable wirePushData_laws h
  rw [hcompiled] at hdecoded
  exact ⟨hcompiled,hdecoded⟩

end CryptoPlaypen.Bitcoin
