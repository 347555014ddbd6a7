import CryptoPlaypen.Go.Slices

/-! The hash of a file by chunks, from the last to the first. The hash of what follows a chunk
is appended to it in the caller's array, over bytes that have been hashed before. -/
namespace CryptoPlaypen.Hmac
open Buffer Go

/-- The type `[32]byte`. -/
abbrev Digest := { b : Bytes // b.length = 32 }

def chunkSize : Nat := 1024

/-- The loop with `n` rounds left, as `startIndex` is then `n - 1` chunks. The state is the
hash, and next to it the inputs that have been hashed. -/
def rounds (spare : Nat → Nat → Nat) (sum256 : Bytes → Digest) (data : Slice) :
    Nat → Nat → Digest × List Bytes → Exec (Digest × List Bytes)
  | 0, _, state => pure state
  | n + 1, endIndex, state => do
    let startIndex := n * chunkSize
    let chunk ← data.reslice startIndex endIndex
    let input ← if endIndex = data.len then pure chunk else chunk.append spare state.1.1
    let bytes ← input.read
    rounds spare sum256 data n startIndex (sum256 bytes,state.2 ++ [bytes])

/-- The loop ends when `startIndex` is negative, which it is at once for an empty slice. -/
def hmac (spare : Nat → Nat → Nat) (sum256 : Bytes → Digest) (data : Slice) :
    Exec (Digest × List Bytes) :=
  let startIndex : Int := data.len - (data.len % chunkSize : Nat)
  let endIndex := data.len
  let startIndex := if startIndex = endIndex then startIndex - chunkSize else startIndex
  rounds spare sum256 data (startIndex / chunkSize + 1).toNat endIndex (⟨zeros 32,rfl⟩,[])

def chunks (n : Nat) (data : Bytes) : List Bytes :=
  (List.range n).map fun i => (data.drop (i * chunkSize)).take chunkSize

def chunksOf (data : Bytes) : List Bytes := chunks ((data.length + (chunkSize - 1)) / chunkSize) data

/-- A way to cut a file: chunks of the full size, and a last one that is not empty. -/
def Cut : List Bytes → Prop
  | [] => False
  | [c] => 0 < c.length ∧ c.length ≤ chunkSize
  | c :: cs => c.length = chunkSize ∧ Cut cs

/-- The last chunk is hashed alone, every other with the hash of what follows. -/
def chained (sum256 : Bytes → Digest) : List Bytes → Digest
  | [] => ⟨zeros 32,rfl⟩
  | [c] => sum256 c
  | c :: cs => sum256 (c ++ (chained sum256 cs).1)

def inputs (sum256 : Bytes → Digest) : List Bytes → List Bytes
  | [] => []
  | [c] => [c]
  | c :: cs => inputs sum256 cs ++ [c ++ (chained sum256 cs).1]

/-- One round on a chunk that is not the last. -/
def link (sum256 : Bytes → Digest) (c : Bytes) (state : Digest × List Bytes) : Digest × List Bytes :=
  (sum256 (c ++ state.1.1),state.2 ++ [c ++ state.1.1])

section Chains
variable (sum256 : Bytes → Digest)

private theorem chained_cons (c : Bytes) {cs : List Bytes} (h : cs ≠ []) :
    chained sum256 (c :: cs) = sum256 (c ++ (chained sum256 cs).1) := by
  cases cs with
  | nil => exact absurd rfl h
  | cons d cs => rfl

theorem inputs_cons (c : Bytes) {cs : List Bytes} (h : cs ≠ []) :
    inputs sum256 (c :: cs) = inputs sum256 cs ++ [c ++ (chained sum256 cs).1] := by
  cases cs with
  | nil => exact absurd rfl h
  | cons d cs => rfl

/-- The chain from its end. -/
theorem foldr_link (cs : List Bytes) (last : Bytes) :
    cs.foldr (link sum256) (sum256 last,[last]) =
      (chained sum256 (cs ++ [last]),inputs sum256 (cs ++ [last])) := by
  induction cs with
  | nil => rfl
  | cons c cs ih =>
    have hne : cs ++ [last] ≠ [] := by simp
    rw [List.foldr_cons, ih, List.cons_append, chained_cons sum256 c hne, inputs_cons sum256 c hne, link]

end Chains

section Cut
variable (data : Bytes)

private theorem chunks_succ (n : Nat) : chunks (n + 1) data =
    chunks n data ++ [(data.drop (n * chunkSize)).take chunkSize] := by
  simp [chunks, List.range_succ]

/-- From the front: the first chunk, and those of the rest. -/
theorem chunks_cons (n : Nat) : chunks (n + 1) data =
    data.take chunkSize :: chunks n (data.drop chunkSize) := by
  simp [chunks, List.range_succ_eq_map, Function.comp_def, Nat.succ_mul, Nat.add_comm]

theorem Cut.cons {c : Bytes} {cs : List Bytes} (hc : c.length = chunkSize) (h : Cut cs) :
    Cut (c :: cs) := by
  cases cs with
  | nil => exact h.elim
  | cons d cs => exact ⟨hc,h⟩

/-- Of a file that ends in the last of these chunks they are a cut. -/
theorem cut_chunks {n : Nat} {data : Bytes} (h : n * chunkSize < data.length)
    (h' : data.length ≤ (n + 1) * chunkSize) :
    Cut (chunks (n + 1) data) ∧ (chunks (n + 1) data).flatten = data := by
  induction n generalizing data with
  | zero =>
    have hall : data.take chunkSize = data := List.take_of_length_le (by omega)
    rw [chunks_cons, hall]
    exact ⟨⟨by omega,by omega⟩,by simp [chunks]⟩
  | succ n ih =>
    simp only [Nat.succ_mul] at h h' ih
    have hrest := List.length_drop (i := chunkSize) (l := data)
    have hlow : n * chunkSize < (data.drop chunkSize).length := by omega
    have hhigh : (data.drop chunkSize).length ≤ n * chunkSize + chunkSize := by omega
    obtain ⟨hcut,hflatten⟩ := ih hlow hhigh
    rw [chunks_cons]
    refine ⟨hcut.cons (List.length_take_of_le (by omega)),?_⟩
    rw [List.flatten_cons, hflatten, List.take_append_drop]

/-- How many chunks there are, and where the last begins and ends. -/
theorem chunk_count {len : Nat} (hpos : 0 < len) : ∃ n, (len + (chunkSize - 1)) / chunkSize = n + 1 ∧
    n * chunkSize < len ∧ len ≤ (n + 1) * chunkSize := by
  simp only [chunkSize]
  exact ⟨(len + 1023) / 1024 - 1,by omega,by omega,by omega⟩

theorem cut_chunksOf {data : Bytes} (hpos : 0 < data.length) :
    Cut (chunksOf data) ∧ (chunksOf data).flatten = data := by
  obtain ⟨n,hn,hlow,hhigh⟩ := chunk_count hpos
  rw [chunksOf, hn]
  exact cut_chunks hlow hhigh

theorem Cut.flatten_pos {cs : List Bytes} (h : Cut cs) : 0 < cs.flatten.length := by
  rcases cs with _ | ⟨c,_ | ⟨d,cs⟩⟩
  · exact h.elim
  · simpa using h.1
  · rw [List.flatten_cons, List.length_append, h.1]
    exact Nat.add_pos_left (by decide) _

/-- There is one way to cut a file. -/
theorem Cut.unique {cs ds : List Bytes} (hc : Cut cs) (hd : Cut ds) (h : cs.flatten = ds.flatten) :
    cs = ds := by
  induction cs generalizing ds with
  | nil => exact hc.elim
  | cons c cs ih =>
    have hlength := congrArg List.length h
    rcases cs with _ | ⟨c',cs⟩ <;> rcases ds with _ | ⟨d,_ | ⟨d',ds⟩⟩
    · exact hd.elim
    · simpa using h
    · -- a single chunk is not as long as two
      have hpos := hd.2.flatten_pos
      have hfull := hd.1
      have hsmall := hc.2
      rw [List.flatten_cons, List.flatten_cons, List.length_append, List.length_append] at hlength
      simp only [List.flatten_nil, List.length_nil] at hlength
      omega
    · exact hd.elim
    · have hpos := hc.2.flatten_pos
      have hfull := hc.1
      have hsmall := hd.2
      rw [List.flatten_cons, List.flatten_cons (l := d), List.length_append, List.length_append] at hlength
      simp only [List.flatten_nil, List.length_nil] at hlength
      omega
    · obtain ⟨rfl,hrest⟩ := List.append_inj h (hc.1.trans hd.1.symm)
      rw [ih hc.2 hd.2 hrest]

theorem Cut.eq_chunksOf {cs : List Bytes} (h : Cut cs) {data : Bytes} (hcs : cs.flatten = data) :
    cs = chunksOf data := by
  have hpos : 0 < data.length := hcs ▸ h.flatten_pos
  obtain ⟨hcut,hflatten⟩ := cut_chunksOf hpos
  exact h.unique hcut (hcs.trans hflatten.symm)

end Cut

section Runs
variable {σ ρ τ : Memory} {data : Slice} (spare : Nat → Nat → Nat) (sum256 : Bytes → Digest)

/-- A chunk of the slice, while what it was is still there. -/
theorem chunk_window {n : Nat} (hn : (n + 1) * chunkSize ≤ data.len)
    (h : ρ.window data.off ((n + 1) * chunkSize) = (data.content σ).take ((n + 1) * chunkSize)) :
    ρ.window (data.off + n * chunkSize) chunkSize =
        ((data.content σ).drop (n * chunkSize)).take chunkSize ∧
      ρ.window data.off (n * chunkSize) = (data.content σ).take (n * chunkSize) := by
  have hsplit : (data.content σ).take ((n + 1) * chunkSize) = (data.content σ).take (n * chunkSize) ++
      ((data.content σ).drop (n * chunkSize)).take chunkSize := by
    rw [Nat.succ_mul, List.take_add]
  have hlength : (ρ.window data.off (n * chunkSize)).length =
      ((data.content σ).take (n * chunkSize)).length := by
    rw [window_length, List.length_take, Slice.content_length]
    rw [Nat.succ_mul] at hn
    omega
  rw [hsplit, Nat.succ_mul, window_add] at h
  exact (List.append_inj h hlength).symm

def innerChunk (data : Slice) (n : Nat) (h : (n + 1) * chunkSize < data.len) : Slice where
  off := data.off + n * chunkSize
  len := chunkSize
  cap := data.cap - n * chunkSize
  len_le := by
    have hcap := data.len_le
    rw [Nat.succ_mul] at h
    omega

/-- A round on it, from what `append` does. -/
theorem run_innerRound {n : Nat} (h : (n + 1) * chunkSize < data.len) {state : Digest × List Bytes}
    {input : Slice} (happend : ((innerChunk data n h).append spare state.1.1).run ρ = some (input,τ)) :
    (rounds spare sum256 data (n + 1) ((n + 1) * chunkSize) state).run ρ =
      (rounds spare sum256 data n (n * chunkSize) (sum256 (input.content τ),
        state.2 ++ [input.content τ])).run τ := by
  have hcap := data.len_le
  have hlast : (n + 1) * chunkSize = n * chunkSize + chunkSize := Nat.succ_mul n chunkSize
  have hbounds : n * chunkSize ≤ (n + 1) * chunkSize ∧ (n + 1) * chunkSize ≤ data.cap := by omega
  have hchunk : (data.reslice (n * chunkSize) ((n + 1) * chunkSize)).run ρ =
      some (innerChunk data n h,ρ) := by
    rw [Slice.run_reslice hbounds]
    simp only [innerChunk, hlast, Nat.add_sub_cancel_left]
  rw [rounds, run_then hchunk, if_neg h.ne, run_then happend, run_then Slice.run_read]

/-- The rounds before a chunk that has been hashed. What they write lies behind what they have
still to read. -/
theorem run_rounds {n : Nat} (hn : n * chunkSize < data.len) (hdata : data.Allocated ρ)
    (h : ρ.window data.off (n * chunkSize) = (data.content σ).take (n * chunkSize))
    (state : Digest × List Bytes) : ∃ τ, (rounds spare sum256 data n (n * chunkSize) state).run ρ =
      some ((chunks n (data.content σ)).foldr (link sum256) state,τ) ∧ ρ.next ≤ τ.next := by
  induction n generalizing ρ state with
  | zero => exact ⟨ρ,rfl,Nat.le_refl _⟩
  | succ n ih =>
    obtain ⟨hchunk,hrest⟩ := chunk_window (Nat.le_of_lt hn) h
    have hlast : (n + 1) * chunkSize = n * chunkSize + chunkSize := Nat.succ_mul n chunkSize
    obtain ⟨input,τ,happend,hcontent,hframe,hnext⟩ :=
      Slice.run_append_frame (σ := ρ) (s := innerChunk data n hn) spare state.1.1
    have hinput : input.content τ =
        ((data.content σ).drop (n * chunkSize)).take chunkSize ++ state.1.1 := by
      rw [hcontent, ← hchunk]
      rfl
    have hkept : τ.window data.off (n * chunkSize) = (data.content σ).take (n * chunkSize) := by
      have hcap := data.len_le
      rw [← hrest]
      apply window_congr
      intro i hi
      rw [Slice.Allocated] at hdata
      exact hframe _ (by simp only [innerChunk]; omega) (by omega)
    obtain ⟨υ,hrounds,hnext'⟩ := ih (by omega) (hdata.trans hnext) hkept
      (link sum256 (((data.content σ).drop (n * chunkSize)).take chunkSize) state)
    refine ⟨υ,?_,hnext.trans hnext'⟩
    rw [run_innerRound spare sum256 hn happend, hinput, chunks_succ, List.foldr_append]
    exact hrounds

/-- How often the loop runs. -/
theorem rounds_count (len : Nat) :
    ((if ((len : Int) - (len % chunkSize : Nat) = len) then (len : Int) - (len % chunkSize : Nat) - chunkSize
      else (len : Int) - (len % chunkSize : Nat)) / chunkSize + 1).toNat =
      (len + (chunkSize - 1)) / chunkSize := by
  by_cases hwhole : len % chunkSize = 0
  · rw [if_pos (by omega)]
    simp only [chunkSize] at hwhole ⊢
    omega
  · rw [if_neg (by omega)]
    simp only [chunkSize] at hwhole ⊢
    omega

/-- The last chunk, or the only one, is hashed where it is. -/
theorem run_hmac (hdata : data.Allocated σ) (hpos : 0 < data.len) :
    ∃ τ, (hmac spare sum256 data).run σ = some ((chained sum256 (chunksOf (data.content σ)),
      inputs sum256 (chunksOf (data.content σ))),τ) ∧ σ.next ≤ τ.next := by
  obtain ⟨n,hn,hlow,hhigh⟩ := chunk_count hpos
  have hcap := data.len_le
  have hlast : Slice.content ⟨data.off + n * chunkSize,data.len - n * chunkSize,data.cap - n * chunkSize,
      Nat.sub_le_sub_right hcap _⟩ σ = ((data.content σ).drop (n * chunkSize)).take chunkSize := by
    have hrest : (data.content σ).drop (n * chunkSize) =
        σ.window (data.off + n * chunkSize) (data.len - n * chunkSize) := window_drop hlow.le
    rw [Nat.succ_mul] at hhigh
    rw [hrest, List.take_of_length_le (by rw [window_length]; omega)]
    rfl
  have hkept : σ.window data.off (n * chunkSize) = (data.content σ).take (n * chunkSize) :=
    (window_take hlow.le).symm
  obtain ⟨τ,hrounds,hnext⟩ := run_rounds spare sum256 hlow hdata hkept
    (sum256 (((data.content σ).drop (n * chunkSize)).take chunkSize),
      [((data.content σ).drop (n * chunkSize)).take chunkSize])
  refine ⟨τ,?_,hnext⟩
  have hchunks : chunksOf (data.content σ) = chunks n (data.content σ) ++
      [((data.content σ).drop (n * chunkSize)).take chunkSize] := by
    rw [chunksOf, Slice.content_length, hn, chunks_succ]
  rw [hmac, rounds_count, hn, rounds, run_then (Slice.run_reslice ⟨by omega,hcap⟩), if_pos rfl]
  rw [hchunks, ← foldr_link, ← hlast]
  rw [← hlast] at hrounds
  exact hrounds

/-- Whatever is behind the slice, the hash is that of the chunks as they were before the call. -/
theorem hmac_eq_chained (hdata : data.Allocated σ) {cs : List Bytes} (hcut : Cut cs)
    (hcs : cs.flatten = data.content σ) :
    ∃ hashed τ, (hmac spare sum256 data).run σ = some ((chained sum256 cs,hashed),τ) := by
  have hpos : 0 < data.len := by
    rw [← Slice.content_length (σ := σ), ← hcs]
    exact hcut.flatten_pos
  obtain ⟨τ,hrun,_⟩ := run_hmac spare sum256 hdata hpos
  rw [← hcut.eq_chunksOf hcs] at hrun
  exact ⟨_,τ,hrun⟩

end Runs

def lastByte (b : Bytes) : Digest := ⟨List.replicate 32 (b.getLastD 0 + 1),List.length_replicate⟩

def zeroFile : Slice := ⟨0,1025,1056,by decide⟩

def zeroMemory : Memory := ⟨fun _ => 0,1056⟩

theorem zeroFile_content : zeroFile.content zeroMemory = zeros chunkSize ++ [0] := by
  rw [Slice.content, Memory.window]
  exact (List.map_const' ..).trans (List.length_range ▸ List.replicate_succ')

private theorem lastByte_append (b : Bytes) (x : UInt8) :
    lastByte (b ++ [x]) = ⟨List.replicate 32 (x + 1),List.length_replicate⟩ := by
  apply Subtype.ext
  rw [lastByte, List.getLastD_concat]

theorem cut_zeroFile : Cut [zeros chunkSize,[0]] :=
  ⟨zeros_length _,Nat.one_pos,Nat.succ_le_of_lt (by decide)⟩

theorem chained_lastByte (c : Bytes) (x : UInt8) : chained lastByte [c,[x]] =
    ⟨List.replicate 32 (x + 1 + 1),List.length_replicate⟩ := by
  have hhash : (lastByte [x]).1 = List.replicate 31 (x + 1) ++ [x + 1] := rfl
  rw [chained_cons lastByte _ (List.cons_ne_nil _ _), chained, hhash, ← List.append_assoc]
  exact lastByte_append _ (x + 1)

theorem hmac_zeroFile : ∃ hashed τ, (hmac (fun _ _ => 0) lastByte zeroFile).run zeroMemory =
    some ((⟨List.replicate 32 2,List.length_replicate⟩,hashed),τ) := by
  obtain ⟨hashed,τ,hrun⟩ := hmac_eq_chained (fun _ _ => 0) lastByte
    (show zeroFile.Allocated zeroMemory by decide) cut_zeroFile zeroFile_content.symm
  rw [chained_lastByte] at hrun
  exact ⟨hashed,τ,hrun⟩

end CryptoPlaypen.Hmac
