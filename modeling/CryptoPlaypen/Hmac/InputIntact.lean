import CryptoPlaypen.Hmac.ChunkChain

/-! What is left of the file. The last hash is appended to the first chunk, so with room for it
there it stays over what followed. -/
namespace CryptoPlaypen.Hmac
open Buffer Go

variable {σ ρ : Memory} {data : Slice} {spare : Nat → Nat → Nat} {sum256 : Bytes → Digest}

/-- After a call the bytes are as before, and a second call returns the same hash. -/
def Intact (spare : Nat → Nat → Nat) (sum256 : Bytes → Digest) (data : Slice) (σ : Memory) : Prop :=
  ∃ hash hashed τ, (hmac spare sum256 data).run σ = some ((hash,hashed),τ) ∧
    data.content τ = data.content σ ∧
    ∃ hashed' υ, (hmac spare sum256 data).run τ = some ((hash,hashed'),υ)

section Overwriting

/-- A round hashes some input and goes on with the chunks before. -/
theorem rounds_some {n endIndex : Nat} {state : Digest × List Bytes} {r : (Digest × List Bytes) × Memory}
    (h : (rounds spare sum256 data (n + 1) endIndex state).run ρ = some r) :
    ∃ bytes τ, (rounds spare sum256 data n (n * chunkSize) (sum256 bytes,state.2 ++ [bytes])).run τ =
      some r := by
  obtain ⟨chunk,τ,_,h⟩ := run_bind_some.mp h
  split at h
  · obtain ⟨input,υ,_,h⟩ := run_bind_some.mp h
    obtain ⟨bytes,ω,_,h⟩ := run_bind_some.mp h
    exact ⟨bytes,ω,h⟩
  · obtain ⟨input,υ,_,h⟩ := run_bind_some.mp h
    obtain ⟨bytes,ω,_,h⟩ := run_bind_some.mp h
    exact ⟨bytes,ω,h⟩

/-- The first chunk, if it is not the last, is hashed in place with the hash so far. -/
theorem run_firstRound (hlong : chunkSize < data.len) (hroom : chunkSize + 32 ≤ data.cap)
    (state : Digest × List Bytes) : (rounds spare sum256 data 1 (1 * chunkSize) state).run ρ =
      let τ := ρ.overwrite (data.off + chunkSize) state.1.1
      some ((sum256 (τ.window data.off (chunkSize + 32)),
        state.2 ++ [τ.window data.off (chunkSize + 32)]),τ) := by
  have hfirst : (0 + 1) * chunkSize < data.len := by omega
  have hlength := state.1.2
  have happend := Slice.run_append_room (σ := ρ) (s := innerChunk data 0 hfirst) spare state.1.1
    (by simp only [innerChunk]; omega)
  refine (run_innerRound spare sum256 hfirst happend).trans ?_
  simp only [innerChunk, Slice.content, hlength, Nat.zero_mul, Nat.add_zero]
  rfl

/-- The input of the last round is still in the array. -/
theorem rounds_behind (hroom : chunkSize + 32 ≤ data.cap) {n endIndex : Nat}
    (hn : (n + 1) * chunkSize < data.len) {state : Digest × List Bytes} {r : (Digest × List Bytes) × Memory}
    (h : (rounds spare sum256 data (n + 2) endIndex state).run ρ = some r) :
    r.1.2.getLast? = some (r.2.window data.off (chunkSize + 32)) := by
  induction n generalizing endIndex state ρ with
  | zero =>
    obtain ⟨bytes,τ,hlast⟩ := rounds_some h
    rw [Nat.zero_add, Nat.one_mul] at hn
    rw [← Option.some.inj ((run_firstRound hn hroom _).symm.trans hlast)]
    exact List.getLast?_concat
  | succ n ih =>
    obtain ⟨bytes,τ,hrest⟩ := rounds_some h
    rw [Nat.succ_mul] at hn
    exact ih (by omega) hrest

/-- With room for it, the hash of all chunks but the first is left where the second begins. -/
theorem run_hmac_behind (hdata : data.Allocated σ) (hlong : chunkSize < data.len)
    (hroom : chunkSize + 32 ≤ data.cap) (spare : Nat → Nat → Nat) (sum256 : Bytes → Digest) :
    ∃ c cs hashed τ, chunksOf (data.content σ) = c :: cs ∧ Cut cs ∧
      (hmac spare sum256 data).run σ = some ((chained sum256 (c :: cs),hashed),τ) ∧
      τ.window (data.off + chunkSize) 32 = (chained sum256 cs).1 ∧ σ.next ≤ τ.next := by
  have hpos := Nat.zero_lt_of_lt hlong
  obtain ⟨n,hn⟩ : ∃ n, (data.len + (chunkSize - 1)) / chunkSize = n + 2 :=
    ⟨(data.len + (chunkSize - 1)) / chunkSize - 2,by simp only [chunkSize] at hlong ⊢; omega⟩
  obtain ⟨τ,hrun,hnext⟩ := run_hmac spare sum256 hdata hpos
  have hcontent : 0 < (data.content σ).length := by rwa [Slice.content_length]
  obtain ⟨hcut,_⟩ := cut_chunksOf hcontent
  obtain ⟨c,c',cs,hchunks⟩ : ∃ c c' cs, chunksOf (data.content σ) = c :: c' :: cs := by
    rw [chunksOf, Slice.content_length, hn, chunks_cons, chunks_cons]
    exact ⟨_,_,_,rfl⟩
  rw [hchunks] at hcut hrun
  have hrounds := hrun
  rw [hmac, rounds_count, hn] at hrounds
  have hlast := rounds_behind hroom (by simp only [chunkSize] at hn ⊢; omega) hrounds
  dsimp only at hlast
  rw [inputs_cons sum256 c (List.cons_ne_nil c' cs), List.getLast?_concat, window_add] at hlast
  have hhash := (List.append_inj (Option.some.inj hlast) (hcut.1.trans (window_length _ _).symm)).2
  exact ⟨c,c' :: cs,_,τ,hchunks,hcut.2,hrun,hhash.symm,hnext⟩

private theorem chained_const (d : Digest) {cs : List Bytes} (h : Cut cs) : chained (fun _ => d) cs = d := by
  cases cs with
  | nil => exact h.elim
  | cons c cs => cases cs <;> rfl

/-- Some hash is not what was there. -/
theorem exists_not_intact (spare : Nat → Nat → Nat) (hdata : data.Allocated σ) (hlong : chunkSize < data.len)
    (hroom : chunkSize + 32 ≤ data.cap) : ∃ sum256, ¬ Intact spare sum256 data σ := by
  let there := σ.byte (data.off + chunkSize)
  refine ⟨fun _ => ⟨List.replicate 32 (there + 1),List.length_replicate⟩,?_⟩
  rintro ⟨hash,hashed,τ,hrun,hsame,_⟩
  obtain ⟨c,cs,hashed',υ,_,hcut,hrun',hhash,_⟩ := run_hmac_behind hdata hlong hroom spare
    fun _ => ⟨List.replicate 32 (there + 1),List.length_replicate⟩
  obtain ⟨_,rfl⟩ := Prod.mk.inj (Option.some.inj (hrun.symm.trans hrun'))
  rw [chained_const _ hcut] at hhash
  have hnew : τ.byte (data.off + chunkSize) = there + 1 := by
    rw [← Nat.add_zero (data.off + chunkSize), ← window_getD _ (show 0 < 32 by decide), hhash]
    rfl
  have hstep : there + 1 = there := hnew.symm.trans (Slice.byte_of_content hsame hlong)
  simp at hstep

end Overwriting

section Keeping

/-- Of bytes that are as before the hash is the same. -/
theorem intact_of_content (hdata : data.Allocated σ) (hpos : 0 < data.len)
    {r : (Digest × List Bytes) × Memory} (hrun : (hmac spare sum256 data).run σ = some r)
    (hsame : data.content r.2 = data.content σ) : Intact spare sum256 data σ := by
  obtain ⟨τ,hfirst,hnext⟩ := run_hmac spare sum256 hdata hpos
  obtain rfl := Option.some.inj (hfirst.symm.trans hrun)
  obtain ⟨υ,hsecond,_⟩ := run_hmac (σ := τ) spare sum256 (hdata.trans hnext) hpos
  dsimp only at hsame
  rw [hsame] at hsecond
  exact ⟨_,_,τ,hfirst,hsame,_,υ,hsecond⟩

/-- A file of one chunk is only read. -/
theorem run_hmac_short (spare : Nat → Nat → Nat) (sum256 : Bytes → Digest) (hshort : data.len ≤ chunkSize) :
    ∃ hash hashed, (hmac spare sum256 data).run σ = some ((hash,hashed),σ) := by
  rw [hmac, rounds_count]
  rcases Nat.eq_zero_or_pos data.len with hempty | hpos
  · rw [hempty]
    exact ⟨_,_,rfl⟩
  · have hone : (data.len + (chunkSize - 1)) / chunkSize = 1 := by
      simp only [chunkSize] at hshort ⊢
      omega
    have hcap := data.len_le
    rw [hone, rounds, run_then (Slice.run_reslice ⟨by omega,by omega⟩), if_pos rfl]
    exact ⟨_,_,rfl⟩

/-- Without room the hash is appended to a copy of the first chunk. -/
theorem run_firstRound_fresh (hlong : chunkSize < data.len) (hfull : data.cap < chunkSize + 32)
    (state : Digest × List Bytes) :
    ∃ r, (rounds spare sum256 data 1 (1 * chunkSize) state).run σ = some r ∧ σ.Kept r.2 := by
  have hfirst : (0 + 1) * chunkSize < data.len := by omega
  have hlength := state.1.2
  obtain ⟨input,τ,happend,hkept⟩ := Slice.run_append_fresh (σ := σ) (s := innerChunk data 0 hfirst)
    spare state.1.1 (by simp only [innerChunk]; omega)
  exact ⟨_,run_innerRound spare sum256 hfirst happend,hkept⟩

/-- The file then has two chunks, and what was allocated is kept. -/
theorem run_hmac_fresh (spare : Nat → Nat → Nat) (sum256 : Bytes → Digest)
    (hlong : chunkSize < data.len) (hfull : data.cap < chunkSize + 32) :
    ∃ r, (hmac spare sum256 data).run σ = some r ∧ σ.Kept r.2 := by
  have hcap := data.len_le
  have htwo : (data.len + (chunkSize - 1)) / chunkSize = 2 := by
    simp only [chunkSize] at hlong hfull ⊢
    omega
  rw [hmac, rounds_count, htwo, rounds, run_then (Slice.run_reslice ⟨by omega,by omega⟩), if_pos rfl]
  exact run_firstRound_fresh hlong hfull _

private theorem intact_of_no_room (hdata : data.Allocated σ)
    (h : data.len ≤ chunkSize ∨ data.cap < chunkSize + 32) : Intact spare sum256 data σ := by
  by_cases hshort : data.len ≤ chunkSize
  · obtain ⟨hash,hashed,hrun⟩ := run_hmac_short (σ := σ) spare sum256 hshort
    exact ⟨hash,hashed,σ,hrun,rfl,hashed,σ,hrun⟩
  · obtain ⟨r,hrun,hkept⟩ := run_hmac_fresh (σ := σ) spare sum256 (Nat.not_le.mp hshort)
      (h.resolve_left hshort)
    have hcap := data.len_le
    rw [Slice.Allocated] at hdata
    exact intact_of_content hdata (by omega) hrun (hkept.window_eq (by omega))

end Keeping

/-- The file is left intact, whatever the hash, exactly if it has one chunk or no room for a hash
behind the first. -/
theorem hmac_intact_iff (spare : Nat → Nat → Nat) (hdata : data.Allocated σ) :
    (∀ sum256, Intact spare sum256 data σ) ↔ data.len ≤ chunkSize ∨ data.cap < chunkSize + 32 := by
  refine ⟨fun h => ?_,fun h sum256 => intact_of_no_room hdata h⟩
  by_contra hroom
  obtain ⟨hlong,hcap⟩ := not_or.mp hroom
  obtain ⟨sum256,hbroken⟩ := exists_not_intact spare hdata (Nat.not_le.mp hlong)
    (Nat.not_lt.mp hcap)
  exact hbroken (h sum256)

/-- With one byte less of room, the file of zeros. -/
theorem hmac_intact_zeros : Intact (fun _ _ => 0) lastByte ⟨0,1025,1055,by decide⟩ zeroMemory :=
  (hmac_intact_iff (fun _ _ => 0) (show Slice.Allocated ⟨0,1025,1055,by decide⟩ zeroMemory
    by decide)).mpr (.inr (by decide)) lastByte

/-- A call on the file with room leaves the hash of its last byte in place of it. -/
theorem run_zeroFile (sum256 : Bytes → Digest) (hfile : zeroFile.Allocated ρ) : ∃ hashed τ,
    (hmac (fun _ _ => 0) sum256 zeroFile).run ρ =
      some ((chained sum256 [ρ.window 0 chunkSize,[ρ.byte chunkSize]],hashed),τ) ∧
    τ.byte chunkSize = (sum256 [ρ.byte chunkSize]).1.getD 0 0 ∧ ρ.next ≤ τ.next := by
  have hcontent : zeroFile.content ρ = ρ.window 0 chunkSize ++ [ρ.byte chunkSize] :=
    window_add 0 chunkSize 1
  obtain ⟨c,cs,hashed,τ,hchunks,_,hrun,hhash,hnext⟩ := run_hmac_behind hfile
    (show chunkSize < 1025 by decide) (show chunkSize + 32 ≤ 1056 by decide) (fun _ _ => 0) sum256
  have hcut : Cut [ρ.window 0 chunkSize,[ρ.byte chunkSize]] :=
    ⟨window_length _ _,Nat.one_pos,Nat.succ_le_of_lt (by decide)⟩
  rw [← hcut.eq_chunksOf hcontent.symm] at hchunks
  obtain ⟨rfl,rfl⟩ := List.cons.inj hchunks
  refine ⟨hashed,τ,hrun,?_,hnext⟩
  have hfirst := window_getD (σ := τ) (zeroFile.off + chunkSize) (show 0 < 32 by decide)
  rw [hhash] at hfirst
  exact hfirst.symm

private theorem zeroFile_changes (h : (sum256 [0]).1.getD 0 0 ≠ 0) {r : (Digest × List Bytes) × Memory}
    (hrun : (hmac (fun _ _ => 0) sum256 zeroFile).run zeroMemory = some r) :
    zeroFile.content r.2 ≠ zeroFile.content zeroMemory := by
  intro hsame
  obtain ⟨hashed,τ,hfirst,hbyte,_⟩ := run_zeroFile (ρ := zeroMemory) sum256 (by decide)
  obtain rfl := Option.some.inj (hfirst.symm.trans hrun)
  have hold := Slice.byte_of_content (i := chunkSize) hsame (show chunkSize < 1025 by decide)
  rw [zeroFile, Nat.zero_add] at hold
  exact h (hbyte.symm.trans hold)

/-- With a hash of the zero byte that does not start with one, as SHA-256 has it, the file is not
what it was; and a hash of the last byte counts up from call to call. -/
theorem hmac_not_intact :
    (∀ sum256, (sum256 [0]).1.getD 0 0 ≠ 0 → ¬ Intact (fun _ _ => 0) sum256 zeroFile zeroMemory) ∧
    ∃ first second τ υ, (hmac (fun _ _ => 0) lastByte zeroFile).run zeroMemory = some (first,τ) ∧
      zeroFile.content τ ≠ zeroFile.content zeroMemory ∧
      (hmac (fun _ _ => 0) lastByte zeroFile).run τ = some (second,υ) ∧ second.1 ≠ first.1 := by
  have hfile : zeroFile.Allocated zeroMemory := by decide
  obtain ⟨hashed,τ,hfirst,hbyte,hnext⟩ := run_zeroFile lastByte hfile
  obtain ⟨hashed',υ,hsecond,_⟩ := run_zeroFile (ρ := τ) lastByte (hfile.trans hnext)
  have hstart : (lastByte [0]).1.getD 0 0 ≠ 0 := by decide
  have hchanged := zeroFile_changes hstart hfirst
  refine ⟨?_,_,_,τ,υ,hfirst,hchanged,hsecond,?_⟩
  · rintro sum256 hzero ⟨hash,_,ρ,hrun,hsame,_⟩
    exact zeroFile_changes hzero hrun hsame
  · intro hsame
    rw [hbyte, chained_lastByte, chained_lastByte] at hsame
    have hhead := congrArg (fun d : Digest => d.1.headD 0) hsame
    cases hhead

end CryptoPlaypen.Hmac
