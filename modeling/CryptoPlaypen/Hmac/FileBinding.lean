import CryptoPlaypen.Hashing.Collisions
import CryptoPlaypen.Hmac.ChunkChain

/-! Two files with one hash. Chunk boundaries count from the front and hashing starts at the
end, so the files are compared from the front, one hashed input at a time. -/
namespace CryptoPlaypen.Hmac
open Buffer Go Hashing

variable {sum256 : Bytes → Digest}

/-- An input is an inner chunk and a hash, or a last chunk, which is shorter. -/
theorem chained_binds {cs ds : List Bytes} (hc : Cut cs) (hd : Cut ds)
    (h : chained sum256 cs = chained sum256 ds) :
    cs = ds ∨ Collision sum256 (inputs sum256 cs ++ inputs sum256 ds) := by
  induction cs generalizing ds with
  | nil => exact hc.elim
  | cons c cs ih =>
    rcases cs with _ | ⟨c',cs⟩ <;> rcases ds with _ | ⟨d,_ | ⟨d',ds⟩⟩
    · exact hd.elim
    · by_cases hcd : c = d
      · exact .inl (by rw [hcd])
      · exact .inr ⟨c,by simp [inputs],d,by simp [inputs],hcd,h⟩
    · refine .inr ⟨c,by simp [inputs],d ++ (chained sum256 (d' :: ds)).1,by simp [inputs],?_,h⟩
      intro heq
      have hlength := congrArg List.length heq
      have hsmall := hc.2
      rw [List.length_append, hd.1, (chained sum256 (d' :: ds)).2] at hlength
      omega
    · exact hd.elim
    · refine .inr ⟨c ++ (chained sum256 (c' :: cs)).1,by simp [inputs],d,by simp [inputs],?_,h⟩
      intro heq
      have hlength := congrArg List.length heq
      have hsmall := hd.2
      rw [List.length_append, hc.1, (chained sum256 (c' :: cs)).2] at hlength
      omega
    · by_cases hsame : c ++ (chained sum256 (c' :: cs)).1 = d ++ (chained sum256 (d' :: ds)).1
      · obtain ⟨rfl,hhash⟩ := List.append_inj hsame (hc.1.trans hd.1.symm)
        rcases ih hc.2 hd.2 (Subtype.ext hhash) with hrest | hcollision
        · exact .inl (by rw [hrest])
        · refine .inr (hcollision.mono fun x hx => ?_)
          rw [inputs_cons sum256 c (by simp), inputs_cons sum256 c (by simp)]
          rcases List.mem_append.mp hx with hx | hx
          · exact List.mem_append_left _ (List.mem_append_left _ hx)
          · exact List.mem_append_right _ (List.mem_append_left _ hx)
      · exact .inr ⟨_,by simp [inputs],_,by simp [inputs],hsame,h⟩

/-- Equal hashes are of equal files, or show a collision among what the two runs hashed. -/
theorem hmac_binds (spare : Nat → Nat → Nat) (sum256 : Bytes → Digest) {σ ρ : Memory} {a b : Slice}
    (ha : a.Allocated σ) (hb : b.Allocated ρ) (hapos : 0 < a.len) (hbpos : 0 < b.len) :
    ∃ ra rb, (hmac spare sum256 a).run σ = some ra ∧ (hmac spare sum256 b).run ρ = some rb ∧
      (ra.1.1 = rb.1.1 → a.content σ = b.content ρ ∨ Collision sum256 (ra.1.2 ++ rb.1.2)) := by
  obtain ⟨τ,hrun,_⟩ := run_hmac spare sum256 ha hapos
  obtain ⟨υ,hrun',_⟩ := run_hmac spare sum256 hb hbpos
  have hacontent : 0 < (a.content σ).length := by rwa [Slice.content_length]
  have hbcontent : 0 < (b.content ρ).length := by rwa [Slice.content_length]
  obtain ⟨hcut,hflatten⟩ := cut_chunksOf hacontent
  obtain ⟨hcut',hflatten'⟩ := cut_chunksOf hbcontent
  refine ⟨_,_,hrun,hrun',fun h => (chained_binds hcut hcut' h).imp_left fun hsame => ?_⟩
  rw [← hflatten, hsame, hflatten']

def oneFile : Slice := ⟨0,1,1,Nat.le_refl 1⟩

def oneMemory : Memory := ⟨fun _ => 1,1⟩

/-- With the hash of the last byte, it collides with a file of two chunks. -/
theorem hmac_binds_lastByte : ∃ ra rb, (hmac (fun _ _ => 0) lastByte zeroFile).run zeroMemory = some ra ∧
    (hmac (fun _ _ => 0) lastByte oneFile).run oneMemory = some rb ∧ ra.1.1 = rb.1.1 ∧
      Collision lastByte (ra.1.2 ++ rb.1.2) := by
  have hzero : zeroFile.Allocated zeroMemory := by decide
  have hone : oneFile.Allocated oneMemory := by decide
  obtain ⟨ra,rb,hra,hrb,hbinds⟩ := hmac_binds (fun _ _ => 0) lastByte hzero hone
    (by decide) (by decide)
  obtain ⟨τ,hrun,_⟩ := run_hmac (fun _ _ => 0) lastByte hzero (by decide)
  obtain ⟨υ,hrun',_⟩ := run_hmac (fun _ _ => 0) lastByte hone (by decide)
  rw [← cut_zeroFile.eq_chunksOf zeroFile_content.symm, hra] at hrun
  rw [hrb] at hrun'
  have heq : ra.1.1 = rb.1.1 := by
    rw [Option.some.inj hrun, Option.some.inj hrun']
    exact chained_lastByte _ 0
  refine ⟨ra,rb,hra,hrb,heq,(hbinds heq).resolve_left fun hsame => ?_⟩
  have hlength := congrArg List.length hsame
  rw [Slice.content_length, Slice.content_length] at hlength
  exact absurd hlength (show zeroFile.len ≠ oneFile.len by decide)

end CryptoPlaypen.Hmac
