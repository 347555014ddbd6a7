import CryptoPlaypen.Buffer.ByteEncoding
import Mathlib.Data.List.Nodup
import Mathlib.Data.List.Perm.Subperm

/-! The double hash, and what two equal digests say when the hash function is any
function to 32 bytes: the messages are equal, and so are messages behind digests
that are themselves hashed. -/
namespace CryptoPlaypen.Bitcoin
open Buffer

def hash256 (sha256 : Bytes → Bytes) (buffer : Bytes) : Bytes := sha256 (sha256 buffer)

def HashLength (sha256 : Bytes → Bytes) : Prop := ∀ b, (sha256 b).length = 32

/-- A hash function that every byte of the string goes into. -/
def foldHash (b : Bytes) : Bytes := leBytes 32 (b.foldl (fun n x => 257 * n + x.toNat + 1) 0)

def digestWindow (message : Bytes) : Bytes := (message.drop 4).take 32

theorem foldHash_length : HashLength foldHash := fun _ => leBytes_length 32 _

theorem hash256_length {sha256 : Bytes → Bytes} (h : HashLength sha256) (b : Bytes) :
    (hash256 sha256 b).length = 32 := h _

/-- A hash function that leaves strings of 32 bytes as they are. -/
def fixing (f : Bytes → Bytes) (x : Bytes) : Bytes := if x.length = 32 then x else f x

private theorem fixing_hashLength {f : Bytes → Bytes} (hf : HashLength f) : HashLength (fixing f) := by
  intro x
  rw [fixing]
  split
  · assumption
  · exact hf x

/-- The second application changes nothing. -/
theorem hash256_fixing {f : Bytes → Bytes} (hf : HashLength f) {x : Bytes} (hx : x.length ≠ 32) :
    hash256 (fixing f) x = f x := by
  have hfirst : fixing f x = f x := if_neg hx
  rw [hash256, hfirst]
  exact if_pos (hf x)

/-- If every hash function gives two messages one digest, they are one message. -/
theorem hash256_eq_iff {a b : Bytes} (ha : a.length ≠ 32) (hb : b.length ≠ 32) :
    (∀ sha256, HashLength sha256 → hash256 sha256 a = hash256 sha256 b) ↔ a = b := by
  refine ⟨fun h => ?_,fun h _ _ => h ▸ rfl⟩
  by_contra hne
  let f (x : Bytes) : Bytes := if x = a then List.replicate 32 1 else zeros 32
  have hf : HashLength f := fun x => by
    dsimp only [f]
    split <;> simp
  have hone : f a = List.replicate 32 1 := if_pos rfl
  have hzero : f b = zeros 32 := if_neg (Ne.symm hne)
  have heq := h (fixing f) (fixing_hashLength hf)
  rw [hash256_fixing hf ha, hash256_fixing hf hb, hone, hzero] at heq
  exact absurd heq (by decide)

/-- Fewer than 2^256 strings leave one of 32 bytes out. -/
theorem exists_fresh (xs : List Bytes) (h : xs.length < 256 ^ 32) :
    ∃ a : Bytes, a.length = 32 ∧ a ∉ xs := by
  by_contra hnone
  have hall (a : Bytes) (ha : a.length = 32) : a ∈ xs := by
    by_contra hmem
    exact hnone ⟨a,ha,hmem⟩
  have hnodup : ((List.range (xs.length + 1)).map (leBytes 32)).Nodup := by
    refine List.Nodup.map_on (fun i hi j hj he => ?_) List.nodup_range
    rw [List.mem_range] at hi hj
    exact leBytes_injective (by omega) (by omega) he
  have hsubset : (List.range (xs.length + 1)).map (leBytes 32) ⊆ xs := fun a ha => by
    obtain ⟨i,_,rfl⟩ := List.mem_map.mp ha
    exact hall _ (leBytes_length 32 i)
  have hle := (List.subperm_of_subset hnodup hsubset).length_le
  simp at hle

/-- For two different messages there is a hash function under which a message that
carries the digest of one of them hashes to that digest again. -/
theorem exists_carrying_hash {a b : Bytes} (ha : a.length ≠ 32) (hb : b.length ≠ 32) (hne : a ≠ b) :
    ∃ sha256, HashLength sha256 ∧ hash256 sha256 a ≠ hash256 sha256 b ∧
      ∀ x ∈ [a, b], ∀ m : Bytes, m.length ≠ 32 → digestWindow m = hash256 sha256 x →
        hash256 sha256 m = hash256 sha256 x := by
  obtain ⟨p,hp,hpfresh⟩ := exists_fresh [digestWindow a, digestWindow b] (show 2 < 256 ^ 32 by decide)
  obtain ⟨q,hq,hqfresh⟩ := exists_fresh [digestWindow a, digestWindow b, p] (show 3 < 256 ^ 32 by decide)
  simp only [List.mem_cons, List.not_mem_nil, or_false, not_or] at hpfresh hqfresh
  let f (x : Bytes) : Bytes :=
    if x = a then p else if x = b then q else (digestWindow x ++ zeros 32).take 32
  have hf : HashLength f := fun x => by
    dsimp only [f]
    split
    · exact hp
    · split
      · exact hq
      · simp
  have hda : hash256 (fixing f) a = p := (hash256_fixing hf ha).trans (if_pos rfl)
  have hdb : hash256 (fixing f) b = q :=
    (hash256_fixing hf hb).trans ((if_neg (Ne.symm hne)).trans (if_pos rfl))
  have hcarry {m d : Bytes} (hm : m.length ≠ 32) (hd : d.length = 32) (hwindow : digestWindow m = d)
      (hda : d ≠ digestWindow a) (hdb : d ≠ digestWindow b) : hash256 (fixing f) m = d := by
    have hma : m ≠ a := by rintro rfl; exact hda hwindow.symm
    have hmb : m ≠ b := by rintro rfl; exact hdb hwindow.symm
    have hvalue : f m = (digestWindow m ++ zeros 32).take 32 := (if_neg hma).trans (if_neg hmb)
    rw [hash256_fixing hf hm, hvalue, hwindow, List.take_left' hd]
  refine ⟨fixing f,fixing_hashLength hf,by rw [hda, hdb]; exact Ne.symm hqfresh.2.2,?_⟩
  intro x hx m hm hwindow
  rcases List.mem_cons.mp hx with rfl | hx
  · rw [hda] at hwindow ⊢
    exact hcarry hm hp hwindow hpfresh.1 hpfresh.2
  · obtain rfl := List.mem_singleton.mp hx
    rw [hdb] at hwindow ⊢
    exact hcarry hm hq hwindow hqfresh.1 hqfresh.2.1

end CryptoPlaypen.Bitcoin
