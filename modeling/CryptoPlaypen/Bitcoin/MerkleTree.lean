import CryptoPlaypen.Trees.Pairing
import CryptoPlaypen.Hashing.Collisions
import CryptoPlaypen.Bitcoin.HashCommitment

/-! The merkle root of a list of transaction hashes: its value by levels, what a call leaves of the
caller's list, and what two lists with one root say about the hash function. -/
namespace CryptoPlaypen.Bitcoin.MerkleTree
open Buffer Trees Hashing

def dhash (sha256 : Bytes → Bytes) (buffer : Bytes) : Bytes := hash256 sha256 buffer

/-- A root, the caller's list as the call leaves it, and the strings that were hashed. -/
structure Rooted where
  root : Bytes
  childNodes : List Bytes
  hashed : List Bytes
  deriving DecidableEq, Repr

/-- The calls nest at most `depth` deep; `none` is the exception of a full stack. -/
def recurseNodes (sha256 : Bytes → Bytes) : Nat → List Bytes → Option Rooted
  | 0, _ => none
  | depth + 1, childNodes =>
    match childNodes with
    | [root] => some ⟨root,childNodes,[]⟩
    | _ =>
      -- the last node is pushed to the list that was passed
      let childNodes := completed childNodes
      let concatenated := pairs (fun left right => left ++ right) childNodes
      let nodes := concatenated.map (dhash sha256)
      (recurseNodes sha256 depth nodes).map fun inner =>
        ⟨inner.root,childNodes,concatenated ++ inner.hashed⟩

def merkleRoot (sha256 : Bytes → Bytes) (depth : Nat) (chunks : List Bytes) : Option Rooted :=
  recurseNodes sha256 depth chunks

def concatenations (childNodes : List Bytes) : List Bytes :=
  parents (fun left right => left ++ right) childNodes

def join (sha256 : Bytes → Bytes) (left right : Bytes) : Bytes := dhash sha256 (left ++ right)

theorem recurseNodes_level (sha256 : Bytes → Bytes) (depth : Nat) {childNodes : List Bytes}
    (h : childNodes.length ≠ 1) : recurseNodes sha256 (depth + 1) childNodes =
      (recurseNodes sha256 depth ((concatenations childNodes).map (dhash sha256))).map fun inner =>
        ⟨inner.root,completed childNodes,concatenations childNodes ++ inner.hashed⟩ := by
  rcases childNodes with _ | ⟨a,_ | ⟨b,rest⟩⟩
  · rfl
  · exact absurd rfl h
  · rfl

private theorem map_concatenations (sha256 : Bytes → Bytes) (childNodes : List Bytes) :
    (concatenations childNodes).map (dhash sha256) = parents (join sha256) childNodes :=
  pairs_map _ _ _

/-- Without any hash the calls never end. -/
theorem recurseNodes_nil (sha256 : Bytes → Bytes) (depth : Nat) : recurseNodes sha256 depth [] = none := by
  induction depth with
  | zero => rfl
  | succ depth ih =>
    rw [recurseNodes_level sha256 depth (by simp)]
    exact congrArg _ ih

private theorem clog_parents (f : Bytes → Bytes → Bytes) {childNodes : List Bytes}
    (h : 2 ≤ childNodes.length) :
    Nat.clog 2 childNodes.length = Nat.clog 2 (parents f childNodes).length + 1 := by
  rw [Nat.clog_of_two_le one_lt_two h, parents_length]
  rfl

private theorem parents_pos (f : Bytes → Bytes → Bytes) {childNodes : List Bytes}
    (h : 0 < childNodes.length) : 0 < (parents f childNodes).length := by
  rw [parents_length]
  omega

private theorem width_clog {n : Nat} (h : 0 < n) : width n (Nat.clog 2 n) = 1 := by
  induction n using Nat.strong_induction_on with
  | _ n ih =>
    by_cases hone : n = 1
    · rw [hone]
      rfl
    · have hclog : Nat.clog 2 n = Nat.clog 2 ((n + 1) / 2) + 1 :=
        Nat.clog_of_two_le one_lt_two (by omega)
      rw [hclog, width_succ]
      exact ih _ (by omega) (by omega)

private theorem recurseNodes_eq_node (sha256 : Bytes → Bytes) {chunks : List Bytes} (hpos : 0 < chunks.length)
    {depth : Nat} (hdepth : Nat.clog 2 chunks.length < depth) :
    (recurseNodes sha256 depth chunks).map Rooted.root =
      some (node (join sha256) chunks.length (fun i => chunks.getD i []) (Nat.clog 2 chunks.length) 0) := by
  induction depth generalizing chunks with
  | zero => exact absurd hdepth (Nat.not_lt_zero _)
  | succ depth ih =>
    by_cases hone : chunks.length = 1
    · obtain ⟨root,rfl⟩ := List.length_eq_one_iff.mp hone
      rfl
    · have hclog := clog_parents (join sha256) (show 2 ≤ chunks.length by omega)
      have hnext := ih (parents_pos (join sha256) hpos)
        (show Nat.clog 2 (parents (join sha256) chunks).length < depth by omega)
      have htop : 0 < width chunks.length (Nat.clog 2 (parents (join sha256) chunks).length + 1) := by
        rw [← hclog, width_clog hpos]
        exact one_pos
      have hshift := node_parents (join sha256) chunks [] htop
      rw [recurseNodes_level sha256 depth hone, map_concatenations, Option.map_map, hclog]
      exact hnext.trans (congrArg some hshift)

theorem exists_recurseNodes (sha256 : Bytes → Bytes) {chunks : List Bytes} (hpos : 0 < chunks.length)
    {depth : Nat} (hdepth : Nat.clog 2 chunks.length < depth) :
    ∃ r, recurseNodes sha256 depth chunks = some r := by
  obtain ⟨r,hr,_⟩ := Option.map_eq_some_iff.mp (recurseNodes_eq_node sha256 hpos hdepth)
  exact ⟨r,hr⟩

/-- The calls nest as deep as the tree is high, and end in its top node. -/
theorem merkleRoot_eq_node (sha256 : Bytes → Bytes) {chunks : List Bytes} (h : chunks ≠ [])
    {depth : Nat} (hdepth : Nat.clog 2 chunks.length < depth) :
    (merkleRoot sha256 depth chunks).map Rooted.root =
      some (node (fun left right => dhash sha256 (left ++ right)) chunks.length
        (fun i => chunks.getD i []) (Nat.clog 2 chunks.length) 0) :=
  recurseNodes_eq_node sha256 (List.length_pos_of_ne_nil h) hdepth

/-- Three hashes under a hash function that changes nothing: the third is joined with itself. -/
theorem merkleRoot_three : (merkleRoot id 3 [[1],[2],[3]]).map Rooted.root = some [1,2,3,3] :=
  merkleRoot_eq_node id (List.cons_ne_nil _ _) (show Nat.clog 2 3 < 3 by decide +kernel)

/-- The recursion ends exactly if there is a hash to start from. -/
theorem recursion_ends_iff (sha256 : Bytes → Bytes) (chunks : List Bytes) :
    (∃ depth r, recurseNodes sha256 depth chunks = some r) ↔ chunks ≠ [] := by
  constructor
  · rintro ⟨depth,r,hr⟩ rfl
    cases (recurseNodes_nil sha256 depth).symm.trans hr
  · intro hne
    have hpos := List.length_pos_of_ne_nil hne
    obtain ⟨r,hr⟩ := exists_recurseNodes sha256 hpos (Nat.lt_succ_self _)
    exact ⟨_,r,hr⟩

theorem recursion_endless : ¬ ∃ depth r, recurseNodes (fun _ => zeros 32) depth [] = some r := by
  rintro ⟨depth,r,hr⟩
  cases (recurseNodes_nil _ depth).symm.trans hr

/-- A call completes the caller's list, unless it is a single hash. -/
theorem childNodes_of_recurseNodes {sha256 : Bytes → Bytes} {depth : Nat} {chunks : List Bytes}
    {r : Rooted} (hr : recurseNodes sha256 depth chunks = some r) :
    r.childNodes = if chunks.length = 1 then chunks else completed chunks := by
  cases depth with
  | zero => cases hr
  | succ depth =>
    by_cases hone : chunks.length = 1
    · obtain ⟨root,rfl⟩ := List.length_eq_one_iff.mp hone
      cases hr
      rfl
    · rw [recurseNodes_level sha256 depth hone] at hr
      obtain ⟨inner,_,rfl⟩ := Option.map_eq_some_iff.mp hr
      rw [if_neg hone]

private theorem recurseNodes_completed (sha256 : Bytes → Bytes) (depth : Nat) {chunks : List Bytes}
    (h : chunks.length ≠ 1) :
    recurseNodes sha256 depth (completed chunks) = recurseNodes sha256 depth chunks := by
  cases depth with
  | zero => rfl
  | succ depth =>
    have hlength := completed_length chunks
    have hsame : concatenations (completed chunks) = concatenations chunks := by
      rw [concatenations, parents, completed_completed]
      rfl
    rw [recurseNodes_level sha256 depth h, recurseNodes_level sha256 depth (by omega), hsame,
      completed_completed]

/-- Another call on the same list returns the same root, and changes nothing more. -/
theorem merkleRoot_again {sha256 : Bytes → Bytes} {depth : Nat} {chunks : List Bytes} {r : Rooted}
    (hr : merkleRoot sha256 depth chunks = some r) : merkleRoot sha256 depth r.childNodes = some r := by
  rw [childNodes_of_recurseNodes hr]
  by_cases hone : chunks.length = 1
  · rwa [if_pos hone]
  · rw [if_neg hone, merkleRoot, recurseNodes_completed sha256 depth hone]
    exact hr

/-- The calls end, and the caller's list is as it was exactly if it has one hash or an even
number of them. -/
theorem list_kept_iff (sha256 : Bytes → Bytes) {chunks : List Bytes} (h : chunks ≠ []) :
    (∃ depth r, merkleRoot sha256 depth chunks = some r) ∧
    ∀ depth r, merkleRoot sha256 depth chunks = some r →
      (r.childNodes = chunks ↔ chunks.length = 1 ∨ chunks.length % 2 = 0) := by
  constructor
  · obtain ⟨r,hr⟩ := exists_recurseNodes sha256 (List.length_pos_of_ne_nil h) (Nat.lt_succ_self _)
    exact ⟨_,r,hr⟩
  · intro depth r hr
    rw [childNodes_of_recurseNodes hr]
    by_cases hone : chunks.length = 1
    · rw [if_pos hone]
      exact iff_of_true rfl (.inl hone)
    · rw [if_neg hone, completed_eq_self_iff, or_iff_right hone]

theorem list_kept_two : (∃ depth r, merkleRoot id depth [[1],[2]] = some r) ∧
    ∀ depth r, merkleRoot id depth [[1],[2]] = some r →
      (r.childNodes = [[1],[2]] ↔ ([[1],[2]] : List Bytes).length = 1 ∨
        ([[1],[2]] : List Bytes).length % 2 = 0) :=
  list_kept_iff id (List.cons_ne_nil _ _)

/-- Of three hashes the last one stands in the list twice. -/
theorem list_grows : ∃ r, merkleRoot id 3 [[1],[2],[3]] = some r ∧
    r.childNodes = [[1],[2],[3],[3]] ∧ r.childNodes ≠ [[1],[2],[3]] :=
  ⟨_,rfl,rfl,by decide⟩

/-- The strings a level hashes determine the level. -/
theorem concatenations_injective {xs ys : List Bytes} (hlength : xs.length = ys.length)
    (hxs : ∀ x ∈ xs, x.length = 32) (hys : ∀ y ∈ ys, y.length = 32)
    (h : concatenations xs = concatenations ys) : xs = ys := by
  apply completed_injective hlength
  apply pairs_injective (P := fun x => x.length = 32)
  · intro a b c d ha _ hc _ heq
    exact List.append_inj heq (ha.trans hc.symm)
  · rw [completed_length, completed_length, hlength]
  · rw [completed_length]
    exact Nat.mul_mod_right 2 _
  · exact fun x hx => hxs x (mem_completed hx)
  · exact fun y hy => hys y (mem_completed hy)
  · exact h

/-- A shared root leaves two lists of one length equal, but for a collision on the way to it. -/
theorem eq_or_collision_of_root {sha256 : Bytes → Bytes} (hsha : HashLength sha256)
    {xs ys : List Bytes} (hlength : xs.length = ys.length) (hxs : ∀ x ∈ xs, x.length = 32)
    (hys : ∀ y ∈ ys, y.length = 32) {depth : Nat} {r s : Rooted}
    (hr : recurseNodes sha256 depth xs = some r) (hs : recurseNodes sha256 depth ys = some s)
    (hroot : r.root = s.root) : xs = ys ∨ Collision (dhash sha256) (r.hashed ++ s.hashed) := by
  induction depth generalizing xs ys r s with
  | zero => cases hr
  | succ depth ih =>
    by_cases hone : xs.length = 1
    · obtain ⟨x,rfl⟩ := List.length_eq_one_iff.mp hone
      obtain ⟨y,rfl⟩ := List.length_eq_one_iff.mp (hlength.symm.trans hone)
      cases hr
      cases hs
      exact .inl (congrArg (fun root => [root]) hroot)
    · rw [recurseNodes_level sha256 depth hone] at hr
      rw [recurseNodes_level sha256 depth fun h => hone (hlength.trans h)] at hs
      obtain ⟨r',hr',rfl⟩ := Option.map_eq_some_iff.mp hr
      obtain ⟨s',hs',rfl⟩ := Option.map_eq_some_iff.mp hs
      have hdigests (zs : List Bytes) : ∀ z ∈ (concatenations zs).map (dhash sha256), z.length = 32 := by
        intro z hz
        obtain ⟨c,_,rfl⟩ := List.mem_map.mp hz
        exact hash256_length hsha c
      have hlevel : ((concatenations xs).map (dhash sha256)).length =
          ((concatenations ys).map (dhash sha256)).length := by
        simp only [List.length_map, concatenations, parents_length, hlength]
      have hmore {as bs : List Bytes} (has : as ⊆ concatenations xs ++ r'.hashed)
          (hbs : bs ⊆ concatenations ys ++ s'.hashed) : as ++ bs ⊆
          (concatenations xs ++ r'.hashed) ++ (concatenations ys ++ s'.hashed) :=
        List.append_subset.mpr ⟨List.subset_append_of_subset_left _ has,
          List.subset_append_of_subset_right _ hbs⟩
      -- either the levels above differ already, or what was hashed for them
      rcases ih hlevel (hdigests xs) (hdigests ys) hr' hs' hroot with heq | hcollision
      · rcases map_eq_or_collision heq with heq | hcollision
        · exact .inl (concatenations_injective hlength hxs hys heq)
        · exact .inr (hcollision.mono (hmore (List.subset_append_left _ _) (List.subset_append_left _ _)))
      · exact .inr (hcollision.mono (hmore (List.subset_append_right _ _) (List.subset_append_right _ _)))

/-- The root binds the list of hashes, however many there are. -/
theorem merkleRoot_binds {sha256 : Bytes → Bytes} (hsha : HashLength sha256) {xs ys : List Bytes}
    (hne : xs ≠ []) (hlength : xs.length = ys.length) (hxs : ∀ x ∈ xs, x.length = 32)
    (hys : ∀ y ∈ ys, y.length = 32) {depth : Nat} (hdepth : Nat.clog 2 xs.length < depth) :
    ∃ r s, merkleRoot sha256 depth xs = some r ∧ merkleRoot sha256 depth ys = some s ∧
      (r.root = s.root → xs = ys ∨ Collision (dhash sha256) (r.hashed ++ s.hashed)) := by
  have hpos := List.length_pos_of_ne_nil hne
  obtain ⟨r,hr⟩ := exists_recurseNodes sha256 hpos hdepth
  obtain ⟨s,hs⟩ := exists_recurseNodes sha256 (hlength ▸ hpos) (hlength ▸ hdepth)
  exact ⟨r,s,hr,hs,eq_or_collision_of_root hsha hlength hxs hys hr hs⟩

/-- A hash function with one value: its two roots agree, and what was hashed collides. -/
theorem merkleRoot_binds_two : ∃ r s,
    merkleRoot (fun _ => zeros 32) 2 [zeros 32,zeros 32] = some r ∧
    merkleRoot (fun _ => zeros 32) 2 [zeros 32,List.replicate 32 1] = some s ∧
      (r.root = s.root → [zeros 32,zeros 32] = [zeros 32,List.replicate 32 1] ∨
        Collision (dhash fun _ => zeros 32) (r.hashed ++ s.hashed)) :=
  have hxs : ∀ x ∈ [zeros 32,zeros 32], x.length = 32 := by simp
  have hys : ∀ y ∈ [zeros 32,List.replicate 32 1], y.length = 32 := by simp
  merkleRoot_binds (fun _ => rfl) (List.cons_ne_nil _ _) (by rfl) hxs hys
    (show Nat.clog 2 2 < 2 by decide +kernel)

end CryptoPlaypen.Bitcoin.MerkleTree
