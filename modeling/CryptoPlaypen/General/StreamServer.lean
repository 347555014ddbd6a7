import CryptoPlaypen.Buffer.ByteEncoding
import CryptoPlaypen.General.BufferQueue
import Mathlib.Data.List.Induction

/-! A server with one queue for the bytes of all its connections, which reads at most once in an
event. What it prints is told apart on bytes that carry the connection they came from. -/
namespace CryptoPlaypen.General
open Buffer

section Blocks
variable {α : Type} (k : Nat)

/-- The consecutive blocks of `k` elements that are complete. -/
def completeBlocks (xs : List α) : List (List α) :=
  (List.range (xs.length / k)).map fun i => (xs.drop (k * i)).take k

def incomplete (xs : List α) : List α := xs.drop (k * (xs.length / k))

private theorem completeBlocks_length (xs : List α) : (completeBlocks k xs).length = xs.length / k := by
  rw [completeBlocks, List.length_map, List.length_range]

private theorem incomplete_length (xs : List α) : (incomplete k xs).length = xs.length % k := by
  rw [incomplete, List.length_drop, Nat.mod_eq_sub_mul_div]

/-- More elements do not change the blocks that are complete. -/
theorem block_append {xs : List α} (ys : List α) {i : Nat} (h : i < xs.length / k) :
    ((xs ++ ys).drop (k * i)).take k = (xs.drop (k * i)).take k := by
  have hnext : k * (i + 1) ≤ k * (xs.length / k) := Nat.mul_le_mul_left k h
  have hall := Nat.mul_div_le xs.length k
  rw [Nat.mul_succ] at hnext
  rw [List.drop_append_of_le_length (by omega), List.take_append_of_le_length]
  rw [List.length_drop]
  omega

private theorem incomplete_append_drop (xs ys : List α) :
    (xs ++ ys).drop (k * (xs.length / k)) = incomplete k xs ++ ys :=
  List.drop_append_of_le_length (Nat.mul_div_le xs.length k)

variable {k} {xs ys : List α}

private theorem length_div_append (hk : 0 < k) :
    (xs ++ ys).length / k = xs.length / k + (incomplete k xs ++ ys).length / k := by
  have hsplit : (xs ++ ys).length = (incomplete k xs ++ ys).length + k * (xs.length / k) := by
    rw [List.length_append, List.length_append, incomplete_length]
    have hdiv := Nat.mod_add_div xs.length k
    omega
  rw [hsplit, Nat.add_mul_div_left _ _ hk, Nat.add_comm]

/-- Too few elements for a block. -/
theorem completeBlocks_short (hk : 0 < k) (h : (incomplete k xs ++ ys).length < k) :
    completeBlocks k (xs ++ ys) = completeBlocks k xs ∧
      incomplete k (xs ++ ys) = incomplete k xs ++ ys := by
  have hcount : (xs ++ ys).length / k = xs.length / k := by
    rw [length_div_append hk, Nat.div_eq_of_lt h, Nat.add_zero]
  constructor
  · rw [completeBlocks, completeBlocks, hcount]
    apply List.map_congr_left
    intro i hi
    exact block_append k ys (List.mem_range.mp hi)
  · rw [incomplete, hcount, incomplete_append_drop]

/-- Enough for one and not for two. -/
theorem completeBlocks_next (hk : 0 < k) (hle : k ≤ (incomplete k xs ++ ys).length)
    (hlt : (incomplete k xs ++ ys).length < 2 * k) :
    completeBlocks k (xs ++ ys) = completeBlocks k xs ++ [(incomplete k xs ++ ys).take k] ∧
      incomplete k (xs ++ ys) = (incomplete k xs ++ ys).drop k := by
  have hone : (incomplete k xs ++ ys).length / k = 1 := by
    apply Nat.div_eq_of_lt_le
    · rwa [Nat.one_mul]
    · exact hlt
  have hcount : (xs ++ ys).length / k = xs.length / k + 1 := by rw [length_div_append hk, hone]
  constructor
  · rw [completeBlocks, hcount, List.range_succ, List.map_append, List.map_singleton,
      incomplete_append_drop, completeBlocks]
    congr 1
    apply List.map_congr_left
    intro i hi
    exact block_append k ys (List.mem_range.mp hi)
  · rw [incomplete, hcount, Nat.mul_succ, ← List.drop_drop, incomplete_append_drop]

end Blocks

/-- The global list, and the blocks that have been printed. -/
structure Server (α : Type) where
  buffers : List (List α)
  printed : List (List α)

namespace Server
variable {α β : Type}

def init : Server α := ⟨[],[]⟩

/-- The handler of `data`, for any socket. The loop is given one test more than it has buffers. -/
def onData (zero : α) (s : Server α) (d : List α) : Option (Server α) :=
  let buffers := s.buffers ++ [d]
  if hasLength buffers 8 then
    (readFromBuffers zero (buffers.length + 1) buffers 8).map fun r => ⟨r.2,s.printed ++ [r.1]⟩
  else some ⟨buffers,s.printed⟩

def serve (zero : α) (ds : List (List α)) : Option (Server α) := ds.foldlM (onData zero) init

private theorem serve_append (zero : α) (ds : List (List α)) (d : List α) :
    serve zero (ds ++ [d]) = (serve zero ds).bind fun s => onData zero s d := by
  rw [serve, List.foldlM_append, serve, Option.bind_eq_bind]
  apply congrArg (Option.bind _)
  funext s
  exact bind_pure (onData zero s d)

def pending (s : Server α) : List α := s.buffers.flatten

/-- An event prints the first eight bytes that wait, if there are so many, and no more. -/
theorem onData_spec (zero : α) (s : Server α) (d : List α) : ∃ s', onData zero s d = some s' ∧
    ((s.pending ++ d).length < 8 → s'.pending = s.pending ++ d ∧ s'.printed = s.printed) ∧
    (8 ≤ (s.pending ++ d).length → s'.pending = (s.pending ++ d).drop 8 ∧
      s'.printed = s.printed ++ [(s.pending ++ d).take 8]) := by
  have hall : (s.buffers ++ [d]).flatten = s.pending ++ d := List.flatten_concat
  have hlong := hasLength_iff (show 1 ≤ 8 by decide) (s.buffers ++ [d])
  rw [hall] at hlong
  by_cases h : 8 ≤ (s.pending ++ d).length
  · obtain ⟨rest,hread,hrest⟩ := readFromBuffers_spec zero (s.buffers ++ [d]) (hall ▸ h)
      (Nat.lt_succ_self _)
    rw [hall] at hread hrest
    refine ⟨⟨rest,s.printed ++ [(s.pending ++ d).take 8]⟩,?_,fun hlt => absurd h (Nat.not_le.mpr hlt),
      fun _ => ⟨hrest,rfl⟩⟩
    simp only [onData, if_pos (hlong.mpr h), hread, Option.map_some]
  · refine ⟨⟨s.buffers ++ [d],s.printed⟩,?_,fun _ => ⟨hall,rfl⟩,fun hle => absurd hle h⟩
    rw [onData, if_neg fun hyes => h (hlong.mp hyes)]

def map (f : α → β) (s : Server α) : Server β := ⟨s.buffers.map (List.map f),s.printed.map (List.map f)⟩

private theorem onData_map (f : α → β) (zero : α) (s : Server α) (d : List α) :
    onData (f zero) (s.map f) (d.map f) = (onData zero s d).map (map f) := by
  have hbuffers : (s.map f).buffers ++ [d.map f] = (s.buffers ++ [d]).map (List.map f) := by
    rw [List.map_append]
    rfl
  simp only [onData, hbuffers, hasLength_map f _ (show 1 ≤ 8 by decide), readFromBuffers_map,
    List.length_map]
  split
  · rw [Option.map_map, Option.map_map]
    apply congrArg (Option.map · _)
    funext r
    simp [map]
  · rfl

/-- The server does the same whatever its bytes carry. -/
theorem serve_map (f : α → β) (zero : α) (ds : List (List α)) :
    serve (f zero) (ds.map (List.map f)) = (serve zero ds).map (map f) := by
  induction ds using List.reverseRecOn with
  | nil => rfl
  | append_singleton ds d ih =>
    rw [List.map_append, List.map_singleton, serve_append, serve_append, ih, Option.bind_map,
      Option.map_bind]
    apply congrArg (Option.bind _)
    funext s
    exact onData_map f zero s d

end Server

abbrev Conn := Nat

structure Event where
  conn : Conn
  chunk : Bytes

def Event.tagged (e : Event) : List (Conn × UInt8) := e.chunk.map (Prod.mk e.conn)

def run (events : List Event) : Option (Server (Conn × UInt8)) :=
  Server.serve (0,0) (events.map Event.tagged)

def sentBy (c : Conn) (events : List Event) : Bytes :=
  (events.filter fun e => e.conn == c).flatMap Event.chunk

def touching (c : Conn) (blocks : List (List (Conn × UInt8))) : List (List (Conn × UInt8)) :=
  blocks.filter fun block => block.any fun b => b.1 == c

/-- The blocks with a byte of a connection are the complete ones of what it has sent. -/
def Separated (events : List Event) (printed : List (List (Conn × UInt8))) : Prop :=
  ∀ c, touching c printed = (completeBlocks 8 (sentBy c events)).map (List.map (Prod.mk c))

def EmitsBlocks (events : List Event) : Prop :=
  ∃ s, run events = some s ∧
    Server.serve 0 (events.map Event.chunk) = some (s.map Prod.snd) ∧ Separated events s.printed

/-- An event that completes no block, or one, and that of the bytes of its own connection. -/
def Fits (s : Server (Conn × UInt8)) (e : Event) : Prop :=
  (s.pending ++ e.tagged).length < 8 ∨
    (∀ b ∈ s.pending, b.1 = e.conn) ∧ (s.pending ++ e.tagged).length < 16

/-- What is printed is separated, and of each connection there waits what makes no block. -/
structure Follows (events : List Event) (s : Server (Conn × UInt8)) : Prop where
  short : s.pending.length < 8
  waiting : ∀ c, (s.pending.filter fun b => b.1 == c) = (incomplete 8 (sentBy c events)).map (Prod.mk c)
  separated : Separated events s.printed

section Events
variable {ps : List Event} {s s' : Server (Conn × UInt8)} {e : Event} {c : Conn}

private theorem run_append (ps : List Event) (e : Event) :
    run (ps ++ [e]) = (run ps).bind fun s => s.onData (0,0) e.tagged := by
  rw [run, List.map_append, List.map_singleton, Server.serve_append]
  rfl

/-- The server itself does not see the connections. -/
theorem serve_chunks (events : List Event) :
    Server.serve 0 (events.map Event.chunk) = (run events).map (Server.map Prod.snd) := by
  have hchunks : (events.map Event.tagged).map (List.map Prod.snd) = events.map Event.chunk := by
    rw [List.map_map]
    apply List.map_congr_left
    intro e _
    rw [Function.comp_apply, Event.tagged, List.map_map]
    exact List.map_id _
  rw [run, ← Server.serve_map, hchunks]

private theorem sentBy_same (ps : List Event) (e : Event) :
    sentBy e.conn (ps ++ [e]) = sentBy e.conn ps ++ e.chunk := by
  simp [sentBy, List.filter_append, List.flatMap_append]

private theorem sentBy_other (h : e.conn ≠ c) : sentBy c (ps ++ [e]) = sentBy c ps := by
  simp [sentBy, List.filter_append, h]

private theorem filter_tagged_same (c : Conn) (bs : Bytes) :
    ((bs.map (Prod.mk c)).filter fun b => b.1 == c) = bs.map (Prod.mk c) := by
  apply List.filter_eq_self.mpr
  intro b hb
  obtain ⟨x,_,rfl⟩ := List.mem_map.mp hb
  exact beq_self_eq_true _

private theorem filter_tagged_other {d : Conn} (h : d ≠ c) (bs : Bytes) :
    ((bs.map (Prod.mk d)).filter fun b => b.1 == c) = [] := by
  apply List.filter_eq_nil_iff.mpr
  intro b hb
  obtain ⟨x,_,rfl⟩ := List.mem_map.mp hb
  exact fun heq => h (eq_of_beq heq)

private theorem touching_append (c : Conn) (printed : List (List (Conn × UInt8))) (block : List (Conn × UInt8)) :
    touching c (printed ++ [block]) = touching c printed ++ touching c [block] := List.filter_append ..

private theorem follows_init : Follows [] Server.init := by
  refine ⟨Nat.zero_lt_succ _,fun c => ?_,fun c => ?_⟩
  · simp [Server.pending, Server.init, sentBy, incomplete]
  · simp [touching, Server.init, sentBy, completeBlocks]

/-- An event that completes no block. -/
theorem Follows.wait (h : Follows ps s) (hshort : (s.pending ++ e.tagged).length < 8)
    (hpending : s'.pending = s.pending ++ e.tagged) (hprinted : s'.printed = s.printed) :
    Follows (ps ++ [e]) s' := by
  have hblocks (c : Conn) : completeBlocks 8 (sentBy c (ps ++ [e])) = completeBlocks 8 (sentBy c ps) ∧
      (s'.pending.filter fun b => b.1 == c) = (incomplete 8 (sentBy c (ps ++ [e]))).map (Prod.mk c) := by
    rw [hpending, List.filter_append, h.waiting c, Event.tagged]
    by_cases hc : e.conn = c
    · subst hc
      have hfew : (incomplete 8 (sentBy e.conn ps) ++ e.chunk).length < 8 := by
        have hpart := List.length_filter_le (fun b => b.1 == e.conn) s.pending
        rw [h.waiting, List.length_map] at hpart
        rw [List.length_append, Event.tagged, List.length_map] at hshort
        rw [List.length_append]
        omega
      obtain ⟨hsame,hrest⟩ := completeBlocks_short (by decide) hfew
      rw [sentBy_same, hsame, hrest, filter_tagged_same, List.map_append]
      exact ⟨rfl,rfl⟩
    · rw [sentBy_other hc, filter_tagged_other hc, List.append_nil]
      exact ⟨rfl,rfl⟩
  refine ⟨hpending ▸ hshort,fun c => (hblocks c).2,fun c => ?_⟩
  rw [hprinted, (hblocks c).1]
  exact h.separated c

private theorem touching_tagged (c d : Conn) {bs : Bytes} (h : bs ≠ []) :
    touching c [bs.map (Prod.mk d)] = if d = c then [bs.map (Prod.mk d)] else [] := by
  obtain ⟨b,hb⟩ := List.exists_mem_of_ne_nil bs h
  by_cases hd : d = c
  · rw [if_pos hd]
    apply List.filter_eq_self.mpr
    intro block hblock
    rw [List.mem_singleton.mp hblock]
    exact List.any_eq_true.mpr ⟨(d,b),List.mem_map_of_mem hb,beq_iff_eq.mpr hd⟩
  · rw [if_neg hd]
    apply List.filter_eq_nil_iff.mpr
    intro block hblock hany
    rw [List.mem_singleton.mp hblock] at hany
    obtain ⟨x,hx,heq⟩ := List.any_eq_true.mp hany
    obtain ⟨y,_,rfl⟩ := List.mem_map.mp hx
    exact hd (eq_of_beq heq)

/-- Bytes of one connection that wait are all that it has in no block. -/
theorem Follows.waiting_alone (h : Follows ps s) (halone : ∀ b ∈ s.pending, b.1 = c) :
    s.pending = (incomplete 8 (sentBy c ps)).map (Prod.mk c) := by
  rw [← h.waiting c]
  exact (List.filter_eq_self.mpr fun b hb => beq_iff_eq.mpr (halone b hb)).symm

theorem Follows.waiting_none (h : Follows ps s) (halone : ∀ b ∈ s.pending, b.1 = e.conn)
    (hc : e.conn ≠ c) : (incomplete 8 (sentBy c ps)).map (Prod.mk c) = [] := by
  rw [← h.waiting c]
  exact List.filter_eq_nil_iff.mpr fun b hb heq => hc ((halone b hb).symm.trans (eq_of_beq heq))

/-- An event that completes one block of its connection. -/
theorem Follows.print (h : Follows ps s) (halone : ∀ b ∈ s.pending, b.1 = e.conn)
    (hlong : 8 ≤ (s.pending ++ e.tagged).length) (hlt : (s.pending ++ e.tagged).length < 16)
    (hpending : s'.pending = (s.pending ++ e.tagged).drop 8)
    (hprinted : s'.printed = s.printed ++ [(s.pending ++ e.tagged).take 8]) :
    Follows (ps ++ [e]) s' := by
  have hall : s.pending ++ e.tagged =
      (incomplete 8 (sentBy e.conn ps) ++ e.chunk).map (Prod.mk e.conn) := by
    rw [h.waiting_alone halone, Event.tagged, List.map_append]
  rw [hall, List.length_map] at hlong hlt
  rw [hall, ← List.map_drop] at hpending
  rw [hall, ← List.map_take] at hprinted
  obtain ⟨hblocks,hrest⟩ := completeBlocks_next (by decide) hlong hlt
  have hblock : (incomplete 8 (sentBy e.conn ps) ++ e.chunk).take 8 ≠ [] := by
    apply List.ne_nil_of_length_pos
    rw [List.length_take_of_le hlong]
    decide
  refine ⟨?_,fun c => ?_,fun c => ?_⟩
  · rw [hpending, List.length_map, List.length_drop]
    omega
  · rw [hpending]
    by_cases hc : e.conn = c
    · subst hc
      rw [sentBy_same, hrest]
      exact filter_tagged_same _ _
    · rw [sentBy_other hc, h.waiting_none halone hc]
      exact filter_tagged_other hc _
  · rw [hprinted, touching_append, h.separated c, touching_tagged c e.conn hblock]
    by_cases hc : e.conn = c
    · subst hc
      rw [if_pos rfl, sentBy_same, hblocks, List.map_append]
      rfl
    · rw [if_neg hc, sentBy_other hc, List.append_nil]

/-- A block with bytes of two connections is complete for neither. -/
theorem not_separated_of_mixed {block : List (Conn × UInt8)} {printed : List (List (Conn × UInt8))}
    {b d : Conn × UInt8} (hb : b ∈ block) (hd : d ∈ block) (hne : b.1 ≠ d.1) :
    ¬ Separated ps (printed ++ [block]) := by
  intro hseparated
  have htouching : block ∈ touching b.1 (printed ++ [block]) := by
    apply List.mem_filter.mpr
    exact ⟨List.mem_append_right _ (List.mem_singleton_self _),
      List.any_eq_true.mpr ⟨b,hb,beq_self_eq_true _⟩⟩
  rw [hseparated b.1] at htouching
  obtain ⟨bs,_,rfl⟩ := List.mem_map.mp htouching
  obtain ⟨x,_,rfl⟩ := List.mem_map.mp hd
  exact hne rfl

/-- Two blocks at once are not both printed. -/
theorem Follows.not_separated_of_long (h : Follows ps s) (halone : ∀ b ∈ s.pending, b.1 = e.conn)
    (hlong : 16 ≤ (s.pending ++ e.tagged).length) (block : List (Conn × UInt8)) :
    ¬ Separated (ps ++ [e]) (s.printed ++ [block]) := by
  intro hseparated
  have hcount := congrArg List.length (hseparated e.conn)
  have hone := List.length_filter_le (fun block => block.any fun b => b.1 == e.conn) [block]
  rw [touching_append, List.length_append, h.separated, List.length_map, List.length_map,
    completeBlocks_length, completeBlocks_length, sentBy_same, length_div_append (by decide)] at hcount
  rw [h.waiting_alone halone, Event.tagged, ← List.map_append, List.length_map] at hlong
  have htwo : 2 ≤ (incomplete 8 (sentBy e.conn ps) ++ e.chunk).length / 8 :=
    (Nat.le_div_iff_mul_le (by decide)).mpr hlong
  have hle : (touching e.conn [block]).length ≤ 1 := hone
  omega

/-- An event that does not fit is seen in what is printed. -/
theorem Follows.not_separated (h : Follows ps s) (hfits : ¬ Fits s e)
    (hprinted : s'.printed = s.printed ++ [(s.pending ++ e.tagged).take 8]) :
    ¬ Separated (ps ++ [e]) s'.printed := by
  obtain ⟨hlong,hmixed⟩ := not_or.mp hfits
  rw [hprinted]
  by_cases halone : ∀ b ∈ s.pending, b.1 = e.conn
  · exact h.not_separated_of_long halone (Nat.not_lt.mp fun hlt => hmixed ⟨halone,hlt⟩) _
  · obtain ⟨b,hb⟩ := not_forall.mp halone
    obtain ⟨hmem,hne⟩ := Classical.not_imp.mp hb
    have hshort := h.short
    -- the block starts with all that waited and goes on with the new chunk
    have hblock : (s.pending ++ e.tagged).take 8 = s.pending ++ e.tagged.take (8 - s.pending.length) := by
      rw [List.take_append, List.take_of_length_le hshort.le]
    have hnew : (e.tagged.take (8 - s.pending.length)) ≠ [] := by
      apply List.ne_nil_of_length_pos
      rw [List.length_append] at hlong
      rw [List.length_take]
      omega
    obtain ⟨d,hd⟩ := List.exists_mem_of_ne_nil _ hnew
    obtain ⟨x,_,rfl⟩ := List.mem_map.mp (List.mem_of_mem_take hd)
    rw [hblock]
    exact not_separated_of_mixed (List.mem_append_left _ hmem) (List.mem_append_right _ hd) hne

/-- One event: the invariant is kept, or what is printed is not separated. -/
theorem Follows.event (h : Follows ps s) (e : Event) : ∃ s', s.onData (0,0) e.tagged = some s' ∧
    (Fits s e → Follows (ps ++ [e]) s') ∧ (Separated (ps ++ [e]) s'.printed → Fits s e) := by
  obtain ⟨s',hs',hwait,hprint⟩ := s.onData_spec (0,0) e.tagged
  refine ⟨s',hs',fun hfits => ?_,fun hseparated => ?_⟩
  · rcases Nat.lt_or_ge (s.pending ++ e.tagged).length 8 with hshort | hlong
    · exact h.wait hshort (hwait hshort).1 (hwait hshort).2
    · obtain ⟨halone,hlt⟩ := hfits.resolve_left (Nat.not_lt.mpr hlong)
      exact h.print halone hlong hlt (hprint hlong).1 (hprint hlong).2
  · by_contra hfits
    have hlong := Nat.not_lt.mp (not_or.mp hfits).1
    exact h.not_separated hfits (hprint hlong).2 hseparated

end Events

section Runs
variable {events : List Event}

/-- An event before which the invariant holds, and which fits then or is printed well after it. -/
theorem follows_append {ps : List Event} {e : Event} (h : ∃ s, run ps = some s ∧ Follows ps s)
    (hgood : (∃ s, run ps = some s ∧ Fits s e) ∨ EmitsBlocks (ps ++ [e])) :
    (∃ s, run ps = some s ∧ Fits s e) ∧ ∃ s, run (ps ++ [e]) = some s ∧ Follows (ps ++ [e]) s := by
  obtain ⟨s,hrun,hfollows⟩ := h
  obtain ⟨s',hs',hkeep,honly⟩ := hfollows.event e
  have hnext : run (ps ++ [e]) = some s' := by rw [run_append, hrun, Option.bind_some, hs']
  have hfits : Fits s e := by
    rcases hgood with ⟨t,ht,hfits⟩ | ⟨t,ht,_,hseparated⟩
    · rw [hrun, Option.some.injEq] at ht
      rwa [ht]
    · rw [hnext, Option.some.injEq] at ht
      exact honly (ht ▸ hseparated)
  exact ⟨⟨s,hrun,hfits⟩,s',hnext,hkeep hfits⟩

private theorem follows_prefix (h : ∀ ps e, ps ++ [e] <+: events →
      (∃ s, run ps = some s ∧ Fits s e) ∨ EmitsBlocks (ps ++ [e])) {ps : List Event}
    (hps : ps <+: events) :
    ∃ s, run ps = some s ∧ Follows ps s := by
  induction ps using List.reverseRecOn with
  | nil => exact ⟨Server.init,rfl,follows_init⟩
  | append_singleton ps e ih =>
    have hbefore := ih ((List.prefix_append ps [e]).trans hps)
    exact (follows_append hbefore (h ps e hps)).2

end Runs

/-- In a run every state prints the complete blocks of each connection exactly if each event
completes no block, or one of the bytes of its own connection. -/
theorem emits_blocks_iff (events : List Event) : (∀ ps, ps <+: events → EmitsBlocks ps) ↔
    ∀ ps e, ps ++ [e] <+: events → ∃ s, run ps = some s ∧ Fits s e := by
  constructor
  · intro hemits ps e hps
    have hbefore := follows_prefix (fun ps e h => .inr (hemits _ h))
      ((List.prefix_append ps [e]).trans hps)
    exact (follows_append hbefore (.inr (hemits _ hps))).1
  · intro hfits ps hps
    obtain ⟨s,hrun,hfollows⟩ := follows_prefix (fun ps e h => .inl (hfits ps e h)) hps
    exact ⟨s,hrun,by rw [serve_chunks, hrun, Option.map_some],hfollows.separated⟩

/-- Of 16 bytes in one event only one block is printed, and of two connections that send
four bytes each one block with the bytes of both. -/
theorem emits_blocks_fails : ¬ EmitsBlocks [⟨0,List.replicate 16 0x61⟩] ∧
    ¬ EmitsBlocks [⟨0,List.replicate 4 0x61⟩,⟨1,List.replicate 4 0x62⟩] := by
  constructor
  · rintro ⟨s,hrun,_,hseparated⟩
    have hstate : run [⟨0,List.replicate 16 0x61⟩] = some ⟨[List.replicate 8 (0,0x61)],
      [List.replicate 8 (0,0x61)]⟩ := by rfl
    cases hstate.symm.trans hrun
    exact absurd (hseparated 0) (by decide)
  · rintro ⟨s,hrun,_,hseparated⟩
    have hstate : run [⟨0,List.replicate 4 0x61⟩,⟨1,List.replicate 4 0x62⟩] =
      some ⟨[],[List.replicate 4 (0,0x61) ++ List.replicate 4 (1,0x62)]⟩ := by rfl
    cases hstate.symm.trans hrun
    exact absurd (hseparated 0) (by decide)

end CryptoPlaypen.General
