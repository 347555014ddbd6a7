import CryptoPlaypen.Lightning.PeerClient

/-! The socket handler over every cut of one byte stream. A cut is followed
exactly when each event finds one whole frame, or a bare prefix before its body. -/
namespace CryptoPlaypen.Lightning
open Buffer Objects Method NoiseState

/-- A peer message on the wire: its encrypted length and its encrypted body. -/
structure Frame where
  message : Bytes
  lc : Bytes
  c : Bytes
  deriving DecidableEq, Repr

def Frame.bytes (f : Frame) : Bytes := f.lc ++ f.c

section Cipher
variable (P : Primitives)

def afterSend (m : Message) (s : NoiseState) : NoiseState :=
  match m.serialize with
  | some c => ((encryptMessage P c.buffer).run s).2
  | none => s

def afterAnswer (m : Bytes) (s : NoiseState) : NoiseState :=
  match Message.deserialize m with
  | some (some (.ping p)) => afterSend P (.pong (PongMessage.createReply p.num_pong_bytes)) s
  | _ => s

/-- From this noise state the cipher decrypts the frames fed whole and in order,
each followed by the client's answer. -/
def Receives : NoiseState → List Frame → Prop
  | _, [] => True
  | s, f :: rest => f.lc.length = 18 ∧ f.c.length = f.message.length + 16 ∧
      ∃ s₁ s₂, (decryptLength P f.lc).run s = (.returned f.message.length, s₁) ∧
        (decryptMessage P f.c).run s₁ = (.returned (some f.message), s₂) ∧
        Receives (afterAnswer P f.message s₂) rest

end Cipher

/-- Cut sizes that the transport branch follows, from the number of buffered bytes
and the lengths of the messages still to come: each event finds one whole frame,
or the bare prefix of a message that is not empty, whose body the next event
brings whole. The flag says that the first prefix was taken by an earlier event. -/
def Aligned : Bool → Nat → List Nat → List Nat → Prop
  | half, buffered, lengths, [] => half = false ∧ buffered = 0 ∧ lengths = []
  | _, _, [], _ :: _ => False
  | false, buffered, length :: lengths, size :: sizes =>
    (18 + (length + 16) ≤ buffered + size ∧
      Aligned false (buffered + size - (18 + (length + 16))) lengths sizes) ∨
    (buffered + size = 18 ∧ 0 < length ∧ Aligned true 0 (length :: lengths) sizes)
  | true, _, length :: lengths, size :: sizes =>
    length + 16 ≤ size ∧ Aligned false (size - (length + 16)) lengths sizes

/-- The same for a whole stream: events only collect until act two is complete,
and what that event holds beyond it stays buffered. -/
def AlignedCut : Nat → List Nat → List Nat → Prop
  | _, _, [] => False
  | buffered, lengths, size :: sizes =>
    if 50 ≤ buffered + size then Aligned false (buffered + size - 50) lengths sizes
    else AlignedCut (buffered + size) lengths sizes

/-- Every body has been decrypted once and in order, and nothing is carried over. -/
def DecryptedAll (c : PeerClient) (frames : List Frame) : Prop :=
  c.decrypted = frames.map Frame.c ∧ c._buffer = [] ∧ c.l = none

namespace PeerClient
variable {P : Primitives} {c : PeerClient}

@[simp] theorem run_onNoise {α : Type} (m : Method NoiseState α) (c : PeerClient) :
    (onNoise m).run c =
      ((m.run c.noiseState).1, { c with noiseState := (m.run c.noiseState).2 }) := rfl

theorem sendMessage_frame (m : Message) (c : PeerClient) : ∃ written,
    ((sendMessage P m).run c).2 =
      { c with noiseState := afterSend P m c.noiseState, written := written } := by
  unfold sendMessage afterSend
  cases m.serialize with
  | none => exact ⟨c.written,rfl⟩
  | some b =>
    simp only [run_bind, run_attempt_some, run_onNoise]
    cases (encryptMessage P b.buffer).run c.noiseState with
    | mk result s => cases result <;> exact ⟨_,rfl⟩

/-- The answer to a message touches the noise state and the socket only. -/
theorem answer_frame (m : Bytes) (c : PeerClient) : ∃ written,
    ((do
      let m ← attempt (Message.deserialize m)
      routeMessage P m : Method PeerClient Unit).run c).2 =
      { c with noiseState := afterAnswer P m c.noiseState, written := written } := by
  unfold afterAnswer
  rcases Message.deserialize m with _ | _ | message
  · exact ⟨c.written,rfl⟩
  · exact ⟨c.written,rfl⟩
  · cases message with
    | ping p => exact sendMessage_frame _ c
    | _ => exact ⟨c.written,rfl⟩

/-- With bytes left, the second half passes the next body on, whatever comes of it. -/
theorem receiveBody_frame (l : Nat) (hb : c._buffer ≠ []) : ∃ s written,
    ((receiveBody P l).run c).2 = { c with
      _buffer := c._buffer.drop (l + 16), decrypted := c.decrypted ++ [c._buffer.take (l + 16)]
      noiseState := s, written := written } ∧
    ∀ m s₂, (decryptMessage P (c._buffer.take (l + 16))).run c.noiseState = (.returned (some m), s₂) →
      s = afterAnswer P m s₂ := by
  have hne : c._buffer.length ≠ 0 := by simpa using hb
  simp only [receiveBody, run_bind, run_self, if_neg hne, run_assign, run_onNoise, slice,
    List.drop_zero]
  rcases (decryptMessage P (c._buffer.take (l + 16))).run c.noiseState with ⟨(_ | m) | _,s⟩
  · exact ⟨s,c.written,rfl,fun m s₂ h => by cases h⟩
  · obtain ⟨written,ha⟩ := answer_frame (P := P) m { c with
      _buffer := c._buffer.drop (l + 16), decrypted := c.decrypted ++ [c._buffer.take (l + 16)]
      noiseState := s }
    refine ⟨afterAnswer P m s,written,ha,?_⟩
    rintro m' s₂ ⟨⟩
    rfl
  · exact ⟨s,c.written,rfl,fun m s₂ h => by cases h⟩

private theorem receiveBody_empty (l : Nat) (hb : c._buffer = []) :
    ((receiveBody P l).run c).2 = { c with l := some l } := by
  simp only [receiveBody, run_bind, run_self, hb, List.length_nil, if_true, run_assign]

/-- Until fifty bytes are there, an event before act two only collects. -/
theorem onData_collect {d : Bytes} (hact : c.completedAct = 1) (h : (c._buffer ++ d).length < 50) :
    onData P c d = { c with _buffer := c._buffer ++ d } := by
  simp only [onData, receive, run_bind, run_assign, run_self, hact]
  rw [if_neg (by omega), if_neg (by omega)]
  rfl

/-- A good act two is answered by act three and the init message, and the rest of
the event's bytes stay buffered. -/
theorem onData_actTwo {d reply : Bytes} {s : NoiseState} (hact : c.completedAct = 1)
    (h : 50 ≤ (c._buffer ++ d).length)
    (hrun : (initiatorAct2Act3 P ((c._buffer ++ d).take 50)).run c.noiseState = (.returned reply, s)) :
    ∃ written, onData P c d = { c with
      _buffer := (c._buffer ++ d).drop 50, completedAct := 3
      noiseState := afterSend P (.init InitMessage.construct) s, written := written } := by
  simp only [onData, receive, run_bind, run_assign, run_self, hact]
  rw [if_pos ⟨trivial,h⟩]
  simp only [run_bind, run_assign, run_onNoise, slice, List.drop_zero, hrun]
  exact sendMessage_frame _ _

/-- An event with a prefix pending hands all bytes to the second half. -/
theorem onData_pending {d : Bytes} {l : Nat} (hact : c.completedAct = 3) (hl : c.l = some (l + 1)) :
    onData P c d =
      ((receiveBody P (l + 1)).run { c with _buffer := c._buffer ++ d, l := none }).2 := by
  simp only [onData, receive, run_bind, run_assign, run_self, hact, hl]
  rfl

/-- An event with no length pending, or a zero one, decrypts a prefix first. -/
theorem onData_prefix {d : Bytes} (hact : c.completedAct = 3) (hl : c.l = none ∨ c.l = some 0) :
    onData P c d =
      match (decryptLength P ((c._buffer ++ d).take 18)).run c.noiseState with
      | (.returned l, s) => ((receiveBody P l).run
          { c with _buffer := (c._buffer ++ d).drop 18, l := none, noiseState := s }).2
      | (.threw, s) =>
          { c with _buffer := (c._buffer ++ d).drop 18, l := none, noiseState := s } := by
  rcases hl with hl | hl <;>
  · simp only [onData, receive, run_bind, run_assign, run_self, hact, hl, slice, List.drop_zero]
    rw [if_neg (by omega), if_pos trivial]
    simp only [run_bind, run_assign, run_onNoise]
    rcases (decryptLength P ((c._buffer ++ d).take 18)).run c.noiseState with ⟨_ | _,s⟩ <;> rfl

end PeerClient

/-- A prefix that decrypts to a length is at least eighteen bytes long. -/
theorem decryptLength_size {P : Primitives} (hP : AeadLaws P) {s s' : NoiseState} {lc : Bytes} {l : Nat}
    (h : (decryptLength P lc).run s = (.returned l, s')) : 18 ≤ lc.length := by
  simp only [decryptLength, run_bind, run_self] at h
  rcases hk : s.rk with _ | rk
  · rw [hk] at h
    cases h
  rw [hk] at h
  simp only [run_attempt_some] at h
  rcases hd : ccpDecrypt P rk s.rn [] lc with _ | plain
  · rw [hd] at h
    cases h
  rw [hd] at h
  simp only [run_attempt_some] at h
  rcases hf : (finishRecievingUse P).run s with ⟨_ | _,t⟩
  · rw [hf] at h
    rcases plain with _ | m
    · cases h
    simp only [run_attempt_some] at h
    have hlen := ccpDecrypt_plaintext_length hP hd
    by_contra hshort
    have hread : readUInt16BE m 0 = none := if_neg (by omega)
    rw [hread] at h
    cases h
  · rw [hf] at h
    cases h

section Accounting

def cost (bodies : List Bytes) : Nat := (bodies.map fun c => c.length + 18).sum

/-- The bytes a client can still account for: buffered, spent on whole frames, or
spent on the prefix of a pending length that will be honoured. -/
def weight (c : PeerClient) : Nat :=
  c._buffer.length + cost c.decrypted + if c.l.getD 0 = 0 then 0 else 18

private theorem cost_append (xs ys : List Bytes) : cost (xs ++ ys) = cost xs + cost ys := by
  simp [cost]

private theorem cost_singleton (x : Bytes) : cost [x] = x.length + 18 := by simp [cost]

variable {P : Primitives} {c : PeerClient}

/-- What every transport event keeps: the branch, the record of bodies, and that no
byte is accounted for twice. -/
structure Keeps (c c' : PeerClient) (budget : Nat) : Prop where
  act : c'.completedAct = 3
  bodies : c.decrypted <+: c'.decrypted
  weight : weight c' ≤ budget

private theorem receiveBody_keeps (l : Nat) (hact : c.completedAct = 3) (hl : c.l = none) :
    Keeps c ((PeerClient.receiveBody P l).run c).2 (c._buffer.length + cost c.decrypted + 18) := by
  by_cases hb : c._buffer = []
  · rw [PeerClient.receiveBody_empty l hb]
    refine ⟨hact,List.prefix_refl _,?_⟩
    simp only [weight, hb, List.length_nil]
    split <;> omega
  · obtain ⟨s,written,he,_⟩ := PeerClient.receiveBody_frame (P := P) l hb
    rw [he]
    refine ⟨hact,List.prefix_append _ _,?_⟩
    simp only [weight, cost_append, cost_singleton, hl, Option.getD_none, if_true,
      List.length_drop, List.length_take]
    omega

private theorem onData_keeps (hP : AeadLaws P) (d : Bytes) (hact : c.completedAct = 3) :
    Keeps c (PeerClient.onData P c d) (weight c + d.length) := by
  by_cases hl : c.l.getD 0 = 0
  · have hcase : c.l = none ∨ c.l = some 0 := by
      rcases h : c.l with _ | l
      · exact .inl rfl
      · exact .inr (by rw [h] at hl; exact congrArg some hl)
    rw [PeerClient.onData_prefix hact hcase]
    rcases hrun : (decryptLength P ((c._buffer ++ d).take 18)).run c.noiseState with ⟨l | _,s⟩
    · have hsize := decryptLength_size hP hrun
      have hk := receiveBody_keeps (P := P) (c := { c with
        _buffer := (c._buffer ++ d).drop 18, l := none, noiseState := s }) l hact rfl
      refine ⟨hk.act,hk.bodies,hk.weight.trans ?_⟩
      simp only [weight, List.length_take, List.length_drop, List.length_append, if_pos hl] at hsize ⊢
      omega
    · refine ⟨hact,List.prefix_refl _,?_⟩
      simp only [weight, Option.getD_none, if_true, if_pos hl, List.length_drop, List.length_append]
      omega
  · obtain ⟨l,hpending⟩ : ∃ l, c.l = some (l + 1) := by
      rcases h : c.l with _ | _ | l
      · exact absurd (by rw [h]; rfl) hl
      · exact absurd (by rw [h]; rfl) hl
      · exact ⟨l,rfl⟩
    rw [PeerClient.onData_pending hact hpending]
    have hk := receiveBody_keeps (P := P) (c := { c with _buffer := c._buffer ++ d, l := none })
      (l + 1) hact rfl
    refine ⟨hk.act,hk.bodies,hk.weight.trans ?_⟩
    simp only [weight, if_neg hl, List.length_append]
    omega

private theorem onDatas_keeps (hP : AeadLaws P) (chunks : List Bytes) (hact : c.completedAct = 3) :
    Keeps c (chunks.foldl (PeerClient.onData P) c) (weight c + chunks.flatten.length) := by
  induction chunks generalizing c with
  | nil => exact ⟨hact,List.prefix_refl _,Nat.le_refl _⟩
  | cons d chunks ih =>
    have hfirst := onData_keeps hP d hact
    have hrest := ih hfirst.act
    refine ⟨hrest.act,hfirst.bodies.trans hrest.bodies,hrest.weight.trans ?_⟩
    have := hfirst.weight
    rw [List.flatten_cons, List.length_append]
    omega

/-- The client has fallen behind a record of bodies for good: too few bytes are left
for it, or a wrong body is already in it. -/
def Lost (c : PeerClient) (coming : Bytes) (goal : List Bytes) : Prop :=
  weight c + coming.length < cost goal ∨ ¬ c.decrypted <+: goal

theorem Lost.unreached (hP : AeadLaws P) {chunks : List Bytes} {goal : List Bytes}
    (hact : c.completedAct = 3) (h : Lost c chunks.flatten goal)
    (hgoal : (chunks.foldl (PeerClient.onData P) c).decrypted = goal) : False := by
  have hk := onDatas_keeps hP chunks hact
  rcases h with hshort | hwrong
  · have hw := hk.weight
    simp only [weight, hgoal] at hw hshort
    omega
  · exact hwrong (hgoal ▸ hk.bodies)

/-- The frames of a stream cost its length. -/
theorem cost_frames {s : NoiseState} {frames : List Frame} (h : Receives P s frames) :
    cost (frames.map Frame.c) = (frames.flatMap Frame.bytes).length := by
  induction frames generalizing s with
  | nil => rfl
  | cons f frames ih =>
    obtain ⟨hlc,_,_,_,_,_,hrest⟩ := h
    have htail := ih hrest
    simp only [cost, List.map_cons, List.sum_cons, List.flatMap_cons, List.length_append,
      Frame.bytes, hlc] at htail ⊢
    omega

end Accounting

/-- A client in step with the stream: its buffer and the bytes to come are the
frames, from the prefix of the first or, with its length pending, from its body. -/
inductive InStep (P : Primitives) (c : PeerClient) (coming : Bytes) : Bool → List Frame → Prop where
  | whole {frames : List Frame} : c.completedAct = 3 → c.l = none → Receives P c.noiseState frames →
      c._buffer ++ coming = frames.flatMap Frame.bytes → InStep P c coming false frames
  | half {f : Frame} {frames : List Frame} {s : NoiseState} : c.completedAct = 3 → c._buffer = [] →
      0 < f.message.length → c.l = some f.message.length → f.c.length = f.message.length + 16 →
      (decryptMessage P f.c).run c.noiseState = (.returned (some f.message), s) →
      Receives P (afterAnswer P f.message s) frames →
      coming = f.c ++ frames.flatMap Frame.bytes → InStep P c coming true (f :: frames)

/-- Of two ways to split one stream, the longer front starts with the shorter. -/
theorem split_front {xs ys zs ws : Bytes} (h : xs ++ ys = zs ++ ws) (hlen : zs.length ≤ xs.length) :
    ∃ back, xs = zs ++ back ∧ back ++ ys = ws := by
  rcases List.append_eq_append_iff.mp h with ⟨as,rfl,rfl⟩ | ⟨bs,rfl,rfl⟩
  · rw [List.length_append] at hlen
    have has : as = [] := List.eq_nil_of_length_eq_zero (by omega)
    subst has
    exact ⟨[],by simp,rfl⟩
  · exact ⟨bs,rfl,rfl⟩

section Steps
variable {P : Primitives} {c : PeerClient} {f : Frame} {frames : List Frame} {d rest : Bytes}

def TakesFrame (P : Primitives) (c c' : PeerClient) (rest : Bytes) (f : Frame) (frames : List Frame)
    (left : Nat) : Prop :=
  InStep P c' rest false frames ∧ c'.decrypted = c.decrypted ++ [f.c] ∧ c'._buffer.length = left

private theorem receiveBody_takes {s : NoiseState} {back : Bytes} (hact : c.completedAct = 3) (hl : c.l = none)
    (hb : c._buffer = f.c ++ back) (hback : back ++ rest = frames.flatMap Frame.bytes)
    (hlen : f.c.length = f.message.length + 16)
    (hrun : (decryptMessage P f.c).run c.noiseState = (.returned (some f.message), s))
    (hrec : Receives P (afterAnswer P f.message s) frames) :
    TakesFrame P c ((PeerClient.receiveBody P f.message.length).run c).2 rest f frames
      back.length := by
  have hne : c._buffer ≠ [] := by
    rw [hb]
    exact List.append_ne_nil_of_left_ne_nil (List.ne_nil_of_length_pos (by omega)) _
  obtain ⟨t,written,he,ht⟩ := PeerClient.receiveBody_frame (P := P) f.message.length hne
  have htake : c._buffer.take (f.message.length + 16) = f.c := by rw [hb, ← hlen, List.take_left]
  have hdrop : c._buffer.drop (f.message.length + 16) = back := by rw [hb, ← hlen, List.drop_left]
  rw [htake] at he ht
  rw [hdrop] at he
  rw [he, ht _ _ hrun]
  exact ⟨.whole hact hl hrec hback,rfl,rfl⟩

/-- With a whole prefix at hand the event decrypts it and turns to what follows. -/
theorem InStep.takeLength (h : InStep P c (d ++ rest) false (f :: frames))
    (hsize : 18 ≤ c._buffer.length + d.length) :
    ∃ back s₁ s₂, back.length + 18 = c._buffer.length + d.length ∧
      back ++ rest = f.c ++ frames.flatMap Frame.bytes ∧
      f.c.length = f.message.length + 16 ∧
      PeerClient.onData P c d = ((PeerClient.receiveBody P f.message.length).run
        { c with _buffer := back, l := none, noiseState := s₁ }).2 ∧
      (decryptMessage P f.c).run s₁ = (.returned (some f.message), s₂) ∧
      Receives P (afterAnswer P f.message s₂) frames := by
  obtain ⟨hact,hl,hrec,hstream⟩ := h
  obtain ⟨hlc,hc,s₁,s₂,hlength,hmessage,hrest⟩ := hrec
  have hsplit : c._buffer ++ d ++ rest = f.lc ++ (f.c ++ frames.flatMap Frame.bytes) := by
    rw [List.append_assoc, hstream, List.flatMap_cons, Frame.bytes, List.append_assoc]
  obtain ⟨back,hback,hrestream⟩ := split_front hsplit (by rw [List.length_append]; omega)
  have htake : (c._buffer ++ d).take 18 = f.lc := by rw [hback, ← hlc, List.take_left]
  have hdrop : (c._buffer ++ d).drop 18 = back := by rw [hback, ← hlc, List.drop_left]
  have hlen := congrArg List.length hback
  simp only [List.length_append, hlc] at hlen
  refine ⟨back,s₁,s₂,by omega,hrestream,hc,?_,hmessage,hrest⟩
  rw [PeerClient.onData_prefix hact (.inl hl), htake, hdrop, hlength]

/-- The first frame is at hand: the event decrypts it and no more. -/
theorem InStep.takeFrame (h : InStep P c (d ++ rest) false (f :: frames))
    (hsize : 18 + (f.message.length + 16) ≤ c._buffer.length + d.length) :
    TakesFrame P c (PeerClient.onData P c d) rest f frames
      (c._buffer.length + d.length - (18 + (f.message.length + 16))) := by
  obtain ⟨back,s₁,s₂,hlen,hstream,hc,hrun,hmessage,hrest⟩ := h.takeLength (by omega)
  obtain ⟨left,hleft,hrestream⟩ := split_front hstream (by omega)
  have hact : c.completedAct = 3 := by cases h; assumption
  have hbody := receiveBody_takes (c := { c with _buffer := back, l := none, noiseState := s₁ })
    hact rfl hleft hrestream hc hmessage hrest
  rw [hrun]
  have hsum := congrArg List.length hleft
  rw [List.length_append] at hsum
  rwa [show c._buffer.length + d.length - (18 + (f.message.length + 16)) = left.length by omega]

/-- Only the prefix is at hand: its length waits for the next event. -/
theorem InStep.takeHead (h : InStep P c (d ++ rest) false (f :: frames))
    (hsize : c._buffer.length + d.length = 18) (hpos : 0 < f.message.length) :
    InStep P (PeerClient.onData P c d) rest true (f :: frames) ∧
      (PeerClient.onData P c d).decrypted = c.decrypted ∧
      (PeerClient.onData P c d)._buffer = [] := by
  obtain ⟨back,s₁,s₂,hlen,hstream,hc,hrun,hmessage,hrest⟩ := h.takeLength (by omega)
  have hback : back = [] := List.eq_nil_of_length_eq_zero (by omega)
  have hact : c.completedAct = 3 := by cases h; assumption
  subst hback
  rw [PeerClient.receiveBody_empty _ rfl] at hrun
  rw [hrun]
  exact ⟨.half hact rfl hpos rfl hc hmessage hrest hstream,rfl,rfl⟩

/-- The body of the pending length is at hand. -/
theorem InStep.takeBody (h : InStep P c (d ++ rest) true (f :: frames))
    (hsize : f.message.length + 16 ≤ d.length) :
    TakesFrame P c (PeerClient.onData P c d) rest f frames
      (d.length - (f.message.length + 16)) := by
  obtain - | ⟨hact,hb,hpos,hl,hc,hmessage,hrest,hstream⟩ := h
  obtain ⟨left,hleft,hrestream⟩ := split_front hstream (by omega)
  obtain ⟨k,hk⟩ : ∃ k, f.message.length = k + 1 := ⟨f.message.length - 1,by omega⟩
  have hbody := receiveBody_takes (c := { c with _buffer := c._buffer ++ d, l := none })
    hact rfl (by rw [hb]; exact hleft) hrestream hc hmessage hrest
  rw [PeerClient.onData_pending hact (hl.trans (congrArg some hk)), ← hk]
  have hsum := congrArg List.length hleft
  rw [List.length_append] at hsum
  rwa [show d.length - (f.message.length + 16) = left.length by omega]

/-- A body cut short is decrypted as it is, and the record is wrong from there on. -/
theorem receiveBody_lost {l : Nat} {goal : List Bytes} (hb : c._buffer ≠ [])
    (hshort : c._buffer.length < f.c.length) :
    Lost ((PeerClient.receiveBody P l).run c).2 rest (c.decrypted ++ f.c :: goal) := by
  obtain ⟨t,written,he,_⟩ := PeerClient.receiveBody_frame (P := P) l hb
  refine .inr fun hprefix => ?_
  rw [he, List.prefix_append_right_inj, List.cons_prefix_cons] at hprefix
  have hlen := congrArg List.length hprefix.1
  rw [List.length_take] at hlen
  omega

theorem InStep.cost {coming : Bytes} (h : InStep P c coming false frames) :
    cost (frames.map Frame.c) = c._buffer.length + coming.length := by
  obtain ⟨_,_,hrec,hstream⟩ := h
  rw [cost_frames hrec, ← hstream, List.length_append]

/-- Anything else that the event finds before a first frame loses the stream. -/
theorem InStep.lost (hP : AeadLaws P) (h : InStep P c (d ++ rest) false (f :: frames))
    (hd : d ≠ []) (hframe : c._buffer.length + d.length < 18 + (f.message.length + 16))
    (hhead : ¬ (c._buffer.length + d.length = 18 ∧ 0 < f.message.length)) :
    Lost (PeerClient.onData P c d) rest (c.decrypted ++ (f :: frames).map Frame.c) := by
  have hpos := List.length_pos_iff.mpr hd
  have hcost := h.cost
  rw [List.length_append] at hcost
  by_cases hfull : 18 ≤ c._buffer.length + d.length
  · obtain ⟨back,s₁,s₂,hlen,hstream,hc,hrun,_,_⟩ := h.takeLength hfull
    rw [hrun]
    by_cases hback : back = []
    · rw [hback, List.length_nil] at hlen
      have hzero : f.message.length = 0 := by omega
      rw [PeerClient.receiveBody_empty _ hback]
      refine .inl ?_
      simp only [weight, hback, List.length_nil, hzero, Option.getD_some, if_true, cost_append, hcost]
      omega
    · exact receiveBody_lost hback (by change back.length < _; omega)
  · obtain ⟨hact,hl,_,_⟩ := h
    rw [PeerClient.onData_prefix hact (.inl hl)]
    rcases hrun : (decryptLength P ((c._buffer ++ d).take 18)).run c.noiseState with ⟨l | _,s⟩
    · have hsize := decryptLength_size hP hrun
      rw [List.length_take, List.length_append] at hsize
      omega
    · refine .inl ?_
      simp only [weight, Option.getD_none, if_true, cost_append, hcost, List.length_drop,
        List.length_append]
      omega

theorem InStep.lostBody (h : InStep P c (d ++ rest) true (f :: frames)) (hd : d ≠ [])
    (hshort : d.length < f.message.length + 16) :
    Lost (PeerClient.onData P c d) rest (c.decrypted ++ (f :: frames).map Frame.c) := by
  obtain - | ⟨hact,hb,hpos,hl,hc,_,_,_⟩ := h
  obtain ⟨k,hk⟩ : ∃ k, f.message.length = k + 1 := ⟨f.message.length - 1,by omega⟩
  rw [PeerClient.onData_pending hact (hl.trans (congrArg some hk))]
  refine receiveBody_lost (by simp [hb, hd]) ?_
  simp only [hb, List.nil_append]
  omega

end Steps

section Runs
variable {P : Primitives} {c : PeerClient} {frames : List Frame}

def Completes (c c' : PeerClient) (frames : List Frame) : Prop :=
  c'.decrypted = c.decrypted ++ frames.map Frame.c ∧ c'._buffer = [] ∧ c'.l = none

theorem Completes.after {c₁ c' : PeerClient} {f : Frame} (h : c₁.decrypted = c.decrypted ++ [f.c]) :
    Completes c c' (f :: frames) ↔ Completes c₁ c' frames := by
  simp [Completes, h]

theorem Lost.not_completes (hP : AeadLaws P) {d : Bytes} {chunks : List Bytes}
    (hact : c.completedAct = 3)
    (h : Lost (PeerClient.onData P c d) chunks.flatten (c.decrypted ++ frames.map Frame.c)) :
    ¬ Completes c ((d :: chunks).foldl (PeerClient.onData P) c) frames :=
  fun hc => h.unreached hP (onData_keeps hP d hact).act hc.1

/-- The run lemma: from a client in step, the remaining chunks complete the frames
exactly when their sizes are followed. -/
theorem completes_iff_aligned (hP : AeadLaws P) (chunks : List Bytes) (hne : ∀ d ∈ chunks, d ≠ [])
    {half : Bool} (h : InStep P c chunks.flatten half frames) :
    Completes c (chunks.foldl (PeerClient.onData P) c) frames ↔
      Aligned half c._buffer.length (frames.map (·.message.length)) (chunks.map List.length) := by
  induction chunks generalizing c half frames with
  | nil =>
    cases h with
    | whole _ hl _ hstream =>
      simp only [Completes, List.foldl_nil, List.self_eq_append_right, List.map_eq_nil_iff, hl,
        List.map_nil, Aligned, List.length_eq_zero_iff]
      tauto
    | half => simp [Completes, Aligned]
  | cons d chunks ih =>
    rw [List.flatten_cons] at h
    have hd := hne d List.mem_cons_self
    have hne' : ∀ e ∈ chunks, e ≠ [] := fun e he => hne e (List.mem_cons_of_mem _ he)
    have hact : c.completedAct = 3 := by cases h <;> assumption
    rcases frames with _ | ⟨f,frames⟩
    · obtain ⟨_,_,_,hstream⟩ := h
      exact absurd (List.append_eq_nil_iff.mp (List.append_eq_nil_iff.mp hstream).2).1 hd
    simp only [List.map_cons]
    cases half with
    | false =>
      rw [Aligned]
      by_cases hframe : 18 + (f.message.length + 16) ≤ c._buffer.length + d.length
      · obtain ⟨hnext,hrecord,hleft⟩ := h.takeFrame hframe
        rw [Completes.after hrecord, List.foldl_cons, ih hne' hnext, hleft]
        constructor
        · exact fun ha => .inl ⟨hframe,ha⟩
        · rintro (⟨_,ha⟩ | ⟨hsize,_⟩)
          · exact ha
          · omega
      by_cases hhead : c._buffer.length + d.length = 18 ∧ 0 < f.message.length
      · obtain ⟨hnext,hrecord,hleft⟩ := h.takeHead hhead.1 hhead.2
        have hih := ih hne' hnext
        rw [hleft, List.length_nil, Completes, hrecord] at hih
        rw [Completes, List.foldl_cons, hih]
        constructor
        · exact fun ha => .inr ⟨hhead.1,hhead.2,ha⟩
        · rintro (⟨hsize,_⟩ | ⟨_,_,ha⟩)
          · omega
          · exact ha
      · refine iff_of_false ((h.lost hP hd (by omega) hhead).not_completes hP hact) ?_
        rintro (⟨hsize,_⟩ | ⟨hsize,hpos,_⟩)
        · omega
        · exact hhead ⟨hsize,hpos⟩
    | true =>
      rw [Aligned]
      by_cases hbody : f.message.length + 16 ≤ d.length
      · obtain ⟨hnext,hrecord,hleft⟩ := h.takeBody hbody
        rw [Completes.after hrecord, List.foldl_cons, ih hne' hnext, hleft]
        exact ⟨fun ha => ⟨hbody,ha⟩,And.right⟩
      · refine iff_of_false ((h.lostBody hd (by omega)).not_completes hP hact) ?_
        exact fun ha => hbody ha.1

private theorem initiatorAct2Act3_length {m reply : Bytes} {s t : NoiseState}
    (h : (initiatorAct2Act3 P m).run s = (.returned reply, t)) : m.length = 50 := by
  by_contra hlen
  rw [initiatorAct2Act3, run_bind, run_raiseIf, if_pos hlen] at h
  cases h

structure AwaitsActTwo (c : PeerClient) : Prop where
  act : c.completedAct = 1
  buffer : c._buffer = []
  pending : c.l = none
  record : c.decrypted = []

/-- The same run lemma from the middle of act two. -/
theorem completes_iff_alignedCut (hP : AeadLaws P) {actTwo reply : Bytes} {s : NoiseState}
    (hrun : (initiatorAct2Act3 P actTwo).run c.noiseState = (.returned reply, s))
    (hframes : Receives P (afterSend P (.init InitMessage.construct) s) frames)
    (chunks : List Bytes) (hne : ∀ d ∈ chunks, d ≠ []) (hact : c.completedAct = 1)
    (hl : c.l = none) (hshort : c._buffer.length < 50)
    (hcut : c._buffer ++ chunks.flatten = actTwo ++ frames.flatMap Frame.bytes) :
    Completes c (chunks.foldl (PeerClient.onData P) c) frames ↔
      AlignedCut c._buffer.length (frames.map (·.message.length)) (chunks.map List.length) := by
  have hfifty := initiatorAct2Act3_length hrun
  induction chunks generalizing c with
  | nil =>
    have hlen := congrArg List.length hcut
    simp only [List.flatten_nil, List.length_append, List.length_nil] at hlen
    omega
  | cons d chunks ih =>
    have hne' : ∀ e ∈ chunks, e ≠ [] := fun e he => hne e (List.mem_cons_of_mem _ he)
    rw [List.flatten_cons, ← List.append_assoc] at hcut
    rw [List.foldl_cons, List.map_cons, AlignedCut, ← List.length_append]
    by_cases hfull : 50 ≤ (c._buffer ++ d).length
    · obtain ⟨back,hback,hstream⟩ := split_front hcut (by omega)
      have htake : (c._buffer ++ d).take 50 = actTwo := by rw [hback, ← hfifty, List.take_left]
      have hdrop : (c._buffer ++ d).drop 50 = back := by rw [hback, ← hfifty, List.drop_left]
      obtain ⟨written,he⟩ := PeerClient.onData_actTwo hact hfull (by rw [htake]; exact hrun)
      rw [if_pos hfull, he, hdrop]
      have hleft : (c._buffer ++ d).length - 50 = back.length := by rw [← hdrop, List.length_drop]
      rw [hleft]
      exact completes_iff_aligned hP chunks hne' (.whole rfl hl hframes hstream)
    · rw [if_neg hfull, PeerClient.onData_collect hact (by omega)]
      exact ih hrun hne' hact hl (by change (c._buffer ++ d).length < 50; omega) hcut

/-- Over every cut of a valid stream into non-empty chunks, the client decrypts
exactly the bodies of the frames and carries nothing over if and only if the cut
is aligned. -/
theorem chunking_iff (hP : AeadLaws P) (hc : AwaitsActTwo c) {actTwo reply : Bytes} {s : NoiseState}
    (hrun : (initiatorAct2Act3 P actTwo).run c.noiseState = (.returned reply, s))
    (hframes : Receives P (afterSend P (.init InitMessage.construct) s) frames)
    (chunks : List Bytes) (hne : ∀ d ∈ chunks, d ≠ [])
    (hcut : chunks.flatten = actTwo ++ frames.flatMap Frame.bytes) :
    DecryptedAll (chunks.foldl (PeerClient.onData P) c) frames ↔
      AlignedCut 0 (frames.map (·.message.length)) (chunks.map List.length) := by
  have h := completes_iff_alignedCut hP hrun hframes chunks hne hc.act hc.pending
    (by rw [hc.buffer]; decide) (by rw [hc.buffer]; exact hcut)
  rw [hc.buffer, List.length_nil] at h
  simpa only [Completes, DecryptedAll, hc.record, List.nil_append] using h

end Runs

section Sample

def sampleClient : PeerClient := PeerClient.onConnected transparent
  (PeerClient.construct (transparentKey 1) (transparentKey 4) (transparentKey 7))

def sampleFrame : Frame where
  message := [0, 42]
  lc := [0, 2] ++ 2 :: List.replicate 15 1
  c := [0, 42] ++ 2 :: List.replicate 15 1

private theorem sampleClient_awaits : AwaitsActTwo sampleClient := ⟨rfl,rfl,rfl,rfl⟩

private theorem sample_receives : ∃ reply s,
    (initiatorAct2Act3 transparent transparentActTwo).run sampleClient.noiseState = (.returned reply, s) ∧
      Receives transparent (afterSend transparent (.init InitMessage.construct) s) [sampleFrame] :=
  ⟨_,_,rfl,rfl,rfl,_,_,rfl,rfl,trivial⟩

/-- Act two in two pieces, then a prefix and its body in separate events. -/
theorem chunking_sample :
    let chunks := [transparentActTwo.take 20, transparentActTwo.drop 20, sampleFrame.lc, sampleFrame.c]
    DecryptedAll (chunks.foldl (PeerClient.onData transparent) sampleClient) [sampleFrame] := by
  intro chunks
  obtain ⟨reply,s,hrun,hframes⟩ := sample_receives
  refine (chunking_iff transparent_laws sampleClient_awaits hrun hframes chunks (by decide) rfl).mpr ?_
  simp [AlignedCut, Aligned, chunks, transparentActTwo, sampleFrame]

/-- The same stream with act two glued to the frame: the frame stays in the buffer. -/
theorem chunking_glued :
    (∃ reply s, (initiatorAct2Act3 transparent transparentActTwo).run sampleClient.noiseState =
        (.returned reply, s) ∧
      Receives transparent (afterSend transparent (.init InitMessage.construct) s) [sampleFrame]) ∧
    AwaitsActTwo sampleClient ∧
    ¬ DecryptedAll (PeerClient.onData transparent sampleClient (transparentActTwo ++ sampleFrame.bytes))
      [sampleFrame] := by
  refine ⟨sample_receives,sampleClient_awaits,fun h => ?_⟩
  obtain ⟨reply,s,hrun,hframes⟩ := sample_receives
  have haligned := (completes_iff_alignedCut transparent_laws hrun hframes
    [transparentActTwo ++ sampleFrame.bytes] (by decide) rfl rfl (by decide) rfl).mp h
  simp [AlignedCut, Aligned, transparentActTwo, sampleFrame, Frame.bytes] at haligned

end Sample
end CryptoPlaypen.Lightning
