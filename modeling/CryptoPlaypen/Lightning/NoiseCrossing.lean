import CryptoPlaypen.Lightning.NoiseAgreement

/-! Rotations that cross on the wire. Both directions rotate one shared chaining
key, so rotations that the two endpoints perform in different orders leave them
with different keys, and the next frame of that direction cannot be read. -/
namespace CryptoPlaypen.Lightning
open Buffer Objects NoiseState

/-- The receiver of x's frames stands before message number n of the wire, with
chaining key and receiving key `keys`. -/
structure Reading (d : Duplex) (x : Side) (keys : Bytes × Bytes) (n : Nat)
    (wire : List (Bytes × Bytes)) : Prop where
  chain : (d.node x.peer).ck = some keys.1
  key : (d.node x.peer).rk = some keys.2
  counter : (d.node x.peer).rn = nonce (2 * (n % 500))
  half : (d.channel x).half = false
  wire : (d.channel x).wire = wire

def deliverFrame (x : Side) : List Action := [.deliverLength x, .deliverMessage x]

section Crossing
variable {P : Primitives} {d : Duplex} {x : Side} {C D K m frame : Bytes} {n : Nat}
  {rest : List (Bytes × Bytes)}

theorem Duplex.exec_cons {e : Duplex} {a : Action} (h : d.step P a = some e) (acts : List Action) :
    d.exec P (a :: acts) = e.exec P acts := by
  rw [Duplex.exec, List.foldlM_cons, h]
  rfl

theorem Duplex.exec_append {e : Duplex} {first : List Action} (h : d.exec P first = some e)
    (second : List Action) : d.exec P (first ++ second) = e.exec P second := by
  rw [Duplex.exec, List.foldlM_append]
  change (d.exec P first).bind _ = _
  rw [h]
  rfl

/-- Delivering one frame advances the receiver's own chaining key, whatever the
sender's chaining key was. -/
theorem Reading.deliver (hP : AeadLaws P) (h : Reading d x (D, K) n ((m, frame) :: rest))
    (hf : Framed P (C, K) n ((m, frame) :: rest)) :
    ∃ e, d.exec P (deliverFrame x) = some e ∧ Reading e x (advance P (D, K) n) (n + 1) rest := by
  obtain ⟨hm,hframe,_⟩ := hf
  let k := 2 * (n % 500)
  let s : NoiseState := { d.node x.peer with rn := nonce (k + 1) }
  have hlength := run_decryptLength hP h.chain h.key h.counter (by omega) hm
  rw [afterReceiving, if_pos (by omega), ← sealed_take hP K k m, ← hframe] at hlength
  have hbody := run_decryptMessage (s := s) hP h.chain h.key rfl (show k + 1 < 1000 by omega) (m := m)
  rw [← sealed_drop hP K k m, ← hframe] at hbody
  obtain ⟨hck,hrk,_,hrn,_⟩ := afterReceiving_fields (P := P) s n h.chain h.key
  let e₁ : Duplex := {
    node := Function.update d.node x.peer s
    channel := Function.update d.channel x { d.channel x with half := true }
    deliveries := d.deliveries ++ [.length m.length (.returned m.length)] }
  have hfirst : d.step P (.deliverLength x) = some e₁ :=
    Duplex.step_deliverLength h.half h.wire hlength
  have hnode : e₁.node x.peer = s := Function.update_self ..
  have hchannel : e₁.channel x = { d.channel x with half := true } := Function.update_self ..
  rw [← hnode] at hbody
  have hsecond := Duplex.step_deliverMessage (d := e₁) (by rw [hchannel])
    (by rw [hchannel]; exact h.wire) hbody
  refine ⟨_,by rw [deliverFrame, Duplex.exec_cons hfirst, Duplex.exec_cons hsecond]; rfl,?_⟩
  constructor
  case wire | half => simp only [Function.update_self]
  all_goals simp only [Function.update_self, hnode]
  case chain => exact hck
  case key => exact hrk
  case counter => exact hrn

/-- The frames up to the first rotation are all read, and the rotation then
starts from the receiver's own chaining key. -/
theorem Reading.deliverMany (hP : AeadLaws P) (front : List (Bytes × Bytes))
    (h : Reading d x (D, K) n (front ++ rest)) (hf : Framed P (C, K) n (front ++ rest))
    (hn : n + front.length ≤ 500) :
    ∃ e, d.exec P (front.flatMap fun _ => deliverFrame x) = some e ∧
      Reading e x (keysAfter P (D, K) n front.length) (n + front.length) rest := by
  induction front generalizing d n with
  | nil => exact ⟨d,rfl,h⟩
  | cons p front ih =>
    rw [List.length_cons] at hn ⊢
    obtain ⟨e,he,hread⟩ := Reading.deliver hP h hf
    obtain ⟨_,_,hrest⟩ := hf
    rw [List.flatMap_cons, Duplex.exec_append he, keysAfter_advance,
      show n + (front.length + 1) = n + 1 + front.length by omega]
    by_cases hlast : (n + 1) % 500 = 0
    · have hnil : front = [] := List.length_eq_zero_iff.mp (by omega)
      subst hnil
      exact ⟨e,rfl,hread⟩
    · rw [advance_mid _ hlast] at hread hrest ⊢
      exact ih hread hrest (by omega)

private theorem framed_append (keys : Bytes × Bytes) (n : Nat) (front back : List (Bytes × Bytes))
    (h : Framed P keys n (front ++ back)) :
    Framed P (keysAfter P keys n front.length) (n + front.length) back := by
  induction front generalizing keys n with
  | nil => exact h
  | cons p front ih =>
    obtain ⟨_,_,hrest⟩ := h
    rw [List.length_cons, keysAfter_advance, show n + (front.length + 1) = n + 1 + front.length by omega]
    exact ih _ _ hrest

/-- A receiver whose chaining key differs at the rotation cannot read the first
frame after it, once the keys derived from the two chaining keys are told apart. -/
theorem Reading.lose_sync (hP : AeadLaws P) (front : List (Bytes × Bytes))
    (h : Reading d x (D, K) 0 (front ++ (m, frame) :: rest))
    (hf : Framed P (C, K) 0 (front ++ (m, frame) :: rest)) (hfront : front.length = 500)
    (hreject : ∀ ad p, ccpDecrypt P (rotate P (D, K)).2 (nonce 0) ad
      (ccpEncrypt P (rotate P (C, K)).2 (nonce 0) ad p) = none) :
    ∃ e, d.exec P ((front.flatMap fun _ => deliverFrame x) ++ [.deliverLength x]) = some e ∧
      Delivery.length m.length .threw ∈ e.deliveries := by
  obtain ⟨e,he,hread⟩ := Reading.deliverMany hP front h hf (by omega)
  have hback := framed_append _ _ _ _ hf
  have hturn (keys : Bytes × Bytes) : keysAfter P keys 0 500 = rotate P keys := by
    rw [keysAfter, keysAfter_settled _ _ (by omega), advance_last _ (by omega)]
  rw [hfront, hturn] at hread hback
  obtain ⟨_,hframe,_⟩ := hback
  have hrun : (decryptLength P (frame.take 18)).run (e.node x.peer) = (.threw, e.node x.peer) := by
    have hcounter : (e.node x.peer).rn = nonce 0 := hread.counter
    rw [hframe, sealed_take hP, sealedLength]
    simp only [decryptLength, Method.run_bind, Method.run_self, hread.key, Method.run_attempt_some,
      hcounter, hreject, Method.run_attempt_none]
  have hstep := Duplex.step_deliverLength hread.half hread.wire hrun
  refine ⟨_,by rw [Duplex.exec_append he, Duplex.exec_cons hstep]; rfl,?_⟩
  exact List.mem_append_right _ List.mem_cons_self

/-- A burst of sends runs along the sender's own schedule and touches neither the
peer nor the opposite channel. -/
theorem Duplex.exec_sends (hm : m.length ≤ 65535) (burst : Nat) (keys : Bytes × Bytes)
    (hck : (d.node x).ck = some keys.1) (hsk : (d.node x).sk = some keys.2)
    (hsn : (d.node x).sn = nonce (2 * (n % 500))) :
    ∃ e wire, d.exec P (List.replicate burst (.send x m)) = some e ∧ wire.length = burst ∧
      (∀ p ∈ wire, p.1 = m) ∧ Framed P keys n wire ∧
      (e.channel x).wire = (d.channel x).wire ++ wire ∧ (e.channel x).half = (d.channel x).half ∧
      e.channel x.peer = d.channel x.peer ∧ e.node x.peer = d.node x.peer ∧
      (e.node x).ck = some (keysAfter P keys n burst).1 ∧
      (e.node x).rk = (d.node x).rk ∧ (e.node x).rn = (d.node x).rn := by
  induction burst generalizing d n keys with
  | zero => exact ⟨d,[],rfl,rfl,by simp,trivial,by simp,rfl,rfl,rfl,hck,rfl,rfl⟩
  | succ burst ih =>
    have hrun := run_encryptMessage (P := P) hck hsk hsn (by omega) hm
    obtain ⟨hck',hsk',hrk',hsn',hrn'⟩ := afterSending_fields (P := P) (d.node x) n hck hsk
    have hstep := Duplex.step_send hrun
    generalize hmid : Duplex.mk _ _ _ = mid at hstep
    have hself : mid.node x =
        afterSending P (d.node x) keys.1 keys.2 (2 * (n % 500) + 1) := by
      rw [← hmid]
      exact Function.update_self ..
    obtain ⟨e,wire,he,hlen,hall,hframed,hwire,hhalf,hchannel,hnode,hchain,hkey,hcount⟩ :=
      ih (d := mid) (n := n + 1) (advance P keys n)
        (by rw [hself]; exact hck')
        (by rw [hself]; exact hsk')
        (by rw [hself]; exact hsn')
    refine ⟨e,(m, _) :: wire,by rw [List.replicate_succ, Duplex.exec_cons hstep, he],by simp [hlen],
      by simpa using hall,⟨hm,rfl,hframed⟩,?_,?_,?_,?_,?_,?_,?_⟩
    · rw [hwire, ← hmid]
      simp [Function.update_self]
    · rw [hhalf, ← hmid]
      simp [Function.update_self]
    · rw [hchannel, ← hmid]
      exact Function.update_of_ne x.peer_ne ..
    · rw [hnode, ← hmid]
      exact Function.update_of_ne x.peer_ne ..
    · rw [hchain, keysAfter_advance]
    · rw [hkey, hself]
      exact hrk'
    · rw [hcount, hself]
      exact hrn'

/-- The near side sends 501 messages and the far side 500 before anything is
delivered; the far side then reads frames of the near side. -/
def crossing : List Action :=
  List.replicate 501 (.send .near []) ++ List.replicate 500 (.send .far []) ++
    ((List.replicate 500 (deliverFrame .near)).flatten ++ [.deliverLength .near])

/-- The far side has rotated its own sending key before it reaches the near side's
rotation, and the 501st prefix is refused. -/
theorem crossing_loses_sync (hP : AeadLaws P) (c a b : Bytes)
    (hreject : ∀ ad p, ccpDecrypt P (rotate P ((rotate P (c, b)).1, a)).2 (nonce 0) ad
      (ccpEncrypt P (rotate P (c, a)).2 (nonce 0) ad p) = none) :
    ∃ d, (pair c a b).exec P crossing = some d ∧ Delivery.length 0 .threw ∈ d.deliveries := by
  obtain ⟨e₁,wire,he₁,hlen,hall,hframed,hwire,hhalf,_,hnode,_,_,_⟩ :=
    Duplex.exec_sends (P := P) (d := pair c a b) (x := .near) (m := []) (n := 0)
      (by simp) 501 (c, a) rfl rfl rfl
  have hfar : e₁.node .far = (pair c a b).node .far := hnode
  obtain ⟨e₂,_,he₂,_,_,_,_,_,hchannel,_,hchain,hkey,hcount⟩ :=
    Duplex.exec_sends (P := P) (d := e₁) (x := .far) (m := []) (n := 0)
      (by simp) 500 (c, b) (by rw [hfar]; rfl) (by rw [hfar]; rfl) (by rw [hfar]; rfl)
  have hnear : e₂.channel .near = e₁.channel .near := hchannel
  have hsplit : wire = wire.take 500 ++ wire.drop 500 := (List.take_append_drop 500 wire).symm
  have hfront : (wire.take 500).length = 500 := by simp [hlen]
  obtain ⟨⟨m,frame⟩,rest,hback⟩ : ∃ p rest, wire.drop 500 = p :: rest :=
    List.exists_cons_of_length_pos (by simp [hlen])
  have hm : m = [] := hall (m, frame) (List.mem_of_mem_drop (hback ▸ List.mem_cons_self))
  rw [hback] at hsplit
  have hturn : keysAfter P (c, b) 0 500 = rotate P (c, b) := by
    rw [keysAfter, keysAfter_settled _ _ (by omega), advance_last _ (by omega)]
  have hread : Reading e₂ .near ((rotate P (c, b)).1, a) 0 (wire.take 500 ++ (m, frame) :: rest) := by
    refine ⟨by rw [← hturn]; exact hchain,?_,?_,?_,?_⟩
    · exact hkey.trans (by rw [hfar]; rfl)
    · exact hcount.trans (by rw [hfar]; rfl)
    · rw [hnear, hhalf]; rfl
    · rw [hnear, hwire, ← hsplit]; rfl
  obtain ⟨d,hd,hmem⟩ := Reading.lose_sync hP (wire.take 500) hread (by rw [← hsplit]; exact hframed)
    hfront hreject
  rw [hm] at hmem
  refine ⟨d,?_,hmem⟩
  rw [crossing, List.append_assoc, Duplex.exec_append he₁, Duplex.exec_append he₂, ← hd,
    List.flatMap_def, List.map_const', hfront]

end Crossing

/-- A ciphertext under one key of the list is refused under every other. -/
def RejectsOtherKeys (P : Primitives) (keys : List Bytes) : Prop :=
  ∀ k ∈ keys, ∀ k' ∈ keys, k ≠ k' → ∀ n ad m, ccpDecrypt P k' n ad (ccpEncrypt P k n ad m) = none

private theorem transparent_rejects {k k' : Bytes} (h : fit 16 k ≠ fit 16 k') (n ad m : Bytes) :
    ccpDecrypt transparent k' n ad (ccpEncrypt transparent k n ad m) = none := by
  have hlen : (ccpEncrypt transparent k n ad m).length = m.length + 16 :=
    ccpEncrypt_length transparent_laws k n ad m
  have htag : (ccpEncrypt transparent k n ad m).drop m.length = fit 16 k := List.drop_left
  rw [ccpDecrypt_long k' n ad (by omega), hlen, Nat.add_sub_cancel, htag]
  simp only [transparent, if_neg h, Option.map_none]

/-- The crossing run from a finished handshake with three distinct 32-byte keys. -/
theorem crossing_refutes_agreement :
    let c := List.replicate 32 (1 : UInt8)
    let a := List.replicate 32 (2 : UInt8)
    let b := List.replicate 32 (3 : UInt8)
    AeadLaws transparent ∧ RejectsOtherKeys transparent [c, a, b] ∧
      AfterHandshake (pair c a b) ∧
      ∃ d, (pair c a b).exec transparent crossing = some d ∧ ¬ ∀ v ∈ d.deliveries, v.Correct := by
  intro c a b
  have hkeys : ∀ k ∈ [c, a, b], ∀ k' ∈ [c, a, b], k ≠ k' → fit 16 k ≠ fit 16 k' := by decide
  refine ⟨transparent_laws,fun k hk k' hk' hne => transparent_rejects (hkeys k hk k' hk' hne),
    pair_afterHandshake c a b,?_⟩
  obtain ⟨d,hd,hmem⟩ := crossing_loses_sync transparent_laws c a b
    (fun ad p => transparent_rejects (by decide) (nonce 0) ad p)
  refine ⟨d,hd,fun h => ?_⟩
  cases h _ hmem

end CryptoPlaypen.Lightning
