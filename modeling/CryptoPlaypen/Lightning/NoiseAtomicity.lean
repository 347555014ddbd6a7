import CryptoPlaypen.Lightning.NoiseTransport

/-! What a failed receive leaves behind. Over every reachable state the inputs are
found on which the handshake reply and the two transport calls fail without a trace. -/
namespace CryptoPlaypen.Lightning
open Buffer Objects Method NoiseState

/-- The states an endpoint can be in after any calls, completed or thrown. -/
inductive Reachable (P : Primitives) : NoiseState → Prop where
  | construct (ls rs es : Key) : Reachable P (construct ls rs es)
  | initializeState {s : NoiseState} : Reachable P s → Reachable P ((initializeState P).run s).2
  | initiatorAct1 {s : NoiseState} : Reachable P s → Reachable P ((initiatorAct1 P).run s).2
  | initiatorAct2Act3 {s : NoiseState} (m : Bytes) : Reachable P s →
      Reachable P ((initiatorAct2Act3 P m).run s).2
  | encryptMessage {s : NoiseState} (m : Bytes) : Reachable P s →
      Reachable P ((encryptMessage P m).run s).2
  | decryptLength {s : NoiseState} (lc : Bytes) : Reachable P s →
      Reachable P ((decryptLength P lc).run s).2
  | decryptMessage {s : NoiseState} (c : Bytes) : Reachable P s →
      Reachable P ((decryptMessage P c).run s).2

def Counted (s : NoiseState) : Prop :=
  (∃ j < 1000, s.sn = nonce j) ∧ ∃ k < 1000, s.rn = nonce k

def Keyed (s : NoiseState) : Prop := (∃ C, s.ck = some C) ∧ Counted s

def Sending (s : NoiseState) : Prop := (∃ K, s.sk = some K) ∧ Keyed s

def Receiving (s : NoiseState) : Prop := (∃ K, s.rk = some K) ∧ Keyed s

/-- The invariant: without a chaining key there is no other secret either. -/
def Sound (s : NoiseState) : Prop :=
  Keyed s ∨ s.h = none ∧ s.sk = none ∧ s.rk = none ∧ Counted s

section Invariant
variable {P : Primitives} {s : NoiseState}

theorem Sound.keyed (h : Sound s) (hsome : s.h ≠ none ∨ s.sk ≠ none ∨ s.rk ≠ none) : Keyed s := by
  rcases h with h | ⟨hh,hsk,hrk,_⟩
  · exact h
  · simp [hh, hsk, hrk] at hsome

private theorem within_initiatorAct1 : Within (Keeps Keyed) (initiatorAct1 P) :=
  Within.self.bind fun _ => (Within.attempt _).bind fun _ =>
    (Within.assign fun _ h => by exact h).bind fun _ => (Within.attempt _).bind fun _ =>
    (Within.attempt _).bind fun _ => (Within.assign fun _ h => by exact ⟨⟨_,rfl⟩,h.2⟩).bind fun _ =>
    Within.self.bind fun _ => (Within.attempt _).bind fun _ =>
    (Within.assign fun _ h => by exact h).bind fun _ => Within.pure _

private theorem within_initiatorAct2Act3 (m : Bytes) : Within (Keeps Keyed) (initiatorAct2Act3 P m) :=
  (Within.raiseIf _).bind fun _ => (Within.raiseIf _).bind fun _ => Within.self.bind fun _ =>
    (Within.attempt _).bind fun _ => (Within.assign fun _ h => by exact h).bind fun _ =>
    (Within.attempt _).bind fun _ => (Within.attempt _).bind fun _ =>
    (Within.assign fun _ h => by exact ⟨⟨_,rfl⟩,h.2⟩).bind fun _ => Within.self.bind fun _ =>
    (Within.attempt _).bind fun _ => (Within.attempt _).bind fun _ =>
    (Within.assign fun _ h => by exact h).bind fun _ => Within.self.bind fun _ =>
    (Within.attempt _).bind fun _ => (Within.assign fun _ h => by exact h).bind fun _ =>
    (Within.attempt _).bind fun _ => Within.self.bind fun _ => (Within.attempt _).bind fun _ =>
    (Within.assign fun _ h => by exact ⟨⟨_,rfl⟩,h.2⟩).bind fun _ => Within.self.bind fun _ =>
    (Within.attempt _).bind fun _ => Within.self.bind fun _ => (Within.attempt _).bind fun _ =>
    (Within.assign fun _ h => by exact h).bind fun _ => Within.pure _

theorem within_finishSendingUse : Within (Keeps Sending) (finishSendingUse P) := by
  rintro s ⟨⟨K,hK⟩,⟨C,hC⟩,⟨j,hj,hsn⟩,hrn⟩
  rw [run_finishSendingUse hC hK hsn hj, afterSending]
  split
  · exact ⟨⟨K,hK⟩,⟨C,hC⟩,⟨_,by assumption,rfl⟩,hrn⟩
  · exact ⟨⟨_,rfl⟩,⟨_,rfl⟩,⟨0,by omega,rfl⟩,hrn⟩

private theorem within_finishRecievingUse : Within (Keeps Receiving) (finishRecievingUse P) := by
  rintro s ⟨⟨K,hK⟩,⟨C,hC⟩,hsn,⟨k,hk,hrn⟩⟩
  rw [run_finishRecievingUse hC hK hrn hk, afterReceiving]
  split
  · exact ⟨⟨K,hK⟩,⟨C,hC⟩,hsn,⟨_,by assumption,rfl⟩⟩
  · exact ⟨⟨_,rfl⟩,⟨_,rfl⟩,hsn,⟨0,by omega,rfl⟩⟩

private theorem within_encryptMessage (m : Bytes) : Within (Keeps Sending) (encryptMessage P m) :=
  (Within.attempt _).bind fun _ => Within.self.bind fun _ => (Within.attempt _).bind fun _ =>
    within_finishSendingUse.bind fun _ => Within.self.bind fun _ => (Within.attempt _).bind fun _ =>
    within_finishSendingUse.bind fun _ => Within.pure _

private theorem within_decryptLength (lc : Bytes) : Within (Keeps Receiving) (decryptLength P lc) :=
  Within.self.bind fun _ => (Within.attempt _).bind fun _ => (Within.attempt _).bind fun _ =>
    within_finishRecievingUse.bind fun _ => (Within.attempt _).bind fun _ => Within.attempt _

private theorem within_decryptMessage (c : Bytes) : Within (Keeps Receiving) (decryptMessage P c) :=
  Within.self.bind fun _ => (Within.attempt _).bind fun _ => (Within.attempt _).bind fun _ =>
    within_finishRecievingUse.bind fun _ => Within.pure _

/-- Without a key the transport calls throw before they change anything. -/
theorem run_decryptLength_unkeyed (h : s.rk = none) (lc : Bytes) :
    (decryptLength P lc).run s = (.threw, s) := by
  simp only [decryptLength, run_bind, run_self, h, run_attempt_none]

private theorem run_decryptMessage_unkeyed (h : s.rk = none) (c : Bytes) :
    (decryptMessage P c).run s = (.threw, s) := by
  simp only [decryptMessage, run_bind, run_self, h, run_attempt_none]

theorem run_encryptMessage_unkeyed (h : s.sk = none) (m : Bytes) :
    (encryptMessage P m).run s = (.threw, s) := by
  rw [encryptMessage, run_bind]
  cases writeUIntBE 2 m.length (zeros 2) 0 with
  | none => rfl
  | some l => simp only [run_attempt_some, run_bind, run_self, h, run_attempt_none]

private theorem run_initiatorAct1_uninitialized (h : s.h = none) :
    (initiatorAct1 P).run s = (.threw, s) := by
  simp only [initiatorAct1, run_bind, run_self, h, run_attempt_none]

/-- A reply of another length or version is refused before anything is mixed. -/
theorem run_initiatorAct2Act3_refused {m : Bytes}
    (h : m.length ≠ 50 ∨ (slice m 0 1).head? ≠ some 0) :
    (initiatorAct2Act3 P m).run s = (.threw, s) := by
  by_cases hlen : m.length ≠ 50
  · simp only [initiatorAct2Act3, run_bind, run_raiseIf, if_pos hlen]
  · have hv := h.resolve_left hlen
    simp only [initiatorAct2Act3, run_bind, run_raiseIf, if_neg hlen, if_pos hv]

private theorem run_initiatorAct2Act3_uninitialized (h : s.h = none) (m : Bytes) :
    (initiatorAct2Act3 P m).run s = (.threw, s) := by
  by_cases hm : m.length ≠ 50 ∨ (slice m 0 1).head? ≠ some 0
  · exact run_initiatorAct2Act3_refused hm
  · rw [not_or] at hm
    simp only [initiatorAct2Act3, run_bind, run_raiseIf, if_neg hm.1, if_neg hm.2, run_self, h,
      run_attempt_none]

/-- The invariant holds in every reachable state. -/
theorem Reachable.sound (h : Reachable P s) : Sound s := by
  induction h with
  | construct ls rs es => exact .inr ⟨rfl,rfl,rfl,⟨0,by omega,rfl⟩,⟨0,by omega,rfl⟩⟩
  | initializeState _ ih =>
    refine .inl ⟨⟨_,rfl⟩,?_⟩
    rcases ih with ih | ⟨_,_,_,ih⟩
    · exact ih.2
    · exact ih
  | @initiatorAct1 s _ ih =>
    by_cases hh : s.h = none
    · rwa [run_initiatorAct1_uninitialized hh]
    · exact .inl (within_initiatorAct1 s (ih.keyed (.inl hh)))
  | @initiatorAct2Act3 s m _ ih =>
    by_cases hh : s.h = none
    · rwa [run_initiatorAct2Act3_uninitialized hh]
    · exact .inl (within_initiatorAct2Act3 m s (ih.keyed (.inl hh)))
  | @encryptMessage s m _ ih =>
    by_cases hk : s.sk = none
    · rwa [run_encryptMessage_unkeyed hk]
    · have hsome := Option.ne_none_iff_exists'.mp hk
      exact .inl (within_encryptMessage m s ⟨hsome,ih.keyed (.inr (.inl hk))⟩).2
  | @decryptLength s lc _ ih =>
    by_cases hk : s.rk = none
    · rwa [run_decryptLength_unkeyed hk]
    · have hsome := Option.ne_none_iff_exists'.mp hk
      exact .inl (within_decryptLength lc s ⟨hsome,ih.keyed (.inr (.inr hk))⟩).2
  | @decryptMessage s c _ ih =>
    by_cases hk : s.rk = none
    · rwa [run_decryptMessage_unkeyed hk]
    · have hsome := Option.ne_none_iff_exists'.mp hk
      exact .inl (within_decryptMessage c s ⟨hsome,ih.keyed (.inr (.inr hk))⟩).2

end Invariant

def Untouched (s t : NoiseState) : Prop :=
  t.h = s.h ∧ t.ck = s.ck ∧ t.sk = s.sk ∧ t.rk = s.rk ∧ t.sn = s.sn ∧ t.rn = s.rn

theorem Untouched.refl (s : NoiseState) : Untouched s s := ⟨rfl,rfl,rfl,rfl,rfl,rfl⟩

/-- Of the two private keys of a state, the point package accepts the same public points. -/
def PointLaw (P : Primitives) (s : NoiseState) : Prop :=
  ∀ re, (P.sharedPoint re s.es.priv).isSome = (P.sharedPoint re s.ls.priv).isSome

inductive Receipt where
  | actTwo : Bytes → Receipt
  | length : Bytes → Receipt
  | message : Bytes → Receipt
  deriving DecidableEq, Repr

section Receipts
variable (P : Primitives)

def Receipt.after : Receipt → NoiseState → NoiseState
  | .actTwo m, s => ((initiatorAct2Act3 P m).run s).2
  | .length lc, s => ((decryptLength P lc).run s).2
  | .message c, s => ((decryptMessage P c).run s).2

def Receipt.Fails : Receipt → NoiseState → Prop
  | .actTwo m, s => ((initiatorAct2Act3 P m).run s).1 = .threw
  | .length lc, s => ((decryptLength P lc).run s).1 = .threw
  | .message c, s => ((decryptMessage P c).run s).1 = .threw ∨
      ((decryptMessage P c).run s).1 = .returned none

/-- A reply that passes the length and version checks is authentic, or else mixing
it in is a fixed point of the hash and, for a good point, of the chaining key. -/
def ActTwoSafe (s : NoiseState) (m : Bytes) : Prop :=
  m.length = 50 → (slice m 0 1).head? = some 0 → ∀ H C, s.h = some H → s.ck = some C →
    let h := sha256 P (H ++ slice m 1 34)
    match ecdh P (slice m 1 34) s.es.priv with
    | none => h = H
    | some ss =>
      Authentic P ((hkdf P C ss).drop 32) (zeros 12) h (m.drop 34) ∨
        h = H ∧ slice (hkdf P C ss) 0 32 = C

/-- The inputs on which a failure leaves no trace: of the transport calls, those
without a key, and otherwise those of at least sixteen bytes that are not an
authentic length too short to be read. -/
def Receipt.Safe (s : NoiseState) : Receipt → Prop
  | .actTwo m => ActTwoSafe P s m
  | .length lc => ∀ K, s.rk = some K → 16 ≤ lc.length ∧ (Authentic P K s.rn [] lc → 18 ≤ lc.length)
  | .message c => s.rk ≠ none → 16 ≤ c.length

end Receipts

section Calls
variable {P : Primitives} {s : NoiseState} {C K H : Bytes} {k : Nat}

private theorem afterReceiving_touched (hn : s.rn = nonce k) (hk : k < 1000) :
    ¬ Untouched s (afterReceiving P s C K k) := by
  rintro ⟨_,_,_,_,_,hrn⟩
  rw [hn, afterReceiving] at hrn
  split at hrn
  · have := nonce_injective (by omega) (by omega) hrn
    omega
  · have := nonce_injective (by omega) (by omega) hrn
    omega

/-- Once the ciphertext has been decrypted the counter moves, read or not. -/
theorem decryptLength_atomic_iff (hP : AeadLaws P) (hs : Sound s) (lc : Bytes) :
    (((decryptLength P lc).run s).1 = .threw → Untouched s ((decryptLength P lc).run s).2) ↔
      ∀ K, s.rk = some K → 16 ≤ lc.length ∧ (Authentic P K s.rn [] lc → 18 ≤ lc.length) := by
  rcases hk : s.rk with _ | K
  · rw [run_decryptLength_unkeyed hk]
    exact iff_of_true (fun _ => Untouched.refl s) fun K h => by cases h
  obtain ⟨⟨C,hC⟩,_,k,hlt,hn⟩ := hs.keyed (.inr (.inr (by simp [hk])))
  have hfinish := run_finishRecievingUse (P := P) hC hk hn hlt
  have htouched := afterReceiving_touched (P := P) (C := C) (K := K) hn hlt
  simp only [decryptLength, run_bind, run_self, hk, run_attempt_some, Option.some.injEq, forall_eq']
  rcases hd : ccpDecrypt P K s.rn [] lc with _ | _ | m
  · have hlong := ccpDecrypt_throws_length hd
    refine iff_of_true (fun _ => Untouched.refl s) ⟨hlong,fun ha => ?_⟩
    exact absurd ha ((ccpDecrypt_throws_iff hP K s.rn [] hlong).mp hd)
  · have hshort := ccpDecrypt_undefined_length hd
    simp only [run_attempt_some, hfinish, run_attempt_none]
    exact iff_of_false (fun h => htouched (h trivial)) fun h => by omega
  · have hlen := ccpDecrypt_plaintext_length hP hd
    simp only [run_attempt_some, hfinish]
    by_cases hread : 2 ≤ m.length
    · rw [readUInt16BE, readUIntBE, if_pos (by omega)]
      exact iff_of_true (fun h => by cases h) ⟨by omega,fun _ => by omega⟩
    · rw [readUInt16BE, readUIntBE, if_neg (by omega)]
      refine iff_of_false (fun h => htouched (h rfl)) fun h => ?_
      have := h.2 ⟨m,ccpDecrypt_eq_plaintext hP hd⟩
      omega

private theorem decryptMessage_atomic_iff (hs : Sound s) (c : Bytes) :
    (((decryptMessage P c).run s).1 = .threw ∨ ((decryptMessage P c).run s).1 = .returned none →
      Untouched s ((decryptMessage P c).run s).2) ↔ (s.rk ≠ none → 16 ≤ c.length) := by
  rcases hk : s.rk with _ | K
  · rw [run_decryptMessage_unkeyed hk]
    exact iff_of_true (fun _ => Untouched.refl s) fun h => absurd rfl h
  obtain ⟨⟨C,hC⟩,_,k,hlt,hn⟩ := hs.keyed (.inr (.inr (by simp [hk])))
  have hfinish := run_finishRecievingUse (P := P) hC hk hn hlt
  have htouched := afterReceiving_touched (P := P) (C := C) (K := K) hn hlt
  simp only [decryptMessage, run_bind, run_self, hk, run_attempt_some, ne_eq, reduceCtorEq,
    not_false_eq_true, forall_const]
  rcases hd : ccpDecrypt P K s.rn [] c with _ | _ | m
  · exact iff_of_true (fun _ => Untouched.refl s) (ccpDecrypt_throws_length hd)
  · have hshort := ccpDecrypt_undefined_length hd
    simp only [run_attempt_some, hfinish, run_pure]
    exact iff_of_false (fun h => htouched (h (.inr trivial))) (by omega)
  · have hlong : 16 ≤ c.length := by
      by_contra hshort
      rw [ccpDecrypt_short K s.rn [] (by omega)] at hd
      cases hd
    simp only [run_attempt_some, hfinish, run_pure]
    exact iff_of_true (by simp) hlong

section ActTwo
variable {m ss : Bytes} (hlen : m.length = 50) (hv : (slice m 0 1).head? = some 0) (hH : s.h = some H)
include hlen hv hH

/-- A bad point throws after the hash has been mixed. -/
theorem run_initiatorAct2Act3_badPoint (hpoint : ecdh P (slice m 1 34) s.es.priv = none) :
    (initiatorAct2Act3 P m).run s =
      (.threw, { s with h := some (sha256 P (H ++ slice m 1 34)) }) := by
  simp only [initiatorAct2Act3, run_bind, run_raiseIf, hlen, hv, ne_eq, not_true_eq_false, if_false,
    run_self, hH, run_attempt_some, run_assign, hpoint, run_attempt_none]

/-- A forged tag throws after the chaining key has been mixed as well. -/
theorem run_initiatorAct2Act3_forged (hpoint : ecdh P (slice m 1 34) s.es.priv = some ss)
    (hC : s.ck = some C) (hforged : ccpDecrypt P ((hkdf P C ss).drop 32) (zeros 12)
      (sha256 P (H ++ slice m 1 34)) (m.drop 34) = none) :
    (initiatorAct2Act3 P m).run s = (.threw, { s with
      h := some (sha256 P (H ++ slice m 1 34)), ck := some (slice (hkdf P C ss) 0 32) }) := by
  simp only [initiatorAct2Act3, run_bind, run_raiseIf, hlen, hv, ne_eq, not_true_eq_false, if_false,
    run_self, hH, run_attempt_some, run_assign, hpoint, hC, hforged, run_attempt_none]

/-- An authentic reply is always followed through to act three. -/
theorem run_initiatorAct2Act3_accepted (hlaw : PointLaw P s)
    (hpoint : ecdh P (slice m 1 34) s.es.priv = some ss) (hC : s.ck = some C) {plain : Option Bytes}
    (hopen : ccpDecrypt P ((hkdf P C ss).drop 32) (zeros 12)
      (sha256 P (H ++ slice m 1 34)) (m.drop 34) = some plain) :
    ∃ reply t, (initiatorAct2Act3 P m).run s = (.returned reply, t) := by
  obtain ⟨ss',hpoint'⟩ : ∃ ss', ecdh P (slice m 1 34) s.ls.priv = some ss' := by
    have hsome := congrArg Option.isSome hpoint
    rw [ecdh, Option.isSome_map, hlaw] at hsome
    obtain ⟨point,hvalid⟩ := Option.isSome_iff_exists.mp hsome
    exact ⟨sha256 P point,by rw [ecdh, hvalid]; rfl⟩
  simp only [initiatorAct2Act3, run_bind, run_raiseIf, hlen, hv, ne_eq, not_true_eq_false, if_false,
    run_self, hH, run_attempt_some, run_assign, hpoint, hC, hopen, hpoint', run_pure]
  exact ⟨_,_,rfl⟩

end ActTwo

private theorem initiatorAct2Act3_atomic_iff (hP : AeadLaws P) (hlaw : PointLaw P s) (hs : Sound s)
    (m : Bytes) :
    (((initiatorAct2Act3 P m).run s).1 = .threw → Untouched s ((initiatorAct2Act3 P m).run s).2) ↔
      ActTwoSafe P s m := by
  by_cases hm : m.length ≠ 50 ∨ (slice m 0 1).head? ≠ some 0
  · rw [run_initiatorAct2Act3_refused hm]
    refine iff_of_true (fun _ => Untouched.refl s) fun hlen hv => ?_
    exact absurd hm (by simp [hlen, hv])
  obtain ⟨hlen,hv⟩ : m.length = 50 ∧ (slice m 0 1).head? = some 0 := by
    rw [not_or] at hm
    exact ⟨not_not.mp hm.1,not_not.mp hm.2⟩
  rcases hH : s.h with _ | H
  · rw [run_initiatorAct2Act3_uninitialized hH]
    exact iff_of_true (fun _ => Untouched.refl s) fun _ _ H C h => absurd (hH.symm.trans h) nofun
  obtain ⟨⟨C,hC⟩,_⟩ := hs.keyed (.inl (by simp [hH]))
  have hsafe : ActTwoSafe P s m ↔ match ecdh P (slice m 1 34) s.es.priv with
      | none => sha256 P (H ++ slice m 1 34) = H
      | some ss =>
        Authentic P ((hkdf P C ss).drop 32) (zeros 12) (sha256 P (H ++ slice m 1 34)) (m.drop 34) ∨
          sha256 P (H ++ slice m 1 34) = H ∧ slice (hkdf P C ss) 0 32 = C := by
    simp [ActTwoSafe, hlen, hv, hH, hC]
  rw [hsafe]
  rcases hpoint : ecdh P (slice m 1 34) s.es.priv with _ | ss
  · rw [run_initiatorAct2Act3_badPoint hlen hv hH hpoint]
    simp [Untouched, hH]
  rcases hopen : ccpDecrypt P ((hkdf P C ss).drop 32) (zeros 12) (sha256 P (H ++ slice m 1 34))
      (m.drop 34) with _ | plain
  · rw [run_initiatorAct2Act3_forged hlen hv hH hpoint hC hopen]
    have hforged := (ccpDecrypt_throws_iff hP _ _ _ (ccpDecrypt_throws_length hopen)).mp hopen
    simp [Untouched, hH, hC, hforged]
  · obtain ⟨reply,t,hrun⟩ := run_initiatorAct2Act3_accepted hlen hv hH hlaw hpoint hC hopen
    rw [hrun]
    refine iff_of_true nofun (.inl ?_)
    rcases plain with _ | plain
    · have := ccpDecrypt_undefined_length hopen
      simp only [List.length_drop] at this
      omega
    · exact ⟨plain,ccpDecrypt_eq_plaintext hP hopen⟩

/-- In every reachable state, a failing receive leaves the hash, the keys and the
counters alone exactly on the safe inputs. -/
theorem receive_atomic_iff (hP : AeadLaws P) (hlaw : PointLaw P s) (hs : Reachable P s) (r : Receipt) :
    (r.Fails P s → Untouched s (r.after P s)) ↔ r.Safe P s := by
  cases r with
  | actTwo m => exact initiatorAct2Act3_atomic_iff hP hlaw hs.sound m
  | length lc => exact decryptLength_atomic_iff hP hs.sound lc
  | message c => exact decryptMessage_atomic_iff hs.sound c

end Calls

section Sample

def transparentReady : NoiseState :=
  ((initiatorAct2Act3 transparent transparentActTwo).run transparentInitiator).2

private theorem transparent_points (s : NoiseState) : PointLaw transparent s := by
  intro re
  simp only [transparent]
  split <;> rfl

private theorem transparentInitiator_reachable : Reachable transparent transparentInitiator :=
  .initiatorAct1 (.initializeState (.construct _ _ _))

theorem transparentReady_reachable : Reachable transparent transparentReady :=
  .initiatorAct2Act3 _ transparentInitiator_reachable

/-- A forged prefix of full length is refused without a trace. -/
theorem receive_atomic_forged :
    Untouched transparentReady ((Receipt.length (zeros 18)).after transparent transparentReady) :=
  (receive_atomic_iff transparent_laws (transparent_points _) transparentReady_reachable
    (.length (zeros 18))).mpr (fun _ _ => ⟨by simp,fun _ => by simp⟩) rfl

/-- A prefix and a body of fifteen bytes move the receiving counter, and a forged
act two replaces the chaining key. -/
theorem receive_atomic_fails :
    Reachable transparent transparentReady ∧ Reachable transparent transparentInitiator ∧
    (∀ r ∈ [Receipt.length (zeros 15), Receipt.message (zeros 15)],
      r.Fails transparent transparentReady ∧
        ¬ Untouched transparentReady (r.after transparent transparentReady)) ∧
    (Receipt.actTwo (0 :: 2 :: zeros 48)).Fails transparent transparentInitiator ∧
    ¬ Untouched transparentInitiator
      ((Receipt.actTwo (0 :: 2 :: zeros 48)).after transparent transparentInitiator) := by
  refine ⟨transparentReady_reachable,transparentInitiator_reachable,?_,rfl,?_⟩
  · intro r hr
    rcases List.mem_cons.mp hr with rfl | hr
    · exact ⟨rfl,fun h => absurd h.2.2.2.2.2 (by decide)⟩
    · rcases List.mem_singleton.mp hr with rfl
      exact ⟨.inr rfl,fun h => absurd h.2.2.2.2.2 (by decide)⟩
  · exact fun h => absurd h.2.1 (by decide)

end Sample
end CryptoPlaypen.Lightning
