import CryptoPlaypen.Lightning.NoiseAgreement

/-! The sending side of a transport without a receive in between: the key and the counters
of every message in closed form, however many there are. -/
namespace CryptoPlaypen.Lightning
open Buffer Objects Method NoiseState

def keySchedule (P : Primitives) (keys : Bytes × Bytes) : Nat → Bytes × Bytes
  | 0 => keys
  | e + 1 => rotate P (keySchedule P keys e)

def scheduledFrame (P : Primitives) (keys : Bytes × Bytes) (n : Nat) (m : Bytes) : Bytes :=
  sealedLength P (keySchedule P keys (n / 500)).2 (2 * (n % 500)) m ++
    sealedBody P (keySchedule P keys (n / 500)).2 (2 * (n % 500)) m

structure Scheduled (P : Primitives) (keys : Bytes × Bytes) (n : Nat) (s : NoiseState) : Prop where
  ck : s.ck = some (keySchedule P keys (n / 500)).1
  sk : s.sk = some (keySchedule P keys (n / 500)).2
  sn : s.sn = nonce (2 * (n % 500))

/-- What the two increments of a call that starts in this state return. -/
def increments (P : Primitives) (s : NoiseState) : List (Outcome Nat) :=
  [(incrementSendingNonce.run s).1, (incrementSendingNonce.run ((finishSendingUse P).run s).2).1]

section Schedule
variable {P : Primitives} {keys : Bytes × Bytes} {n : Nat} {s : NoiseState}

private theorem keySchedule_append (e : Nat) :
    (keySchedule P keys (e + 1)).1 ++ (keySchedule P keys (e + 1)).2 =
      hkdf P (keySchedule P keys e).1 (keySchedule P keys e).2 :=
  List.take_append_drop 32 _

private theorem advance_keySchedule (n : Nat) :
    advance P (keySchedule P keys (n / 500)) n = keySchedule P keys ((n + 1) / 500) := by
  by_cases hlast : (n + 1) % 500 = 0
  · rw [advance_last _ hlast, show (n + 1) / 500 = n / 500 + 1 by omega]
    rfl
  · rw [advance_mid _ hlast, show (n + 1) / 500 = n / 500 by omega]

/-- One message is sealed under the next two counters, and the schedule goes on. -/
theorem Scheduled.encryptMessage (h : Scheduled P keys n s) {m : Bytes} (hm : m.length ≤ 65535) :
    ∃ t, (encryptMessage P m).run s = (.returned (scheduledFrame P keys n m), t) ∧
      Scheduled P keys (n + 1) t := by
  obtain ⟨hck,hsk,_,hsn,_⟩ := afterSending_fields (P := P) s n h.ck h.sk
  refine ⟨_,run_encryptMessage h.ck h.sk h.sn (by omega) hm,?_⟩
  rw [advance_keySchedule] at hck hsk
  exact ⟨hck,hsk,hsn⟩

theorem Scheduled.run (h : Scheduled P keys n s) {ms : List Bytes} (hms : ∀ m ∈ ms, m.length ≤ 65535) :
    ∃ t, (ms.mapM (NoiseState.encryptMessage P)).run s =
        (.returned (ms.mapIdx fun i m => scheduledFrame P keys (n + i) m), t) ∧
      Scheduled P keys (n + ms.length) t := by
  induction ms generalizing n s with
  | nil => exact ⟨s,rfl,h⟩
  | cons m ms ih =>
    obtain ⟨t,hfirst,ht⟩ := h.encryptMessage (hms m List.mem_cons_self)
    obtain ⟨u,hrest,hu⟩ := ih ht fun m' hm' => hms m' (List.mem_cons_of_mem m hm')
    have hindex (i : Nat) : n + 1 + i = n + (i + 1) := by omega
    refine ⟨u,?_,?_⟩
    · rw [List.mapM_cons, run_bind_returned hfirst, run_bind_returned hrest, run_pure, List.mapIdx_cons]
      simp only [hindex, Nat.add_zero]
    · rw [List.length_cons, ← hindex]
      exact hu

/-- The counter is odd after the first increment, and at most 1000 after the second. -/
theorem Scheduled.increments (h : Scheduled P keys n s) : increments P s =
    [.returned (2 * (n % 500) + 1),.returned (2 * (n % 500) + 2)] := by
  have hmid : afterSending P s (keySchedule P keys (n / 500)).1 (keySchedule P keys (n / 500)).2
      (2 * (n % 500)) = { s with sn := nonce (2 * (n % 500) + 1) } := if_pos (by omega)
  have hsecond := run_incrementSendingNonce (k := 2 * (n % 500) + 1)
    (s := { s with sn := nonce (2 * (n % 500) + 1) }) rfl (by omega)
  rw [Lightning.increments, run_incrementSendingNonce h.sn (by omega),
    run_finishSendingUse h.ck h.sk h.sn (by omega), hmid, hsecond]

end Schedule

/-- Any number of messages sent one after the other, each under the next two counters of the
key that 500 messages share, and none of the increments above 1000. -/
theorem encryptMessage_schedule (P : Primitives) {s : NoiseState} {C K : Bytes} (hc : s.ck = some C)
    (hk : s.sk = some K) (hn : s.sn = zeros 12) {ms : List Bytes} (hms : ∀ m ∈ ms, m.length ≤ 65535) :
    (∀ e, (keySchedule P (C,K) (e + 1)).1 ++ (keySchedule P (C,K) (e + 1)).2 =
      hkdf P (keySchedule P (C,K) e).1 (keySchedule P (C,K) e).2) ∧
    ((ms.mapM (encryptMessage P)).run s).1 = .returned (ms.mapIdx fun i m =>
      ccpEncrypt P (keySchedule P (C,K) (i / 500)).2 (nonce (2 * (i % 500))) [] (beBytes 2 m.length) ++
      ccpEncrypt P (keySchedule P (C,K) (i / 500)).2 (nonce (2 * (i % 500) + 1)) [] m) ∧
    ∀ i < ms.length, ∀ o ∈ increments P (((ms.take i).mapM (encryptMessage P)).run s).2,
      ∃ v ≤ 1000, o = .returned v := by
  have hstart : Scheduled P (C,K) 0 s := ⟨hc,hk,hn⟩
  refine ⟨keySchedule_append,?_,?_⟩
  · obtain ⟨t,hrun,_⟩ := hstart.run hms
    simp only [hrun, Nat.zero_add]
    rfl
  · intro i hi o ho
    obtain ⟨t,hrun,ht⟩ := hstart.run (show ∀ m ∈ ms.take i, m.length ≤ 65535 from
      fun m hm => hms m (List.mem_of_mem_take hm))
    rw [hrun, ht.increments] at ho
    rcases List.mem_pair.mp ho with rfl | rfl
    · exact ⟨_,by omega,rfl⟩
    · exact ⟨_,by omega,rfl⟩

/-- Two messages under the transparent packages, whose tags show the key. -/
theorem encryptMessage_schedule_two :
    (([[1],[2,3]].mapM (encryptMessage transparent)).run { transparentInitiator with
        ck := some (zeros 32), sk := some (List.replicate 32 7) }).1 = .returned
      [[0,1] ++ List.replicate 16 7 ++ ([1] ++ List.replicate 16 7),
        [0,2] ++ List.replicate 16 7 ++ ([2,3] ++ List.replicate 16 7)] :=
  (encryptMessage_schedule transparent (s := { transparentInitiator with
      ck := some (zeros 32), sk := some (List.replicate 32 7) }) rfl rfl rfl
    (show ∀ m ∈ ([[1],[2,3]] : List Bytes), m.length ≤ 65535 by decide)).2.1

end CryptoPlaypen.Lightning
