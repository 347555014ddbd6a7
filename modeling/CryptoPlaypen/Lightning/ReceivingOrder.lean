import CryptoPlaypen.Lightning.NoiseAgreement
import CryptoPlaypen.Lightning.KeyChains

/-! The receiving side against any bytes. A received part is opened at a position of the key
schedule, and over a whole run the positions only go up: nothing is accepted twice or out of turn. -/
namespace CryptoPlaypen.Lightning
open Buffer Objects Method NoiseState

inductive TransportCall where
  | send : Bytes → TransportCall
  | length : Bytes → TransportCall
  | message : Bytes → TransportCall
  deriving DecidableEq, Repr

/-- What a receiving call gives to its caller, beside the ciphertext it was given. -/
inductive Received where
  | length : Bytes → Nat → Received
  | message : Bytes → Bytes → Received
  deriving DecidableEq, Repr

namespace TransportCall
variable (P : Primitives)

/-- A call that throws or gives `undefined` has received nothing. -/
def run (s : NoiseState) : TransportCall → Option Received × NoiseState
  | .send m => (none,((encryptMessage P m).run s).2)
  | .length lc => match (decryptLength P lc).run s with
    | (.returned n, t) => (some (.length lc n),t)
    | (.threw, t) => (none,t)
  | .message c => match (decryptMessage P c).run s with
    | (.returned (some m), t) => (some (.message c m),t)
    | (.returned none, t) => (none,t)
    | (.threw, t) => (none,t)

def received (s : NoiseState) : List TransportCall → List Received
  | [] => []
  | call :: calls => (call.run P s).1.toList ++ received (call.run P s).2 calls

end TransportCall

/-- The ciphertext opens under the key and the counter of the position, a thousand positions a key. -/
def OpensAt (P : Primitives) (key : Nat → Bytes) (p : Nat) (c m : Bytes) : Prop :=
  ccpDecrypt P (key (p / 1000)) (nonce (p % 1000)) [] c = some (some m)

def Authenticated (P : Primitives) (key : Nat → Bytes) (p : Nat) : Received → Prop
  | .length lc n => ∃ m, OpensAt P key p lc m ∧ readUInt16BE m 0 = some n
  | .message c m => OpensAt P key p c m

def Listening (K : Bytes) (k : Nat) (s : NoiseState) : Prop :=
  s.rk = some K ∧ s.rn = nonce k ∧ ∃ C, s.ck = some C

structure ListensAt (P : Primitives) (key : Nat → Bytes) (p : Nat) (s : NoiseState) : Prop where
  chained : Chained P key (p / 1000)
  listening : Listening (key (p / 1000)) (p % 1000) s

def SameTo (p : Nat) (key key' : Nat → Bytes) : Prop := ∀ e ≤ p / 1000, key' e = key e

theorem SameTo.refl (p : Nat) (key : Nat → Bytes) : SameTo p key key := fun _ _ => rfl

theorem SameTo.trans {p q : Nat} {key key₁ key₂ : Nat → Bytes} (h : SameTo p key key₁)
    (hq : SameTo q key₁ key₂) (hle : p ≤ q) : SameTo p key key₂ :=
  fun e he => (hq e (he.trans (Nat.div_le_div_right hle))).trans (h e he)

theorem Authenticated.congr {P : Primitives} {key key' : Nat → Bytes} {p : Nat} {r : Received}
    (h : Authenticated P key p r) (hkey : SameTo p key key') : Authenticated P key' p r := by
  cases r <;> simpa only [Authenticated, OpensAt, hkey _ (Nat.le_refl _)] using h

section Steps
variable {P : Primitives} {K : Bytes} {k p : Nat} {key : Nat → Bytes} {s : NoiseState}

/-- Sending moves the other counter. -/
theorem listening_finishSendingUse : Within (Method.Keeps (Listening K k)) (finishSendingUse P) := by
  refine Within.bind ?_ fun newValue => Within.cond ?_ (Within.pure _)
  · exact Within.self.bind fun _ => (Within.attempt _).bind fun _ => (Within.attempt _).bind fun _ =>
      (Within.assign fun _ h => by exact h).bind fun _ => Within.pure _
  · exact Within.self.bind fun _ => (Within.attempt _).bind fun _ => (Within.attempt _).bind fun _ =>
      (Within.assign fun _ h => by exact h).bind fun _ =>
      (Within.assign fun _ h => by exact ⟨h.1,h.2.1,_,rfl⟩).bind fun _ =>
      Within.assign fun _ h => by exact h

theorem listening_encryptMessage (m : Bytes) : Within (Method.Keeps (Listening K k)) (encryptMessage P m) :=
  (Within.attempt _).bind fun _ => Within.self.bind fun _ => (Within.attempt _).bind fun _ =>
    listening_finishSendingUse.bind fun _ => Within.self.bind fun _ => (Within.attempt _).bind fun _ =>
    listening_finishSendingUse.bind fun _ => Within.pure _

/-- A use of the receiving key goes to the next position, with a new key after the thousandth. -/
theorem ListensAt.next (h : ListensAt P key p s) :
    ∃ key' t, (finishRecievingUse P).run s = (.returned (),t) ∧ SameTo p key key' ∧
      ListensAt P key' (p + 1) t := by
  obtain ⟨hrk,hrn,C,hck⟩ := h.listening
  have hrun := run_finishRecievingUse (P := P) hck hrk hrn (Nat.mod_lt p (by decide))
  by_cases hlast : p % 1000 + 1 < 1000
  · have hsame : (p + 1) / 1000 = p / 1000 := by omega
    have hnext : (p + 1) % 1000 = p % 1000 + 1 := by omega
    rw [afterReceiving, if_pos hlast, ← hnext] at hrun
    exact ⟨key,_,hrun,SameTo.refl p key,hsame ▸ h.chained,hsame ▸ hrk,rfl,C,hck⟩
  · have hepoch : (p + 1) / 1000 = p / 1000 + 1 := by omega
    have hzero : (p + 1) % 1000 = 0 := by omega
    rw [afterReceiving, if_neg hlast, ← hzero] at hrun
    refine ⟨extendKeys key (p / 1000) (rotate P (C,key (p / 1000))).2,_,hrun,
      fun e he => extendKeys_le he _,?_,?_,rfl,_,rfl⟩
    · rw [hepoch]
      exact h.chained.rotate C
    · rw [hepoch, extendKeys_next]

/-- What one call does to the schedule: it stays where it is and receives nothing, or it uses up the
position, and what it received was opened there. -/
theorem ListensAt.call (h : ListensAt P key p s) (call : TransportCall) :
    (ListensAt P key p (call.run P s).2 ∧ (call.run P s).1 = none) ∨
    ∃ key', SameTo p key key' ∧ ListensAt P key' (p + 1) (call.run P s).2 ∧
      ∀ r ∈ (call.run P s).1, Authenticated P key p r := by
  obtain ⟨key',t,hrun,hsame,hnext⟩ := h.next
  have hrk := h.listening.1
  have hrn := h.listening.2.1
  have hnone : ∀ r ∈ (none : Option Received), Authenticated P key p r := by rintro r ⟨⟩
  cases call with
  | send m => exact .inl ⟨⟨h.chained,listening_encryptMessage m s h.listening⟩,rfl⟩
  | length lc =>
    simp only [TransportCall.run, decryptLength, run_bind, run_self, hrk, hrn, run_attempt_some]
    rcases hopen : ccpDecrypt P (key (p / 1000)) (nonce (p % 1000)) [] lc with _ | plain
    · exact .inl ⟨h,rfl⟩
    · refine .inr ⟨key',hsame,?_⟩
      simp only [run_attempt_some, hrun]
      rcases plain with _ | m
      · exact ⟨hnext,hnone⟩
      simp only [run_attempt_some]
      rcases hread : readUInt16BE m 0 with _ | n
      · exact ⟨hnext,hnone⟩
      · refine ⟨hnext,?_⟩
        rintro r ⟨⟩
        exact ⟨m,hopen,hread⟩
  | message c =>
    simp only [TransportCall.run, decryptMessage, run_bind, run_self, hrk, hrn, run_attempt_some]
    rcases hopen : ccpDecrypt P (key (p / 1000)) (nonce (p % 1000)) [] c with _ | plain
    · exact .inl ⟨h,rfl⟩
    · refine .inr ⟨key',hsame,?_⟩
      simp only [run_attempt_some, hrun, run_pure]
      rcases plain with _ | m
      · exact ⟨hnext,hnone⟩
      · refine ⟨hnext,?_⟩
        rintro r ⟨⟩
        exact hopen

/-- The receiving side after a call, whatever has come of it. -/
theorem ListensAt.decryptLength (h : ListensAt P key p s) (lc : Bytes) :
    ∃ key' q, SameTo p key key' ∧ p ≤ q ∧ ListensAt P key' q ((NoiseState.decryptLength P lc).run s).2 := by
  have hcall := h.call (.length lc)
  simp only [TransportCall.run] at hcall
  rcases hrun : (NoiseState.decryptLength P lc).run s with ⟨_ | _,t⟩ <;> rw [hrun] at hcall <;>
  · rcases hcall with ⟨hstay,_⟩ | ⟨key',hsame,hnext,_⟩
    · exact ⟨key,p,SameTo.refl p key,Nat.le_refl p,hstay⟩
    · exact ⟨key',p + 1,hsame,Nat.le_succ p,hnext⟩

theorem ListensAt.decryptMessage (h : ListensAt P key p s) (c : Bytes) :
    ∃ key' q, SameTo p key key' ∧ p ≤ q ∧ ListensAt P key' q ((NoiseState.decryptMessage P c).run s).2 ∧
      ∀ m, ((NoiseState.decryptMessage P c).run s).1 = .returned (some m) →
        ∃ x, p ≤ x ∧ x < q ∧ OpensAt P key' x c m := by
  have hcall := h.call (.message c)
  simp only [TransportCall.run] at hcall
  rcases hrun : (NoiseState.decryptMessage P c).run s with ⟨(_ | m) | _,t⟩ <;> rw [hrun] at hcall
  case returned.some =>
    rcases hcall with ⟨_,hnone⟩ | ⟨key',hsame,hnext,hauth⟩
    · cases hnone
    · refine ⟨key',p + 1,hsame,Nat.le_succ p,hnext,?_⟩
      rintro m' ⟨⟩
      exact ⟨p,Nat.le_refl p,Nat.lt_succ_self p,(Authenticated.congr (hauth _ rfl) hsame :)⟩
  all_goals
    rcases hcall with ⟨hstay,_⟩ | ⟨key',hsame,hnext,_⟩
    · exact ⟨key,p,SameTo.refl p key,Nat.le_refl p,hstay,nofun⟩
    · exact ⟨key',p + 1,hsame,Nat.le_succ p,hnext,nofun⟩

/-- The run lemma: what the rest of the calls receive is opened from this position on. -/
theorem ListensAt.run (h : ListensAt P key p s) (calls : List TransportCall) :
    ∃ key' q ps, SameTo p key key' ∧ p ≤ q ∧ Chained P key' (q / 1000) ∧
      (∀ x ∈ ps, p ≤ x ∧ x < q) ∧ ps.Pairwise (· < ·) ∧
      List.Forall₂ (Authenticated P key') ps (TransportCall.received P s calls) := by
  induction calls generalizing key p s with
  | nil => exact ⟨key,p,[],SameTo.refl p key,Nat.le_refl p,h.chained,nofun,.nil,.nil⟩
  | cons call calls ih =>
    rw [TransportCall.received]
    rcases h.call call with ⟨hstay,hnone⟩ | ⟨key₁,hsame,hnext,hauth⟩
    · rw [hnone]
      exact ih hstay
    obtain ⟨key₂,q,ps,hlater,hle,hchain,hbounds,hsorted,hall⟩ := ih hnext
    have hkeys := hsame.trans hlater (Nat.le_succ p)
    rcases hcall : (call.run P s).1 with _ | r
    · exact ⟨key₂,q,ps,hkeys,by omega,hchain,fun x hx => ⟨by have := hbounds x hx; omega,(hbounds x hx).2⟩,
        hsorted,hall⟩
    · refine ⟨key₂,q,p :: ps,hkeys,by omega,hchain,?_,?_,?_⟩
      · intro x hx
        rcases List.mem_cons.mp hx with rfl | hx
        · exact ⟨Nat.le_refl x,by omega⟩
        · exact ⟨by have := hbounds x hx; omega,(hbounds x hx).2⟩
      · exact List.pairwise_cons.mpr ⟨fun x hx => (hbounds x hx).1,hsorted⟩
      · exact .cons ((hauth r hcall).congr hkeys) hall

end Steps

end CryptoPlaypen.Lightning
