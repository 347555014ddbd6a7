import CryptoPlaypen.Bitcoin.TxObjects
import CryptoPlaypen.Bitcoin.WitnessSighash

/-! Inputs that are signed one after another, each result stored before the next
signature is made. A digest sees neither scriptSigs nor witnesses. -/
namespace CryptoPlaypen.Bitcoin
open Buffer Objects Objects.Method

def P2wpkhSpend.signWitnessInput (P : Packages) (S : Signing) (sha256 : Bytes → Bytes) (tx : Tx)
    (vindex : Nat) (privKey : Bytes) (hashType : Nat) (value : Amount) : Option Bytes := do
  let hash ← hashForWitnessV0 P sha256 tx vindex value hashType
  let signature ← S.sign hash privKey
  encodeSig S signature hashType

/-- This signer makes no copy. -/
def TxObject.signWitnessInput (P : Packages) (S : Signing) (sha256 : Bytes → Bytes) (tx : TxObject)
    (vindex : Nat) (privKey : Bytes) (hashType : Nat) (value : Amount) : Method Heap Bytes := do
  let heap ← self
  Method.attempt (P2wpkhSpend.signWitnessInput P S sha256 (tx.read heap) vindex privKey hashType value)

inductive SpendKind where
  | legacy : SpendKind
  | witness : Amount → SpendKind
  deriving DecidableEq, Repr

structure Job where
  privKey : Bytes
  pubKey : Bytes
  hashType : Nat
  kind : SpendKind
  deriving DecidableEq, Repr

section Jobs
variable (P : Packages) (D : PushData) (S : Signing) (sha256 : Bytes → Bytes)

def signFor (job : Job) (tx : TxObject) (i : Nat) : Method Heap Bytes :=
  match job.kind with
  | .legacy => tx.signInput P S sha256 i job.privKey job.hashType
  | .witness value => tx.signWitnessInput P S sha256 i job.privKey job.hashType value

/-- What is made of the signature, as an assignment to the input's properties. -/
def spendWith (job : Job) (sig : Bytes) : Option (Vin → Vin) :=
  match job.kind with
  | .legacy => (compileScript D [.data sig, .data job.pubKey]).map fun scriptSig vin =>
    { vin with scriptSig := some scriptSig }
  | .witness _ => some fun vin => { vin with witness := some [sig, job.pubKey] }

def signAndStore (job : Job) (tx : TxObject) (i : Nat) : Method Heap Unit := do
  let sig ← signFor P S sha256 job tx i
  let spend ← Method.attempt (spendWith D job sig)
  let vin ← Method.attempt tx.vins[i]?
  updateVin vin spend

def signAll (jobs : Nat → Job) (tx : TxObject) (order : List Nat) : Method Heap Unit :=
  order.forM fun i => signAndStore P D S sha256 (jobs i) tx i

def signature (job : Job) (t : Tx) (i : Nat) : Option Bytes :=
  match job.kind with
  | .legacy => P2wpkhSpend.signInput P S sha256 t i job.privKey job.hashType
  | .witness value => P2wpkhSpend.signWitnessInput P S sha256 t i job.privKey job.hashType value

def spend (job : Job) (t : Tx) (i : Nat) : Option (Vin → Vin) :=
  (signature P S sha256 job t i).bind (spendWith D job)

end Jobs

def Vin.unsigned (vin : Vin) : Vin := { vin with scriptSig := none, witness := none }

/-- The transaction without anything that signing adds. -/
def Tx.unsigned (t : Tx) : Tx := { t with vins := t.vins.map Vin.unsigned }

def Tx.attach (spends : Nat → Option (Vin → Vin)) (t : Tx) (i : Nat) : Tx :=
  { t with vins := t.vins.modify i ((spends i).getD id) }

private theorem cloneTx_unsigned (t : Tx) : cloneTx t.unsigned = cloneTx t := by
  simp [cloneTx, Tx.unsigned, Vin.unsigned, Function.comp_def]

private theorem signingClone_unsigned (t : Tx) (i : Nat) : signingClone t.unsigned i = signingClone t i := by
  rw [signingClone, signingClone, cloneTx_unsigned]

private theorem forM_map {α β τ : Type} (items : List α) (f : α → β) (body : β → CellWriter τ Unit) :
    (items.map f).forM body = items.forM fun a => body (f a) := by
  induction items with
  | nil => rfl
  | cons a items ih => exact bind_congr fun _ => ih

private theorem witnessBuffers_unsigned (P : Packages) (sha256 : Bytes → Bytes) (t : Tx) (i : Nat)
    (value : Amount) (hashType : Nat) :
    P2wpkhSpend.witnessBuffers P sha256 t.unsigned i value hashType =
      P2wpkhSpend.witnessBuffers P sha256 t i value hashType := by
  have hprev : P2wpkhSpend.fillPrevOuts t.unsigned = P2wpkhSpend.fillPrevOuts t := by
    simp only [P2wpkhSpend.fillPrevOuts, Tx.unsigned, forM_map, List.length_map]
    rfl
  have hseq : P2wpkhSpend.fillSequence t.unsigned = P2wpkhSpend.fillSequence t := by
    simp only [P2wpkhSpend.fillSequence, Tx.unsigned, forM_map, List.length_map]
    rfl
  have hvin : t.unsigned.vins[i]? = t.vins[i]?.map Vin.unsigned := by simp [Tx.unsigned]
  rw [P2wpkhSpend.witnessBuffers, P2wpkhSpend.witnessBuffers, hprev, hseq, hvin]
  cases t.vins[i]? <;> rfl

section Orders
variable {P : Packages} {D : PushData} {S : Signing} {sha256 : Bytes → Bytes}

/-- No digest depends on what has been attached. -/
theorem signature_unsigned (job : Job) (t : Tx) (i : Nat) :
    signature P S sha256 job t.unsigned i = signature P S sha256 job t i := by
  unfold signature
  split
  · rw [P2wpkhSpend.signInput, P2wpkhSpend.signInput, signWith_eq, signWith_eq, signingClone_unsigned]
  · rw [P2wpkhSpend.signWitnessInput, P2wpkhSpend.signWitnessInput, P2wpkhSpend.hashForWitnessV0,
      P2wpkhSpend.hashForWitnessV0, witnessBuffers_unsigned]

variable (P D S sha256) in
private theorem spend_congr (job : Job) {t t' : Tx} (h : t.unsigned = t'.unsigned) (i : Nat) :
    spend P D S sha256 job t i = spend P D S sha256 job t' i := by
  rw [spend, spend, ← signature_unsigned job t, ← signature_unsigned job t', h]

private theorem spend_unsigned {job : Job} {t : Tx} {i : Nat} {f : Vin → Vin}
    (h : spend P D S sha256 job t i = some f) (vin : Vin) : (f vin).unsigned = vin.unsigned := by
  obtain ⟨sig,_,hspend⟩ := Option.bind_eq_some_iff.mp h
  unfold spendWith at hspend
  split at hspend
  · obtain ⟨scriptSig,_,rfl⟩ := Option.map_eq_some_iff.mp hspend
    rfl
  · cases hspend
    rfl

private theorem attach_unsigned {job : Nat → Job} {base : Tx} (t : Tx) (i : Nat) :
    (t.attach (fun j => spend P D S sha256 (job j) base j) i).unsigned = t.unsigned := by
  have hkeep (vin : Vin) :
      (((spend P D S sha256 (job i) base i).getD id) vin).unsigned = vin.unsigned := by
    cases hspend : spend P D S sha256 (job i) base i with
    | none => rfl
    | some f => exact spend_unsigned hspend vin
  refine congrArg (fun vins => { t with vins := vins }) (List.ext_getElem? fun k => ?_)
  simp only [Tx.attach, List.getElem?_map, List.getElem?_modify]
  cases t.vins[k]? with
  | none => rfl
  | some vin =>
    by_cases hik : i = k
    · subst hik
      simpa using hkeep vin
    · simp [hik]

/-- Assignments to two inputs, or twice to one, can be exchanged. -/
theorem attach_comm (spends : Nat → Option (Vin → Vin)) (t : Tx) (i j : Nat) :
    (t.attach spends i).attach spends j = (t.attach spends j).attach spends i := by
  rcases eq_or_ne i j with rfl | hij
  · rfl
  refine congrArg (fun vins => { t with vins := vins }) (List.ext_getElem? fun k => ?_)
  simp only [Tx.attach, List.getElem?_modify]
  by_cases hik : i = k
  · have hjk : j ≠ k := fun hjk => hij (hik.trans hjk.symm)
    cases t.vins[k]? <;> simp [hik, hjk]
  · cases t.vins[k]? <;> simp [hik]

variable (P D S sha256)

/-- A signer gives what it gives for the values, and only creates objects. -/
theorem run_signFor (job : Job) (tx : TxObject) (i : Nat) (h : Heap) :
    ∃ h', h.Extends h' ∧ (signFor P S sha256 job tx i).run h =
      (.ofOption (signature P S sha256 job (tx.read h) i), h') := by
  unfold signFor signature
  split
  · exact run_signCopy (P2wpkhSpend.txToBuffer P) S sha256 tx i job.privKey job.hashType h
  · exact ⟨h,.refl h,(run_bind_returned (run_self h) _).trans (run_attempt _ h)⟩

variable {P S sha256} in
/-- Only an input that exists can be signed. -/
theorem signature_lt {job : Job} {t : Tx} {i : Nat} {sig : Bytes}
    (h : signature P S sha256 job t i = some sig) : i < t.vins.length := by
  by_contra hi
  have hnone : t.vins[i]? = none := List.getElem?_eq_none (by omega)
  unfold signature at h
  split at h
  · rw [P2wpkhSpend.signInput, signWith_eq, signingClone_none (by omega)] at h
    cases h
  · rw [P2wpkhSpend.signWitnessInput, P2wpkhSpend.hashForWitnessV0, P2wpkhSpend.witnessBuffers,
      hnone] at h
    cases h

variable {tx : TxObject} {base : Tx} (jobs : Nat → Job)

/-- Signing one input, in any state that differs from `base` in attachments only. -/
theorem run_signAndStore {h : Heap} (hvalid : tx.Valid h)
    (hbase : (tx.read h).unsigned = base.unsigned) (i : Nat) :
    ∃ h', tx.Valid h' ∧ (signAndStore P D S sha256 (jobs i) tx i).run h =
        (.ofOption ((spend P D S sha256 (jobs i) base i).map fun _ => ()), h') ∧
      tx.read h' = (tx.read h).attach (fun j => spend P D S sha256 (jobs j) base j) i := by
  obtain ⟨h₁,hext,hsign⟩ := run_signFor P S sha256 (jobs i) tx i h
  have hspend := spend_congr P D S sha256 (jobs i) hbase i
  have hread := hvalid.read_extends hext
  rw [Tx.attach, ← hspend, spend]
  cases hsig : signature P S sha256 (jobs i) (tx.read h) i with
  | none =>
    rw [hsig] at hsign
    refine ⟨h₁,hvalid.extends hext,run_bind_threw hsign _,?_⟩
    simp [hread]
  | some sig =>
    rw [hsig] at hsign
    cases hwith : spendWith D (jobs i) sig with
    | none =>
      refine ⟨h₁,hvalid.extends hext,?_,?_⟩
      · rw [signAndStore, run_bind_returned hsign, hwith, Option.bind_some, hwith]
        rfl
      · simp [hread, hwith]
    | some f =>
      have hi : i < tx.vins.length := by
        simpa [TxObject.read, Heap.readVins] using signature_lt hsig
      refine ⟨{ h₁ with vins := h₁.vins.modify tx.vins[i] f },(hvalid.extends hext).update _ _,?_,?_⟩
      · rw [signAndStore, run_bind_returned hsign, hwith, Option.bind_some, hwith,
          run_bind_returned (run_attempt_some f h₁), List.getElem?_eq_getElem hi]
        rfl
      · rw [(hvalid.extends hext).read_update hi, hread, Option.bind_some, hwith]
        rfl

/-- Signing inputs in any order: every one is attached as it would be to `base`. -/
theorem run_signAll (order : List Nat) {h : Heap} (hvalid : tx.Valid h)
    (hbase : (tx.read h).unsigned = base.unsigned) :
    ∃ h', tx.Valid h' ∧ (signAll P D S sha256 jobs tx order).run h =
        (if ∀ i ∈ order, (spend P D S sha256 (jobs i) base i).isSome then .returned () else .threw, h') ∧
      ((∀ i ∈ order, (spend P D S sha256 (jobs i) base i).isSome) → tx.read h' =
        order.foldl (Tx.attach fun j => spend P D S sha256 (jobs j) base j) (tx.read h)) := by
  induction order generalizing h with
  | nil => exact ⟨h,hvalid,by simp [signAll],fun _ => rfl⟩
  | cons i order ih =>
    obtain ⟨h₁,hvalid₁,hrun,hread⟩ := run_signAndStore P D S sha256 jobs
      hvalid hbase i
    cases hspend : spend P D S sha256 (jobs i) base i with
    | none =>
      rw [hspend] at hrun
      have hfails : ¬ ∀ j ∈ i :: order, (spend P D S sha256 (jobs j) base j).isSome := by simp [hspend]
      refine ⟨h₁,hvalid₁,?_,fun hall => absurd hall hfails⟩
      rw [if_neg hfails]
      exact run_bind_threw hrun _
    | some f =>
      rw [hspend] at hrun
      have hbase₁ : (tx.read h₁).unsigned = base.unsigned := by
        rw [hread, attach_unsigned, hbase]
      obtain ⟨h₂,hvalid₂,hrest,hfinal⟩ := ih hvalid₁ hbase₁
      have hiff : (∀ j ∈ i :: order, (spend P D S sha256 (jobs j) base j).isSome) ↔
          ∀ j ∈ order, (spend P D S sha256 (jobs j) base j).isSome := by simp [hspend]
      refine ⟨h₂,hvalid₂,?_,?_⟩
      · rw [if_congr hiff rfl rfl]
        exact (run_bind_returned hrun _).trans hrest
      · intro hall
        rw [List.foldl_cons, ← hread]
        exact hfinal fun j hj => hall j (List.mem_cons_of_mem _ hj)

/-- In every order the inputs are signed with one outcome and to one transaction, with
one encoding; and no signing call on the way changes anything that existed before it. -/
theorem signing_order_independent {h : Heap} (hvalid : tx.Valid h) :
    (∀ order order', order.Perm (List.range tx.vins.length) → order'.Perm (List.range tx.vins.length) →
      let final := (signAll P D S sha256 jobs tx order).run h
      let final' := (signAll P D S sha256 jobs tx order').run h
      final.1 = final'.1 ∧ (final.1 = .returned () → tx.read final.2 = tx.read final'.2 ∧
        P2wpkhSpend.txToBuffer P (tx.read final.2) = P2wpkhSpend.txToBuffer P (tx.read final'.2))) ∧
    ∀ before job i,
      let between := ((signAll P D S sha256 jobs tx before).run h).2
      let after := ((signFor P S sha256 job tx i).run between).2
      between.Extends after ∧ tx.read after = tx.read between := by
  constructor
  · intro order order' horder horder'
    have hperm : order.Perm order' := horder.trans horder'.symm
    obtain ⟨h₁,_,hrun,hread⟩ := run_signAll P D S sha256 jobs order hvalid rfl
    obtain ⟨h₂,_,hrun',hread'⟩ := run_signAll P D S sha256 jobs order' hvalid rfl
    have hmem : (∀ i ∈ order, (spend P D S sha256 (jobs i) (tx.read h) i).isSome) ↔
        ∀ i ∈ order', (spend P D S sha256 (jobs i) (tx.read h) i).isSome :=
      forall_congr' fun i => by rw [hperm.mem_iff]
    simp only [hrun, hrun']
    refine ⟨if_congr hmem rfl rfl,fun hreturned => ?_⟩
    have hall : ∀ i ∈ order, (spend P D S sha256 (jobs i) (tx.read h) i).isSome := by
      by_contra hfails
      rw [if_neg hfails] at hreturned
      cases hreturned
    have hsame : tx.read h₁ = tx.read h₂ := by
      rw [hread hall, hread' (hmem.mp hall)]
      apply hperm.foldl_eq'
      intro i _ j _ t
      exact attach_comm _ t i j
    exact ⟨hsame,by rw [hsame]⟩
  · intro before job i
    obtain ⟨h₁,hvalid₁,hrun,_⟩ := run_signAll P D S sha256 jobs before hvalid rfl
    obtain ⟨h₂,hext,hsign⟩ := run_signFor P S sha256 job tx i h₁
    simp only [hrun, hsign]
    exact ⟨hext,hvalid₁.read_extends hext⟩

end Orders

def pairHeap : Heap where
  vins := [P2wpkhSpend.workedVin 0, { P2wpkhSpend.workedVin 0 with witness := none }]
  vouts := [{ script := [0x51], value := .number 900 }]

def pairTx : TxObject where
  version := 2
  locktime := 0
  vins := [0, 1]
  vouts := [0]

def pairJob (i : Nat) : Job where
  privKey := [UInt8.ofNat i]
  pubKey := [2, UInt8.ofNat i]
  hashType := 1
  kind := if i = 0 then .witness (.number 1000) else .legacy

def echo : Signing where
  sign hash privKey := some (hash ++ privKey)
  encode r s := some (r ++ s)

private theorem pairTx_valid : pairTx.Valid pairHeap where
  vins := by decide
  distinct := by decide
  vouts := by decide

/-- Both orders return, with one transaction. -/
theorem signing_order_pair :
    let sha256 := fun b : Bytes => (b ++ zeros 32).take 32
    let final := fun order =>
      (signAll wirePackages wirePushData echo sha256 pairJob pairTx order).run pairHeap
    (final [0, 1]).1 = .returned () ∧ pairTx.read (final [0, 1]).2 = pairTx.read (final [1, 0]).2 := by
  intro sha256 final
  have hreturned : (final [0, 1]).1 = .returned () := by decide +kernel
  have horders := (signing_order_independent wirePackages wirePushData echo sha256 pairJob
    pairTx_valid).1 [0, 1] [1, 0] (List.Perm.refl _) (List.Perm.swap 0 1 [])
  exact ⟨hreturned,(horders.2 hreturned).1⟩

end CryptoPlaypen.Bitcoin
