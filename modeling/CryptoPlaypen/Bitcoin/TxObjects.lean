import CryptoPlaypen.Bitcoin.LegacySighash
import CryptoPlaypen.Objects.Method

/-! Transactions as objects that the signers share with their callers. No signer
stores into a buffer that an object refers to, so an object holds its bytes. -/
namespace CryptoPlaypen.Bitcoin
open Buffer Objects Objects.Method

/-- The inputs and outputs that exist, by address. -/
structure Heap where
  vins : List Vin
  vouts : List Vout
  deriving DecidableEq, Repr

structure TxObject where
  version : Int
  locktime : Nat
  vins : List Nat
  vouts : List Nat
  deriving DecidableEq, Repr

instance : Inhabited Vin := ⟨⟨[],0,[],0,[],none,none,none,none⟩⟩

instance : Inhabited Vout := ⟨⟨[],.number 0⟩⟩

namespace Heap

def readVins (h : Heap) (vins : List Nat) : List Vin := vins.map fun a => h.vins.getD a default

def readVouts (h : Heap) (vouts : List Nat) : List Vout := vouts.map fun a => h.vouts.getD a default

/-- Objects have been created; those that existed have their properties still. -/
def Extends (h h' : Heap) : Prop := h.vins <+: h'.vins ∧ h.vouts <+: h'.vouts

end Heap

namespace TxObject

def read (tx : TxObject) (h : Heap) : Tx where
  version := tx.version
  locktime := tx.locktime
  vins := h.readVins tx.vins
  vouts := h.readVouts tx.vouts

/-- The references lead to objects, and no two inputs are one object. -/
structure Valid (tx : TxObject) (h : Heap) : Prop where
  vins : ∀ a ∈ tx.vins, a < h.vins.length
  distinct : tx.vins.Nodup
  vouts : ∀ a ∈ tx.vouts, a < h.vouts.length

end TxObject

def newVin (vin : Vin) : Method Heap Nat := do
  let heap ← self
  assign fun h => { h with vins := h.vins ++ [vin] }
  pure heap.vins.length

def newVout (vout : Vout) : Method Heap Nat := do
  let heap ← self
  assign fun h => { h with vouts := h.vouts ++ [vout] }
  pure heap.vouts.length

def updateVin (vin : Nat) (f : Vin → Vin) : Method Heap Unit :=
  assign fun h => { h with vins := h.vins.modify vin f }

namespace TxObject

def cloneTx (tx : TxObject) : Method Heap TxObject := do
  let heap ← self
  let copy := Bitcoin.cloneTx (tx.read heap)
  let vins ← copy.vins.mapM newVin
  let vouts ← copy.vouts.mapM newVout
  pure { tx with vins := vins, vouts := vouts }

end TxObject

def emptyScript (vin : Vin) : Vin := { vin with script := [] }

def filterScript (vin : Vin) : Vin :=
  { vin with script := vin.script.filter fun op => op.toNat != OPS.OP_CODESEPARATOR }

def blankOther (vindex : Nat) (p : Nat × Nat) : Method Heap Unit :=
  if p.2 = vindex then pure () else updateVin p.1 emptyScript

/-- The loop that empties the scripts of the other inputs. -/
def blankScripts (vins : List Nat) (vindex : Nat) : Method Heap Unit :=
  vins.zipIdx.forM (blankOther vindex)

/-- What every signer does to the inputs it has, its own copies or its caller's. -/
def isolateScript (vins : List Nat) (vindex : Nat) : Method Heap Unit := do
  let vin ← Method.attempt vins[vindex]?
  updateVin vin filterScript
  blankScripts vins vindex

/-- The last steps of every signer, from the message on. -/
def signMessage (S : Signing) (sha256 : Bytes → Bytes) (message privKey : Bytes) (hashType : Nat) :
    Option Bytes := do
  let signature ← S.sign (sha256 (sha256 message)) privKey
  encodeSig S signature hashType

/-- What is signed is the transaction as it reads at this point. -/
def signRead (txToBuffer : Tx → Option Bytes) (S : Signing) (sha256 : Bytes → Bytes) (tx : TxObject)
    (privKey : Bytes) (hashType : Nat) : Method Heap Bytes := do
  let heap ← self
  let buffer ← Method.attempt (txToBuffer (tx.read heap))
  let message ← Method.attempt (appendHashType buffer hashType)
  Method.attempt (signMessage S sha256 message privKey hashType)

/-- Both signers that work on a copy, up to the encoder of their own module. -/
def signCopy (txToBuffer : Tx → Option Bytes) (S : Signing) (sha256 : Bytes → Bytes) (tx : TxObject)
    (vindex : Nat) (privKey : Bytes) (hashType : Nat) : Method Heap Bytes := do
  let clone ← tx.cloneTx
  isolateScript clone.vins vindex
  signRead txToBuffer S sha256 clone privKey hashType

def isolated (vindex i : Nat) (vin : Vin) : Vin :=
  if i = vindex then filterScript vin else emptyScript vin

def TxObject.signp2pkh (P : Packages) (S : Signing) (sha256 : Bytes → Bytes) (tx : TxObject)
    (vindex : Nat) (privKey : Bytes) (hashType : Nat) : Method Heap Bytes :=
  signCopy (P2pkh.txToBuffer P) S sha256 tx vindex privKey hashType

def TxObject.signInput (P : Packages) (S : Signing) (sha256 : Bytes → Bytes) (tx : TxObject)
    (vindex : Nat) (privKey : Bytes) (hashType : Nat) : Method Heap Bytes :=
  signCopy (P2wpkhSpend.txToBuffer P) S sha256 tx vindex privKey hashType

section Objects
variable {h h' : Heap} {tx : TxObject}

theorem Heap.Extends.refl (h : Heap) : h.Extends h := ⟨List.prefix_rfl,List.prefix_rfl⟩

private theorem getD_of_prefix {α : Type} {xs ys : List α} (hpre : xs <+: ys) {a : Nat} (ha : a < xs.length)
    (d : α) : ys.getD a d = xs.getD a d := by
  obtain ⟨zs,rfl⟩ := hpre
  rw [List.getD_eq_getElem?_getD, List.getD_eq_getElem?_getD, List.getElem?_append_left ha]

theorem TxObject.Valid.extends (hvalid : tx.Valid h) (hext : h.Extends h') : tx.Valid h' where
  vins a ha := Nat.lt_of_lt_of_le (hvalid.vins a ha) hext.1.length_le
  distinct := hvalid.distinct
  vouts a ha := Nat.lt_of_lt_of_le (hvalid.vouts a ha) hext.2.length_le

/-- What a transaction refers to does not change while objects are created. -/
theorem TxObject.Valid.read_extends (hvalid : tx.Valid h) (hext : h.Extends h') :
    tx.read h' = tx.read h := by
  have hvins : h'.readVins tx.vins = h.readVins tx.vins := by
    apply List.map_congr_left
    intro a ha
    exact getD_of_prefix hext.1 (hvalid.vins a ha) _
  have hvouts : h'.readVouts tx.vouts = h.readVouts tx.vouts := by
    apply List.map_congr_left
    intro a ha
    exact getD_of_prefix hext.2 (hvalid.vouts a ha) _
  rw [TxObject.read, hvins, hvouts, TxObject.read]

/-- An assignment to one input, in the transaction as it reads. -/
theorem TxObject.Valid.read_update (hvalid : tx.Valid h) {i : Nat} (hi : i < tx.vins.length)
    (f : Vin → Vin) : tx.read { h with vins := h.vins.modify tx.vins[i] f } =
      { tx.read h with vins := (tx.read h).vins.modify i f } := by
  refine congrArg (fun vins => { tx.read h with vins := vins }) (List.ext_getElem? fun k => ?_)
  simp only [TxObject.read, Heap.readVins, List.getElem?_map, List.getElem?_modify,
    List.getD_eq_getElem?_getD]
  by_cases hk : k < tx.vins.length
  · have hsame : tx.vins[i] = tx.vins[k] ↔ i = k := hvalid.distinct.getElem_inj_iff
    simp only [List.getElem?_eq_getElem hk, Option.map_some, hsame,
      List.getElem?_eq_getElem (hvalid.vins _ (List.getElem_mem hk))]
    rfl
  · rw [List.getElem?_eq_none (by omega)]
    rfl

theorem TxObject.Valid.update (hvalid : tx.Valid h) (vin : Nat) (f : Vin → Vin) :
    tx.Valid { h with vins := h.vins.modify vin f } where
  vins a ha := by simpa using hvalid.vins a ha
  distinct := hvalid.distinct
  vouts := hvalid.vouts

/-- A loop that creates objects, in a heap with the other objects fixed. -/
theorem run_mapM_new {α : Type} (new : α → Method Heap Nat) (heap : List α → Heap)
    (hnew : ∀ cells a, (new a).run (heap cells) = (.returned cells.length, heap (cells ++ [a])))
    (items cells : List α) : (items.mapM new).run (heap cells) =
      (.returned (List.range' cells.length items.length), heap (cells ++ items)) := by
  induction items generalizing cells with
  | nil => simp
  | cons a items ih =>
    have hrest := ih (cells ++ [a])
    rw [List.mapM_cons, run_bind_returned (hnew cells a), run_bind_returned hrest]
    simp [List.range'_succ]

private theorem getD_range' {α : Type} (cells items : List α) (d : α) :
    (List.range' cells.length items.length).map (fun a => (cells ++ items).getD a d) = items := by
  apply List.ext_getElem
  · simp
  · intro i hi hi'
    simp [hi']

/-- The copy reads as `cloneTx` says, and nothing in it existed before. -/
theorem run_cloneTx (tx : TxObject) (h : Heap) : ∃ clone h', tx.cloneTx.run h = (.returned clone, h') ∧
    h.Extends h' ∧ clone.Valid h' ∧ clone.read h' = Bitcoin.cloneTx (tx.read h) ∧
    ∀ a ∈ clone.vins, h.vins.length ≤ a := by
  let copy := Bitcoin.cloneTx (tx.read h)
  have hvins := run_mapM_new newVin (fun vins => { h with vins := vins }) (fun _ _ => rfl) copy.vins h.vins
  have hvouts := run_mapM_new newVout (fun vouts => { vins := h.vins ++ copy.vins, vouts := vouts })
    (fun _ _ => rfl) copy.vouts h.vouts
  let vins := List.range' h.vins.length copy.vins.length
  let vouts := List.range' h.vouts.length copy.vouts.length
  refine ⟨{ tx with vins := vins, vouts := vouts },⟨h.vins ++ copy.vins,h.vouts ++ copy.vouts⟩,
    ?_,?_,?_,?_,?_⟩
  · rw [TxObject.cloneTx, run_bind_returned (run_self h), run_bind_returned hvins,
      run_bind_returned hvouts]
    exact run_pure _ _
  · exact ⟨List.prefix_append _ _,List.prefix_append _ _⟩
  · refine ⟨?_,List.nodup_range',?_⟩ <;> simp [vins, vouts]
  · rw [TxObject.read, Heap.readVins, Heap.readVouts, getD_range', getD_range']
    rfl
  · simp +contextual [vins]

/-- The body of the loop is run for the input `a` at some other position. -/
def Blanked (vins : List Nat) (vindex k a : Nat) : Prop := ∃ i, vins[i]? = some a ∧ i + k ≠ vindex

private theorem blanked_cons {other vindex k a : Nat} {vins : List Nat} :
    Blanked (other :: vins) vindex k a ↔ (other = a ∧ k ≠ vindex) ∨ Blanked vins vindex (k + 1) a := by
  constructor
  · rintro ⟨_ | i,hi,hne⟩
    · exact .inl ⟨by simpa using hi,by omega⟩
    · exact .inr ⟨i,by simpa using hi,by omega⟩
  · rintro (⟨rfl,hne⟩ | ⟨i,hi,hne⟩)
    · exact ⟨0,rfl,by omega⟩
    · exact ⟨i + 1,by simpa using hi,by omega⟩

private theorem run_blankOther (vindex other k : Nat) (h : Heap) :
    (blankOther vindex (other, k)).run h = (.returned (), 
      ⟨if k = vindex then h.vins else h.vins.modify other emptyScript,h.vouts⟩) := by
  unfold blankOther
  split <;> rfl

open Classical in
/-- Inputs are emptied by what the loop still has to visit. -/
theorem run_blankScripts (vins : List Nat) (vindex k : Nat) (h : Heap) :
    ∃ cells, ((vins.zipIdx k).forM (blankOther vindex)).run h =
        (.returned (), { h with vins := cells }) ∧
      ∀ a : Nat, cells[a]? = h.vins[a]?.map fun vin =>
        if Blanked vins vindex k a then emptyScript vin else vin := by
  induction vins generalizing k h with
  | nil => exact ⟨h.vins,rfl,fun a => by simp [Blanked]⟩
  | cons other vins ih =>
    let step := if k = vindex then h.vins else h.vins.modify other emptyScript
    obtain ⟨cells,hrun,hcells⟩ := ih (k + 1) { h with vins := step }
    refine ⟨cells,?_,fun a => ?_⟩
    · rw [List.zipIdx_cons]
      exact (run_bind_returned (run_blankOther vindex other k h) _).trans hrun
    · rw [hcells a]
      by_cases hk : k = vindex
      · simp [step, blanked_cons, hk]
      · simp only [step, if_neg hk, List.getElem?_modify, blanked_cons]
        cases h.vins[a]? with
        | none => rfl
        | some vin =>
          have htwice : emptyScript (emptyScript vin) = emptyScript vin := rfl
          by_cases ha : other = a <;> simp [ha, hk, htwice]

private theorem blanked_getElem {vins : List Nat} (hdistinct : vins.Nodup) {vindex i : Nat}
    (hi : i < vins.length) : Blanked vins vindex 0 vins[i] ↔ i ≠ vindex := by
  constructor
  · rintro ⟨j,hj,hne⟩
    obtain ⟨hlt,hval⟩ := List.getElem?_eq_some_iff.mp hj
    obtain rfl : j = i := hdistinct.getElem_inj_iff.mp hval
    exact hne
  · intro hne
    exact ⟨i,List.getElem?_eq_getElem hi,hne⟩

/-- The scripts of the given inputs are isolated; every other object stays as it is. -/
theorem run_isolateScript {vins : List Nat} (hvins : ∀ a ∈ vins, a < h.vins.length)
    (hdistinct : vins.Nodup) {vindex : Nat} (hvindex : vindex < vins.length) :
    ∃ cells, (isolateScript vins vindex).run h = (.returned (), { h with vins := cells }) ∧
      Heap.readVins { h with vins := cells } vins = (h.readVins vins).mapIdx (isolated vindex) ∧
      (∀ a ∈ vins, a < cells.length) ∧ ∀ a ∉ vins, cells[a]? = h.vins[a]? := by
  let filtered := h.vins.modify vins[vindex] filterScript
  obtain ⟨cells,hrun,hcells⟩ := run_blankScripts vins vindex 0 { h with vins := filtered }
  have hread (i : Nat) (hi : i < vins.length) :
      cells[vins[i]]? = some (isolated vindex i (h.vins.getD vins[i] default)) := by
    have hown : vins[vindex] = vins[i] ↔ vindex = i := hdistinct.getElem_inj_iff
    have hcell : h.vins[vins[i]]? = some (h.vins.getD vins[i] default) := by
      simp [hvins _ (List.getElem_mem hi)]
    rw [hcells]
    simp only [filtered, List.getElem?_modify, blanked_getElem hdistinct hi, isolated, hown, hcell]
    by_cases heq : i = vindex <;> simp [heq, Ne.symm]
  refine ⟨cells,?_,?_,?_,?_⟩
  · rw [isolateScript, List.getElem?_eq_getElem hvindex, run_bind_returned (run_attempt_some _ h)]
    exact (run_bind_returned (run_assign _ h) _).trans hrun
  · apply List.ext_getElem
    · simp [Heap.readVins]
    · intro i hi _
      have hlt : i < vins.length := by simpa [Heap.readVins] using hi
      simp [Heap.readVins, hread i hlt, hvins _ (List.getElem_mem hlt)]
  · intro a ha
    obtain ⟨i,hi,rfl⟩ := List.getElem_of_mem ha
    exact (List.getElem?_eq_some_iff.mp (hread i hi)).1
  · intro a ha
    have hkept : ¬ Blanked vins vindex 0 a := by
      rintro ⟨i,hi,_⟩
      exact ha (List.mem_of_getElem? hi)
    have hother : vins[vindex] ≠ a := fun heq => ha (heq ▸ List.getElem_mem hvindex)
    rw [hcells a]
    simp [filtered, hkept, hother]

private theorem signingClone_isolated {t : Tx} {vindex : Nat} (hvindex : vindex < t.vins.length) :
    signingClone t vindex = some { Bitcoin.cloneTx t with
      vins := (Bitcoin.cloneTx t).vins.mapIdx (isolated vindex) } := by
  have hvins : (Bitcoin.cloneTx t).vins.mapIdx (isolated vindex) =
      t.vins.mapIdx (signingVin vindex) := by
    rw [List.mapIdx_eq_iff]
    intro i
    rcases eq_or_ne i vindex with rfl | hne
    · simp [Bitcoin.cloneTx, isolated, signingVin, filterScript, hvindex]
    · cases hv : t.vins[i]? <;> simp [Bitcoin.cloneTx, isolated, signingVin, emptyScript, hv, hne]
  rw [signingClone_eq hvindex, hvins]
  simp [Bitcoin.cloneTx]

theorem signingClone_none {t : Tx} {vindex : Nat} (hvindex : t.vins.length ≤ vindex) :
    signingClone t vindex = none := by
  have hnone : (Bitcoin.cloneTx t).vins[vindex]? = none := by
    rw [List.getElem?_eq_none_iff]
    simpa [Bitcoin.cloneTx] using hvindex
  rw [signingClone, hnone]
  rfl

theorem signWith_eq (txToBuffer : Tx → Option Bytes) (S : Signing) (sha256 : Bytes → Bytes) (t : Tx)
    (vindex : Nat) (privKey : Bytes) (hashType : Nat) :
    signWith txToBuffer S sha256 t vindex privKey hashType =
      (signingClone t vindex).bind fun clone => (txToBuffer clone).bind fun buffer =>
        (appendHashType buffer hashType).bind fun message =>
          signMessage S sha256 message privKey hashType := by
  have hchain {α β γ δ : Type} (a : Option α) (f : α → Option β) (g : β → Option γ) (digest : γ → Bytes)
      (k : Bytes → Option δ) : ((a.bind fun c => (f c).bind fun b => (g b).bind fun m =>
        some (digest m)).bind k) = a.bind fun c => (f c).bind fun b => (g b).bind fun m => k (digest m) := by
    cases a with
    | none => rfl
    | some c =>
      cases hf : f c with
      | none => simp [hf]
      | some b => cases hg : g b <;> simp [hf, hg]
  exact hchain _ _ _ (fun message => sha256 (sha256 message)) _

private theorem run_signRead (txToBuffer : Tx → Option Bytes) (S : Signing) (sha256 : Bytes → Bytes)
    (tx : TxObject) (privKey : Bytes) (hashType : Nat) (h : Heap) :
    (signRead txToBuffer S sha256 tx privKey hashType).run h =
      (.ofOption ((txToBuffer (tx.read h)).bind fun buffer =>
        (appendHashType buffer hashType).bind fun message =>
          signMessage S sha256 message privKey hashType), h) := by
  refine (run_bind_returned (run_self h) _).trans ?_
  refine run_attempt_then fun buffer => ?_
  exact run_attempt_then fun message => run_attempt _ h

/-- Signing a copy gives what the copied values give, and only creates objects. -/
theorem run_signCopy (txToBuffer : Tx → Option Bytes) (S : Signing) (sha256 : Bytes → Bytes)
    (tx : TxObject) (vindex : Nat) (privKey : Bytes) (hashType : Nat) (h : Heap) :
    ∃ h', h.Extends h' ∧ (signCopy txToBuffer S sha256 tx vindex privKey hashType).run h =
      (.ofOption (signWith txToBuffer S sha256 (tx.read h) vindex privKey hashType), h') := by
  obtain ⟨clone,h₁,hclone,hext,hvalid,hread,hfresh⟩ := run_cloneTx tx h
  have hcount : clone.vins.length = (tx.read h).vins.length := by
    have hlength := congrArg (fun t => t.vins.length) hread
    simpa [TxObject.read, Heap.readVins, Bitcoin.cloneTx] using hlength
  rw [signWith_eq]
  by_cases hvindex : vindex < clone.vins.length
  · obtain ⟨cells,hisolate,hscripts,hroom,hframe⟩ :=
      run_isolateScript hvalid.vins hvalid.distinct hvindex
    refine ⟨{ h₁ with vins := cells },⟨?_,hext.2⟩,?_⟩
    · rw [List.prefix_iff_getElem?]
      intro i hi
      have hold : i ∉ clone.vins := fun hmem => Nat.not_lt.mpr (hfresh i hmem) hi
      rw [hframe i hold]
      exact List.prefix_iff_getElem?.mp hext.1 i hi
    · have hcopy : clone.read { h₁ with vins := cells } = { Bitcoin.cloneTx (tx.read h) with
          vins := (Bitcoin.cloneTx (tx.read h)).vins.mapIdx (isolated vindex) } := by
        rw [TxObject.read, hscripts, ← hread]
        rfl
      rw [signingClone_isolated (hcount ▸ hvindex), Option.bind_some, ← hcopy]
      refine (run_bind_returned hclone _).trans ((run_bind_returned hisolate _).trans ?_)
      exact run_signRead txToBuffer S sha256 clone privKey hashType _
  · refine ⟨h₁,hext,?_⟩
    have hmissing : clone.vins[vindex]? = none := List.getElem?_eq_none (by omega)
    have hisolate : (isolateScript clone.vins vindex).run h₁ = (.threw, h₁) := by
      rw [isolateScript, hmissing]
      rfl
    rw [signingClone_none (by omega), Option.bind_none]
    exact (run_bind_returned hclone _).trans (run_bind_threw hisolate _)

end Objects

end CryptoPlaypen.Bitcoin
