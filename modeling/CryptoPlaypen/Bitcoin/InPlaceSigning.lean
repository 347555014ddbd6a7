import CryptoPlaypen.Bitcoin.TxObjects

/-! The signer of `test2.js`, which empties the scripts of its caller's inputs, against
the one of `example-p2pkh.js`, which works on a copy. -/
namespace CryptoPlaypen.Bitcoin
open Buffer Objects Objects.Method

namespace InPlace

def calcTxBytes (P : Packages) (vins : List Vin) (vouts : List Vout) : Nat :=
  8 + P.encodingLength vins.length + P.encodingLength vouts.length +
    vinsBytes P (vins.map fun vin => vin.script.length) + voutsBytes P vouts + 0

def writeVin (P : Packages) (vin : Vin) : CellWriter UInt8 Unit := do
  BufferCursor.writeBytes vin.hash
  BufferCursor.writeUInt32LE (propertyNumber vin.index)
  BufferCursor.writeSized P vin.script
  BufferCursor.writeUInt32LE vin.sequence

/-- The buffer is the caller's. -/
def txToBuffer (P : Packages) (buffer : Bytes) (tx : Tx) : Option Bytes := do
  let writes : CellWriter UInt8 Unit := do
    BufferCursor.writeInt32LE tx.version
    BufferCursor.writeBytes (P.encode tx.vins.length)
    tx.vins.forM (writeVin P)
    BufferCursor.writeBytes (P.encode tx.vouts.length)
    tx.vouts.forM (writeVout P)
    BufferCursor.writeUInt32LE tx.locktime
  let cursor ← (writes.run ⟨buffer, 0, []⟩).map Prod.snd
  pure cursor.buffer

/-- The buffer has four bytes more than the transaction, for the hash type. -/
def message (P : Packages) (tx : Tx) : Option Bytes := do
  let buffer ← txToBuffer P (zeros (calcTxBytes P tx.vins tx.vouts + 4)) tx
  writeInt32LE 0x01 buffer (buffer.length - 4)

def signp2pkh (P : Packages) (S : Signing) (sha256 : Bytes → Bytes) (vindex : Nat)
    (vins vouts : List Nat) (privKey : Bytes) : Method Heap Bytes := do
  isolateScript vins vindex
  let heap ← self
  let message ← Method.attempt (message P (TxObject.read ⟨2,0,vins,vouts⟩ heap))
  Method.attempt (signMessage S sha256 message privKey 0x01)

end InPlace

def signInPlace (P : Packages) (S : Signing) (sha256 : Bytes → Bytes) (tx : TxObject)
    (privKeys : Nat → Bytes) : Method Heap (List Bytes) :=
  (List.range' 0 tx.vins.length).mapM fun i =>
    InPlace.signp2pkh P S sha256 i tx.vins tx.vouts (privKeys i)

def signCopies (P : Packages) (S : Signing) (sha256 : Bytes → Bytes) (tx : TxObject)
    (privKeys : Nat → Bytes) : Method Heap (List Bytes) :=
  (List.range' 0 tx.vins.length).mapM fun i => tx.signp2pkh P S sha256 i (privKeys i) 1

/-- Whatever the curve and the hash function, both give the same signatures. -/
def SameSignatures (P : Packages) (tx : TxObject) (h : Heap) (privKeys : Nat → Bytes) : Prop :=
  ∀ S sha256, HashLength sha256 → ((signInPlace P S sha256 tx privKeys).run h).1 =
    ((signCopies P S sha256 tx privKeys).run h).1

def InPlace.wireIn (vin : Vin) : TxIn := vin.wire (vin.index.getD 0) vin.script

section Encoder
variable {P : Packages} (laws : PackageLaws P) {tx : Tx}
include laws

theorem InPlace.writes_vin {vin : Vin} (h : vin.Fits) (hindex : vin.index.getD 0 < 2 ^ 32) :
    Writes (InPlace.writeVin P vin) (InPlace.wireIn vin).bytes :=
  (BufferCursor.writes_bytes vin.hash).seq <| (BufferCursor.writes_uint32LE hindex).seq <|
    (BufferCursor.writes_sized laws h.script).seq (BufferCursor.writes_uint32LE h.sequence)

/-- The message is the original format with the hash type behind it. -/
theorem InPlace.message_eq (h : tx.Fits) (hindex : ∀ vin ∈ tx.vins, vin.index.getD 0 < 2 ^ 32) :
    InPlace.message P tx = some (legacyBytes tx.wireVersion (tx.vins.map InPlace.wireIn)
      (tx.vouts.map Vout.wire) tx.locktime ++ leBytes 4 1) := by
  have hwrites := (BufferCursor.writes_int32LE h.version.1 h.version.2).seq <|
    writes_body laws h.counts h.vouts InPlace.wireIn
      (fun vin hvin => InPlace.writes_vin laws (h.vins vin hvin) (hindex vin hvin))
      (BufferCursor.writes_uint32LE h.locktime)
  have hvins := vinsBytes_eq laws InPlace.wireIn (fun vin hvin => (h.vins vin hvin).hash)
    fun vin hvin => (h.vins vin hvin).script
  have hsize : InPlace.calcTxBytes P tx.vins tx.vouts = (int32Bytes tx.version ++
      (bodyBytes (tx.vins.map InPlace.wireIn) (tx.vouts.map Vout.wire) ++
        leBytes 4 tx.locktime)).length := by
    change 8 + _ + _ + vinsBytes P (tx.vins.map fun vin => (InPlace.wireIn vin).script.length) + _ = _
    rw [hvins, voutsBytes_eq laws h.vouts, laws.encodingLength _ h.counts.1,
      laws.encodingLength _ h.counts.2]
    simp [bodyBytes, counted, List.flatMap_map]
    omega
  obtain ⟨extents,_,hrun⟩ := hwrites [] (zeros (InPlace.calcTxBytes P tx.vins tx.vouts + 4)) []
    (by rw [zeros_length, hsize]; omega)
  have hbuffer : InPlace.txToBuffer P (zeros (InPlace.calcTxBytes P tx.vins tx.vouts + 4)) tx =
      some (legacyBytes tx.wireVersion (tx.vins.map InPlace.wireIn) (tx.vouts.map Vout.wire)
        tx.locktime ++ zeros 4) := by
    have hrest : (zeros (InPlace.calcTxBytes P tx.vins tx.vouts + 4)).drop (int32Bytes tx.version ++
        (bodyBytes (tx.vins.map InPlace.wireIn) (tx.vouts.map Vout.wire) ++
          leBytes 4 tx.locktime)).length = zeros 4 := by
      rw [hsize, zeros, List.drop_replicate, Nat.add_sub_cancel_left]
      rfl
    rw [hrest] at hrun
    exact congrArg (fun r => (r.map Prod.snd).bind fun cursor => some cursor.buffer) hrun
  have hstore := writeInt32LE_append (legacyBytes tx.wireVersion (tx.vins.map InPlace.wireIn)
    (tx.vouts.map Vout.wire) tx.locktime) (zeros 4) (show -2 ^ 31 ≤ (1 : Int) by decide) (by decide)
    (by simp)
  rw [InPlace.message, hbuffer, Option.bind_eq_bind, Option.bind_some, List.length_append, zeros_length,
    Nat.add_sub_cancel, hstore]
  simp [int32Bytes]

end Encoder

/-- Input `k` as signing in place finds it at step `i`: its own script is left to the
first input only, and only until the second signature. -/
def InPlace.before (i k : Nat) (vin : Vin) : Vin :=
  if i = 0 then vin else if i = 1 ∧ k = 0 then filterScript vin else emptyScript vin

theorem InPlace.isolated_before (i k : Nat) (vin : Vin) :
    isolated i k (InPlace.before i k vin) = InPlace.before (i + 1) k vin := by
  unfold isolated InPlace.before
  rcases Nat.eq_zero_or_pos i with rfl | hi
  · by_cases hk : k = 0 <;> simp [hk]
  · have hempty : filterScript (emptyScript vin) = emptyScript vin := rfl
    have hfilter : emptyScript (filterScript vin) = emptyScript vin := rfl
    have htwice : emptyScript (emptyScript vin) = emptyScript vin := rfl
    by_cases hk : k = i
    · subst hk
      have hne : k ≠ 0 := by omega
      simp [hne, hempty]
    · by_cases hfirst : i = 1 ∧ k = 0
      · simp [hfirst, hfilter]
      · have hne : i ≠ 0 := by omega
        simp [hk, hne, hfirst, htwice]

def InPlace.inputs (tx : Tx) (i : Nat) : List TxIn :=
  tx.vins.mapIdx fun k vin => vin.wire vin.vout (InPlace.before (i + 1) k vin).script

/-- The message behind a signature, from the inputs that are hashed. -/
def signedMessage (tx : Tx) (inputs : List TxIn) : Bytes :=
  legacyBytes tx.wireVersion inputs (tx.vouts.map Vout.wire) tx.locktime ++ leBytes 4 1

theorem InPlace.before_fits {i k : Nat} {vin : Vin} (h : vin.Fits) : (InPlace.before i k vin).Fits := by
  have hfilter : (filterScript vin).script.length < 2 ^ 53 :=
    Nat.lt_of_le_of_lt (List.length_filter_le _ _) h.script
  unfold InPlace.before
  split
  · exact h
  · split
    · exact ⟨h.hash,h.vout,h.sequence,hfilter,h.scriptSig,h.witness⟩
    · exact ⟨h.hash,h.vout,h.sequence,Nat.two_pow_pos 53,h.scriptSig,h.witness⟩

/-- Only the script is another. -/
theorem InPlace.before_eq (i k : Nat) (vin : Vin) :
    InPlace.before i k vin = { vin with script := (InPlace.before i k vin).script } := by
  unfold InPlace.before
  split
  · rfl
  · split <;> rfl

theorem InPlace.before_index (i k : Nat) (vin : Vin) : (InPlace.before i k vin).index = vin.index := by
  rw [InPlace.before_eq]

theorem InPlace.before_wire (i k : Nat) {vin : Vin} (h : vin.index = some vin.vout) :
    InPlace.wireIn (InPlace.before i k vin) = vin.wire vin.vout (InPlace.before i k vin).script := by
  rw [InPlace.wireIn, InPlace.before_index, h, InPlace.before_eq]
  rfl

private theorem signWith_signedMessage {P : Packages} (laws : PackageLaws P) {t : Tx} (h : t.Fits)
    (S : Signing) (sha256 : Bytes → Bytes) {i : Nat} (hi : i < t.vins.length) (privKey : Bytes) :
    signWith (P2pkh.txToBuffer P) S sha256 t i privKey 1 =
      signMessage S sha256 (signedMessage t (hashedInputs Vin.vout t i)) privKey 1 := by
  rw [signWith_eq, signingClone_eq hi, Option.bind_some, P2pkh.txToBuffer_signing laws h,
    Option.bind_some, appendHashType_eq _ (by decide), Option.bind_some, signedMessage]

section Runs
variable {P : Packages} (laws : PackageLaws P) {tx : TxObject} {h : Heap} (hvalid : tx.Valid h)
  (hversion : tx.version = 2 ∧ tx.locktime = 0) (hfits : (tx.read h).Fits)
  (hindex : ∀ vin ∈ (tx.read h).vins, vin.index = some vin.vout)
include laws hfits

section InPlace
include hversion hindex

/-- Step `i` of signing in place, from what the steps before it have left. -/
theorem run_inPlace (S : Signing) (sha256 : Bytes → Bytes) (privKey : Bytes) {i : Nat}
    (hi : i < tx.vins.length) {s : Heap} (hs : tx.Valid s)
    (hread : tx.read s = { tx.read h with vins := (tx.read h).vins.mapIdx (InPlace.before i) }) :
    ∃ t, (InPlace.signp2pkh P S sha256 i tx.vins tx.vouts privKey).run s =
        (.ofOption (signMessage S sha256 (signedMessage (tx.read h) (InPlace.inputs (tx.read h) i))
          privKey 1), t) ∧ tx.Valid t ∧
      tx.read t = { tx.read h with vins := (tx.read h).vins.mapIdx (InPlace.before (i + 1)) } := by
  obtain ⟨cells,hrun,hscripts,hroom,_⟩ := run_isolateScript hs.vins hs.distinct hi
  have htx : (⟨2,0,tx.vins,tx.vouts⟩ : TxObject) = tx := by
    rw [← hversion.1, ← hversion.2]
  have hafter : tx.read { s with vins := cells } =
      { tx.read h with vins := (tx.read h).vins.mapIdx (InPlace.before (i + 1)) } := by
    have hvins : s.readVins tx.vins = (tx.read h).vins.mapIdx (InPlace.before i) :=
      congrArg Tx.vins hread
    have hvouts : s.readVouts tx.vouts = (tx.read h).vouts := congrArg Tx.vouts hread
    rw [TxObject.read, hscripts, hvins]
    change Tx.mk _ _ _ (s.readVouts tx.vouts) = _
    rw [hvouts, List.mapIdx_mapIdx]
    simp only [Function.comp_def, InPlace.isolated_before]
    rfl
  have hfitsAfter : (tx.read { s with vins := cells }).Fits := by
    rw [hafter]
    refine ⟨hfits.version,hfits.locktime,by simpa using hfits.counts,?_,hfits.vouts⟩
    intro vin hvin
    obtain ⟨k,hk,rfl⟩ := List.mem_mapIdx.mp hvin
    exact InPlace.before_fits (hfits.vins _ (List.getElem_mem hk))
  have hindexAfter : ∀ vin ∈ (tx.read { s with vins := cells }).vins, vin.index.getD 0 < 2 ^ 32 := by
    rw [hafter]
    intro vin hvin
    obtain ⟨k,hk,rfl⟩ := List.mem_mapIdx.mp hvin
    have hmem := List.getElem_mem hk
    rw [InPlace.before_index, hindex _ hmem]
    exact (hfits.vins _ hmem).vout
  have hmessage : InPlace.message P (tx.read { s with vins := cells }) =
      some (signedMessage (tx.read h) (InPlace.inputs (tx.read h) i)) := by
    rw [InPlace.message_eq laws hfitsAfter hindexAfter, hafter, signedMessage]
    refine congrArg (fun inputs => some (legacyBytes _ inputs _ _ ++ leBytes 4 1)) ?_
    apply List.ext_getElem
    · simp [InPlace.inputs]
    · intro k hk _
      have hlt : k < (tx.read h).vins.length := by simpa using hk
      simpa [InPlace.inputs] using
        InPlace.before_wire (i + 1) k (hindex _ (List.getElem_mem hlt))
  refine ⟨{ s with vins := cells },?_,⟨hroom,hs.distinct,hs.vouts⟩,hafter⟩
  refine (run_bind_returned hrun _).trans ((run_bind_returned (run_self _) _).trans ?_)
  rw [htx, hmessage]
  exact (run_bind_returned (run_attempt_some _ _) _).trans (run_attempt _ _)

/-- All of them in turn. -/
theorem run_signInPlace (hs : tx.Valid h) (S : Signing) (sha256 : Bytes → Bytes)
    (privKeys : Nat → Bytes) : ((signInPlace P S sha256 tx privKeys).run h).1 =
      .ofOption ((List.range' 0 tx.vins.length).mapM fun i => signMessage S sha256
        (signedMessage (tx.read h) (InPlace.inputs (tx.read h) i)) (privKeys i) 1) := by
  have hstart : (tx.read h).vins.mapIdx (InPlace.before 0) = (tx.read h).vins :=
    List.ext_getElem (by simp) fun k _ _ => by simp [InPlace.before]
  obtain ⟨t,hrun⟩ := run_mapM_range' (I := fun i s => tx.Valid s ∧
      tx.read s = { tx.read h with vins := (tx.read h).vins.mapIdx (InPlace.before i) })
    (fun i s hi hs => run_inPlace laws hversion hfits hindex S sha256 (privKeys i) hi hs.1 hs.2)
    (Nat.le_of_eq (Nat.zero_add _)) ⟨hs,by rw [hstart]⟩
  rw [signInPlace, hrun]

end InPlace

private theorem run_signCopies (hs : tx.Valid h) (S : Signing) (sha256 : Bytes → Bytes)
    (privKeys : Nat → Bytes) : ((signCopies P S sha256 tx privKeys).run h).1 =
      .ofOption ((List.range' 0 tx.vins.length).mapM fun i => signMessage S sha256
        (signedMessage (tx.read h) (hashedInputs Vin.vout (tx.read h) i)) (privKeys i) 1) := by
  obtain ⟨t,hrun⟩ := run_mapM_range' (I := fun _ s => tx.Valid s ∧ tx.read s = tx.read h)
    (f := fun i => tx.signp2pkh P S sha256 i (privKeys i) 1)
    (o := fun i => signMessage S sha256
      (signedMessage (tx.read h) (hashedInputs Vin.vout (tx.read h) i)) (privKeys i) 1)
    (fun i s hi hs => by
      obtain ⟨t,hext,hrun⟩ := run_signCopy (P2pkh.txToBuffer P) S sha256 tx i (privKeys i) 1 s
      have hlt : i < (tx.read h).vins.length := by simpa [TxObject.read, Heap.readVins] using hi
      rw [hs.2, signWith_signedMessage laws hfits S sha256 hlt] at hrun
      exact ⟨t,hrun,hs.1.extends hext,(hs.1.read_extends hext).trans hs.2⟩)
    (Nat.le_of_eq (Nat.zero_add _)) ⟨hs,rfl⟩
  rw [signCopies, hrun]

/-- A curve whose signatures tell one digest from all others. -/
def signsMarked (digest : Bytes) : Signing where
  sign hash _ := some (if hash = digest then [1] else [])
  encode r _ := some r

omit laws hfits in
private theorem signsMarked_eq (digest message privKey : Bytes) (sha256 : Bytes → Bytes) :
    signMessage (signsMarked digest) sha256 message privKey 1 =
      some (if hash256 sha256 message = digest then [1, 1] else [0, 1]) := by
  by_cases hdigest : hash256 sha256 message = digest
  · rw [if_pos hdigest, signMessage]
    change (some (if hash256 sha256 message = digest then [1] else [])).bind _ = _
    rw [if_pos hdigest]
    rfl
  · rw [if_neg hdigest, signMessage]
    change (some (if hash256 sha256 message = digest then [1] else [])).bind _ = _
    rw [if_neg hdigest]
    rfl

omit laws hfits in
/-- In place, the inputs that are hashed are the right ones for the first input, and for
another only if there is nothing left of its script anyway. -/
theorem inputs_eq_iff {t : Tx} {i : Nat} (hi : i < t.vins.length) :
    InPlace.inputs t i = hashedInputs Vin.vout t i ↔
      (0 < i → (filterScript t.vins[i]).script = []) := by
  have hscript (k : Nat) (vin : Vin) : (InPlace.before (i + 1) k vin).script =
      if i = 0 ∧ k = 0 then (filterScript vin).script else [] := by
    by_cases hfirst : i = 0 ∧ k = 0 <;> simp [InPlace.before, hfirst, emptyScript]
  rw [InPlace.inputs, hashedInputs, List.mapIdx_eq_mapIdx_iff]
  simp only [hscript, Vin.wire, TxIn.mk.injEq, true_and, and_true]
  constructor
  · intro heq hpos
    have hown := heq i hi
    rw [if_neg (by omega), if_pos rfl] at hown
    exact hown.symm
  · intro hempty k hk
    by_cases hki : k = i
    · subst hki
      rw [if_pos rfl]
      rcases Nat.eq_zero_or_pos k with rfl | hpos
      · rw [if_pos ⟨rfl,rfl⟩]
        rfl
      · rw [if_neg (by omega)]
        exact (hempty hpos).symm
    · rw [if_neg (by omega), if_neg hki]

omit laws hfits in
private theorem mapM_congr {α β : Type} {f g : α → Option β} {items : List α} (h : ∀ a ∈ items, f a = g a) :
    items.mapM f = items.mapM g := by
  induction items with
  | nil => rfl
  | cons a items ih =>
    rw [List.mapM_cons, List.mapM_cons, h a List.mem_cons_self,
      ih fun b hb => h b (List.mem_cons_of_mem _ hb)]

omit laws hfits in
private theorem signedMessage_length {t : Tx} (h : t.Fits) {inputs : List TxIn} {i : Nat}
    (hi : i < t.vins.length) (hmem : ∃ x ∈ inputs, x.hash = t.vins[i].hash) :
    (signedMessage t inputs).length ≠ 32 := by
  obtain ⟨x,hx,hhash⟩ := hmem
  have hlength : 32 < (legacyBytes t.wireVersion inputs (t.vouts.map Vout.wire) t.locktime).length :=
    legacyBytes_length hx (hhash ▸ (h.vins _ (List.getElem_mem hi)).hash)
  rw [signedMessage, List.length_append]
  omega

omit laws hfits in
/-- The message tells which inputs have been hashed. -/
theorem signedMessage_inputs {t : Tx} (h : t.Fits) {i : Nat} (hi : i < t.vins.length)
    (heq : signedMessage t (InPlace.inputs t i) = signedMessage t (hashedInputs Vin.vout t i)) :
    InPlace.inputs t i = hashedInputs Vin.vout t i := by
  have hne : t.vins ≠ [] := List.ne_nil_of_length_pos (by omega)
  have hcounts := h.counts
  have hplace : ∀ x ∈ InPlace.inputs t i, x.Fits := by
    intro x hx
    obtain ⟨k,hk,rfl⟩ := List.mem_mapIdx.mp hx
    have hvin := h.vins _ (List.getElem_mem hk)
    exact hvin.wire hvin.vout (InPlace.before_fits hvin).script
  have hcopy : ∀ x ∈ hashedInputs Vin.vout t i, x.Fits :=
    hashedInputs_fit i h (fun vin hvin => (h.vins vin hvin).vout) fun vin hvin =>
      Nat.lt_of_le_of_lt (List.length_filter_le _ _) (h.vins vin hvin).script
  exact legacyBytes_inputs t.wireVersion_lt h.locktime
    ⟨by simpa [InPlace.inputs] using hne,by simpa [hashedInputs] using hne⟩
    (by simp [InPlace.inputs]; omega) (by simp [hashedInputs]; omega) (by simp; omega) hplace hcopy
    (outputs_fit h) ((List.append_left_inj _).mp heq)

include hvalid hversion hindex in
/-- Signing in place gives the signatures of signing copies exactly if every input
after the first has an empty script, as far as scripts are hashed. -/
theorem sameSignatures_iff (privKeys : Nat → Bytes) : SameSignatures P tx h privKeys ↔
    ∀ i (hi : i < (tx.read h).vins.length), 0 < i → (filterScript (tx.read h).vins[i]).script = [] := by
  have hcount : (tx.read h).vins.length = tx.vins.length := by simp [TxObject.read, Heap.readVins]
  constructor
  · intro hsame i hi
    rw [← inputs_eq_iff hi]
    have hmessages : ∀ sha256, HashLength sha256 →
        hash256 sha256 (signedMessage (tx.read h) (InPlace.inputs (tx.read h) i)) =
          hash256 sha256 (signedMessage (tx.read h) (hashedInputs Vin.vout (tx.read h) i)) := by
      intro sha256 hsha
      let digest := hash256 sha256 (signedMessage (tx.read h) (hashedInputs Vin.vout (tx.read h) i))
      have heq := hsame (signsMarked digest) sha256 hsha
      rw [run_signInPlace laws hversion hfits hindex hvalid, run_signCopies laws hfits hvalid] at heq
      simp only [signsMarked_eq] at heq
      change Outcome.ofOption (List.mapM (fun i => pure _) _) =
        Outcome.ofOption (List.mapM (fun i => pure _) _) at heq
      rw [List.mapM_pure, List.mapM_pure] at heq
      have hmap := List.map_inj_left.mp (Outcome.returned.inj heq) i (by simp; omega)
      rw [if_pos rfl] at hmap
      by_contra hne
      rw [if_neg hne] at hmap
      exact absurd hmap (by decide)
    have heq := (hash256_eq_iff (signedMessage_length hfits hi ⟨_,List.mem_mapIdx.mpr ⟨i,hi,rfl⟩,rfl⟩)
      (signedMessage_length hfits hi ⟨_,List.mem_mapIdx.mpr ⟨i,hi,rfl⟩,rfl⟩)).mp hmessages
    exact signedMessage_inputs hfits hi heq
  · intro hempty S sha256 _
    rw [run_signInPlace laws hversion hfits hindex hvalid, run_signCopies laws hfits hvalid]
    refine congrArg Outcome.ofOption (mapM_congr fun i hi => ?_)
    have hlt : i < (tx.read h).vins.length := by
      have := (List.mem_range'_1.mp hi).2
      omega
    rw [(inputs_eq_iff hlt).mpr (hempty i hlt)]

include hvalid hversion hindex in
/-- For key hash scripts, which are never empty, that is one input and no more. -/
theorem in_place_signatures_iff {D : PushData} (lengths : PushDataLaws D) (hne : 1 ≤ tx.vins.length)
    (hscripts : ∀ vin ∈ (tx.read h).vins, ∃ hash160PubKey, hash160PubKey.length = 20 ∧
      p2pkhScript D hash160PubKey = some vin.script) (privKeys : Nat → Bytes) :
    SameSignatures P tx h privKeys ↔ tx.vins.length = 1 := by
  have hcount : (tx.read h).vins.length = tx.vins.length := by simp [TxObject.read, Heap.readVins]
  rw [sameSignatures_iff laws hvalid hversion hfits hindex]
  constructor
  · intro hempty
    by_contra hmore
    have hone : 1 < (tx.read h).vins.length := by omega
    obtain ⟨hash160PubKey,hlength,hscript⟩ := hscripts _ (List.getElem_mem hone)
    rw [p2pkhScript_eq lengths hlength] at hscript
    have hnone := hempty 1 hone Nat.one_pos
    rw [filterScript, ← Option.some.inj hscript] at hnone
    exact absurd hnone (by simp)
  · intro hone i hi hpos
    omega

end Runs

def zeroHashVin : Vin where
  txid := List.replicate 32 7
  vout := 0
  hash := List.replicate 32 7
  sequence := 0xffffffff
  script := [0x76, 0xa9, 0x14] ++ zeros 20 ++ [0x88, 0xac]
  scriptSig := none
  witness := none
  value := none
  index := some 0

def zeroHashHeap (n : Nat) : Heap where
  vins := List.replicate n zeroHashVin
  vouts := [{ script := [0x51], value := .number 900 }]

def zeroHashTx (n : Nat) : TxObject where
  version := 2
  locktime := 0
  vins := List.range n
  vouts := [0]

private theorem zeroHashTx_valid (n : Nat) : (zeroHashTx n).Valid (zeroHashHeap n) where
  vins := by simp [zeroHashTx, zeroHashHeap]
  distinct := List.nodup_range
  vouts := by simp [zeroHashTx, zeroHashHeap]

private theorem zeroHashTx_vins (n : Nat) :
    ((zeroHashTx n).read (zeroHashHeap n)).vins = List.replicate n zeroHashVin := by
  apply List.ext_getElem
  · simp [TxObject.read, Heap.readVins, zeroHashTx]
  · intro i hi hi'
    have hlt : i < n := by simpa using hi'
    simp [TxObject.read, Heap.readVins, zeroHashTx, zeroHashHeap, hlt]

private theorem zeroHashTx_fits {n : Nat} (hn : n < 2 ^ 53) : ((zeroHashTx n).read (zeroHashHeap n)).Fits where
  version := by simp [TxObject.read, zeroHashTx]
  locktime := by simp [TxObject.read, zeroHashTx]
  counts := by
    rw [zeroHashTx_vins]
    simpa [TxObject.read, Heap.readVouts, zeroHashTx] using hn
  vins := by
    rw [zeroHashTx_vins]
    intro vin hvin
    obtain rfl := List.eq_of_mem_replicate hvin
    exact ⟨by simp [zeroHashVin],by simp [zeroHashVin],by simp [zeroHashVin],by simp [zeroHashVin],
      by simp [zeroHashVin],by simp [zeroHashVin]⟩
  vouts := by
    simp only [TxObject.read, Heap.readVouts, zeroHashTx, zeroHashHeap, List.map_cons, List.map_nil,
      List.forall_mem_singleton]
    exact ⟨by simp,by decide⟩

private theorem zeroHashTx_index (n : Nat) :
    ∀ vin ∈ ((zeroHashTx n).read (zeroHashHeap n)).vins, vin.index = some vin.vout := by
  rw [zeroHashTx_vins]
  intro vin hvin
  obtain rfl := List.eq_of_mem_replicate hvin
  rfl

/-- A single input is signed alike. -/
theorem in_place_signatures_one :
    SameSignatures wirePackages (zeroHashTx 1) (zeroHashHeap 1) fun _ => [1] := by
  refine (in_place_signatures_iff wirePackages_laws (zeroHashTx_valid 1) ⟨rfl,rfl⟩
    (zeroHashTx_fits (by decide)) (zeroHashTx_index 1) wirePushData_laws (by decide) ?_ _).mpr rfl
  rw [zeroHashTx_vins]
  intro vin hvin
  obtain rfl := List.eq_of_mem_replicate hvin
  exact ⟨zeros 20,by simp,p2pkhScript_eq wirePushData_laws (by simp)⟩

/-- Of two, the second is signed in place over a message without its script. -/
theorem in_place_signatures_fail :
    let t := (zeroHashTx 2).read (zeroHashHeap 2)
    InPlace.inputs t 1 ≠ hashedInputs Vin.vout t 1 ∧
      ¬ SameSignatures wirePackages (zeroHashTx 2) (zeroHashHeap 2) fun _ => [1] := by
  refine ⟨by decide +kernel,fun hsame => ?_⟩
  have hnone := (sameSignatures_iff wirePackages_laws (zeroHashTx_valid 2) ⟨rfl,rfl⟩
    (zeroHashTx_fits (by decide)) (zeroHashTx_index 2) _).mp hsame 1 (by rw [zeroHashTx_vins]; simp)
    Nat.one_pos
  revert hnone
  decide +kernel

end CryptoPlaypen.Bitcoin
