import CryptoPlaypen.Bitcoin.ScriptDecoding
import CryptoPlaypen.Buffer.HexStrings

/-! The parser that lists the entries of a script from its hexadecimal text. It reads
the bytes with one iterator, which the bytes of a push advance as well. -/
namespace CryptoPlaypen.Bitcoin.ScriptParser
open Buffer

inductive Entry where
  | data (len : Nat) (data : List Char)
  | OP_CHECKSIG
  | UNKNOWN (data : Nat)
  deriving DecidableEq, Repr

def readbyte : StateM Bytes (Option UInt8) := fun iter =>
  match iter with
  | [] => (none, [])
  | byte :: iter => (some byte, iter)

/-- `undefined` is stored as a zero in the allocated buffer. -/
def readbytes : Nat → StateM Bytes Bytes
  | 0 => pure []
  | len + 1 => do
    let byte ← readbyte
    let bytes ← readbytes len
    pure (byte.getD 0 :: bytes)

/-- What the loop pushes for a byte, after the data that the byte announces. -/
def readEntry (byte : UInt8) : StateM Bytes Entry :=
  if 0x01 ≤ byte.toNat ∧ byte.toNat ≤ 0x4b then do
    let data ← readbytes byte.toNat
    pure (.data byte.toNat (hex data))
  else if byte = 0xac then pure .OP_CHECKSIG
  else pure (.UNKNOWN byte.toNat)

/-- At most `fuel` rounds of the loop. -/
def parseLoop : Nat → Bytes → List Entry → Option (List Entry)
  | 0, _, _ => none
  | fuel + 1, iter, stack =>
    match readbyte.run iter with
    | (none, _) => some stack
    | (some byte, iter) =>
      let (entry, iter) := (readEntry byte).run iter
      parseLoop fuel iter (stack ++ [entry])

/-- The stack when the loop returns. Every round but the last takes a byte. -/
def parseScript (scriptHex : List Char) : Option (List Entry) :=
  let buffer := fromHex scriptHex
  parseLoop (buffer.length + 1) buffer []

inductive Parses : Bytes → List Entry → Prop where
  | done : Parses [] []
  | step {byte : UInt8} {iter rest : Bytes} {entry : Entry} {stack : List Entry}
      (head : (readEntry byte).run iter = (entry, rest)) (tail : Parses rest stack) :
      Parses (byte :: iter) (entry :: stack)

section Loop

private theorem readbytes_run (len : Nat) (iter : Bytes) :
    (readbytes len).run iter = (iter.take len ++ zeros (len - iter.length), iter.drop len) := by
  induction len generalizing iter with
  | zero =>
    change ([], iter) = _
    simp [zeros]
  | succ len ih =>
    cases iter with
    | nil =>
      change (0 :: ((readbytes len).run []).1, ((readbytes len).run []).2) = _
      rw [ih]
      simp [zeros, List.replicate_succ]
    | cons byte iter =>
      change (byte :: ((readbytes len).run iter).1, ((readbytes len).run iter).2) = _
      rw [ih]
      simp

private theorem readEntry_push {byte : UInt8} (h : 0x01 ≤ byte.toNat ∧ byte.toNat ≤ 0x4b) (iter : Bytes) :
    (readEntry byte).run iter =
      (.data byte.toNat (hex (iter.take byte.toNat ++ zeros (byte.toNat - iter.length))),
        iter.drop byte.toNat) := by
  rw [readEntry, if_pos h, StateT.run_bind, readbytes_run]
  rfl

def singleEntry (byte : UInt8) : Entry := if byte = 0xac then .OP_CHECKSIG else .UNKNOWN byte.toNat

private theorem readEntry_single {byte : UInt8} (h : ¬(0x01 ≤ byte.toNat ∧ byte.toNat ≤ 0x4b)) (iter : Bytes) :
    (readEntry byte).run iter = (singleEntry byte, iter) := by
  rw [readEntry, if_neg h, singleEntry]
  split <;> rfl

private theorem readEntry_length (byte : UInt8) (iter : Bytes) :
    ((readEntry byte).run iter).2.length ≤ iter.length := by
  by_cases h : 0x01 ≤ byte.toNat ∧ byte.toNat ≤ 0x4b
  · rw [readEntry_push h]
    rw [List.length_drop]
    exact Nat.sub_le _ _
  · rw [readEntry_single h]

/-- Every byte string is parsed into one list of entries. -/
theorem exists_parses (iter : Bytes) : ∃ stack, Parses iter stack := by
  induction hlength : iter.length using Nat.strong_induction_on generalizing iter with
  | _ n ih =>
    cases iter with
    | nil => exact ⟨[],.done⟩
    | cons byte iter =>
      have hrest := readEntry_length byte iter
      rw [List.length_cons] at hlength
      obtain ⟨stack,htail⟩ := ih _ (by omega) ((readEntry byte).run iter).2 rfl
      exact ⟨_,.step rfl htail⟩

theorem Parses.unique {iter : Bytes} {stack others : List Entry} (h : Parses iter stack)
    (hothers : Parses iter others) : stack = others := by
  induction h generalizing others with
  | done =>
    cases hothers
    rfl
  | step head _ ih =>
    cases hothers with
    | step head' tail' =>
      rw [head] at head'
      cases head'
      rw [ih tail']

/-- A round for each entry and one more for the end are enough. -/
theorem Parses.parseLoop {iter : Bytes} {entries : List Entry} (h : Parses iter entries) {fuel : Nat}
    (hfuel : iter.length < fuel) (stack : List Entry) :
    parseLoop fuel iter stack = some (stack ++ entries) := by
  induction h generalizing fuel stack with
  | done =>
    cases fuel with
    | zero => cases hfuel
    | succ fuel =>
      rw [List.append_nil]
      rfl
  | @step byte iter rest entry entries head tail ih =>
    cases fuel with
    | zero => cases hfuel
    | succ fuel =>
      have hrest : rest.length ≤ iter.length := by
        have hread := readEntry_length byte iter
        rwa [head] at hread
      rw [List.length_cons] at hfuel
      have hnext := ih (show rest.length < fuel by omega) (stack ++ [entry])
      rw [List.append_assoc] at hnext
      change ScriptParser.parseLoop fuel ((readEntry byte).run iter).2
        (stack ++ [((readEntry byte).run iter).1]) = _
      rw [head]
      exact hnext

private theorem parseScript_hex (script : Bytes) (stack : List Entry) :
    parseScript (hex script) = some stack ↔ Parses script stack := by
  obtain ⟨entries,hparses⟩ := exists_parses script
  have hrun : parseScript (hex script) = some entries := by
    rw [parseScript, fromHex_hex]
    exact hparses.parseLoop (Nat.lt_succ_self _) []
  rw [hrun, Option.some_inj]
  constructor
  · rintro rfl
    exact hparses
  · exact hparses.unique

end Loop

/-- What the parser takes in one round: a byte with the data that it announces, or a byte. -/
inductive Token where
  | push (d : Bytes) (len : 1 ≤ d.length ∧ d.length ≤ 0x4b)
  | single (byte : UInt8) (noPush : ¬(0x01 ≤ byte.toNat ∧ byte.toNat ≤ 0x4b))

namespace Token

def bytes : Token → Bytes
  | push d _ => UInt8.ofNat d.length :: d
  | single byte _ => [byte]

def entry : Token → Entry
  | push d _ => .data d.length (hex d)
  | single byte _ => singleEntry byte

private theorem parses (t : Token) {rest : Bytes} {entries : List Entry} (h : Parses rest entries) :
    Parses (t.bytes ++ rest) (t.entry :: entries) := by
  cases t with
  | push d len =>
    have hn : (UInt8.ofNat d.length).toNat = d.length :=
      UInt8.toNat_ofNat_of_lt' (show d.length < 256 by omega)
    change Parses (UInt8.ofNat d.length :: (d ++ rest)) _
    refine Parses.step ?_ h
    rw [readEntry_push (by rwa [hn]), hn, List.take_left, List.drop_left, List.length_append,
      Nat.sub_eq_zero_of_le (Nat.le_add_right _ _)]
    exact congrArg (fun d' => (Entry.data d.length (hex d'), rest)) (List.append_nil d)
  | single byte noPush => exact Parses.step (readEntry_single noPush rest) h

/-- Behind a token the parser goes on with what follows the token. -/
theorem parses_iff (t : Token) {rest : Bytes} {stack : List Entry} :
    Parses (t.bytes ++ rest) stack ↔ ∃ entries, stack = t.entry :: entries ∧ Parses rest entries := by
  constructor
  · intro h
    obtain ⟨entries,hrest⟩ := exists_parses rest
    exact ⟨entries,h.unique (t.parses hrest),hrest⟩
  · rintro ⟨entries,rfl,hrest⟩
    exact t.parses hrest

private theorem parses_all (tokens : List Token) {rest : Bytes} {entries : List Entry} (h : Parses rest entries) :
    Parses (tokens.flatMap bytes ++ rest) (tokens.map entry ++ entries) := by
  induction tokens with
  | nil => exact h
  | cons t tokens ih =>
    rw [List.flatMap_cons, List.append_assoc]
    exact t.parses ih

end Token

structure ShortPush where
  tokens : List Token
  len : Nat
  rest : Bytes
  push : 1 ≤ len ∧ len ≤ 0x4b
  short : rest.length < len

namespace ShortPush

def script (s : ShortPush) : Bytes := s.tokens.flatMap Token.bytes ++ UInt8.ofNat s.len :: s.rest

def padded (s : ShortPush) : Bytes := s.rest ++ zeros (s.len - s.rest.length)

private theorem parses (s : ShortPush) :
    Parses s.script (s.tokens.map Token.entry ++ [.data s.len (hex s.padded)]) := by
  apply Token.parses_all
  have hlen := s.push.2
  have hn : (UInt8.ofNat s.len).toNat = s.len := UInt8.toNat_ofNat_of_lt' (show s.len < 256 by omega)
  refine Parses.step ?_ .done
  rw [readEntry_push (by rw [hn]; exact s.push), hn, List.take_of_length_le s.short.le,
    List.drop_eq_nil_of_le s.short.le]
  rfl

end ShortPush

/-- The script consists of whole tokens, but for a last push that may be short. -/
def Split (script : Bytes) : Prop :=
  (∃ tokens : List Token, tokens.flatMap Token.bytes = script) ∨ ∃ s : ShortPush, s.script = script

theorem Split.cons (t : Token) {rest : Bytes} (h : Split rest) : Split (t.bytes ++ rest) := by
  rcases h with ⟨tokens,rfl⟩ | ⟨s,rfl⟩
  · exact .inl ⟨t :: tokens,List.flatMap_cons⟩
  · refine .inr ⟨{ s with tokens := t :: s.tokens },?_⟩
    rw [ShortPush.script, List.flatMap_cons, List.append_assoc]
    rfl

private theorem splits (script : Bytes) : Split script := by
  induction hlength : script.length using Nat.strong_induction_on generalizing script with
  | _ n ih =>
    cases script with
    | nil => exact .inl ⟨[],rfl⟩
    | cons byte iter =>
      rw [List.length_cons] at hlength
      by_cases hpush : 0x01 ≤ byte.toNat ∧ byte.toNat ≤ 0x4b
      · rcases Nat.lt_or_ge iter.length byte.toNat with hshort | hroom
        · refine .inr ⟨⟨[],byte.toNat,iter,hpush,hshort⟩,?_⟩
          rw [ShortPush.script, UInt8.ofNat_toNat]
          rfl
        · have htake : (iter.take byte.toNat).length = byte.toNat := List.length_take_of_le hroom
          have hdrop : (iter.drop byte.toNat).length < n := by
            rw [List.length_drop]
            omega
          have hcons := Split.cons (.push (iter.take byte.toNat) (by rwa [htake])) (ih _ hdrop _ rfl)
          rwa [Token.bytes, htake, UInt8.ofNat_toNat, List.cons_append, List.take_append_drop] at hcons
      · exact Split.cons (.single byte hpush) (ih iter.length (by omega) iter rfl)

def InScript (script : Bytes) : Entry → Prop
  | .data _ text => ∃ d, text = hex d ∧ d <:+: script
  | _ => True

theorem Token.inScript {tokens : List Token} {t : Token} (h : t ∈ tokens) (rest : Bytes) :
    InScript (tokens.flatMap Token.bytes ++ rest) t.entry := by
  cases t with
  | push d len =>
    obtain ⟨front,back,rfl⟩ := List.append_of_mem h
    refine ⟨d,rfl,front.flatMap Token.bytes ++ [UInt8.ofNat d.length],back.flatMap Token.bytes ++ rest,?_⟩
    simp [Token.bytes]
  | single byte noPush =>
    rw [Token.entry, singleEntry]
    split <;> trivial

/-- Only the zeros of a short last push can be missing from the script. -/
theorem inScript_iff (script : Bytes) :
    (∃ stack, parseScript (hex script) = some stack ∧ ∀ entry ∈ stack, InScript script entry) ↔
      ∀ s : ShortPush, s.script = script → s.padded <:+: script := by
  constructor
  · rintro ⟨stack,hparse,hin⟩ s rfl
    have hstack := ((parseScript_hex _ _).mp hparse).unique s.parses
    subst hstack
    obtain ⟨d,htext,hpart⟩ := hin _ (List.mem_append_right _ List.mem_cons_self)
    rwa [hex_injective htext]
  · intro h
    obtain ⟨tokens,rfl⟩ | ⟨s,rfl⟩ := splits script
    · have hparses := Token.parses_all tokens Parses.done
      rw [List.append_nil, List.append_nil] at hparses
      refine ⟨_,(parseScript_hex _ _).mpr hparses,fun entry hentry => ?_⟩
      obtain ⟨t,ht,rfl⟩ := List.mem_map.mp hentry
      have hin := Token.inScript ht []
      rwa [List.append_nil] at hin
    · refine ⟨_,(parseScript_hex _ _).mpr s.parses,fun entry hentry => ?_⟩
      rcases List.mem_append.mp hentry with hentry | hentry
      · obtain ⟨t,ht,rfl⟩ := List.mem_map.mp hentry
        exact Token.inScript ht _
      · rw [List.mem_singleton.mp hentry]
        exact ⟨s.padded,rfl,h s rfl⟩

/-- An opcode behind the pushes, or data of the usual sizes. -/
def Usual : Chunk → Prop
  | .opcode op => 0x4f ≤ op ∧ op < 256
  | .data d => 2 ≤ d.length ∧ d.length ≤ 520

instance : DecidablePred Usual := fun chunk =>
  match chunk with
  | .opcode op => inferInstanceAs (Decidable (0x4f ≤ op ∧ op < 256))
  | .data d => inferInstanceAs (Decidable (2 ≤ d.length ∧ d.length ≤ 520))

/-- The entry of data has its length and its bytes, and that of an opcode is no data. -/
def Agrees : Chunk → Entry → Prop
  | .data d, entry => entry = .data d.length (hex d)
  | .opcode _, entry => ∀ len text, entry ≠ .data len text

theorem Usual.fits {chunk : Chunk} (h : Usual chunk) : chunk.Fits := by
  cases chunk with
  | opcode op => exact h.2
  | data d => exact Nat.lt_of_le_of_lt h.2 (by decide)

private theorem not_agrees_singleEntry {d : Bytes} {byte : UInt8} : ¬Agrees (.data d) (singleEntry byte) := by
  rw [Agrees, singleEntry]
  split <;> nofun

/-- A chunk without a long push is a token of the parser, with an entry that agrees. -/
theorem Usual.token {chunk : Chunk} (h : Usual chunk) (hshort : ∀ d, chunk = .data d → d.length ≤ 0x4b) :
    ∃ t : Token, t.bytes = chunk.bytes ∧ Agrees chunk t.entry := by
  cases chunk with
  | opcode op =>
    have hop := h.1
    have hn : (UInt8.ofNat op).toNat = op := UInt8.toNat_ofNat_of_lt' h.2
    refine ⟨.single (UInt8.ofNat op) (by omega),rfl,fun len text => ?_⟩
    rw [Token.entry, singleEntry]
    split <;> nofun
  | data d =>
    have hlen := hshort d rfl
    have hpos := h.1
    exact ⟨.push d ⟨by omega,hlen⟩,(data_bytes hpos (by omega)).symm,rfl⟩

/-- A long push begins with an opcode that the parser takes for a single one. -/
theorem long_push {d : Bytes} (hlong : 0x4b < d.length) (h : d.length ≤ 520) :
    ∃ (t : Token) (rest : Bytes), (Chunk.data d).bytes = t.bytes ++ rest ∧ ¬Agrees (.data d) t.entry := by
  match d with
  | a :: b :: d =>
    rcases Nat.lt_or_ge (a :: b :: d).length (2 ^ 8) with hbyte | hword
    · refine ⟨.single 0x4c (by decide),leBytes 1 (a :: b :: d).length ++ a :: b :: d,?_,not_agrees_singleEntry⟩
      change pushLength (a :: b :: d).length ++ _ = _
      rw [pushLength, if_neg (by omega), if_pos hbyte]
      rfl
    · refine ⟨.single 0x4d (by decide),leBytes 2 (a :: b :: d).length ++ a :: b :: d,?_,not_agrees_singleEntry⟩
      change pushLength (a :: b :: d).length ++ _ = _
      rw [pushLength, if_neg (by omega), if_neg (by omega), if_pos (by omega)]
      rfl

/-- The parser stays in step with the chunks up to the first long push. -/
theorem parses_chunks_iff {chunks : List Chunk} (h : ∀ chunk ∈ chunks, Usual chunk) :
    (∃ stack, Parses (chunks.flatMap Chunk.bytes) stack ∧ List.Forall₂ Agrees chunks stack) ↔
      ∀ d, .data d ∈ chunks → d.length ≤ 0x4b := by
  induction chunks with
  | nil => exact ⟨fun _ => nofun,fun _ => ⟨[],.done,.nil⟩⟩
  | cons chunk chunks ih =>
    have husual := h chunk List.mem_cons_self
    have htail := ih fun c hc => h c (List.mem_cons_of_mem _ hc)
    rw [List.flatMap_cons]
    constructor
    · rintro ⟨stack,hparses,hagrees⟩
      have hshort : ∀ d, chunk = .data d → d.length ≤ 0x4b := by
        rintro d rfl
        by_contra hlong
        obtain ⟨t,rest,hbytes,hne⟩ := long_push (Nat.lt_of_not_le hlong) husual.2
        rw [hbytes, List.append_assoc, t.parses_iff] at hparses
        obtain ⟨entries,rfl,-⟩ := hparses
        cases hagrees with
        | cons hentry _ => exact hne hentry
      obtain ⟨t,hbytes,-⟩ := husual.token hshort
      rw [← hbytes, t.parses_iff] at hparses
      obtain ⟨entries,rfl,hrest⟩ := hparses
      cases hagrees with
      | cons _ hentries =>
        have hothers := htail.mp ⟨entries,hrest,hentries⟩
        intro d hd
        rcases List.mem_cons.mp hd with hhead | hmem
        · exact hshort d hhead.symm
        · exact hothers d hmem
    · intro hshort
      obtain ⟨stack,hparses,hagrees⟩ := htail.mpr fun d hd => hshort d (List.mem_cons_of_mem _ hd)
      obtain ⟨t,hbytes,hentry⟩ := husual.token fun d hd => hshort d (hd ▸ List.mem_cons_self)
      refine ⟨t.entry :: stack,?_,.cons hentry hagrees⟩
      rw [← hbytes]
      exact t.parses hparses

section Compiler
variable {D : PushData} (laws : PushDataLaws D)
include laws

private theorem compiled_agrees_iff {chunks : List Chunk} (h : ∀ chunk ∈ chunks, Usual chunk) :
    (∃ stack, ((compileScript D chunks).bind fun script => parseScript (hex script)) = some stack ∧
      List.Forall₂ Agrees chunks stack) ↔ ∀ d, .data d ∈ chunks → d.length ≤ 0x4b := by
  rw [compileScript_eq laws fun chunk hmem => (h chunk hmem).fits]
  simp only [Option.bind_some, parseScript_hex]
  exact parses_chunks_iff h

/-- The parser agrees with the compiler exactly when no push needs an opcode of its own, and it
invents no data exactly when the zeros behind a short last push are in the script anyway. -/
theorem parseScript_agrees_iff :
    (∀ chunks : List Chunk, (∀ chunk ∈ chunks, Usual chunk) →
      ((∃ stack, ((compileScript D chunks).bind fun script => parseScript (hex script)) = some stack ∧
        List.Forall₂ Agrees chunks stack) ↔ ∀ d, .data d ∈ chunks → d.length ≤ 0x4b)) ∧
    ∀ script : Bytes,
      ((∃ stack, parseScript (hex script) = some stack ∧ ∀ entry ∈ stack, InScript script entry) ↔
        ∀ s : ShortPush, s.script = script → s.padded <:+: script) :=
  ⟨fun _ h => compiled_agrees_iff laws h,inScript_iff⟩

end Compiler

theorem parseScript_agrees_two :
    ∃ stack, ((compileScript wirePushData [.data [7, 8], .opcode OPS.OP_CHECKSIG]).bind fun script =>
      parseScript (hex script)) = some stack ∧
        List.Forall₂ Agrees [.data [7, 8], .opcode OPS.OP_CHECKSIG] stack := by
  apply ((parseScript_agrees_iff wirePushData_laws).1 _ (by decide)).mpr
  intro d hd
  rcases List.mem_cons.mp hd with hd | hd
  · cases hd
    decide
  · cases List.mem_singleton.mp hd

/-- A push of 76 bytes is lost, and a push of two bytes finds a zero behind the only one. -/
theorem parseScript_disagrees :
    ((∀ chunk ∈ [Chunk.data (zeros 76)], Usual chunk) ∧
      ¬∃ stack, ((compileScript wirePushData [.data (zeros 76)]).bind fun script =>
        parseScript (hex script)) = some stack ∧ List.Forall₂ Agrees [.data (zeros 76)] stack) ∧
    parseScript (hex [0x02, 0x01]) = some [.data 2 (hex [0x01, 0x00])] ∧
      ¬[0x01, 0x00] <:+: ([0x02, 0x01] : Bytes) := by
  have husual : ∀ chunk ∈ [Chunk.data (zeros 76)], Usual chunk := by decide
  refine ⟨⟨husual,fun hstack => ?_⟩,by decide,by decide⟩
  have hlen := (compiled_agrees_iff wirePushData_laws husual).mp hstack _ (List.mem_singleton_self _)
  exact absurd hlen (by decide)

end CryptoPlaypen.Bitcoin.ScriptParser
