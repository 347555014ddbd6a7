import CryptoPlaypen.Buffer.HexStrings
import CryptoPlaypen.Buffer.SequentialReads

/-! JSON texts as `JSON.parse` reads them, and what `JSON.stringify` makes of an object whose
properties are strings. A string is a list of characters, so half a surrogate pair is no string. -/
namespace CryptoPlaypen.Objects
open Buffer

/-- A number is kept as it is written. -/
inductive Json where
  | null
  | bool (b : Bool)
  | number (text : List Char)
  | string (text : List Char)
  | array (elements : List Json)
  | object (members : List (List Char × Json))

namespace Json

def quotation : Char := Char.ofNat 0x22
def backslash : Char := Char.ofNat 0x5c
def openBracket : Char := Char.ofNat 0x5b
def closeBracket : Char := Char.ofNat 0x5d
def openBrace : Char := Char.ofNat 0x7b
def closeBrace : Char := Char.ofNat 0x7d

def escapes : List (Char × Nat) :=
  [(quotation,0x22),(backslash,0x5c),('b',0x08),('f',0x0c),('n',0x0a),('r',0x0d),('t',0x09)]

def escape (c : Char) : List Char :=
  match escapes.find? fun e => e.2 == c.toNat with
  | some e => [backslash,e.1]
  | none =>
    if c.toNat < 0x20 then [backslash,'u','0','0',hexDigit (c.toNat / 16),hexDigit (c.toNat % 16)]
    else [c]

def quoted (text : List Char) : List Char := quotation :: text.flatMap escape ++ [quotation]

def memberText (m : List Char × List Char) : List Char := quoted m.1 ++ ':' :: quoted m.2

def separated {γ : Type} (enc : γ → List Char) (close : Char) : List γ → List Char
  | [] => [close]
  | [x] => enc x ++ [close]
  | x :: xs => enc x ++ ',' :: separated enc close xs

/-- `JSON.stringify` of an object with these properties. -/
def stringify (members : List (List Char × List Char)) : List Char :=
  openBrace :: separated memberText closeBrace members

def isSurrogate (unit : Nat) : Bool := 0xd800 ≤ unit && unit < 0xe000

/-- A pair of surrogates is one character, and half of one becomes the replacement character. -/
def characters : List Nat → List Char
  | high :: low :: rest =>
    if isSurrogate high && high < 0xdc00 && isSurrogate low && 0xdc00 ≤ low then
      Char.ofNat (0x10000 + (high - 0xd800) * 0x400 + (low - 0xdc00)) :: characters rest
    else (if isSurrogate high then Char.ofNat 0xfffd else Char.ofNat high) :: characters (low :: rest)
  | [unit] => [if isSurrogate unit then Char.ofNat 0xfffd else Char.ofNat unit]
  | [] => []

section Parser

def syntaxError {α : Type} : Reader Char α := fun _ => none

def peek : Reader Char (Option Char) := fun input => some (input.head?,input)

def isSpace (c : Char) : Bool := c.toNat == 0x20 || c.toNat == 0x09 || c.toNat == 0x0a || c.toNat == 0x0d

def spaces : Reader Char Unit := fun input => some ((),input.dropWhile isSpace)

def delimiter : Reader Char Char := do
  spaces
  Reader.token

def expect (c : Char) : Reader Char Unit := do
  let d ← delimiter
  if d = c then pure () else syntaxError

def known {α : Type} (o : Option α) : Reader Char α := fun input => o.map fun a => (a,input)

def hexDigitOf : Reader Char Nat := do
  let c ← Reader.token
  known (hexDigitValue c.toLower)

/-- The code unit that is written after a backslash. -/
def escaped : Reader Char Nat := do
  let e ← Reader.token
  if e = 'u' then do
    let a ← hexDigitOf
    let b ← hexDigitOf
    let c ← hexDigitOf
    let d ← hexDigitOf
    pure (((a * 16 + b) * 16 + c) * 16 + d)
  else known ((('/',0x2f) :: escapes).lookup e)

def units : Nat → Reader Char (List Nat)
  | 0 => syntaxError
  | bound + 1 => do
    let c ← Reader.token
    if c = quotation then pure []
    else do
      let unit ← if c = backslash then escaped
        else if c.toNat < 0x20 then syntaxError
        else pure c.toNat
      let rest ← units bound
      pure (unit :: rest)

def stringTail : Reader Char (List Char) := fun input => do
  let (text, rest) ← units input.length input
  pure (characters text,rest)

def digits : Reader Char (List Char) := fun input =>
  some (input.takeWhile Char.isDigit,input.dropWhile Char.isDigit)

def oneOf (cs : List Char) : Reader Char (List Char) := do
  match ← peek with
  | none => pure []
  | some c => if c ∈ cs then do let c ← Reader.token; pure [c] else pure []

def someDigits : Reader Char (List Char) := do
  let ds ← digits
  if ds = [] then syntaxError else pure ds

def integerPart : Reader Char (List Char) := do
  let ds ← someDigits
  if ds.head? = some '0' ∧ ds ≠ ['0'] then syntaxError else pure ds

def fraction : Reader Char (List Char) := do
  let point ← oneOf ['.']
  if point = [] then pure [] else do
    let ds ← someDigits
    pure (point ++ ds)

def exponent : Reader Char (List Char) := do
  let mark ← oneOf ['e','E']
  if mark = [] then pure [] else do
    let sign ← oneOf ['+','-']
    let ds ← someDigits
    pure (mark ++ sign ++ ds)

def numberText : Reader Char (List Char) := do
  let sign ← oneOf ['-']
  let whole ← integerPart
  let fraction ← fraction
  let exponent ← exponent
  pure (sign ++ whole ++ fraction ++ exponent)

def keyword (text : List Char) (v : Json) : Reader Char Json := fun input =>
  if text.isPrefixOf input then some (v,input.drop text.length) else none

variable {α : Type}

def items (item : Reader Char α) (close : Char) : Nat → Reader Char (List α)
  | 0 => syntaxError
  | bound + 1 => do
    let a ← item
    let c ← delimiter
    if c = ',' then do
      let rest ← items item close bound
      pure (a :: rest)
    else if c = close then pure [a]
    else syntaxError

/-- There are not more items than characters. -/
def list (item : Reader Char α) (close : Char) : Reader Char (List α) := do
  spaces
  let c ← peek
  if c = some close then do
    let _ ← Reader.token
    pure []
  else fun input => items item close input.length input

def member (value : Reader Char Json) : Reader Char (List Char × Json) := do
  expect quotation
  let key ← stringTail
  expect ':'
  let v ← value
  pure (key,v)

/-- A value by its first character, with a reader for the values in it. -/
def valueAt (value : Reader Char Json) (c : Option Char) : Reader Char Json :=
  if c = some quotation then do
    let _ ← Reader.token
    let text ← stringTail
    pure (.string text)
  else if c = some openBracket then do
    let _ ← Reader.token
    let elements ← list value closeBracket
    pure (.array elements)
  else if c = some openBrace then do
    let _ ← Reader.token
    let members ← list (member value) closeBrace
    pure (.object members)
  else if c = some 't' then keyword ['t','r','u','e'] (.bool true)
  else if c = some 'f' then keyword ['f','a','l','s','e'] (.bool false)
  else if c = some 'n' then keyword ['n','u','l','l'] .null
  else do
    let text ← numberText
    pure (.number text)

/-- A value in which arrays and objects nest less than `depth` deep. -/
def value : Nat → Reader Char Json
  | 0 => syntaxError
  | depth + 1 => do
    spaces
    let c ← peek
    valueAt (value depth) c

/-- `JSON.parse`, where `none` is a syntax error. -/
def parse (text : List Char) : Option Json := do
  let (v, rest) ← (value text.length).run text
  if rest.all isSpace then some v else none

end Parser

/-- `json[key]`: of members with one name the last, `none` on `null`, which has no properties. -/
def property (key : List Char) : Json → Option (Option Json)
  | .null => none
  | .object members => some (members.reverse.lookup key)
  | _ => some none

section RoundTrip

private theorem reads_hexDigitOf {n : Nat} (hn : n < 16) : Reads hexDigitOf [hexDigit n] n := by
  intro rest
  change (known (hexDigitValue (hexDigit n).toLower)).run rest = _
  rw [hexDigitValue_toLower hn]
  rfl

private theorem reads_short {e : Char × Nat} (he : e ∈ escapes) : Reads escaped [e.1] e.2 := by
  have htable : ∀ e ∈ escapes, e.1 ≠ 'u' ∧ (('/',0x2f) :: escapes).lookup e.1 = some e.2 := by decide
  obtain ⟨hletter,hlookup⟩ := htable e he
  intro rest
  rw [escaped, (Reads.token e.1).run_bind, if_neg hletter, hlookup]
  rfl

/-- A control character without a letter is written as its code unit. -/
theorem reads_control {n : Nat} (hn : n < 0x20) :
    Reads escaped ['u','0','0',hexDigit (n / 16),hexDigit (n % 16)] n := by
  intro rest
  have hunit : ((0 * 16 + 0) * 16 + n / 16) * 16 + n % 16 = n := by omega
  have hzero : Reads hexDigitOf ['0'] 0 := reads_hexDigitOf (n := 0) (by decide)
  have hhigh : Reads hexDigitOf [hexDigit (n / 16)] (n / 16) := reads_hexDigitOf (by omega)
  have hlow : Reads hexDigitOf [hexDigit (n % 16)] (n % 16) := reads_hexDigitOf (by omega)
  change escaped.run (['u'] ++ (['0'] ++ (['0'] ++
    ([hexDigit (n / 16)] ++ ([hexDigit (n % 16)] ++ rest))))) = _
  rw [escaped, (Reads.token 'u').run_bind, if_pos rfl, hzero.run_bind, hzero.run_bind, hhigh.run_bind,
    hlow.run_bind, hunit]
  rfl

/-- What `units` reads for one character of a string, after its first. -/
theorem units_escape (c : Char) (bound : Nat) (input : List Char) :
    (units (bound + 1)).run (escape c ++ input) =
      ((units bound).run input).map fun r => (c.toNat :: r.1,r.2) := by
  have hmap (unit : Nat) : (do
      let rest ← units bound
      pure (unit :: rest) : Reader Char (List Nat)).run input =
        ((units bound).run input).map fun r => (unit :: r.1,r.2) := by
    rw [StateT.run_bind]
    cases (units bound).run input <;> rfl
  rw [escape]
  cases hfind : escapes.find? fun e => e.2 == c.toNat with
  | some e =>
    have hvalue : e.2 = c.toNat := by simpa using List.find?_some hfind
    have hmem := List.mem_of_find?_eq_some hfind
    change (units (bound + 1)).run ([backslash] ++ ([e.1] ++ input)) = _
    rw [units, (Reads.token backslash).run_bind, if_neg (by decide), if_pos rfl,
      (reads_short hmem).run_bind, hmap, hvalue]
  | none =>
    dsimp only
    by_cases hcontrol : c.toNat < 0x20
    · rw [if_pos hcontrol]
      change (units (bound + 1)).run ([backslash] ++ (['u','0','0',hexDigit (c.toNat / 16),
        hexDigit (c.toNat % 16)] ++ input)) = _
      rw [units, (Reads.token backslash).run_bind, if_neg (by decide), if_pos rfl,
        (reads_control hcontrol).run_bind, hmap]
    · -- neither mark has gone without an escape
      have hmark (d : Char) (hd : ∃ e ∈ escapes, e.2 = d.toNat) : c ≠ d := by
        rintro rfl
        obtain ⟨e,he,heq⟩ := hd
        exact List.find?_eq_none.mp hfind e he (beq_iff_eq.mpr heq)
      rw [if_neg hcontrol, units, (Reads.token c).run_bind, if_neg (hmark quotation (by decide)),
        if_neg (hmark backslash (by decide)), if_neg hcontrol, pure_bind, hmap]

private theorem escape_length_pos (c : Char) : 0 < (escape c).length := by
  rw [escape]
  split
  · exact Nat.zero_lt_succ _
  · split <;> exact Nat.zero_lt_succ _

private theorem reads_units (text : List Char) {bound : Nat} (hbound : text.length < bound) :
    Reads (units bound) (text.flatMap escape ++ [quotation]) (text.map Char.toNat) := by
  intro rest
  induction text generalizing bound with
  | nil =>
    obtain ⟨n,rfl⟩ := Nat.exists_eq_add_of_lt hbound
    rfl
  | cons c text ih =>
    rw [List.length_cons] at hbound
    obtain ⟨n,rfl⟩ : ∃ n, bound = n + 1 := ⟨bound - 1,by omega⟩
    rw [List.flatMap_cons, List.append_assoc, List.append_assoc, units_escape, ← List.append_assoc,
      ih (by omega)]
    rfl

private theorem isSurrogate_toNat (c : Char) : isSurrogate c.toNat = false := by
  have hvalid : c.toNat < 0xd800 ∨ 0xdfff < c.toNat ∧ c.toNat < 0x110000 := c.valid
  rw [isSurrogate, Bool.and_eq_false_iff, decide_eq_false_iff_not, decide_eq_false_iff_not]
  omega

private theorem characters_toNat (text : List Char) : characters (text.map Char.toNat) = text := by
  induction text with
  | nil => rfl
  | cons c text ih =>
    cases text with
    | nil =>
      rw [List.map_singleton, characters, isSurrogate_toNat]
      exact congrArg (fun c => [c]) (Char.ofNat_toNat c)
    | cons d text =>
      rw [List.map_cons, List.map_cons, characters, isSurrogate_toNat, ← List.map_cons, ih]
      exact congrArg (fun c => c :: d :: text) (Char.ofNat_toNat c)

private theorem length_le_flatMap_escape (text : List Char) : text.length ≤ (text.flatMap escape).length := by
  induction text with
  | nil => exact le_rfl
  | cons c text ih =>
    have hpos := escape_length_pos c
    rw [List.flatMap_cons, List.length_append, List.length_cons]
    omega

private theorem reads_stringTail (text : List Char) :
    Reads stringTail (text.flatMap escape ++ [quotation]) text := by
  intro rest
  have hlength : text.length < (text.flatMap escape ++ [quotation] ++ rest).length := by
    have hle := length_le_flatMap_escape text
    rw [List.length_append, List.length_append, List.length_singleton]
    omega
  have hrun := reads_units text hlength rest
  change ((units _).run _).bind _ = _
  rw [hrun]
  exact congrArg (fun cs => some (cs,rest)) (characters_toNat text)

private theorem run_spaces {c : Char} (hc : isSpace c = false) (input : List Char) :
    spaces.run (c :: input) = some ((),c :: input) := by
  change some ((),(c :: input).dropWhile isSpace) = _
  rw [List.dropWhile_cons_of_neg (by rw [hc]; exact Bool.false_ne_true)]

private theorem reads_delimiter {c : Char} (hc : isSpace c = false) : Reads delimiter [c] c := by
  intro rest
  rw [delimiter, StateT.run_bind, List.singleton_append, run_spaces hc]
  rfl

private theorem reads_expect {c : Char} (hc : isSpace c = false) : Reads (expect c) [c] () := by
  have hchecked : Reads (if c = c then pure () else syntaxError : Reader Char Unit) [] () := by
    rw [if_pos rfl]
    exact Reads.pure ()
  exact (reads_delimiter hc).bind (f := fun d => if d = c then pure () else syntaxError) hchecked

section Lists
variable {α γ : Type} {item : Reader Char α} {close : Char} {enc : γ → List Char} {out : γ → α}

private theorem reads_items (hclose : isSpace close = false) (hcomma : close ≠ ',') {xs : List γ} (hne : xs ≠ [])
    (hitem : ∀ x ∈ xs, Reads item (enc x) (out x)) {bound : Nat} (hbound : xs.length ≤ bound) :
    Reads (items item close bound) (separated enc close xs) (xs.map out) := by
  intro rest
  induction xs generalizing bound with
  | nil => exact absurd rfl hne
  | cons x xs ih =>
    obtain ⟨n,rfl⟩ := Nat.exists_eq_add_of_le' (Nat.le_trans (Nat.succ_pos _) hbound)
    have hfirst := hitem x List.mem_cons_self
    cases xs with
    | nil =>
      rw [separated, items, List.append_assoc, hfirst.run_bind, (reads_delimiter hclose).run_bind,
        if_neg hcomma, if_pos rfl]
      rfl
    | cons y ys =>
      have hrest := ih (List.cons_ne_nil _ _) (fun z hz => hitem z (List.mem_cons_of_mem x hz))
        (Nat.le_of_succ_le_succ hbound)
      have hdelimiter : Reads delimiter [','] ',' := reads_delimiter (by decide)
      have htext : separated enc close (x :: y :: ys) =
        enc x ++ ([','] ++ separated enc close (y :: ys)) := rfl
      rw [items, htext, List.append_assoc, hfirst.run_bind, List.append_assoc, hdelimiter.run_bind,
        if_pos rfl, StateT.run_bind, hrest]
      rfl

private theorem length_le_separated (xs : List γ) : xs.length ≤ (separated enc close xs).length := by
  induction xs with
  | nil => exact Nat.zero_le _
  | cons x xs ih =>
    cases xs with
    | nil =>
      rw [separated, List.length_append]
      exact Nat.le_add_left _ _
    | cons y ys =>
      have htext : separated enc close (x :: y :: ys) =
        enc x ++ ',' :: separated enc close (y :: ys) := rfl
      have hcomma : (',' :: separated enc close (y :: ys)).length =
        (separated enc close (y :: ys)).length + 1 := List.length_cons
      rw [htext, List.length_append, List.length_cons, hcomma]
      omega

private theorem separated_cons (close : Char) {x : γ} {first : Char} {tail : List Char}
    (h : enc x = first :: tail) (xs : List γ) :
    ∃ rest, separated enc close (x :: xs) = first :: rest := by
  cases xs with
  | nil => exact ⟨tail ++ [close],by rw [separated, h]; rfl⟩
  | cons y ys => exact ⟨tail ++ ',' :: separated enc close (y :: ys),by rw [← List.cons_append, ← h]; rfl⟩

/-- A list is empty if it is closed at once. -/
theorem run_list {c : Char} (hc : isSpace c = false) (input : List Char) :
    (list item close).run (c :: input) =
    if c = close then some ([],input) else items item close (c :: input).length (c :: input) := by
  rw [list, StateT.run_bind, run_spaces hc]
  change (if some c = some close then _ else _ : Reader Char (List α)).run (c :: input) = _
  by_cases hsame : c = close
  · rw [if_pos hsame, if_pos (congrArg some hsame)]
    rfl
  · rw [if_neg hsame, if_neg fun heq => hsame (Option.some.inj heq)]
    rfl

/-- Each text starts with a character that neither closes the list nor is white space. -/
theorem reads_list {first : Char} (hfirst : isSpace first = false) (hopen : first ≠ close)
    (hclose : isSpace close = false) (hcomma : close ≠ ',') (xs : List γ)
    (henc : ∀ x, ∃ tail, enc x = first :: tail) (hitem : ∀ x ∈ xs, Reads item (enc x) (out x)) :
    Reads (list item close) (separated enc close xs) (xs.map out) := by
  intro rest
  cases xs with
  | nil => exact (run_list hclose rest).trans (if_pos rfl)
  | cons x xs =>
    have hlength : (x :: xs).length ≤ (separated enc close (x :: xs) ++ rest).length :=
      (length_le_separated _).trans (List.prefix_append _ rest).length_le
    have hrun := reads_items hclose hcomma (List.cons_ne_nil x xs) hitem hlength rest
    obtain ⟨tail,htail⟩ := henc x
    obtain ⟨more,hmore⟩ := separated_cons close htail xs
    rw [hmore, List.cons_append] at hrun ⊢
    exact (run_list hfirst _).trans ((if_neg hopen).trans hrun)

end Lists

private theorem reads_member {value : Reader Char Json} {text : List Char} {v : Json} (key : List Char)
    (hvalue : Reads value text v) : Reads (member value) (quoted key ++ ':' :: text) (key,v) := by
  intro rest
  have hquotation : Reads (expect quotation) [quotation] () := reads_expect (by decide)
  have hcolon : Reads (expect ':') [':'] () := reads_expect (by decide)
  have htext : quoted key ++ ':' :: text ++ rest =
      [quotation] ++ ((key.flatMap escape ++ [quotation]) ++ ([':'] ++ (text ++ rest))) := by
    simp [quoted]
  rw [member, htext, hquotation.run_bind, (reads_stringTail key).run_bind, hcolon.run_bind,
    hvalue.run_bind]
  rfl

private theorem run_value {c : Char} (hc : isSpace c = false) (depth : Nat) (input : List Char) :
    (value (depth + 1)).run (c :: input) = (valueAt (value depth) (some c)).run (c :: input) := by
  rw [value, StateT.run_bind, run_spaces hc]
  rfl

private theorem reads_string (text : List Char) (depth : Nat) :
    Reads (value (depth + 1)) (quoted text) (.string text) := by
  intro rest
  have htext : quoted text ++ rest = quotation :: ((text.flatMap escape ++ [quotation]) ++ rest) := by
    simp [quoted]
  rw [htext, run_value (by decide), valueAt, if_pos rfl, ← List.singleton_append,
    (Reads.token quotation).run_bind, (reads_stringTail text).run_bind]
  rfl

private theorem reads_object (members : List (List Char × List Char)) (depth : Nat) :
    Reads (value (depth + 2)) (stringify members)
      (.object (members.map fun m => (m.1,.string m.2))) := by
  intro rest
  have hmembers : Reads (list (member (value (depth + 1))) closeBrace)
      (separated memberText closeBrace members) (members.map fun m => (m.1,.string m.2)) := by
    apply reads_list (show isSpace quotation = false by decide) (by decide) (by decide) (by decide)
    · exact fun m => ⟨_,rfl⟩
    · exact fun m _ => reads_member m.1 (reads_string m.2 depth)
  have htext : stringify members ++ rest =
    [openBrace] ++ (separated memberText closeBrace members ++ rest) := rfl
  rw [htext, List.singleton_append, run_value (by decide), valueAt, if_neg (by decide),
    if_neg (by decide), if_pos rfl, ← List.singleton_append, (Reads.token openBrace).run_bind,
    hmembers.run_bind]
  rfl

/-- What is made of an object is parsed as that object. -/
theorem parse_stringify (members : List (List Char × List Char)) :
    parse (stringify members) = some (.object (members.map fun m => (m.1,.string m.2))) := by
  have hlength : 2 ≤ (stringify members).length := by
    have hpos : 0 < (separated memberText closeBrace members).length := by
      cases members with
      | nil => exact Nat.zero_lt_succ _
      | cons m members =>
        obtain ⟨rest,hrest⟩ := separated_cons closeBrace (rfl : memberText m = quotation :: _) members
        rw [hrest]
        exact Nat.zero_lt_succ _
    rw [stringify, List.length_cons]
    omega
  obtain ⟨depth,hdepth⟩ := Nat.exists_eq_add_of_le' hlength
  rw [parse, hdepth, (reads_object members depth).run_all]
  rfl

end RoundTrip

end Json
end CryptoPlaypen.Objects
