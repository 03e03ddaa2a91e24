import CppDoc.Page.Html
import CppDoc.Proofs.Text.Search

/-!
# Reading markup

How a web page is read: letter by letter, in the states that the HTML standard gives to such a reader,
as far as the pages need them.  What is no markup in that sense is not read at all, so that a stray `<`
or `&` is never taken for text.

* `run`: the tokens of a text, from one state of the reader to another; `lex`: those of a page;
* `runs_escape`, `runs_escape_quoted`: how escaped text is read, in the open and as a value;
* `nest`: the elements that are open behind some tokens;
* `textOf`, `anchorsOf`: what tokens show, and the places that they name.
-/

namespace CppDoc.Html

/-! ## Tokens -/

/-- A letter of a text.  It is written as a reference or stands for itself. -/
structure Letter where
  char : Char
  referenced : Bool
  deriving DecidableEq, Repr

/-- The characters that mean something else where they stand for themselves. -/
def isSpecial (c : Char) : Bool :=
  c == '&' || c == '<' || c == '>' || c == '"'

/-- A character that is special is written as a reference. -/
def Letter.isEscaped (l : Letter) : Bool :=
  l.referenced || !isSpecial l.char

/-- A tag that opens an element. -/
structure Tag where
  element : String
  attributes : List (String × List Letter)
  deriving DecidableEq, Repr

/-- The tag with one more attribute. -/
def Tag.set (t : Tag) (name : List Char) (value : List Letter) : Tag :=
  { t with attributes := t.attributes ++ [(String.ofList name, value)] }

inductive Token where
  | declaration
  | opening (t : Tag)
  | closing (element : String)
  | letter (l : Letter)
  deriving DecidableEq, Repr

/-! ## The reader -/

/-- What the reader has read of a token. -/
inductive State where
  | text
  | reference (letters : List Char)
  | tag
  | declaration
  | closing (element : List Char)
  | opening (element : List Char)
  | inside (t : Tag)
  | attribute (t : Tag) (name : List Char)
  | assigned (t : Tag) (name : List Char)
  | unquoted (t : Tag) (name : List Char) (value : List Letter)
  | quoted (t : Tag) (name : List Char) (value : List Letter)
  | quotedReference (t : Tag) (name : List Char) (value : List Letter) (letters : List Char)
  | behindValue (t : Tag)
  deriving DecidableEq, Repr

/-- The character that a reference names. -/
def named? (letters : List Char) : Option Char :=
  if letters = ['a', 'm', 'p'] then some '&'
  else if letters = ['l', 't'] then some '<'
  else if letters = ['g', 't'] then some '>'
  else if letters = ['q', 'u', 'o', 't'] then some '"'
  else none

/-- One character: the token that it ends, if it ends one, and the next state. -/
def State.step : State → Char → Option (List Token × State)
  | .text, c =>
    if c = '<' then some ([], .tag)
    else if c = '&' then some ([], .reference [])
    else some ([.letter ⟨c, false⟩], .text)
  | .reference letters, c =>
    if c = ';' then (named? letters).map fun d => ([.letter ⟨d, true⟩], .text)
    else some ([], .reference (letters ++ [c]))
  | .tag, c =>
    if c = '!' then some ([], .declaration)
    else if c = '/' then some ([], .closing [])
    else if c.isAlpha then some ([], .opening [c])
    else none
  | .declaration, c =>
    if c = '>' then some ([.declaration], .text) else some ([], .declaration)
  | .closing element, c =>
    if c = '>' then some ([.closing (String.ofList element)], .text)
    else if c.isAlphanum then some ([], .closing (element ++ [c]))
    else none
  | .opening element, c =>
    if c = '>' then some ([.opening ⟨String.ofList element, []⟩], .text)
    else if c = ' ' then some ([], .inside ⟨String.ofList element, []⟩)
    else if c.isAlphanum then some ([], .opening (element ++ [c]))
    else none
  | .inside t, c =>
    if c = '>' then some ([.opening t], .text)
    else if c = ' ' then some ([], .inside t)
    else if c.isAlpha then some ([], .attribute t [c])
    else none
  | .attribute t name, c =>
    if c = '=' then some ([], .assigned t name)
    else if c.isAlpha then some ([], .attribute t (name ++ [c]))
    else none
  | .assigned t name, c =>
    if c = '"' then some ([], .quoted t name [])
    else if c.isAlphanum then some ([], .unquoted t name [⟨c, false⟩])
    else none
  | .unquoted t name value, c =>
    if c = '>' then some ([.opening (t.set name value)], .text)
    else if c = ' ' then some ([], .inside (t.set name value))
    else if c.isAlphanum then some ([], .unquoted t name (value ++ [⟨c, false⟩]))
    else none
  | .quoted t name value, c =>
    if c = '"' then some ([], .behindValue (t.set name value))
    else if c = '&' then some ([], .quotedReference t name value [])
    else some ([], .quoted t name (value ++ [⟨c, false⟩]))
  | .quotedReference t name value letters, c =>
    if c = ';' then (named? letters).map fun d => ([], .quoted t name (value ++ [⟨d, true⟩]))
    else some ([], .quotedReference t name value (letters ++ [c]))
  | .behindValue t, c =>
    if c = '>' then some ([.opening t], .text)
    else if c = ' ' then some ([], .inside t)
    else none

/-- The tokens that are read from a state on, and the state behind them. -/
def run : State → List Char → Option (List Token × State)
  | q, [] => some ([], q)
  | q, c :: rest =>
    match q.step c with
    | none => none
    | some (ts, q') => (run q' rest).map fun (more, last) => (ts ++ more, last)

/-- The tokens of a page. -/
def lex (page : List Char) : Option (List Token) :=
  match run .text page with
  | some (ts, .text) => some ts
  | _ => none

/-- From one state to another the reader reads the text as the tokens. -/
def Runs (q : State) (s : List Char) (ts : List Token) (q' : State) : Prop :=
  run q s = some (ts, q')

theorem Runs.append {q q' q'' : State} {s s' : List Char} {ts ts' : List Token}
    (h : Runs q s ts q') (h' : Runs q' s' ts' q'') : Runs q (s ++ s') (ts ++ ts') q'' := by
  unfold Runs at h h' ⊢
  induction s generalizing q ts with
  | nil =>
      obtain ⟨rfl, rfl⟩ := Prod.mk.inj (Option.some.inj h)
      exact h'
  | cons c rest ih =>
      rw [run] at h
      rw [List.cons_append, run]
      cases hstep : q.step c with
      | none => simp [hstep] at h
      | some next =>
          obtain ⟨first, p⟩ := next
          simp only [hstep, Option.map_eq_some_iff, Prod.mk.injEq, Prod.exists] at h ⊢
          obtain ⟨more, last, hmore, rfl, rfl⟩ := h
          exact ⟨more ++ ts', q'', ih hmore, (List.append_assoc ..).symm, rfl⟩


/-- What is read from the first state to the last is the tokens of a page. -/
theorem lex_of_runs {page : List Char} {ts : List Token} (h : Runs .text page ts .text) :
    lex page = some ts := by
  unfold Runs at h
  rw [lex, h]

/-! ## Escaped text -/

/-- The letters that an escaped text is read as. -/
def letters (s : String) : List Letter :=
  s.toList.map fun c => ⟨c, isSpecial c⟩

theorem isEscaped_of_mem_letters {s : String} {l : Letter} (h : l ∈ letters s) :
    l.isEscaped = true := by
  obtain ⟨c, -, rfl⟩ := List.mem_map.mp h
  exact Bool.or_not_self _

/-- A character that is not special is written as it is. -/
theorem escapeChar_plain {c : Char} (h : isSpecial c = false) : escapeChar c = String.singleton c := by
  simp only [isSpecial, Bool.or_eq_false_iff, beq_eq_false_iff_ne] at h
  obtain ⟨⟨⟨hamp, hlt⟩, hgt⟩, hquot⟩ := h
  rw [escapeChar, if_neg hamp, if_neg hlt, if_neg hgt, if_neg hquot]

theorem toList_escape (s : String) :
    (escape s).toList = s.toList.flatMap fun c => (escapeChar c).toList := by
  rw [escape, String.toList_join, List.flatMap_map]

/-- The special characters are four. -/
theorem special_cases {c : Char} (h : isSpecial c = true) : c = '&' ∨ c = '<' ∨ c = '>' ∨ c = '"' := by
  simpa [isSpecial, or_assoc] using h

/-- An escaped character, where text stands. -/
theorem runs_escapeChar (c : Char) :
    Runs .text (escapeChar c).toList [.letter ⟨c, isSpecial c⟩] .text := by
  cases hc : isSpecial c with
  | true => rcases special_cases hc with rfl | rfl | rfl | rfl <;> rfl
  | false =>
      rw [escapeChar_plain hc, String.toList_singleton]
      have hlt : c ≠ '<' := by rintro rfl; exact absurd hc (by decide)
      have hamp : c ≠ '&' := by rintro rfl; exact absurd hc (by decide)
      simp [Runs, run, State.step, hlt, hamp]

/-- An escaped character in the value of an attribute. -/
theorem runs_escapeChar_quoted (t : Tag) (name : List Char) (value : List Letter) (c : Char) :
    Runs (.quoted t name value) (escapeChar c).toList []
      (.quoted t name (value ++ [⟨c, isSpecial c⟩])) := by
  cases hc : isSpecial c with
  | true => rcases special_cases hc with rfl | rfl | rfl | rfl <;> rfl
  | false =>
      rw [escapeChar_plain hc, String.toList_singleton]
      have hquot : c ≠ '"' := by rintro rfl; exact absurd hc (by decide)
      have hamp : c ≠ '&' := by rintro rfl; exact absurd hc (by decide)
      simp [Runs, run, State.step, hquot, hamp]

/-- **Escaped text** is read as the letters of the text, each special one as a reference. -/
theorem runs_escape (s : String) :
    Runs .text (escape s).toList ((letters s).map .letter) .text := by
  rw [toList_escape, letters]
  induction s.toList with
  | nil => rfl
  | cons c rest ih => exact (runs_escapeChar c).append ih

/-- A text that may stand between quotation marks as the value of an attribute. -/
def IsValue (s : String) : Prop :=
  ∃ ls : List Letter, (∀ l ∈ ls, l.isEscaped = true) ∧
    ∀ t name value, Runs (.quoted t name value) s.toList [] (.quoted t name (value ++ ls))

theorem runs_escape_quoted (t : Tag) (name : List Char) (value : List Letter) (s : String) :
    Runs (.quoted t name value) (escape s).toList [] (.quoted t name (value ++ letters s)) := by
  rw [toList_escape, letters]
  induction s.toList generalizing value with
  | nil => simp [Runs, run]
  | cons c rest ih =>
      rw [List.map_cons, List.append_cons]
      exact (runs_escapeChar_quoted t name value c).append (ih _)

theorem isValue_escape (s : String) : IsValue (escape s) :=
  ⟨letters s, fun _ => isEscaped_of_mem_letters, fun t name value =>
    runs_escape_quoted t name value s⟩

theorem IsValue.append {s s' : String} (h : IsValue s) (h' : IsValue s') : IsValue (s ++ s') := by
  obtain ⟨ls, hls, hruns⟩ := h
  obtain ⟨ls', hls', hruns'⟩ := h'
  refine ⟨ls ++ ls', fun l hl => (List.mem_append.mp hl).elim (hls l) (hls' l), ?_⟩
  intro t name value
  rw [String.toList_append, ← List.append_assoc]
  exact (hruns t name value).append (hruns' t name _)

/-! ## Open elements -/

/-- The elements that have no end. -/
def isVoid (element : String) : Bool :=
  ["area", "base", "br", "col", "embed", "hr", "img", "input", "link", "meta", "source", "track",
    "wbr"].contains element

/-- The open elements behind a token, the innermost first, unless the token ends another one. -/
def Token.nest (stack : List String) : Token → Option (List String)
  | .opening t => some (if isVoid t.element then stack else t.element :: stack)
  | .closing element => if stack.head? = some element then some stack.tail else none
  | .declaration | .letter _ => some stack

/-- The open elements behind some tokens. -/
def nest (stack : List String) (ts : List Token) : Option (List String) :=
  ts.foldlM Token.nest stack

theorem nest_append (stack : List String) (ts ts' : List Token) :
    nest stack (ts ++ ts') = (nest stack ts).bind (nest · ts') := by
  simp [nest, List.foldlM_append]

/-- Text opens and closes nothing. -/
theorem nest_letters (stack : List String) (ls : List Letter) :
    nest stack (ls.map .letter) = some stack := by
  induction ls with
  | nil => rfl
  | cons l ls ih => exact ih

/-! ## What tokens show -/

def Token.letter? : Token → Option Letter
  | .letter l => some l
  | _ => none

/-- The text that is left if the tags are taken away. -/
def textOf (ts : List Token) : String :=
  String.ofList ((ts.filterMap Token.letter?).map Letter.char)

theorem textOf_append (ts ts' : List Token) : textOf (ts ++ ts') = textOf ts ++ textOf ts' := by
  simp [textOf]

theorem textOf_letters (s : String) : textOf ((letters s).map .letter) = s := by
  have hletter : (Token.letter? ∘ Token.letter) = some := rfl
  have hchar : (Letter.char ∘ fun c => (⟨c, isSpecial c⟩ : Letter)) = id := rfl
  rw [textOf, List.filterMap_map, hletter, List.filterMap_some, letters, List.map_map, hchar,
    List.map_id, String.ofList_toList]

/-- The name that a tag gives to its place. -/
def Token.anchor? : Token → Option String
  | .opening t =>
    if t.element = "a" then
      (t.attributes.lookup "name").map fun value => String.ofList (value.map Letter.char)
    else none
  | _ => none

/-- The names of places that are set. -/
def anchorsOf (ts : List Token) : List String :=
  ts.filterMap Token.anchor?

theorem anchorsOf_append (ts ts' : List Token) :
    anchorsOf (ts ++ ts') = anchorsOf ts ++ anchorsOf ts' :=
  List.filterMap_append

theorem anchorsOf_letters (ls : List Letter) : anchorsOf (ls.map .letter) = [] := by
  simp [anchorsOf, Token.anchor?]

/-- The letters that a token is made of. -/
def Token.letters : Token → List Letter
  | .letter l => [l]
  | .opening t => t.attributes.flatMap Prod.snd
  | .closing _ | .declaration => []

/-- All special characters are written as references. -/
def Token.isEscaped (t : Token) : Bool :=
  t.letters.all Letter.isEscaped

end CppDoc.Html
