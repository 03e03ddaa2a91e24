import CppDoc.Markup.Preamble

/-!
# Reading documentation

The text of a block is read word by word.  Most words are text or references.  Two directives change
what the words after them mean, until the end of the paragraph at the latest; others take the text
behind them.  Blank lines end paragraphs.

* `readWord` reads one word, and `readWords` a whole text;
* `conclusion` is what is said once the text has been read;
* `interpret` drafts the documentation of a block, headline included.
-/

namespace CppDoc.Markup

open CppDoc.Text

/-- What the words that come next mean. -/
inductive Expecting where
  | text
  | argument
  | classes
  deriving DecidableEq, Repr

/-- The state of reading a block: what is known, what is expected, the arguments that have been
mentioned, and which directives have been seen. -/
structure State where
  registry : Registry
  expecting : Expecting
  mentioned : List String
  introduces : Bool
  overload : Bool
  deriving Repr

/-- The state before the first word. -/
def State.start (reg : Registry) : State :=
  { registry := reg, expecting := .text, mentioned := [], introduces := false, overload := false }

/-- Reports a problem on a line of the file of a block. -/
def State.report (st : State) (d : DocBlock) (line : Nat) (problem : Problem) : State :=
  { st with registry := st.registry.report ⟨d.origin.file, line⟩ problem }

/-- Changes what is expected, because of a directive.  A directive that was still waiting for its
words is reported. -/
def State.expect (st : State) (d : DocBlock) (line : Nat) (directive : String) (next : Expecting) :
    State :=
  let st := if st.expecting = .text then st else st.report d line (.directiveNegated directive)
  { st with expecting := next }

/-- Ends a paragraph whose last word stands on `line`. -/
def endParagraph (d : DocBlock) (line : Nat) (st : State) : State × List Draft :=
  let st := if st.expecting = .argument then st.report d line .directiveHanging else st
  ({ st with expecting := .text }, [.close])

/-- The subject of the block, if it is a function. -/
def functionOf? : Subject → Option FunctionId
  | .function f => some f
  | _ => none

/-- Reads a word that names a class the chapter introduces. -/
def readClassName (d : DocBlock) (w : List Char) (line : Nat) (st : State) : State :=
  let name := String.ofList (trimRightIf (fun c => c == ',' || c == '.') w)
  let reg := st.registry.mention name ⟨d.origin.file, line⟩
  match d.subject with
  | .chapter ch =>
    match reg.findClass? name with
    | some c => { st with registry := reg.editChapter ch (·.introduce c) }
    | none => { st with registry := reg.report ⟨d.origin.file, line⟩ (.unknownClass name) }
  | _ => { st with registry := reg }

/-- The name of the argument that a word mentions. -/
def argumentName (w : List Char) : String :=
  match proper w with
  | '*' :: name => String.ofList name
  | name => String.ofList name

/-- Is `name` the name of an argument of the subject? -/
def isArgument (reg : Registry) (subject : Subject) (name : String) : Bool :=
  match functionOf? subject with
  | some f => (reg.function f).hasParameter name
  | none => false

/-- Reads a word that names an argument. -/
def readArgument (d : DocBlock) (w : List Char) (line : Nat) (st : State) : State × List Draft :=
  let name := argumentName w
  let st :=
    if st.mentioned.contains name then st
    else if isArgument st.registry d.subject name then
      { st with mentioned := st.mentioned ++ [name] }
    else st.report d line (.unknownArgument name)
  ({ st with expecting := .text }, [.content (.argument (String.ofList w))])

/-- Reads a word of plain text. -/
def readReference (d : DocBlock) (w : List Char) (line : Nat) (st : State) : State × List Draft :=
  let shown := String.ofList w
  match resolve st.registry d.subject w with
  | .function f => (st, [.content (.functionLink shown (st.registry.memberRef f))])
  | .classPage c => (st, [.content (.classLink shown (st.registry.getClass c).name)])
  | .text none => (st, [.text shown])
  | .text (some problem) => (st.report d line problem, [.text shown])

/-- Reads a word that is no directive. -/
def readPlain (d : DocBlock) (w : List Char) (line : Nat) (st : State) : State × List Draft :=
  match st.expecting with
  | .classes => (readClassName d w line st, [])
  | .argument => readArgument d w line st
  | .text => readReference d w line st

/-- Reads the directive that marks one of several functions of a name, the `n`th word of its
block. -/
def readOverload (d : DocBlock) (line n : Nat) (st : State) : State :=
  let st :=
    match d.subject with
    | .function f =>
      let st := { st with overload := true }
      if (st.registry.function f).overload then st.report d line .overloadRepeated
      else
        { st with registry := st.registry.editFunction f fun g => { g with overload := true } }
    | _ => st.report d line .overloadOutsideFunction
  if 1 < n then st.report d line .overloadNotFirst else st

/-- What comes of reading a word: the state after it, what it adds to the draft, and the number of
characters that it takes from the text behind it. -/
structure Outcome where
  state : State
  drafts : List Draft
  taken : Nat
  deriving Repr

/-- A word that takes nothing from the text behind it. -/
def Outcome.ofPair (p : State × List Draft) : Outcome :=
  { state := p.1, drafts := p.2, taken := 0 }

/-- A directive that turns the text behind it into content. -/
def Outcome.block (st : State) (taken : String × Nat) (content : String → Content) : Outcome :=
  { state := st, drafts := [.content (content taken.1)], taken := taken.2 }

/-- Reads a directive, the `n`th word of its block, with the text `rest` behind it. -/
def readDirective (d : DocBlock) (w rest : List Char) (line n : Nat) (st : State) : Outcome :=
  match String.ofList w with
  | "\\a" =>
    .ofPair
      (match functionOf? d.subject with
        | some _ => st.expect d line "\\a" .argument
        | none => st.report d line .argumentOutsideFunction, [])
  | "\\introduces" =>
    let st :=
      match d.subject with
      | .chapter _ => st.expect d line "\\introduces" .classes
      | _ => st.report d line .introductionOutsideChapter
    .ofPair ({ st with introduces := true }, [])
  | "\\overload" => .ofPair (readOverload d line n st, [])
  | "\\code" => .block st (takeCode rest) .code
  | "\\warning" => .block st (takeBlock rest) .warning
  | "\\note" => .block st (takeBlock rest) .note
  | "\\section1" => .block st (takeBlock rest) (.heading 1)
  | "\\section2" => .block st (takeBlock rest) (.heading 2)
  | "\\section3" => .block st (takeBlock rest) (.heading 3)
  | unknown => .ofPair (st.report d line (.unknownDirective unknown), [.text unknown])

/-- The link to a standards document. -/
def rfcLink (number : Nat) : Draft :=
  .content
    (.link ("http://www.rfc-editor.org/rfc/rfc" ++ toString number ++ ".txt")
      ("RFC " ++ toString number))

/-- Reads the `n`th word of a block, which stands on `line` and has the text `rest` behind it. -/
def readWord (d : DocBlock) (w rest : List Char) (line n : Nat) (st : State) : Outcome :=
  if w = "RFC".toList then
    match rfcNumber? rest with
    | some (number, taken) => { state := st, drafts := [rfcLink number], taken }
    | none => .ofPair (readPlain d w line st)
  else if isUrl w then .ofPair (st, [.content (.link (String.ofList w) (String.ofList w))])
  else if w.head? == some '\\' then readDirective d w rest line n st
  else .ofPair (readPlain d w line st)

/-- The number of line feeds in a text. -/
def lineFeeds (s : List Char) : Nat :=
  s.count '\n'

/-- What the blanks before a word add: two line feeds end the paragraph, fewer ask for a space
except between the names of classes. -/
def readBlanks (d : DocBlock) (blanks : List Char) (last : Nat) (st : State) : State × List Draft :=
  if 2 ≤ lineFeeds blanks then endParagraph d last st
  else if blanks.isEmpty || st.expecting = .classes then (st, [])
  else (st, [.space])

/-- Reads the rest of a block.  `line` is the line that the rest begins on, `last` that of the last
word, and `n` the number of words so far. -/
def readWords (d : DocBlock) (s : List Char) (line last n : Nat) (st : State) :
    State × List Draft :=
  let blanks := s.takeWhile isBlank
  let (st, before) := readBlanks d blanks last st
  match _h : s.dropWhile isBlank with
  | [] =>
    let (st, after) := endParagraph d last st
    (st, before ++ after)
  | c :: behind =>
    let line := line + lineFeeds blanks
    let w := c :: behind.takeWhile (!isBlank ·)
    let rest := behind.dropWhile (!isBlank ·)
    let out := readWord d w rest line (n + 1) st
    let passed := lineFeeds (rest.take out.taken)
    let (st, after) := readWords d (rest.drop out.taken) (line + passed) line (n + 1) out.state
    (st, before ++ out.drafts ++ after)
termination_by s.length
decreasing_by
  have hbehind := (List.dropWhile_sublist (l := s) isBlank).length_le
  have hrest := (List.dropWhile_sublist (l := behind) (!isBlank ·)).length_le
  simp only [_h, List.length_cons] at hbehind
  simp only [List.length_drop]
  omega

/-- Says what a function reimplements, and reports the arguments that were not mentioned. -/
def concludeFunction (d : DocBlock) (f : FunctionId) (st : State) : State × List Draft :=
  let reg := st.registry
  let drafts :=
    match reg.overridden f with
    | none => []
    | some base =>
      let target := reg.memberRef base
      [.text "Reimplements ", .content (.functionLink (target.name ++ "().") target), .close]
  let names := Syntax.parameterNames (reg.function f).parameters
  let missing := if st.overload then [] else names.filter (!st.mentioned.contains ·)
  (missing.foldl (fun st name => st.report d d.origin.line (.undocumentedArgument name)) st, drafts)

/-- What is said once the text of a block has been read. -/
def conclusion (d : DocBlock) (st : State) : State × List Draft :=
  match d.subject with
  | .function f => concludeFunction d f st
  | .chapter _ =>
    (if st.introduces then st else st.report d d.origin.line .chapterWithoutIntroduction, [])
  | .classPage _ => (st, [])

/-- Reports a class without members. -/
def checkMembers (d : DocBlock) (reg : Registry) : Registry :=
  match d.subject with
  | .classPage c =>
    if (reg.getClass c).members.isEmpty then
      reg.report d.origin (.classWithoutMembers (reg.getClass c).name)
    else reg
  | _ => reg

/-- Drafts the documentation of a block.  An internal one gives nothing. -/
def interpret (reg : Registry) (id : DocId) : Registry × List Draft :=
  let d := reg.doc id
  if d.isInternal then (reg, [])
  else
    let headline := preamble reg d.subject
    let st := State.start (checkMembers d reg)
    let (st, body) := readWords d d.text.toList d.textLine d.textLine 0 st
    let (st, closing) := conclusion d st
    (st.registry, headline ++ body ++ closing)

end CppDoc.Markup
