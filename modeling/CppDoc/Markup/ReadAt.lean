import CppDoc.Markup.Interpreter
import CppDoc.Syntax.ReadAt

/-!
# Reading documentation at offsets

The text of a block is read with a cursor that looks at bytes and cuts out what it hands on.  There is no
answer where a cut would go through a character, where a first byte is looked at and there is none, or
where a word without characters would be handed on.

* `numberAt?`, `takeBlockAt?` and `takeCodeAt?` take from the text behind a word;
* `properAt?`, `resolveAt?` and `firstClassAt?` look into a word;
* `readWordAt?` reads one word, `turnAt?` one word with the blanks before it, and `readWordsAt?` a whole
  text.
-/

namespace CppDoc.Markup

open CppDoc.Syntax CppDoc.Text

/-! ## Behind a word -/

/-- The number at the cursor, spaces and line feeds before it included.  Numbers from 2^64 on do not
count; then the cursor stays where it is. -/
def numberAt? (c : Cursor) : Option (Option Nat × Cursor) :=
  let start := runEnd (fun b => b == ' ' || b == '\n') c.text c.pos
  let stop := runEnd Char.isDigit c.text start
  (cut? c.text start stop).map fun digits =>
    let n := digitsValue digits
    if digits.isEmpty || UInt64.size ≤ n then (none, c) else (some n, c.moveTo stop)

/-- Does a blank line follow a line feed, before `offset`? -/
def blankLineFollowsAt (text : List Char) (offset : Nat) : Bool :=
  letterAt? text (runEnd (fun b => isBlank b && b != '\n') text offset) == some '\n'

/-- The offset of the line feed before a blank line, from `offset` on, or the end of the text. -/
def blockEndAt (text : List Char) (offset : Nat) : Nat :=
  if _h : (letterAt? text offset).any fun _ => true then
    if letterAt? text offset = some '\n' && blankLineFollowsAt text (offset + 1) then offset
    else blockEndAt text (offset + 1)
  else byteLength text
termination_by byteLength text - offset
decreasing_by
  have := lt_byteLength_of_letterAt? _h
  omega

/-- The text up to the next blank line with its white space simplified. -/
def takeBlockAt? (c : Cursor) : Option (String × Cursor) :=
  (c.takeTo? (blockEndAt c.text c.pos)).map fun (t, c) => (String.ofList (simplify t), c)

/-- Code without the white space at its ends, and without an empty first line. -/
def trimCodeAt? (code : List Char) : Option (List Char) :=
  match find? ['\n'] code with
  | none => some (trimRight (trimLeft code))
  | some n =>
    let i := byteLength (code.take n)
    (cut? code 0 i).bind fun firstLine =>
      if (trim firstLine).isEmpty then (cut? code (i + 1) (byteLength code)).map trimRight
      else some (trimRight (trimLeft code))

/-- The code up to its end. -/
def takeCodeAt? (c : Cursor) : Option (String × Cursor) :=
  (c.cutAt? "\\endcode").bind fun (_, code, c) =>
    (trimCodeAt? code).map fun code => (String.ofList code, c)

/-! ## In a word -/

/-- A word without the punctuation that follows it; of a word that is all punctuation, the first
character. -/
def properAt? (w : List Char) : Option (List Char) :=
  match trimRightIf isTrailing w with
  | [] => cut? w 0 (w.head?.elim 0 Char.utf8Size)
  | p => some p

/-- The name of the function that a word calls, if it is a call.  The first byte is looked at if the
first parenthesis is not there. -/
def callNameAt? (p : List Char) : Option (Option (List Char)) :=
  let i := (find? ['('] p).elim 0 fun n => byteLength (p.take n)
  if i = 0 then some none
  else (letterAt? p 0).bind fun b => if b.isAlpha then (cut? p 0 i).map some else some none

/-- What a word in plain text refers to.  The first byte is looked at unless the word ends in a
parenthesis. -/
def resolveAt? (reg : Registry) (subject : Subject) (w : List Char) : Option Reference :=
  (properAt? w).bind fun p =>
    if p.getLast? == some '(' then
      (callNameAt? p).map fun called =>
        match called with
        | some name => resolveCall reg subject (String.ofList name)
        | none => .text none
    else
      (letterAt? p 0).map fun b =>
        if b.isUpper then resolveClass reg subject (String.ofList p) else .text none

/-- The first class that a piece of a signature names, from an offset on. -/
def firstClassAt? (reg : Registry) (s : List Char) (offset : Nat) : Option (Option ClassId) :=
  if _h : (letterAt? s offset).any fun _ => true then
    if (letterAt? s offset).any Char.isUpper then
      let stop := runEnd Char.isAlphanum s offset
      (cut? s offset stop).bind fun name =>
        match reg.findClass? (String.ofList name) with
        | some id => some (some id)
        | none => firstClassAt? reg s (stop + 1)
    else firstClassAt? reg s (offset + 1)
  else some none
termination_by byteLength s - offset
decreasing_by
  · have := lt_byteLength_of_letterAt? _h
    have := le_runEnd Char.isAlphanum s offset
    omega
  · have := lt_byteLength_of_letterAt? _h
    omega

/-- A piece of a signature, linked to the first class that it names unless that is `within`. -/
def signaturePieceAt? (reg : Registry) (within : ClassId) (s : String) : Option Draft :=
  (firstClassAt? reg s.toList 0).map fun found =>
    match found with
    | some c => if c = within then .text s else .content (.classLink s (reg.getClass c).name)
    | none => .text s

/-- The level of a section, which is the last byte of the directive. -/
def sectionLevelAt? (w : List Char) : Option Nat :=
  (letterAt? w (byteLength w - 1)).bind fun b =>
    if '0' ≤ b then some (b.toNat - '0'.toNat) else none

/-! ## Words -/

/-- Mentions the argument `name`, for which the word `w` stands. -/
def mentionArgument (d : DocBlock) (w : List Char) (name : String) (line : Nat) (st : State) :
    State × List Draft :=
  let st :=
    if st.mentioned.contains name then st
    else if isArgument st.registry d.subject name then
      { st with mentioned := st.mentioned ++ [name] }
    else st.report d line (.unknownArgument name)
  ({ st with expecting := .text }, [.content (.argument (String.ofList w))])

/-- Adds a word that refers to something. -/
def addReference (d : DocBlock) (w : List Char) (line : Nat) (st : State) :
    Reference → State × List Draft
  | .function f => (st, [.content (.functionLink (String.ofList w) (st.registry.memberRef f))])
  | .classPage c => (st, [.content (.classLink (String.ofList w) (st.registry.getClass c).name)])
  | .text none => (st, [.text (String.ofList w)])
  | .text (some problem) => (st.report d line problem, [.text (String.ofList w)])

/-- Reads a word that is no directive. -/
def readPlainAt? (d : DocBlock) (w : List Char) (line : Nat) (st : State) :
    Option (State × List Draft) :=
  match st.expecting with
  | .classes => some (readClassName d w line st, [])
  | .argument =>
    (properAt? w).map fun p =>
      let name := if p.head? = some '*' then p.tail else p
      mentionArgument d w (String.ofList name) line st
  | .text => (resolveAt? st.registry d.subject w).map (addReference d w line st)

/-- Reads a directive, the `n`th word of its block, with the cursor behind it. -/
def readDirectiveAt? (d : DocBlock) (w : List Char) (line n : Nat) (st : State) (c : Cursor) :
    Option (State × List Draft × Cursor) :=
  let block (taken : Option (String × Cursor)) (content : String → Content) :=
    taken.map fun (text, c) => (st, [Draft.content (content text)], c)
  match String.ofList w with
  | "\\code" => block (takeCodeAt? c) .code
  | "\\warning" => block (takeBlockAt? c) .warning
  | "\\note" => block (takeBlockAt? c) .note
  | "\\section1" | "\\section2" | "\\section3" =>
    (sectionLevelAt? w).bind fun level => block (takeBlockAt? c) (.heading level)
  | _ =>
    -- The other directives take nothing from the text behind them.
    let out := readDirective d w [] line n st
    some (out.state, out.drafts, c)

/-- Reads the `n`th word of a block, which stands on `line`, with the cursor behind it. -/
def readWordAt? (d : DocBlock) (w : List Char) (line n : Nat) (st : State) (c : Cursor) :
    Option (State × List Draft × Cursor) :=
  let plain := (readPlainAt? d w line st).map fun (st, drafts) => (st, drafts, c)
  if w = "RFC".toList then
    (numberAt? c).bind fun (number, c) =>
      match number with
      | some number => some (st, [rfcLink number], c)
      | none => plain
  else if isUrl w then some (st, [.content (.link (String.ofList w) (String.ofList w))], c)
  else if w.head? == some '\\' then readDirectiveAt? d w line n st c
  else plain

/-- Reads the blanks at the cursor and the word behind them.  `last` is the line of the last word, and `n`
the number of words so far.  Without a word the last paragraph ends; with one, the third answer is its
line and the cursor behind it. -/
def turnAt? (d : DocBlock) (last n : Nat) (st : State) (c : Cursor) :
    Option (State × List Draft × Option (Nat × Cursor)) :=
  let start := c.stepWhile isBlank
  (cut? c.text c.pos start.pos).bind fun blanks =>
    let (st, before) := readBlanks d blanks last st
    if start.atEnd then
      let (st, after) := endParagraph d last st
      some (st, before ++ after, none)
    else
      let (here, start) := start.line
      let line := d.textLine + here - 1
      let stop := start.stepWhile (!isBlank ·)
      (cut? start.text start.pos stop.pos).bind fun w =>
        if w.isEmpty then none
        else
          (readWordAt? d w line (n + 1) st stop).map fun (st, drafts, next) =>
            (st, before ++ drafts, some (line, next))

/-! ## Going on -/

theorem notBack_numberAt? {c c' : Cursor} {number : Option Nat} (h : numberAt? c = some (number, c')) :
    c.NotBack c' := by
  obtain ⟨digits, hcut, heq⟩ := Option.map_eq_some_iff.mp h
  obtain ⟨hle, hin⟩ := bounds_of_cut? hcut
  have hstart := le_runEnd (fun b => b == ' ' || b == '\n') c.text c.pos
  dsimp only at heq
  split at heq
  · obtain ⟨-, rfl⟩ := Prod.mk.inj heq
    exact ⟨rfl, Nat.le_refl _⟩
  · obtain ⟨-, rfl⟩ := Prod.mk.inj heq
    exact Cursor.notBack_moveTo (by omega) (by omega)

theorem notBack_takeBlockAt? {c c' : Cursor} {t : String} (h : takeBlockAt? c = some (t, c')) :
    c.NotBack c' := by
  obtain ⟨⟨u, c₁⟩, htake, heq⟩ := Option.map_eq_some_iff.mp h
  obtain ⟨-, rfl⟩ := Prod.mk.inj heq
  exact Cursor.notBack_takeTo? htake

theorem notBack_takeCodeAt? {c c' : Cursor} {t : String} (h : takeCodeAt? c = some (t, c')) :
    c.NotBack c' := by
  obtain ⟨⟨found, u, c₁⟩, hcut, h⟩ := Option.bind_eq_some_iff.mp h
  obtain ⟨code, -, heq⟩ := Option.map_eq_some_iff.mp h
  obtain ⟨-, rfl⟩ := Prod.mk.inj heq
  exact Cursor.notBack_cutAt? hcut

section Words

variable {d : DocBlock} {w : List Char} {line n last : Nat} {st st' : State} {drafts : List Draft}
  {c c' : Cursor}

theorem notBack_readDirectiveAt? (h : readDirectiveAt? d w line n st c = some (st', drafts, c')) :
    c.NotBack c' := by
  unfold readDirectiveAt? at h
  dsimp only at h
  split at h
  case h_1 =>
    obtain ⟨⟨t, c₁⟩, htake, heq⟩ := Option.map_eq_some_iff.mp h
    obtain ⟨-, -, rfl⟩ := heq
    exact notBack_takeCodeAt? htake
  case h_7 =>
    obtain ⟨-, -, rfl⟩ := Option.some.inj h
    exact ⟨rfl, Nat.le_refl _⟩
  case h_2 | h_3 =>
    obtain ⟨⟨t, c₁⟩, htake, heq⟩ := Option.map_eq_some_iff.mp h
    obtain ⟨-, -, rfl⟩ := heq
    exact notBack_takeBlockAt? htake
  all_goals
    obtain ⟨level, -, h⟩ := Option.bind_eq_some_iff.mp h
    obtain ⟨⟨t, c₁⟩, htake, heq⟩ := Option.map_eq_some_iff.mp h
    obtain ⟨-, -, rfl⟩ := heq
    exact notBack_takeBlockAt? htake

theorem notBack_readWordAt? (h : readWordAt? d w line n st c = some (st', drafts, c')) :
    c.NotBack c' := by
  have hplain {c' : Cursor} (h : ((readPlainAt? d w line st).map fun (st, drafts) => (st, drafts, c)) =
      some (st', drafts, c')) : c.NotBack c' := by
    obtain ⟨p, -, heq⟩ := Option.map_eq_some_iff.mp h
    obtain ⟨-, -, rfl⟩ := heq
    exact ⟨rfl, Nat.le_refl _⟩
  unfold readWordAt? at h
  dsimp only at h
  split at h
  · obtain ⟨⟨number, c₁⟩, hnumber, h⟩ := Option.bind_eq_some_iff.mp h
    split at h
    · obtain ⟨-, -, rfl⟩ := Option.some.inj h
      exact notBack_numberAt? hnumber
    · exact hplain h
  split at h
  · obtain ⟨-, -, rfl⟩ := Option.some.inj h
    exact ⟨rfl, Nat.le_refl _⟩
  split at h
  · exact notBack_readDirectiveAt? h
  · exact hplain h

/-- A turn that reads a word goes on. -/
theorem turnAt?_advances (h : turnAt? d last n st c = some (st', drafts, some (line, c'))) :
    c'.text = c.text ∧ c.pos < c'.pos ∧ c.pos < byteLength c.text := by
  have hblanks := c.notBack_stepWhile isBlank
  obtain ⟨blanks, -, h⟩ := Option.bind_eq_some_iff.mp h
  dsimp only at h
  split at h
  · cases Option.some.inj h
  · obtain ⟨word, hcut, h⟩ := Option.bind_eq_some_iff.mp h
    split at h
    · cases h
    · rename_i hword
      obtain ⟨⟨st₁, drafts₁, next⟩, hread, heq⟩ := Option.map_eq_some_iff.mp h
      dsimp only at heq
      obtain ⟨-, hsome⟩ := Prod.mk.inj (Prod.mk.inj heq).2
      obtain ⟨-, rfl⟩ := Prod.mk.inj (Option.some.inj hsome)
      have hvisible := Cursor.notBack_stepWhile (!isBlank ·) (c.stepWhile isBlank).line.2
      have hlt := lt_of_cut? hcut (by simpa using hword)
      have hin := (bounds_of_cut? hcut).2
      have hread := notBack_readWordAt? hread
      have htext : (c.stepWhile isBlank).line.2.text = c.text := hblanks.text
      have hpos : c.pos ≤ (c.stepWhile isBlank).line.2.pos := hblanks.pos
      have hgone := hread.pos
      rw [htext] at hin
      exact ⟨(hread.text.trans hvisible.text).trans htext, by omega, by omega⟩

end Words

/-- Reads the rest of a block.  `last` is the line of the last word, and `n` the number of words so
far. -/
def readWordsAt? (d : DocBlock) (last n : Nat) (st : State) (c : Cursor) :
    Option (State × List Draft) :=
  match _h : turnAt? d last n st c with
  | none => none
  | some (st, drafts, none) => some (st, drafts)
  | some (st, drafts, some (line, next)) =>
    (readWordsAt? d line (n + 1) st next).map fun (st, after) => (st, drafts ++ after)
termination_by byteLength c.text - c.pos
decreasing_by
  obtain ⟨htext, hpos, hin⟩ := turnAt?_advances _h
  rw [htext]
  omega

end CppDoc.Markup
