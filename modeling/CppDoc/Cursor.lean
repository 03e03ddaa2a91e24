import CppDoc.Text.Blank
import CppDoc.Text.Offset
import CppDoc.Text.Search

/-!
# Cursors

A cursor stands at a byte offset of a text and knows what follows it.  It moves by whole characters;
only `moveTo` can put it at any offset, and inside a character nothing follows it until it is moved
on.

* `skip`, `step`, `scanTo` and `read` move the cursor over what they recognise;
* `line` is the line of the first character at or after the cursor that is no blank.  The cursor
  keeps a mark up to which lines have been counted, so that asking again on the way through a text
  does not count from the start.
-/

namespace CppDoc

open CppDoc.Text

/-- A place up to which the lines of a text have been counted: `ahead` is the text from the offset
`pos` on, and its first character stands on line `line`. -/
structure LineMark where
  line : Nat
  pos : Nat
  ahead : List Char
  deriving Repr

namespace LineMark

/-- The start of a text. -/
def start (text : List Char) : LineMark := ⟨1, 0, text⟩

/-- Counts on from a mark to the first character that ends after offset `target` and is no
blank. -/
def countTo (target line pos : Nat) : List Char → LineMark
  | [] => ⟨line, pos, []⟩
  | c :: rest =>
    if target < pos + c.utf8Size && !isBlank c then ⟨line, pos, c :: rest⟩
    else countTo target (if c = '\n' then line + 1 else line) (pos + c.utf8Size) rest

/-- The mark moved on to the first character that ends after offset `target` and is no blank. -/
def advance (m : LineMark) (target : Nat) : LineMark :=
  countTo target m.line m.pos m.ahead

end LineMark

/-- A place in `text`: the offset `pos`, and the text `rest` from there on. -/
structure Cursor where
  text : List Char
  pos : Nat
  rest : List Char
  mark : LineMark
  deriving Repr

namespace Cursor

/-- The cursor at the start of a text. -/
def ofText (text : List Char) : Cursor :=
  ⟨text, 0, text, LineMark.start text⟩

/-- Puts the cursor at an offset, or at the end if the text ends before it. -/
def moveTo (c : Cursor) (offset : Nat) : Cursor :=
  let pos := min offset (byteLength c.text)
  { c with pos, rest := fromOffset c.text pos }

/-- Puts the cursor at the end of the text. -/
def toEnd (c : Cursor) : Cursor :=
  { c with pos := byteLength c.text, rest := [] }

/-- Moves the cursor over `n` characters. -/
def skip (c : Cursor) (n : Nat) : Cursor :=
  { c with pos := c.pos + byteLength (c.rest.take n), rest := c.rest.drop n }

/-- Is nothing left of the text? -/
def atEnd (c : Cursor) : Bool :=
  c.rest.isEmpty && byteLength c.text ≤ c.pos

/-- The byte under the cursor. -/
def peek? (c : Cursor) : Option UInt8 :=
  byteAt? c.text c.pos

/-- Moves the cursor over one character; from inside a character it goes to the end. -/
def step (c : Cursor) : Cursor :=
  if c.rest.isEmpty then c.toEnd else c.skip 1

/-- Does `pat` follow the cursor? -/
def lookingAt (c : Cursor) (pat : String) : Bool :=
  pat.toList.isPrefixOf c.rest

/-- The text up to the next `pat`, which the cursor moves over as well; all that is left if there
is none.  The first answer tells whether there was one. -/
def cutAt (c : Cursor) (pat : String) : Bool × List Char × Cursor :=
  match find? pat.toList c.rest with
  | some n => (true, c.rest.take n, c.skip (n + pat.toList.length))
  | none => (false, c.rest, c.toEnd)

/-- Moves the cursor behind the next `pat`, or to the end, and tells whether there was one. -/
def scanTo (c : Cursor) (pat : String) : Bool × Cursor :=
  let (found, _, c) := c.cutAt pat
  (found, c)

/-- The cursor behind the next `pat`, or at the end. -/
def past (c : Cursor) (pat : String) : Cursor :=
  (c.cutAt pat).2.2

/-- The text before the next `pat`, and the cursor behind it. -/
def textUntil (c : Cursor) (pat : String) : List Char × Cursor :=
  (c.cutAt pat).2

/-- Reads a value off the text at the cursor and moves over the characters it takes up. -/
def read {α : Type} (c : Cursor) (reader : List Char → α × Nat) : α × Cursor :=
  let (value, n) := reader c.rest
  (value, c.skip n)

/-- The line of the first character at or after the cursor that is no blank, and the cursor with
its mark moved there. -/
def line (c : Cursor) : Nat × Cursor :=
  let origin := if c.pos < c.mark.pos then LineMark.start c.text else c.mark
  let mark := origin.advance c.pos
  (mark.line, { c with mark })

end Cursor

end CppDoc
