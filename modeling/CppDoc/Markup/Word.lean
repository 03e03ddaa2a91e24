import CppDoc.Text.Blank
import CppDoc.Text.Search

/-!
# Words of a comment

What single words of a comment look like, and what the directives take from the text behind them.

* `proper` strips a word of the punctuation behind it, and `callName?` recognises the call of a
  function;
* `isUrl` recognises a web address and `rfcNumber?` the number of a standards document;
* `takeBlock` and `takeCode` are the texts that directives work on, each with the number of
  characters it takes up.
-/

namespace CppDoc.Markup

open CppDoc.Text

/-- Punctuation that may follow a word and is no part of it. -/
def isTrailing (c : Char) : Bool :=
  c == ',' || c == '.' || c == ':' || c == ')'

/-- A word without the punctuation that follows it; of a word that is all punctuation, the first
character. -/
def proper (w : List Char) : List Char :=
  match trimRightIf isTrailing w with
  | [] => w.take 1
  | p => p

/-- The name of the function that a word calls: the word ends in a parenthesis, and what stands
before the first one begins with a letter. -/
def callName? (p : List Char) : Option (List Char) :=
  let name := p.takeWhile (· != '(')
  if p.getLast? == some '(' && name.head?.any Char.isAlpha then some name else none

/-- Is the word a web address?  The scheme is read without regard to case, in which the long s is
an s. -/
def isUrl (w : List Char) : Bool :=
  let isHttp := (w.take 4).map Char.toLower == "http".toList
  let isS (c : Char) : Bool := c == 's' || c == 'S' || c == 'ſ'
  let rest := w.drop 4
  let rest := if rest.head?.any isS then rest.drop 1 else rest
  isHttp && "://".toList.isPrefixOf rest

/-- The number that digits spell. -/
def digitsValue (digits : List Char) : Nat :=
  digits.foldl (fun n d => 10 * n + (d.toNat - '0'.toNat)) 0

/-- The number at the head of a text, spaces and line feeds before it included, and the length of
all that.  Numbers from 2^64 on do not count. -/
def rfcNumber? (s : List Char) : Option (Nat × Nat) :=
  let space := s.takeWhile fun c => c == ' ' || c == '\n'
  let digits := (s.drop space.length).takeWhile Char.isDigit
  let n := digitsValue digits
  if digits.isEmpty || UInt64.size ≤ n then none else some (n, space.length + digits.length)

/-- Does a blank line follow a line feed, before `s`? -/
def blankLineFollows (s : List Char) : Bool :=
  (s.dropWhile fun c => isBlank c && c != '\n').head? == some '\n'

/-- The length of the text up to the line feed before a blank line, or up to the end. -/
def blockLength : List Char → Nat
  | [] => 0
  | c :: rest => if c = '\n' && blankLineFollows rest then 0 else blockLength rest + 1

/-- The text up to the next blank line with its white space simplified. -/
def takeBlock (s : List Char) : String × Nat :=
  let n := blockLength s
  (String.ofList (simplify (s.take n)), n)

/-- Code without the white space at its ends; the indentation of its first line is kept if the
line before it is empty. -/
def trimCode (code : List Char) : List Char :=
  let firstLine := code.takeWhile (· != '\n')
  let body :=
    if firstLine.length < code.length && (trim firstLine).isEmpty then
      code.drop (firstLine.length + 1)
    else trimLeft code
  trimRight body

/-- The end of a block of code. -/
def codeEnd : List Char :=
  "\\endcode".toList

/-- The code up to its end. -/
def takeCode (s : List Char) : String × Nat :=
  match find? codeEnd s with
  | some n => (String.ofList (trimCode (s.take n)), n + codeEnd.length)
  | none => (String.ofList (trimCode s), s.length)

end CppDoc.Markup
