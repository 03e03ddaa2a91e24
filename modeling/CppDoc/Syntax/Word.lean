import CppDoc.Syntax.Type

/-!
# Words and values

The small tokens of directives and enumerations: a word is identifiers joined by hyphens, a value
is an integer or a name.
-/

namespace CppDoc.Syntax

open CppDoc.Text

/-- The length of the identifiers at the head of a text that are each preceded by a hyphen. -/
def hyphenated (s : List Char) : Nat :=
  match s with
  | '-' :: rest =>
    let n := simpleName rest
    if n = 0 then 0 else n + 1 + hyphenated (rest.drop n)
  | _ => 0
termination_by s.length
decreasing_by simp only [List.length_drop, List.length_cons]; omega

/-- Reads a word; the empty word takes up nothing. -/
def readWord (s : List Char) : String × Nat :=
  let n := simpleName s
  let n := n + hyphenated (s.drop n)
  let word := simplify (s.take n)
  if word.isEmpty then ("", 0) else (String.ofList word, n)

/-- Reads the value of an enumerator: digits with an optional minus sign before them, or a
name. -/
def readValue (s : List Char) : String × Nat :=
  let n := gap s
  let value := s.drop n
  let sign := if value.head? == some '-' then 1 else 0
  let digits := (value.drop sign).takeWhile Char.isDigit
  let length := sign + digits.length
  if length = 0 then readName s else (String.ofList (value.take length), n + length)

end CppDoc.Syntax
