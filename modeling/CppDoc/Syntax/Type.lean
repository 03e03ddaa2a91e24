import CppDoc.Syntax.Name

/-!
# Reading names and types

What is kept of a scanned name or type.  A reader is a function from a text to a value and the
number of characters the value takes up.

* `readName` drops all white space from a name;
* `readType` gives a type its one written form: single spaces, no `class` or `struct`, and no
  space before the final `&` or `*`.
-/

namespace CppDoc.Syntax

open CppDoc.Text

/-- Drops the keywords `class` and `struct` from the front of a type. -/
def dropRecordKeyword : List Char → List Char
  | 'c' :: 'l' :: 'a' :: 's' :: 's' :: ' ' :: rest => dropRecordKeyword rest
  | 's' :: 't' :: 'r' :: 'u' :: 'c' :: 't' :: ' ' :: rest => dropRecordKeyword rest
  | s => s

/-- Drops the space before a final `&` or `*`. -/
def joinIndirection (s : List Char) : List Char :=
  match s.reverse with
  | mark :: ' ' :: front => if mark = '&' || mark = '*' then (mark :: front).reverse else s
  | _ => s

/-- The written form of the type that the characters `s` spell. -/
def cleanType (s : List Char) : List Char :=
  let t := dropRecordKeyword (simplify s)
  let t := replaceAll " class ".toList [' '] t
  joinIndirection (replaceAll " struct ".toList [' '] t)

/-- Reads a qualified name; the empty name if there is none. -/
def readName (s : List Char) : String × Nat :=
  let n := qualifiedName s
  (String.ofList (spaceless (s.take n)), n)

/-- Reads a type; the empty type if there is none. -/
def readType (s : List Char) : String × Nat :=
  let n := typeLength s
  (String.ofList (cleanType (s.take n)), n)

end CppDoc.Syntax
