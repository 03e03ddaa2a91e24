import CppDoc.Text.LetterCase

/-!
# Lower-casing

The full lower-case mapping of Unicode.  Each capital letter becomes its small letter, and two
letters are special: the dotted capital I becomes two code points, and a capital sigma that ends a
word becomes the final sigma.
-/

namespace CppDoc.Text

/-- Is `n` in one of the ranges? -/
def inRanges (ranges : List (Nat × Nat)) (n : Nat) : Bool :=
  ranges.any fun r => r.1 ≤ n && n ≤ r.2

/-- The property Cased. -/
def isCased (c : Char) : Bool :=
  inRanges casedRanges c.toNat

/-- The property Case_Ignorable. -/
def isCaseIgnorable (c : Char) : Bool :=
  inRanges caseIgnorableRanges c.toNat

/-- The lower-case form of a character on its own. -/
def lowerChar (c : Char) : List Char :=
  if c = 'İ' then ['i', '\u0307']
  else
    match lowerRuns.find? (·.holds c.toNat) with
    | some r => [Char.ofNat (r.lowered c.toNat)]
    | none => [c]

/-- Does a text go on with a cased letter, once characters that do not count have been skipped? -/
def continuesCased (s : List Char) : Bool :=
  (s.dropWhile isCaseIgnorable).head?.any isCased

/-- Lower-cases a text of which a part has been read; `inWord` tells whether the last character
that counts was a cased letter.  A sigma is final if such a letter precedes it and none follows. -/
def lowerFrom (inWord : Bool) : List Char → List Char
  | [] => []
  | c :: rest =>
    let here :=
      if c = 'Σ' then (if inWord && !continuesCased rest then ['ς'] else ['σ']) else lowerChar c
    here ++ lowerFrom (if isCaseIgnorable c then inWord else isCased c) rest

/-- The lower-case form of a text. -/
def lowerCase (s : String) : String :=
  String.ofList (lowerFrom false s.toList)

end CppDoc.Text
