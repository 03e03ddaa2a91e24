import CppDoc.Text.Blank
import CppDoc.Text.Search

/-!
# Gaps between tokens

Between two tokens there may be blanks and line comments.  A comment runs from `//` to the end of
its line.  Scanners do not change the text: they measure how many characters at its head they
recognise.  `gap` measures the blanks and comments a text begins with.
-/

namespace CppDoc.Syntax

open CppDoc.Text

/-- The length of the gap at the head of a text of which the part read so far ended inside a line
comment, or did not. -/
def gapFrom (inComment : Bool) : List Char → Nat
  | [] => 0
  | c :: rest =>
    if inComment then gapFrom (c != '\n') rest + 1
    else if isBlank c then gapFrom false rest + 1
    else if c = '/' && rest.head? == some '/' then gapFrom true rest + 1
    else 0

/-- The length of the blanks and line comments that `s` begins with. -/
def gap (s : List Char) : Nat :=
  gapFrom false s

/-- What follows the gap at the head of `s`. -/
def skipGap (s : List Char) : List Char :=
  s.drop (gap s)

/-- A gap, begun or not, is part of the text. -/
theorem gapFrom_le (inComment : Bool) (s : List Char) : gapFrom inComment s ≤ s.length := by
  induction s generalizing inComment with
  | nil => simp [gapFrom]
  | cons c rest ih =>
    simp only [gapFrom, List.length_cons]
    have hcomment := ih (c != '\n')
    have hopen := ih true
    have hblank := ih false
    split
    · omega
    · split
      · omega
      · split <;> omega

/-- A gap is part of the text. -/
theorem gap_le (s : List Char) : gap s ≤ s.length :=
  gapFrom_le false s

end CppDoc.Syntax
