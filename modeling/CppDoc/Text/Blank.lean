/-!
# Blanks and white space

Two classes of white space are told apart everywhere.  A **blank** is one of the four characters
that separate tokens and words of a source text: space, tab, carriage return, line feed.  **White
space** is the Unicode property, which also holds of the no-break space, the line separator and
their kin; it decides how a piece of text is cleaned up once it has been cut out.

* `words` cuts a text at white space, and `simplify` joins the words by single spaces;
* `spaceless` drops white space altogether;
* `trimLeft`, `trimRight` and `trim` drop it at the ends only.
-/

namespace CppDoc.Text

/-- A blank of the source text: space, tab, carriage return or line feed. -/
def isBlank (c : Char) : Bool :=
  c == ' ' || c == '\t' || c == '\r' || c == '\n'

/-- The code points with the Unicode property White_Space. -/
def isSpace (c : Char) : Bool :=
  let n := c.toNat
  (0x9 ≤ n && n ≤ 0xD) || n == 0x20 || n == 0x85 || n == 0xA0 || n == 0x1680 ||
    (0x2000 ≤ n && n ≤ 0x200A) || n == 0x2028 || n == 0x2029 || n == 0x202F ||
    n == 0x205F || n == 0x3000

/-- Every blank is white space. -/
theorem isSpace_of_isBlank {c : Char} (h : isBlank c = true) : isSpace c = true := by
  simp only [isBlank, Bool.or_eq_true, beq_iff_eq] at h
  rcases h with ((rfl | rfl) | rfl) | rfl <;> decide

/-- The maximal runs of characters that are not white space, in order. -/
def words : List Char → List (List Char)
  | [] => []
  | c :: rest =>
    if isSpace c then words rest
    else if rest.head?.all isSpace then [c] :: words rest
    else
      match words rest with
      | [] => [[c]]
      | w :: ws => (c :: w) :: ws

/-- The words of `s`, joined by single spaces. -/
def simplify (s : List Char) : List Char :=
  List.intercalate [' '] (words s)

/-- `s` without its white space. -/
def spaceless (s : List Char) : List Char :=
  s.filter fun c => !isSpace c

/-- `s` without the white space it begins with. -/
def trimLeft (s : List Char) : List Char :=
  s.dropWhile isSpace

/-- `s` without the characters of class `p` that it ends with. -/
def trimRightIf (p : Char → Bool) (s : List Char) : List Char :=
  (s.reverse.dropWhile p).reverse

/-- `s` without the white space it ends with. -/
def trimRight (s : List Char) : List Char :=
  trimRightIf isSpace s

/-- `s` without the white space at either end. -/
def trim (s : List Char) : List Char :=
  trimRight (trimLeft s)

end CppDoc.Text
