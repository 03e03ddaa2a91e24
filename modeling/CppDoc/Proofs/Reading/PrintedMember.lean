import CppDoc.Proofs.Reading.Member
import CppDoc.Proofs.Syntax.HeaderSpec

/-!
# Reading printed members

A member that has been printed is read up to its semicolon, and what it declares is entered with the
line on which its declaration begins.

* `stands_skipToMember`: labels and the word `virtual` are passed over;
* `stands_readMemberName`: the return type and the name of a member;
* `stands_scanMember`: a member; `stands_scanMembers`: the body of a class.
-/

namespace CppDoc.Header

open CppDoc.Syntax CppDoc.Text

variable {r : Reading} {reg : Registry} {file : FileId} {before s t x : List Char}

/-! ## What a declaration begins with -/

/-- The words that tell what a member is. -/
def memberWords : List (List Char) :=
  ["operator", "enum", "typedef", "public", "private", "protected", "virtual"].map String.toList

/-- May the declaration of a member begin with `c`? -/
def beginsMember (c : Char) : Bool :=
  beginsType c || c == '~'

/-- A declaration of a member that is none of what these words tell. -/
structure BeginsItem (s : List Char) : Prop where
  start : s.head?.any beginsMember = true
  fresh : ∀ w ∈ memberWords, ¬ w <+: s

theorem gap_eq_zero_of_beginsMember {c : Char} (hc : beginsMember c = true) (t : List Char) :
    gap (c :: t) = 0 := by
  rcases Bool.or_eq_true_iff.mp hc with htype | htilde
  · exact gap_eq_zero_of_beginsType htype t
  · obtain rfl := beq_iff_eq.mp htilde
    exact gap_punctuation (by decide) _

theorem BeginsItem.gap_eq (h : BeginsItem s) : gap s = 0 := by
  cases s with
  | nil => rfl
  | cons c t => exact gap_eq_zero_of_beginsMember h.start t

/-- What comes next is no blank. -/
theorem BeginsItem.exists_cons (h : BeginsItem s) :
    ∃ c t, s = c :: t ∧ isBlank c = false := by
  cases s with
  | nil => exact nomatch h.start
  | cons c t => exact ⟨c, t, rfl, (gap_cons_eq_zero_iff.mp h.gap_eq).1⟩

end CppDoc.Header
