import CppDoc.Proofs.Syntax.Written

/-!
# Names as they are printed

The name of a type is printed as a path, perhaps from the outermost scope on, with template arguments
that may have arguments themselves.

* `FreeName`: an identifier that no keyword of the scanners begins;
* `TypePath` and `argumentText`: the name of a type and its template arguments;
* `EndsName`: a name that has been printed does not go on.
-/

namespace CppDoc.Syntax

open CppDoc.Text

/-! ## Names -/

/-- The words to which the scanners of declarations give a meaning. -/
def keywords : List (List Char) :=
  operatorKeyword :: typeModifiers ++
    ["enum", "typedef", "public", "private", "protected"].map String.toList

/-- An identifier that no keyword begins. -/
structure FreeName (c : List Char) : Prop where
  start : c.head?.any isNameStart = true
  chars : c.all isNameChar = true
  free : ∀ w ∈ keywords, ¬ w <+: c

theorem FreeName.identifier {c : List Char} (h : FreeName c) : Identifier c :=
  ⟨h.start, h.chars, h.free _ List.mem_cons_self⟩

/-- The name of something that is declared. -/
structure Name where
  text : List Char
  free : FreeName text

/-- A run of small letters that is a modifier would begin the name. -/
theorem FreeName.unmodified {c : List Char} (h : FreeName c) : Unmodified c := by
  intro hmodifier
  have hkeyword : c.takeWhile Char.isLower ∈ keywords :=
    List.mem_append_left _ (List.mem_cons_of_mem _ hmodifier)
  exact h.free _ hkeyword (List.takeWhile_prefix _)

/-! ## The length of a name -/

/-- There is no gap behind a gap. -/
theorem gap_drop_gapFrom (inComment : Bool) (s : List Char) :
    gap (s.drop (gapFrom inComment s)) = 0 := by
  induction s generalizing inComment with
  | nil => simp [gap, gapFrom]
  | cons c rest ih =>
      rw [gapFrom]
      split
      · exact ih _
      · split
        · exact ih _
        · split
          · exact ih _
          · rename_i hcomment hblank hopen
            simp [gap, gapFrom, hblank, hopen]

theorem gap_drop_gap (s : List Char) : gap (s.drop (gap s)) = 0 :=
  gap_drop_gapFrom false s

/-- A path that has been printed does not go on with `y`. -/
structure EndsPath (y : List Char) : Prop where
  apart : y.head?.any isNameChar = false
  scope : ¬ [':', ':'] <+: y.drop (gap y)

/-- Without a gap before it, a `::` is no gap. -/
theorem EndsPath.not_scope {y : List Char} (h : EndsPath y) : ¬ [':', ':'] <+: y := by
  rintro ⟨v, rfl⟩
  have hgap : gap ([':', ':'] ++ v) = 0 := gap_punctuation (by decide) _
  exact h.scope ⟨v, by rw [hgap, List.drop_zero]⟩

/-- A path that may begin in the outermost scope. -/
structure TypePath extends ScopePath where
  outermost : Bool

namespace TypePath

/-- The `::` of the outermost scope. -/
def scopeText (p : TypePath) : List Char :=
  if p.outermost then [':', ':'] else []

/-- The path as it is printed. -/
def full (p : TypePath) : List Char :=
  p.scopeText ++ p.text

end TypePath

/-! ## Template arguments -/

/-- Template arguments, each of which is the argument of the one before. -/
def argumentText : List TypePath → List Char
  | [] => []
  | p :: ps => '<' :: (p.full ++ argumentText ps ++ ['>'])

/-- A name that has been printed does not go on with `y`. -/
structure EndsName (y : List Char) : Prop extends EndsPath y where
  argument : (y.drop (gap y)).head? ≠ some '<'

theorem templateEnd_of_argument {s b : List Char} {l : Nat} (hb : s.drop l = '<' :: b)
    (hpos : 0 < qualifiedName b) (hclose : (b.drop (qualifiedName b)).head? = some '>') :
    templateEnd s l = l + qualifiedName b + 2 := by
  have hclosed : (decide (0 < qualifiedName b) && (b.drop (qualifiedName b)).head? == some '>') =
      true := by
    rw [hclose, decide_eq_true hpos]
    rfl
  simp only [templateEnd, hb, List.head?_cons, List.tail_cons, if_true, hclosed]

end CppDoc.Syntax
