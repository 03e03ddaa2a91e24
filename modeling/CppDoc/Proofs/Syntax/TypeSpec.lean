import CppDoc.Proofs.Syntax.NameSpec

/-!
# Types as they are printed

A type is printed as its modifiers, the keyword of a class if it is repeated, its name with template
arguments, perhaps a member of the template, and a mark that makes it a reference or a pointer.  What
is kept of it is the same without the keyword.

* `TypeSpec.text` and `TypeSpec.written`: a type as it is printed and as it is kept;
* `TypeSpec.EndsType`: a type that has been printed does not go on;
* `replaceAll_of_prefix`: the keyword of a class, where it stands between spaces, is replaced.
-/

namespace CppDoc.Syntax

open CppDoc.Text

/-! ## Types -/

/-- A modifier of a type. -/
inductive Modifier where
  | const
  | static
  | unsigned
  | signed
  | inline
  | virtual
  deriving DecidableEq

def Modifier.text : Modifier → List Char
  | .const => "const".toList
  | .static => "static".toList
  | .unsigned => "unsigned".toList
  | .signed => "signed".toList
  | .inline => "inline".toList
  | .virtual => "virtual".toList

/-- The keyword that may be repeated before the name of a class. -/
inductive RecordKey where
  | ofClass
  | ofStruct
  deriving DecidableEq

def RecordKey.text : RecordKey → List Char
  | .ofClass => "class".toList
  | .ofStruct => "struct".toList

/-- What a type makes of its name. -/
inductive Mark where
  | reference
  | pointer
  deriving DecidableEq

def Mark.text : Mark → List Char
  | .reference => ['&']
  | .pointer => ['*']

/-- A type that contains a name besides its modifiers.  Behind template arguments, a member of the
template may follow. -/
structure TypeSpec where
  modifiers : List Modifier
  record : Option RecordKey
  name : TypePath
  free : FreeName name.first
  arguments : List TypePath
  nested : Option Name
  nested_eq_none : arguments = [] → nested = none
  mark : Option Mark

/-- Words with a space behind each of them. -/
def spaced (ws : List (List Char)) : List Char :=
  ws.flatMap (· ++ [' '])

theorem spaced_cons (w : List Char) (ws : List (List Char)) :
    spaced (w :: ws) = w ++ ' ' :: spaced ws := by
  simp [spaced]

namespace TypeSpec

/-- The member of the template as it is printed. -/
def nestedText (T : TypeSpec) : List Char :=
  (T.nested.map fun n => ':' :: ':' :: n.text).getD []

/-- The name with its arguments. -/
def stem (T : TypeSpec) : List Char :=
  T.name.full ++ (argumentText T.arguments ++ T.nestedText)

/-- The mark as it is printed. -/
def markText (T : TypeSpec) : List Char :=
  (T.mark.map Mark.text).getD []

/-- The words before the name. -/
def front (T : TypeSpec) : List (List Char) :=
  T.modifiers.map Modifier.text ++ T.record.toList.map RecordKey.text

/-- The type as it is printed. -/
def text (T : TypeSpec) : List Char :=
  spaced T.front ++ (T.stem ++ T.markText)

/-- The type as it is kept. -/
def written (T : TypeSpec) : List Char :=
  spaced (T.modifiers.map Modifier.text) ++ (T.stem ++ T.markText)

theorem mem_typeModifiers {T : TypeSpec} {w : List Char} (hw : w ∈ T.front) :
    w ∈ typeModifiers := by
  rcases List.mem_append.mp hw with hw | hw
  · obtain ⟨m, -, rfl⟩ := List.mem_map.mp hw
    cases m <;> decide
  · obtain ⟨k, -, rfl⟩ := List.mem_map.mp hw
    cases k <;> decide

/-! ## The end of a type -/

/-- What may follow a type, with blanks between them. -/
structure EndsType (blanks x : List Char) : Prop where
  blank : blanks.all isBlank = true
  fresh : x.head?.any goesOn = false
  apart : x.head?.any isNameChar = true → blanks ≠ []

section EndsType

variable {b x : List Char}

theorem EndsType.follows (h : EndsType b x) : Follows [] x :=
  ⟨h.fresh, fun _ => rfl⟩

theorem EndsType.gap_eq (h : EndsType b x) : gap (b ++ x) = b.length := by
  rw [gap_blanks_append h.blank, h.follows.gap_eq, Nat.add_zero]

end EndsType

/-- The name of a type does not go on behind it. -/
theorem head?_arguments (T : TypeSpec) {y : List Char} (hy : y.head?.any isNameChar = false) :
    (argumentText T.arguments ++ (T.nestedText ++ y)).head?.any isNameChar = false := by
  cases harguments : T.arguments with
  | nil =>
      rw [nestedText, T.nested_eq_none harguments]
      exact hy
  | cons => rfl

end TypeSpec

/-! ## The keyword of a class -/

/-- Where there is no occurrence, a character is kept. -/
theorem replaceAll_cons {pat s : List Char} {c : Char} (hno : ¬ pat <+: c :: s) (new : List Char) :
    replaceAll pat new (c :: s) = c :: replaceAll pat new s := by
  rw [replaceAll, replaceFrom, if_neg fun h => hno (List.isPrefixOf_iff_prefix.mp h)]
  rfl

/-- What is left of an occurrence is passed over. -/
theorem replaceFrom_append (pat new a s : List Char) :
    replaceFrom pat new a.length (a ++ s) = replaceAll pat new s := by
  induction a with
  | nil => rfl
  | cons c rest ih =>
      rw [List.length_cons, List.cons_append, replaceFrom]
      exact ih

/-- An occurrence is replaced, and the search goes on behind it. -/
theorem replaceAll_of_prefix {pat : List Char} (hpat : pat ≠ []) (new s : List Char) :
    replaceAll pat new (pat ++ s) = new ++ replaceAll pat new s := by
  obtain ⟨c, rest, rfl⟩ := List.exists_cons_of_ne_nil hpat
  have hprefix : (c :: rest).isPrefixOf (c :: rest ++ s) = true :=
    List.isPrefixOf_iff_prefix.mpr (List.prefix_append _ _)
  rw [List.cons_append] at hprefix ⊢
  rw [replaceAll, replaceFrom, if_pos hprefix, List.length_cons, Nat.add_sub_cancel,
    replaceFrom_append]

/-- The keyword of a class between spaces. -/
def RecordKey.pattern (k : RecordKey) : List Char :=
  ' ' :: (k.text ++ [' '])

theorem solid_record (k : RecordKey) : Solid k.text := by
  cases k <;> exact Solid.of_all (by decide)

/-- A space before a text without white space is no keyword. -/
theorem not_pattern_of_solid {v : List Char} (hv : Solid v) (k : RecordKey) :
    ¬ k.pattern <+: ' ' :: v := by
  rintro ⟨rest, hrest⟩
  have hmem : ' ' ∈ v := by
    rw [RecordKey.pattern, List.cons_append] at hrest
    rw [← (List.cons.inj hrest).2]
    simp
  exact absurd (hv ' ' hmem) (by decide)

/-! ## The first character -/

/-- May a type begin with `c`? -/
def beginsType (c : Char) : Bool :=
  isNameStart c || c == ':'

theorem gap_eq_zero_of_beginsType {c : Char} (hc : beginsType c = true) (t : List Char) :
    gap (c :: t) = 0 := by
  rcases Bool.or_eq_true_iff.mp hc with hname | hcolon
  · exact gap_eq_zero_of_isNameStart hname
  · obtain rfl := beq_iff_eq.mp hcolon
    exact gap_punctuation (by decide) _

end CppDoc.Syntax
