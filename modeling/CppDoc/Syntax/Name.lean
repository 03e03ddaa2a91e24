import CppDoc.Syntax.Gap

/-!
# Names and types

The part of C++ that declarations are picked out by, measured at the head of a text.  Every scanner
gives the length of what it recognises, gaps before it included, and 0 if it recognises nothing.

* `simpleName` measures a plain identifier or an operator name;
* `qualifiedName` measures a name with scopes and one template argument;
* `typeLength` measures a type with its modifiers and its `&` or `*`.

The four notions refer to each other: a name may be that of a conversion operator, which ends in a
type, and a type contains a name.  Each turn of that circle takes characters off the text.
-/

namespace CppDoc.Syntax

open CppDoc.Text

/-- May `c` begin an identifier? -/
def isNameStart (c : Char) : Bool :=
  c.isAlpha || c == '_'

/-- May `c` continue an identifier? -/
def isNameChar (c : Char) : Bool :=
  c.isAlphanum || c == '_'

/-- Punctuation an operator name may consist of. -/
def isOperatorChar (c : Char) : Bool :=
  (('!' ≤ c && c ≤ '?') || ('[' ≤ c && c ≤ '`')) && !c.isDigit

/-- The keyword of operator names. -/
def operatorKeyword : List Char :=
  "operator".toList

/-- The keywords that may stand before the name of a type. -/
def typeModifiers : List (List Char) :=
  ["const", "static", "virtual", "unsigned", "signed", "inline", "class", "struct"].map
    String.toList

/-- The length of a plain identifier. -/
def identifierLength : List Char → Nat
  | [] => 0
  | c :: rest => if isNameStart c then (rest.takeWhile isNameChar).length + 1 else 0

/-- The length of one type modifier and the blanks before it: the small letters that follow the
blanks must be a modifier, and what follows them does not matter. -/
def modifierLength (s : List Char) : Nat :=
  let blanks := s.takeWhile isBlank
  let word := (s.drop blanks.length).takeWhile Char.isLower
  if typeModifiers.contains word then blanks.length + word.length else 0

/-- The length of the type modifiers that `s` begins with. -/
def modifiersLength (s : List Char) : Nat :=
  match s with
  | [] => 0
  | c :: rest =>
    let n := modifierLength (c :: rest)
    if n = 0 then 0 else n + modifiersLength (rest.drop (n - 1))
termination_by s.length
decreasing_by simp only [List.length_drop, List.length_cons]; omega

/-- The length of the symbol of an operator name: `()`, one punctuation character, or two of which
the second is no opening parenthesis. -/
def symbolLength : List Char → Nat
  | '(' :: ')' :: _ => 2
  | c :: d :: _ =>
    if isOperatorChar c then (if d != '(' && isOperatorChar d then 2 else 1) else 0
  | [c] => if isOperatorChar c then 1 else 0
  | [] => 0

/-- The length of the `&` or `*` a type may end in, with the gap after it. -/
def indirectionLength : List Char → Nat
  | '&' :: rest => gap rest + 1
  | '*' :: rest => gap rest + 1
  | _ => 0

/-- What a scanner that works on `s` may still use up: scanners of a higher rank may start the lower
ones on the same text. -/
def weight (s : List Char) (rank : Nat) : Nat :=
  5 * s.length + rank

/-- A shorter text is left to scanners of every rank. -/
theorem weight_lt_of_length_lt {s t : List Char} {i j : Nat} (hi : i < 5)
    (h : t.length < s.length) : weight t i < weight s j := by
  unfold weight
  omega

/-- The same text, or a shorter one, is left to scanners of a lower rank. -/
theorem weight_drop_lt {s : List Char} {i j k : Nat} (hij : i < j) :
    weight (s.drop k) i < weight s j := by
  simp only [weight, List.length_drop]
  omega

mutual

/-- The length of an identifier or an operator name, with the gap before it. -/
def simpleName (s : List Char) : Nat :=
  let k := gap s
  let name := s.drop k
  let operator :=
    if h : operatorKeyword.isPrefixOf name then
      let n := operatorTail (name.drop operatorKeyword.length)
      if n = 0 then 0 else operatorKeyword.length + n
    else 0
  let n := if operator = 0 then identifierLength name else operator
  if n = 0 then 0 else k + n
termination_by weight s 0
decreasing_by
  have hlt := length_drop_lt_of_isPrefixOf (by decide) h
  have hle : name.length ≤ s.length := by simp [name]
  exact weight_lt_of_length_lt (by decide) (Nat.lt_of_lt_of_le hlt hle)

/-- The length of the `::`-separated members that follow the first part of a name.  A member is a
name, an operator name, or a destructor, whose `~` counts even when no name follows it. -/
def scopeChain (s : List Char) : Nat :=
  match s with
  | ':' :: ':' :: rest =>
    let n :=
      if h : operatorKeyword.isPrefixOf rest then
        let n := operatorTail (rest.drop operatorKeyword.length)
        if n = 0 then 0 else operatorKeyword.length + n
      else if rest.head? == some '~' then simpleName rest.tail + 1
      else simpleName rest
    if n = 0 then 0 else n + 2 + scopeChain (rest.drop n)
  | _ => 0
termination_by weight s 1
decreasing_by
  all_goals apply weight_lt_of_length_lt (by decide)
  · have := length_drop_lt_of_isPrefixOf (by decide) h
    simp only [List.length_drop, List.length_cons] at this ⊢
    omega
  · simp only [List.length_tail, List.length_cons]; omega
  · simp only [List.length_cons]; omega
  · simp only [List.length_cons, List.length_drop]; omega

/-- The length of a name with scopes and one level of template arguments, with the gaps before and
after it. -/
def qualifiedName (s : List Char) : Nat :=
  let k := gap s
  let k :=
    match s.drop k with
    | ':' :: ':' :: rest => k + 2 + gap rest
    | _ => k
  let l := simpleName (s.drop k)
  if l = 0 then 0
  else
    let l := k + l
    let l := l + gap (s.drop l)
    let l := l + scopeChain (s.drop l)
    let l := l + gap (s.drop l)
    if h : (s.drop l).head? = some '<' then
      let argument := (s.drop l).tail
      let n := qualifiedName argument
      if 0 < n && (argument.drop n).head? == some '>' then l + n + 2 else l
    else l
termination_by weight s 2
decreasing_by
  · exact weight_drop_lt (by decide)
  · exact weight_drop_lt (by decide)
  · exact weight_lt_of_length_lt (by decide) (length_tail_drop_lt_of_head? h)

/-- The length of a type, with the gaps before and after it: modifiers, a name, perhaps one more
member, perhaps an `&` or a `*`.  A `::` without a member spoils the type. -/
def typeLength (s : List Char) : Nat :=
  let k := modifiersLength s
  let n := qualifiedName (s.drop k)
  if n = 0 then 0
  else
    let l := k + n
    let l := l + gap (s.drop l)
    match _h : s.drop l with
    | ':' :: ':' :: rest =>
      let m := simpleName rest
      if m = 0 then 0
      else
        let l := l + 2 + m
        let l := l + gap (s.drop l)
        l + indirectionLength (s.drop l)
    | tail => l + indirectionLength tail
termination_by weight s 3
decreasing_by
  · exact weight_drop_lt (by decide)
  · have := length_lt_of_drop_eq_cons _h
    exact weight_lt_of_length_lt (by decide) (by simp only [List.length_cons] at this; omega)

/-- The length of what follows the keyword of an operator name up to the `(` of its parameters: a
symbol or a type.  Without that `(` it is no operator name. -/
def operatorTail (s : List Char) : Nat :=
  let k := gap s
  let symbol := symbolLength (s.drop k)
  let n := if symbol = 0 then typeLength (s.drop k) else symbol
  if n = 0 then 0
  else
    let l := k + n
    let l := l + gap (s.drop l)
    if (s.drop l).head? == some '(' then l else 0
termination_by weight s 4
decreasing_by exact weight_drop_lt (by decide)

end

end CppDoc.Syntax
