import CppDoc.Proofs.Syntax.Indent
import CppDoc.Proofs.Syntax.Parameters
import CppDoc.Proofs.Syntax.Written
import CppDoc.Proofs.Text.Search

/-!
# Declarations of members

A member of a class is declared in its class and documented out of it: between the return type and
the parameters stands its name in the one place, and its name behind the path of the class in the
other.  `IsMember p d` lists the declarations of the members of the class `p`, which are ordinary
members, operators, constructors and destructors.

* `ReturnType.typeLength_append`: a return type ends before a name, whatever the name;
* `ArgumentList.readParameters_append`: a parameter list ends at its parenthesis;
* `Declaration.inClass` and `Declaration.outOfClass`: the two ways to write a declaration.
-/

namespace CppDoc.Syntax

open CppDoc.Text

/-! ## Return types -/

/-- The text of a type that ends before the name `x`, as a token of its own. -/
structure ReturnType (type x : List Char) : Prop where
  ne_nil : type ≠ []
  plain : Plain type
  apart : type.getLast?.any isNameChar = false
  accepted : typeLength (type ++ x) = type.length

/-- **A return type** ends before every name. -/
theorem ReturnType.typeLength_append {type x y : List Char} (h : ReturnType type x)
    (hx : x.head?.any isNameStart = true) (hy : y.head?.any isNameStart = true) :
    typeLength (type ++ y) = type.length := by
  have halike : Alike type x y :=
    ⟨follows_of_isNameStart hx h.apart, follows_of_isNameStart hy h.apart, hx.trans hy.symm⟩
  exact typeLength_eq_of_alike h.plain h.ne_nil halike h.accepted

/-- A keyword with a space behind it does not begin a text that has another word at its front. -/
theorem ReturnType.not_begins {type x w : List Char} (h : ReturnType type x)
    (hw : w.all isNameChar = true) (hno : ¬ w <+: type) (y : List Char) :
    ¬ w ++ [' '] <+: type ++ y := by
  rintro ⟨v, hv⟩
  rw [List.append_assoc] at hv
  rcases List.append_eq_append_iff.mp hv with ⟨tail, rfl, -⟩ | ⟨tail, rfl, hrest⟩
  · exact hno ⟨tail, rfl⟩
  · -- The type would be a part of the keyword, and its end is that of no word.
    have hlast := h.apart
    rw [List.getLast?_eq_some_getLast h.ne_nil] at hlast
    have hmem := List.getLast_mem h.ne_nil
    rw [List.all_append, Bool.and_eq_true] at hw
    have hname := List.all_eq_true.mp hw.1 _ hmem
    rw [Option.any_some, hname] at hlast
    exact nomatch hlast

/-! ## Parameter lists -/

/-- What is kept of the parameters that stand between two parentheses. -/
def parametersOf (arguments : List Char) : String :=
  (readParameters ('(' :: (arguments ++ [')']))).1

/-- The text of a parameter list without its parentheses. -/
structure ArgumentList (arguments : List Char) : Prop where
  plain : Plain arguments
  readable : parametersOf arguments ≠ ""
  whole : (readParameters ('(' :: (arguments ++ [')']))).2 = arguments.length + 2

theorem ArgumentList.readParameters_append {arguments : List Char} (h : ArgumentList arguments)
    (t : List Char) :
    readParameters ('(' :: (arguments ++ ')' :: t)) =
      (parametersOf arguments, arguments.length + 2) := by
  have hsame := CppDoc.Syntax.readParameters_append h.plain h.readable h.whole t
  rw [← List.cons_append, hsame]
  exact Prod.ext rfl h.whole

/-! ## Declarations -/

/-- The declaration of a member function: the texts of its return type, its name and its
parameters. -/
structure Declaration where
  returns : List Char
  name : List Char
  arguments : List Char

namespace Declaration

/-- The parameters with the parentheses around them. -/
def parameterText (d : Declaration) : List Char :=
  '(' :: (d.arguments ++ [')'])

/-- The declaration in the body of its class. -/
def inClass (d : Declaration) : List Char :=
  d.returns ++ d.name ++ d.parameterText

/-- The declaration out of the class `p`. -/
def outOfClass (d : Declaration) (p : ScopePath) : List Char :=
  d.returns ++ p.member d.name ++ d.parameterText

/-- The qualified name of the function. -/
def qualifiedName (d : Declaration) (p : ScopePath) : String :=
  String.ofList (p.member d.name)

/-- What is kept of the parameters. -/
def parameters (d : Declaration) : String :=
  parametersOf d.arguments

theorem inClass_append (d : Declaration) (t : List Char) :
    d.inClass ++ t = d.returns ++ (d.name ++ '(' :: (d.arguments ++ ')' :: t)) := by
  simp [inClass, parameterText]

theorem outOfClass_append (d : Declaration) (p : ScopePath) (t : List Char) :
    d.outOfClass p ++ t = d.returns ++ (p.member d.name ++ '(' :: (d.arguments ++ ')' :: t)) := by
  simp [outOfClass, parameterText]

end Declaration

/-- A declaration that can be read out of the class `p`. -/
structure IsReadable (p : ScopePath) (d : Declaration) : Prop where
  name : MemberName d.name
  returns : (d.returns = [] ∧ Unmodified p.first) ∨
    ∃ x, x.head?.any isNameStart = true ∧ ReturnType d.returns x
  arguments : ArgumentList d.arguments

/-- The owner of a member is its class. -/
theorem Declaration.ownerPart?_qualifiedName {d : Declaration} (hcolon : ':' ∉ d.name)
    (p : ScopePath) : ownerPart? (d.qualifiedName p) = some (String.ofList p.text) := by
  rw [qualifiedName, p.member_eq]
  exact ownerPart?_member p.text_ne_nil hcolon

/-- Keywords that begin a member which declares no function. -/
def memberKeywords : List (List Char) :=
  ["enum", "typedef"].map String.toList

/-- The members of the class `p` that its header declares.  A constructor bears the name of its
class, and neither it nor the destructor has a return type. -/
inductive IsMember (p : ScopePath) : Declaration → Prop
  | ordinary {returns name arguments : List Char} (hname : Identifier name)
      (hreturns : ReturnType returns name) (hkeywords : ∀ w ∈ memberKeywords, ¬ w <+: returns)
      (harguments : ArgumentList arguments) : IsMember p ⟨returns, name, arguments⟩
  | operator {returns symbol arguments : List Char} (hsymbol : OperatorSymbol symbol)
      (hcolon : ':' ∉ symbol) (hreturns : ReturnType returns (operatorKeyword ++ symbol))
      (hkeywords : ∀ w ∈ memberKeywords, ¬ w <+: returns) (harguments : ArgumentList arguments) :
      IsMember p ⟨returns, operatorKeyword ++ symbol, arguments⟩
  | constructor {arguments : List Char} (hinner : p.inner = []) (hfirst : Unmodified p.first)
      (harguments : ArgumentList arguments) : IsMember p ⟨[], p.first, arguments⟩
  | destructor {c arguments : List Char} (hc : Identifier c) (hfirst : Unmodified p.first)
      (harguments : ArgumentList arguments) : IsMember p ⟨[], '~' :: c, arguments⟩

theorem IsMember.isReadable {p : ScopePath} {d : Declaration} (h : IsMember p d) :
    IsReadable p d := by
  cases h with
  | ordinary hname hreturns _ harguments =>
      exact ⟨.identifier hname, .inr ⟨_, hname.start, hreturns⟩, harguments⟩
  | @operator returns symbol arguments hsymbol _ hreturns _ harguments =>
      have hstart : (operatorKeyword ++ symbol).head?.any isNameStart = true := by
        rw [List.head?_append]
        rfl
      exact ⟨.operator hsymbol, .inr ⟨_, hstart, hreturns⟩, harguments⟩
  | constructor _ hfirst harguments =>
      exact ⟨.identifier p.identifier_first, .inl ⟨rfl, hfirst⟩, harguments⟩
  | destructor hc hfirst harguments => exact ⟨.destructor hc, .inl ⟨rfl, hfirst⟩, harguments⟩

/-- The name of a member has no `:` in it. -/
theorem IsMember.colon_not_mem {p : ScopePath} {d : Declaration} (h : IsMember p d) :
    ':' ∉ d.name := by
  have hidentifier {c : List Char} (hc : Identifier c) : ':' ∉ c := fun hmem =>
    nomatch List.all_eq_true.mp hc.chars ':' hmem
  cases h with
  | ordinary hname => exact hidentifier hname
  | operator _ hcolon =>
      intro hmem
      rcases List.mem_append.mp hmem with hmem | hmem
      · exact absurd hmem (by decide)
      · exact hcolon hmem
  | constructor => exact hidentifier p.identifier_first
  | destructor hc =>
      intro hmem
      rcases List.mem_cons.mp hmem with heq | hmem
      · exact nomatch heq
      · exact hidentifier hc hmem

end CppDoc.Syntax
