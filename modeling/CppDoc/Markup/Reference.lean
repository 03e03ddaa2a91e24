import CppDoc.Markup.Word
import CppDoc.Registry.Hierarchy

/-!
# References

Which words of a documentation refer to classes and functions.  Names without a class are looked for
in the class that the documentation belongs to and in its ancestors, nearest first.

* `resolve` decides what a word in plain text refers to;
* `firstClass?` finds the first class named in a piece of a signature.
-/

namespace CppDoc.Markup

open CppDoc.Text

/-- The class whose members names without a class refer to. -/
def scope (reg : Registry) : Subject → Option ClassId
  | .function f => some (reg.function f).owner
  | .classPage c => some c
  | .chapter _ => none

/-- What a word refers to.  A word that refers to nothing stays text, and that may be a problem. -/
inductive Reference where
  | function (f : FunctionId)
  | classPage (c : ClassId)
  | text (problem : Option Problem)
  deriving DecidableEq, Repr

/-- The first function of a name: of just that name if it is qualified, else a member of the nearest
class that has one. -/
def findTarget? (reg : Registry) (within : Option ClassId) (name : String) : Option FunctionId :=
  if name.toList.contains ':' then reg.findFunction? name
  else
    match within with
    | none => none
    | some c =>
      (c :: reg.ancestors c).findSome? fun a =>
        reg.findFunction? ((reg.getClass a).name ++ "::" ++ name)

/-- What a call of `name` refers to.  A function does not link to itself, and only `main` need not
be known within a class. -/
def resolveCall (reg : Registry) (subject : Subject) (name : String) : Reference :=
  let within := scope reg subject
  match findTarget? reg within name with
  | some f => if subject = .function f then .text none else .function f
  | none =>
    match within with
    | some c =>
      .text (if name = "main" then none else some (.noLinkTarget name (reg.getClass c).name))
    | none => .text none

/-- What a word in capitals refers to: a class other than the one whose documentation this is. -/
def resolveClass (reg : Registry) (subject : Subject) (name : String) : Reference :=
  match reg.findClass? name with
  | some c => if scope reg subject = some c then .text none else .classPage c
  | none => .text none

/-- What a word in plain text refers to. -/
def resolve (reg : Registry) (subject : Subject) (w : List Char) : Reference :=
  let p := proper w
  if p.getLast? == some '(' then
    match callName? p with
    | some name => resolveCall reg subject (String.ofList name)
    | none => .text none
  else if p.head?.any Char.isUpper then resolveClass reg subject (String.ofList p)
  else .text none

/-- The first class that a piece of a signature names.  Candidates begin with a capital letter and
go on with letters and digits. -/
def firstClass? (reg : Registry) (s : List Char) : Option ClassId :=
  match s with
  | [] => none
  | c :: rest =>
    if c.isUpper then
      match reg.findClass? (String.ofList (c :: rest.takeWhile Char.isAlphanum)) with
      | some id => some id
      | none => firstClass? reg (rest.dropWhile Char.isAlphanum)
    else firstClass? reg rest
termination_by s.length
decreasing_by
  · have := (List.dropWhile_sublist (l := rest) Char.isAlphanum).length_le
    simp only [List.length_cons]
    omega
  · simp

/-- A piece of a signature, linked to the first class that it names unless that is `within`. -/
def signaturePiece (reg : Registry) (within : ClassId) (s : String) : Draft :=
  match firstClass? reg s.toList with
  | some c => if c = within then .text s else .content (.classLink s (reg.getClass c).name)
  | none => .text s

end CppDoc.Markup
