import CppDoc.Proofs.Reading.Place
import CppDoc.Proofs.Registry.Declared
import CppDoc.Proofs.Syntax.PrintedTypes

/-!
# Headers as they are printed

A header is printed class by class, each at the start of a line, and a class member by member.
`headerText` is the text, and `declaredClasses` what it declares: the classes in their order, each
with its place, its parent and the declarations of its member functions with their lines.
-/

namespace CppDoc.Syntax

open CppDoc.Text

/-! ## Names -/

/-- A name is a path of its own. -/
def Name.path (N : Name) : TypePath where
  first := N.text
  inner := []
  identifiers := fun _ hc => List.mem_singleton.mp hc ▸ N.free.identifier
  outermost := false

/-- A label that may stand before a member. -/
inductive Label where
  | isPublic
  | isPrivate
  | isProtected
  deriving DecidableEq

def Label.word : Label → List Char
  | .isPublic => "public".toList
  | .isPrivate => "private".toList
  | .isProtected => "protected".toList

/-- Labels as they are printed, each with blanks behind it. -/
def labelsText (blanks : List Char) (ls : List Label) : List Char :=
  ls.flatMap fun l => l.word ++ ':' :: blanks

/-- A type before the name of a member.  With the word `virtual` at its front, that would be the
prefix of the member. -/
structure MemberType extends TypeSpec where
  notVirtual : modifiers.head? ≠ some .virtual

/-- The symbol of an operator, without colons. -/
structure Symbol where
  text : List Char
  accepted : OperatorSymbol text
  noColon : ':' ∉ text

/-- What stands before the parameters of a member function. -/
inductive Head where
  | ordinary (returns : MemberType) (name : Name)
  | operator (returns : MemberType) (symbol : Symbol)
  | constructor
  | destructor

namespace Head

/-- The name of the member in the class `c`. -/
def member (c : Name) : Head → List Char
  | .ordinary _ name => name.text
  | .operator _ symbol => operatorKeyword ++ symbol.text
  | .constructor => c.text
  | .destructor => '~' :: c.text

/-- The return type as it is kept. -/
def returns : Head → List Char
  | .ordinary T _ => T.written
  | .operator T _ => T.written
  | _ => []

/-- The return type as it is printed, with a space behind it. -/
def front : Head → List Char
  | .ordinary T _ => T.text ++ [' ']
  | .operator T _ => T.text ++ [' ']
  | _ => []

/-- The head as it is printed. -/
def text (c : Name) (h : Head) : List Char :=
  h.front ++ h.member c

end Head

/-- What a member declares: a function or data. -/
inductive ItemSpec where
  | function (head : Head) (parameters : List ParameterSpec) (isConst : Bool)
  | data (type : MemberType) (name : Name)

namespace ItemSpec

/-- The word `const` behind the parameters. -/
def constText (isConst : Bool) : List Char :=
  if isConst then " const".toList else []

/-- The declaration as it is printed in the class `c`. -/
def text (c : Name) : ItemSpec → List Char
  | .function h ps isConst =>
    h.text c ++ (listText ps ++ constText isConst)
  | .data T name => T.text ++ ' ' :: name.text

/-- What the declaration says of a member function of the class `c`. -/
def prototype? (c : Name) (site : Location) : ItemSpec → Option Prototype
  | .function h ps isConst => some
    { returnType := String.ofList h.returns
      name := String.ofList (c.text ++ ':' :: ':' :: h.member c)
      parameters := listKept ps
      isConst
      origin := site }
  | .data _ _ => none

/-- What the declaration is told apart by. -/
def key? (c : Name) : ItemSpec → Option Key
  | .function h ps isConst =>
    some (String.ofList (c.text ++ ':' :: ':' :: h.member c), signatureOf ps, isConst)
  | .data _ _ => none

end ItemSpec

/-- A member with the labels and the word `virtual` before it. -/
structure MemberSpec where
  indent : List Char
  blank : indent.all isBlank = true
  labels : List Label
  isVirtual : Bool
  item : ItemSpec

namespace MemberSpec

/-- The labels as they are printed. -/
def labelText (m : MemberSpec) : List Char :=
  labelsText m.indent m.labels

/-- The word `virtual` as it is printed. -/
def virtualText (m : MemberSpec) : List Char :=
  if m.isVirtual then "virtual ".toList else []

/-- What is printed before the declaration. -/
def lead (m : MemberSpec) : List Char :=
  m.indent ++ (m.labelText ++ m.virtualText)

/-- The member as it is printed in the class `c`. -/
def text (c : Name) (m : MemberSpec) : List Char :=
  m.lead ++ (m.item.text c ++ [';'])

end MemberSpec

/-- The declarations of member functions of the class `c`, printed behind the text `before`. -/
def declaredMembers (c : Name) (file : FileId) (before : List Char) :
    List MemberSpec → List Prototype
  | [] => []
  | m :: ms =>
    (m.item.prototype? c ⟨file, lineBehind (before ++ m.lead)⟩).toList ++
      declaredMembers c file (before ++ m.text c) ms

/-! ## Classes -/

/-- A class with its parent, if it has one, and its members. -/
structure ClassSpec where
  name : Name
  parent : Option Name
  members : List MemberSpec

namespace ClassSpec

/-- The parent as it is printed. -/
def parentText (c : ClassSpec) : List Char :=
  (c.parent.map fun p => ' ' :: ':' :: ' ' :: ("public".toList ++ ' ' :: p.text)).getD []

/-- The name of the parent, empty if there is none. -/
def parentName (c : ClassSpec) : String :=
  String.ofList ((c.parent.map Name.text).getD [])

/-- The class from its name up to its first member. -/
def opening (c : ClassSpec) : List Char :=
  c.name.text ++ (c.parentText ++ ['\n', '{'])

/-- The members as they are printed. -/
def body (c : ClassSpec) : List Char :=
  c.members.flatMap (·.text c.name)

/-- The class from its name on. -/
def statement (c : ClassSpec) : List Char :=
  c.opening ++ (c.body ++ ['\n', '}', ';', '\n'])

/-- The class as it is printed. -/
def text (c : ClassSpec) : List Char :=
  "class ".toList ++ c.statement

/-- What is declared by the class, printed behind the text `before`. -/
def declared (c : ClassSpec) (file : FileId) (before : List Char) : DeclaredClass where
  name := String.ofList c.name.text
  parentName := c.parentName
  origin := ⟨file, lineBehind (before ++ "class ".toList)⟩
  prototypes := declaredMembers c.name file (before ++ "class ".toList ++ c.opening) c.members

/-- What the member functions are told apart by. -/
def keys (c : ClassSpec) : List Key :=
  c.members.filterMap (·.item.key? c.name)

end ClassSpec

/-- The header as it is printed. -/
def headerText (cs : List ClassSpec) : List Char :=
  cs.flatMap ClassSpec.text

/-- The name of a member has no `:` in it. -/
theorem Head.colon_not_mem (h : Head) (c : Name) : ':' ∉ h.member c := by
  have hname (n : Name) : ':' ∉ n.text := fun hmem =>
    nomatch List.all_eq_true.mp n.free.chars ':' hmem
  cases h with
  | ordinary _ name => exact hname name
  | operator _ symbol =>
      intro hmem
      rcases List.mem_append.mp hmem with hmem | hmem
      · exact absurd hmem (by decide)
      · exact symbol.noColon hmem
  | constructor => exact hname c
  | destructor =>
      intro hmem
      rcases List.mem_cons.mp hmem with heq | hmem
      · exact nomatch heq
      · exact hname c hmem

end CppDoc.Syntax
