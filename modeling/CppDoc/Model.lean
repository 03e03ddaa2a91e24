import CppDoc.Event
import CppDoc.Syntax.Parameters

/-!
# Declarations and their documentation

What is known of a C++ project: its files, its classes and their member functions, the chapters of
its documentation, and the blocks of text that document them.  Entities refer to each other by
numbers, which count them in the order in which they were found.
-/

namespace CppDoc

open CppDoc.Text

/-- The number of a file. -/
structure FileId where
  index : Nat
  deriving DecidableEq, Repr, Inhabited

/-- The number of a class. -/
structure ClassId where
  index : Nat
  deriving DecidableEq, Repr, Inhabited

/-- The number of a function. -/
structure FunctionId where
  index : Nat
  deriving DecidableEq, Repr, Inhabited

/-- The number of a chapter. -/
structure ChapterId where
  index : Nat
  deriving DecidableEq, Repr, Inhabited

/-- The number of a block of documentation. -/
structure DocId where
  index : Nat
  deriving DecidableEq, Repr, Inhabited

/-- A line of a file. -/
structure Location where
  file : FileId
  line : Nat
  deriving DecidableEq, Repr, Inhabited

/-- Headers declare classes, and sources hold the comments that document them. -/
inductive FileKind where
  | header
  | source
  deriving DecidableEq, Repr, Inhabited

/-- A file that has been read. -/
structure SourceFile where
  path : String
  kind : FileKind
  text : String
  deriving DecidableEq, Repr, Inhabited

/-- A class.  It has an `origin` once its body has been found in a header; until then it is a
placeholder for a name that was mentioned.  Its children are sorted by name, and its members stand
in the order of their declarations. -/
structure Class where
  name : String
  origin : Option Location
  parentName : String
  parent : Option ClassId
  children : List ClassId
  members : List FunctionId
  doc : Option DocId
  done : Bool
  deriving DecidableEq, Repr, Inhabited

/-- A class of which only the name is known. -/
def Class.placeholder (name : String) : Class :=
  { name, origin := none, parentName := "", parent := none, children := [], members := [],
    doc := none, done := false }

/-- A member function.  Its qualified name, its signature and its constness identify it. -/
structure Function where
  name : String
  owner : ClassId
  returnType : String
  parameters : String
  signature : String
  isConst : Bool
  origin : Location
  doc : Option DocId
  overload : Bool
  deriving DecidableEq, Repr, Inhabited

/-- The name of the function within its class. -/
def Function.member (f : Function) : String :=
  memberPart f.name

/-- Is `name` the name of a parameter? -/
def Function.hasParameter (f : Function) (name : String) : Bool :=
  !name.isEmpty && (Syntax.parameterNames f.parameters).contains name

/-- The function after one more declaration: its parameters are named as in the latest one, and its
return type is the first that was given. -/
def Function.redeclared (f : Function) (returnType parameters : String) : Function :=
  { f with
    parameters
    returnType := if f.returnType.isEmpty then returnType else f.returnType }

/-- A chapter and the classes that it introduces, in the order in which it names them. -/
structure Chapter where
  name : String
  classes : List ClassId
  doc : Option DocId
  deriving DecidableEq, Repr, Inhabited

/-- The chapter with one more class, unless it introduces that class already. -/
def Chapter.introduce (ch : Chapter) (c : ClassId) : Chapter :=
  if ch.classes.contains c then ch else { ch with classes := ch.classes ++ [c] }

/-- What a block of documentation is about. -/
inductive Subject where
  | function (f : FunctionId)
  | classPage (c : ClassId)
  | chapter (ch : ChapterId)
  deriving DecidableEq, Repr, Inhabited

/-- The text of a documentation comment.  The comment opens at `origin`, and its text begins on
line `textLine`. -/
structure DocBlock where
  origin : Location
  textLine : Nat
  text : String
  subject : Subject
  deriving DecidableEq, Repr, Inhabited

/-- Blocks that mention the directive for internal documentation produce nothing. -/
def DocBlock.isInternal (d : DocBlock) : Bool :=
  occurs "\\internal".toList d.text.toList

end CppDoc
