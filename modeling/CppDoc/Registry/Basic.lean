import CppDoc.Problem

/-!
# The registry

Everything that is known of a project, and the problems found so far.  Entities are numbered in the
order in which they are added, and none is ever removed.

* names are looked up exactly, and the first entity of a name is the one found;
* `declare` recognises a function that has been declared before by its name, its signature and its
  constness;
* `attachDoc` makes a block of text the documentation of its subject;
* `mention` notes where a name is introduced and reports a second mention at both places.
-/

namespace CppDoc

open CppDoc.Text

/-- The state of what is known of a project. -/
structure Registry where
  files : List SourceFile
  classes : List Class
  functions : List Function
  chapters : List Chapter
  docs : List DocBlock
  mentions : List (String × Location)
  hierarchyBuilt : Bool
  diagnostics : List Diagnostic
  deriving DecidableEq, Repr, Inhabited

namespace Registry

/-- Nothing is known. -/
def empty : Registry :=
  { files := [], classes := [], functions := [], chapters := [], docs := [], mentions := [],
    hierarchyBuilt := false, diagnostics := [] }

/-! ## Entities by number -/

/-- The file with a number. -/
def file (reg : Registry) (id : FileId) : SourceFile :=
  reg.files.getD id.index default

/-- The class with a number. -/
def getClass (reg : Registry) (id : ClassId) : Class :=
  reg.classes.getD id.index default

/-- The function with a number. -/
def function (reg : Registry) (id : FunctionId) : Function :=
  reg.functions.getD id.index default

/-- The chapter with a number. -/
def chapter (reg : Registry) (id : ChapterId) : Chapter :=
  reg.chapters.getD id.index default

/-- The block of documentation with a number. -/
def doc (reg : Registry) (id : DocId) : DocBlock :=
  reg.docs.getD id.index default

/-- The numbers of all classes, in order. -/
def classIds (reg : Registry) : List ClassId :=
  (List.range reg.classes.length).map ClassId.mk

/-- The numbers of all chapters, in order. -/
def chapterIds (reg : Registry) : List ChapterId :=
  (List.range reg.chapters.length).map ChapterId.mk

/-- Changes the class with a number. -/
def editClass (reg : Registry) (id : ClassId) (f : Class → Class) : Registry :=
  { reg with classes := reg.classes.modify id.index f }

/-- Changes the function with a number. -/
def editFunction (reg : Registry) (id : FunctionId) (f : Function → Function) : Registry :=
  { reg with functions := reg.functions.modify id.index f }

/-- Changes the chapter with a number. -/
def editChapter (reg : Registry) (id : ChapterId) (f : Chapter → Chapter) : Registry :=
  { reg with chapters := reg.chapters.modify id.index f }

/-- A function as the target of links. -/
def memberRef (reg : Registry) (id : FunctionId) : MemberRef :=
  { name := (reg.function id).name, owner := (reg.getClass (reg.function id).owner).name }

/-! ## Files -/

/-- Adds a file. -/
def addFile (reg : Registry) (file : SourceFile) : FileId × Registry :=
  (⟨reg.files.length⟩, { reg with files := reg.files ++ [file] })

/-- The first header whose path is `name` or ends in `/name`. -/
def findHeader? (reg : Registry) (name : String) : Option FileId :=
  let suffix := '/' :: name.toList
  (reg.files.findIdx? fun f =>
    f.kind == .header && (f.path == name || suffix.isSuffixOf f.path.toList)).map FileId.mk

/-! ## Problems -/

/-- Reports a problem at a location. -/
def report (reg : Registry) (site : Location) (problem : Problem) : Registry :=
  { reg with diagnostics := reg.diagnostics ++ [⟨site, problem⟩] }

/-- Reports a problem of something that may never have been located; then there is no report. -/
def reportAt (reg : Registry) (site : Option Location) (problem : Problem) : Registry :=
  match site with
  | some site => reg.report site problem
  | none => reg

/-- A diagnostic as a line of text. -/
def describe (reg : Registry) (d : Diagnostic) : String :=
  (reg.file d.site.file).path ++ ":" ++ toString d.site.line ++ ": " ++ d.problem.message

/-- The number of reports whose wording begins with `start`. -/
def countReports (reg : Registry) (start : String) : Nat :=
  reg.diagnostics.countP fun d => start.toList.isPrefixOf d.problem.message.toList

/-! ## Classes -/

/-- The class of a name. -/
def findClass? (reg : Registry) (name : String) : Option ClassId :=
  (reg.classes.findIdx? (·.name == name)).map ClassId.mk

/-- The class of a name; a placeholder is added if there is none. -/
def classNamed (reg : Registry) (name : String) : ClassId × Registry :=
  match reg.findClass? name with
  | some id => (id, reg)
  | none =>
    (⟨reg.classes.length⟩, { reg with classes := reg.classes ++ [Class.placeholder name] })

/-! ## Functions -/

/-- The first function of a qualified name. -/
def findFunction? (reg : Registry) (name : String) : Option FunctionId :=
  (reg.functions.findIdx? (·.name == name)).map FunctionId.mk

/-- The first function of a qualified name that has the signature of `parameters` and the given
constness. -/
def findOverload? (reg : Registry) (name parameters : String) (isConst : Bool) :
    Option FunctionId :=
  let signature := Syntax.typesOnly parameters
  (reg.functions.findIdx? fun f =>
    f.name == name && f.signature == signature && f.isConst == isConst).map FunctionId.mk

/-- Adds a function to the class that its name is qualified with.  A name without a class is
refused. -/
def addFunction (reg : Registry) (returnType name parameters : String) (isConst : Bool)
    (origin : Location) : Option FunctionId × Registry :=
  match ownerPart? name with
  | none => (none, reg)
  | some ownerName =>
    let (owner, reg) := reg.classNamed ownerName
    let id : FunctionId := ⟨reg.functions.length⟩
    let f : Function :=
      { name, owner, returnType, parameters, signature := Syntax.typesOnly parameters, isConst,
        origin, doc := none, overload := false }
    let reg := { reg with functions := reg.functions ++ [f] }
    (some id, reg.editClass owner fun c => { c with members := c.members ++ [id] })

/-- Finds the function that a declaration is about, or adds it. -/
def declare (reg : Registry) (returnType name parameters : String) (isConst : Bool)
    (origin : Location) : Option FunctionId × Registry :=
  match reg.findOverload? name parameters isConst with
  | some id => (some id, reg.editFunction id (·.redeclared returnType parameters))
  | none => reg.addFunction returnType name parameters isConst origin

/-! ## Documentation -/

/-- Adds a chapter. -/
def addChapter (reg : Registry) (name : String) : ChapterId × Registry :=
  (⟨reg.chapters.length⟩,
    { reg with chapters := reg.chapters ++ [{ name, classes := [], doc := none }] })

/-- The documentation of a subject. -/
def docOf (reg : Registry) : Subject → Option DocId
  | .function f => (reg.function f).doc
  | .classPage c => (reg.getClass c).doc
  | .chapter ch => (reg.chapter ch).doc

/-- Makes a block of text the documentation of its subject. -/
def attachDoc (reg : Registry) (block : DocBlock) : DocId × Registry :=
  let id : DocId := ⟨reg.docs.length⟩
  let reg := { reg with docs := reg.docs ++ [block] }
  (id,
    match block.subject with
    | .function f => reg.editFunction f fun e => { e with doc := some id }
    | .classPage c => reg.editClass c fun e => { e with doc := some id }
    | .chapter ch => reg.editChapter ch fun e => { e with doc := some id })

/-- Notes the mention of a name.  From the second mention on, the first place and the new one are
reported, each naming the other. -/
def mention (reg : Registry) (name : String) (site : Location) : Registry :=
  match reg.mentions.lookup name with
  | none => { reg with mentions := reg.mentions ++ [(name, site)] }
  | some first =>
    let reg := reg.report site (.alsoMentioned name (reg.file first.file).path first.line)
    reg.report first (.alsoMentioned name (reg.file site.file).path site.line)

end Registry

end CppDoc
