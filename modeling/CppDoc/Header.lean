import CppDoc.Reading
import CppDoc.Syntax.Parameters
import CppDoc.Syntax.Word

/-!
# Headers

A header is read for its class statements.  Each one that has a body gives a class with the name of
its parent, and a function for every member that has a parameter list; anything else is passed over.

* `Header.scan` enters the classes of a header;
* `scanClass` reads one class statement up to the first member that it does not recognise;
* `skipBlock` passes over a block in braces.
-/

namespace CppDoc.Header

open CppDoc.Syntax

/-- Moves over the block in braces at the cursor, and over blocks that follow it without anything
but a gap between.  `level` is the number of braces that are open. -/
def skipBlock (level : Nat) (c : Cursor) : Cursor :=
  match _h : c.rest with
  | [] => c
  | x :: _ =>
    if level = 0 && x != '{' then c
    else
      let level := if x = '{' then level + 1 else if x = '}' then level - 1 else level
      skipBlock level (c.skip 1).skipGap
termination_by c.left
decreasing_by
  simp only [Cursor.skipGap, Cursor.skip, Cursor.left, _h, List.length_drop, List.length_cons]
  omega

/-- Reads the word `const`, if it comes next. -/
def readConst (r : Reading) : Bool × Reading :=
  if r.lookingAt "const" then (true, (r.read readWord).2) else (false, r)

/-- Reads one enumerator with its value.  The cursor is on the brace or the comma before it; more
enumerators follow if it ends up on a comma. -/
def scanEnumerator (r : Reading) : Bool × Reading :=
  let (name, r) := r.step.skipGap.read readWord
  let r := if name.isEmpty && !r.lookingAt "\x7d" then r.reportHere .unreadableEnumerator else r
  let r := r.skipGap
  let r := if r.lookingAt "=" then (r.step.skipGap.read readValue).2.skipGap else r
  (r.lookingAt ",", r)

/-- Reads the body of an enumeration.  The answer tells whether it is closed. -/
def scanEnumBody (className enumName : String) (r : Reading) : Bool × Reading :=
  let r := iterate Reading.left scanEnumerator r
  if r.lookingAt "\x7d" then (true, r.step)
  else (false, r.reportHere (.unclosedEnum className enumName))

/-- Reads an enumeration that began on `line`.  The answer tells whether it was recognised. -/
def scanEnum (className : String) (line : Nat) (r : Reading) : Bool × Reading :=
  let (enumName, r) := (r.past " ").read readWord
  let r := r.skipGap
  if r.lookingAt "\x7b" then scanEnumBody className enumName r
  else if r.lookingAt ";" then (true, r)
  else (false, r.report line (.unreadableEnum className enumName))

/-- Reads the return type and the name of a member.  Constructors and destructors have no return
type: what looks like one is their name. -/
def readMemberName (className : String) (r : Reading) : String × String × Reading :=
  let (type, r) := r.read readType
  let (name, r) := r.read readName
  if !name.isEmpty then (type, name, r)
  else if type = className || type = "~" ++ className then ("", type, r)
  else if type.isEmpty && r.lookingAt "~" then
    let (name, r) := r.step.read readName
    ("", "~" ++ name, r)
  else (type, "", r)

/-- Reads what follows the name of a member that began on `line`, and enters the function that it
declares.  The answer tells whether the member was recognised. -/
def scanDeclarator (className returnType name : String) (line : Nat) (r : Reading) :
    Bool × Reading :=
  let r := r.skipGap
  let isData := r.lookingAt ";"
  let (parameters, r) := r.read readParameters
  let (isConst, r) := readConst r.skipGap
  if name.toList.contains ':' || parameters.isEmpty then (isData, r)
  else (true, (r.declare returnType (className ++ "::" ++ name) parameters isConst line).2)

/-- Moves over the access labels before a member. -/
def skipLabels (r : Reading) : Reading :=
  iterate Reading.left
    (fun r =>
      if r.lookingAt "public:" || r.lookingAt "private:" || r.lookingAt "protected:" then
        (true, (r.past ":").skipGap)
      else (false, r))
    r.skipGap

/-- Moves over what may follow a member: a body and a semicolon, or all up to a semicolon. -/
def skipMemberTail (r : Reading) : Reading :=
  let r := r.skipGap
  if r.lookingAt "\x7b" then
    let r := r.move (skipBlock 0)
    if r.lookingAt ";" then r.step else r
  else r.past ";"

/-- Moves to where a member begins: over access labels and the word `virtual`. -/
def skipToMember (r : Reading) : Reading :=
  let r := skipLabels r
  (if r.lookingAt "virtual " then r.past " " else r).skipGap

/-- Reads one member of a class.  The answer tells whether it was recognised. -/
def scanMember (className : String) (r : Reading) : Bool × Reading :=
  let (line, r) := (skipToMember r).line
  let (known, r) :=
    if r.lookingAt "operator " then
      let (name, r) := r.read readName
      if name.isEmpty then (false, r) else scanDeclarator className "" name line r
    else if r.lookingAt "enum " then scanEnum className line r
    else if r.lookingAt "typedef " then (true, r)
    else
      let (type, name, r) := readMemberName className r
      if name.isEmpty then (false, r) else scanDeclarator className type name line r
  if known then (true, skipMemberTail r) else (false, r)

/-- Reads the parent of a class, if one is declared.  There is no answer if the class is given
up. -/
def readParent (className : String) (r : Reading) : Option String × Reading :=
  let r := r.skipGap
  if !r.lookingAt ":" then (some "", r)
  else
    let (access, r) := r.step.read readWord
    if access != "public" then (none, r.reportHere (.nonPublicInheritance className))
    else
      let (parent, r) := r.read readName
      if parent.isEmpty then (none, r.reportHere (.unreadableParent className))
      else
        let r := r.skipGap
        if r.lookingAt "," then (none, r.reportHere (.multipleInheritance className))
        else (some parent, r)

/-- Enters the class whose body was found on `line`.  Bodies in two files are reported in both. -/
def enterClass (className parentName : String) (line : Nat) (r : Reading) : Reading :=
  let (id, r) := r.classNamed className
  let reg := r.registry.editClass id fun c => { c with parentName }
  let here : Location := ⟨r.file, line⟩
  let reg :=
    match (reg.getClass id).origin with
    | none => reg.editClass id fun c => { c with origin := some here }
    | some there =>
      if there.file = here.file then reg
      else
        let reg := reg.report here (.classConflict className (reg.file there.file).path there.line)
        reg.report there (.classConflict className (reg.file here.file).path here.line)
  { r with registry := reg }

/-- Reads a class statement up to its first member; the cursor is behind the word `class`.  The answer
is the name of the class, if its body was found. -/
def openClass (r : Reading) : Option String × Reading :=
  let (line, r) := r.line
  let (className, r) := r.read readName
  if className.isEmpty then (none, r)
  else
    match readParent className r with
    | (none, r) => (none, r)
    | (some parentName, r) =>
      let r := r.skipGap
      if !r.lookingAt "\x7b" then (none, r)
      else (some className, (enterClass className parentName line r).step)

/-- Reads one class statement; the cursor is behind the word `class`. -/
def scanClass (r : Reading) : Reading :=
  match openClass r with
  | (none, r) => r
  | (some className, r) => iterate Reading.left (scanMember className) r

/-- What a class statement begins with, at the start of a line. -/
def classStart : String := "\nclass "

/-- Where the first class statement of a header is. -/
def firstClass (reg : Registry) (file : FileId) : Reading :=
  let r := Reading.begin reg file
  if r.lookingAt "class " then r.move (·.skip "class ".length) else r.past classStart

/-- Reads one class statement and moves to the next one.  The answer tells whether there is one. -/
def scanStatement (r : Reading) : Bool × Reading :=
  let r := (scanClass r).past classStart
  (!r.atEnd, r)

/-- Enters the classes of a header. -/
def scan (reg : Registry) (file : FileId) : Registry :=
  let r := firstClass reg file
  if r.atEnd then r.registry else (iterate Reading.left scanStatement r).registry

end CppDoc.Header
