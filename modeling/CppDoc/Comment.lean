import CppDoc.Failure
import CppDoc.FileTree
import CppDoc.Header

/-!
# Documentation comments

A source file is read for its documentation comments, which open with `/*!`.  The first word of a
comment may be a directive that names what the comment is about; a comment without one is about the
function that follows it.

* `Comment.scan` attaches the comments of a source file to what they are about;
* `scanFunction` reads the signature of a documented function;
* `scanClassDirective` reads the name of a class and the header that declares it, and has that
  header scanned if it has not been yet;
* `scanSourceFile` and `scanHeaderFile` read a file of a tree and scan it.
-/

namespace CppDoc.Comment

open CppDoc.Syntax CppDoc.Text

/-- What opens a documentation comment. -/
def opening : String := "/*!"

/-- What closes a comment. -/
def closing : String := "*/"

/-- What a comment is about: something that was found, nothing on purpose, or nothing that could be
found. -/
inductive Binding where
  | about (subject : Subject)
  | suppressed
  | unbound
  deriving DecidableEq, Repr

/-- Reads the text of a comment up to its end.  The white space before it is dropped; the line is
that of the first character that is no blank. -/
def readBody (r : Reading) : (Nat × String) × Reading :=
  let (line, r) := r.line
  let (body, c) := r.cursor.textUntil closing
  ((line, String.ofList (trimLeft body)), { r with cursor := c })

/-- Is the name qualified, with something before its first colon? -/
def isQualified (name : String) : Bool :=
  name.toList.contains ':' && name.toList.head? != some ':'

/-- Reads the signature of a function and finds or adds the function.  Constructors and destructors
have no return type: what looks like one is their name. -/
def scanFunction (r : Reading) : Binding × Reading :=
  let (type, r) := r.read readType
  let (line, r) := r.line
  let (name, r) := r.read readName
  let bare := name.isEmpty && r.lookingAt "(" && isQualified type
  let (type, name) := if bare then ("", type) else (type, name)
  let (parameters, r) := r.read readParameters
  let (isConst, r) := Header.readConst r.skipGap
  let (found, r) :=
    if isQualified name && !parameters.isEmpty then r.declare type name parameters isConst line
    else (none, r)
  match found with
  | some f => (.about (.function f), r)
  | none => (.unbound, r.report line .unreadableFunction)

/-- Reads the name of a header: words joined by dots and slashes. -/
def readHeaderName (r : Reading) : String × Reading :=
  let (word, r) := r.read readWord
  iterate (fun s => s.2.left)
    (fun (name, r) =>
      if r.lookingAt "." || r.lookingAt "/" then
        let separator := if r.lookingAt "." then "." else "/"
        let (word, r) := r.step.read readWord
        (true, name ++ separator ++ word, r)
      else (false, name, r))
    (word, r)

/-- Reads a header of the tree and scans it.  There is no answer if it is not there. -/
def scanHeaderFile (tree : FileTree) (reg : Registry) (path : String) :
    Except Failure (Option FileId × Registry) :=
  match tree.read path with
  | .missing => .ok (none, reg)
  | .unreadable => .error (.unreadableHeader path)
  | .text text =>
    let (id, reg) := reg.addFile { path, kind := .header, text }
    .ok (some id, Header.scan reg id)

/-- Does the text include the header, in one of the two ways? -/
def includes (text header : String) : Bool :=
  occurs ("#include \"" ++ header ++ "\"").toList text.toList ||
    occurs ("#include <" ++ header ++ ">").toList text.toList

/-- Has the header scanned that the comment on `line` names for a class, unless it has been scanned
already.  It is looked for beside the file being read. -/
def requireHeader (tree : FileTree) (className header : String) (line : Nat) (r : Reading) :
    Except Failure Reading := do
  if (r.registry.findHeader? header).isSome then return r
  let path := Path.join (Path.parent (r.registry.file r.file).path) header
  let (found, reg) ← scanHeaderFile tree r.registry path
  let r := { r with registry := reg }
  return if found.isSome then r else r.report line (.headerNotFound path className)

/-- Reads the name of a class and of its header, in a comment that begins on `line`.  A header that
cannot be read ends the run; the state at that point comes with the failure. -/
def scanClassDirective (tree : FileTree) (line : Nat) (r : Reading) :
    Except (Failure × Reading) (Binding × Reading) :=
  let (className, r) := r.read readName
  let r := if className.isEmpty then r.report line .unnamedClass else r
  let (id, r) := r.classNamed className
  let (header, r) := readHeaderName r.skipGap
  if !".h".toList.isSuffixOf header.toList then
    .ok (.about (.classPage id), r.report line .missingHeader)
  else
    let included := includes (r.registry.file r.file).text header
    let r := if included then r else r.report line (.headerNotIncluded header)
    match requireHeader tree className header line r with
    | .error e => .error (e, r)
    | .ok r =>
      let noMembers := (r.registry.getClass id).members.isEmpty
      .ok (.about (.classPage id),
        if noMembers then r.report line (.noMembersFound className header) else r)

/-- Reads the name of a chapter and adds the chapter. -/
def scanChapterDirective (r : Reading) : Binding × Reading :=
  let (name, r) := r.read readWord
  let r := if name.isEmpty then r.reportHere .unnamedChapter else r
  let (id, reg) := r.registry.addChapter name
  (.about (.chapter id), { r with registry := reg })

/-- What was read of one comment: what it is about, the line of its text, and the text. -/
structure Finding where
  binding : Binding
  textLine : Nat
  text : String
  deriving Repr

/-- A finding with the text that comes next as its body. -/
def withBody (found : Binding × Reading) : Finding × Reading :=
  let ((textLine, text), r) := readBody found.2
  ({ binding := found.1, textLine, text }, r)

/-- Reads the comment at the cursor, which begins on `line`. -/
def readComment (tree : FileTree) (line : Nat) (r : Reading) :
    Except (Failure × Reading) (Finding × Reading) :=
  if r.lookingAt "\\fn " then .ok (withBody (scanFunction (r.past " ")))
  else if r.lookingAt "\\chapter " then .ok (withBody (scanChapterDirective (r.past " ")))
  else if r.lookingAt "\\class " then (scanClassDirective tree line (r.past " ")).map withBody
  else if r.lookingAt "\\nodoc" then
    .ok ({ binding := .suppressed, textLine := line, text := "" }, r)
  else
    let ((textLine, text), r) := readBody r
    let (binding, r) := scanFunction r
    .ok ({ binding, textLine, text }, r)

/-- Attaches what was read of the comment on `line`, or reports that it is empty. -/
def settle (line : Nat) (found : Finding) (r : Reading) : Reading :=
  match found.binding with
  | .suppressed => r
  | binding =>
    if found.text.isEmpty then r.report line .emptyComment
    else
      match binding with
      | .about subject =>
        let block : DocBlock :=
          { origin := ⟨r.file, line⟩, textLine := found.textLine, text := found.text, subject }
        { r with registry := (r.registry.attachDoc block).2 }
      | _ => r

/-- A file being read for comments, and the failure that ended the run, if one did. -/
structure State where
  reading : Reading
  failure : Option Failure
  deriving Repr

/-- Reads the comment that the cursor is in and moves on into the next one. -/
def scanComment (tree : FileTree) (s : State) : Bool × State :=
  let r := s.reading.skipGap
  let (line, r) := r.line
  match readComment tree line r with
  | .error (e, r) => (false, { reading := r, failure := some e })
  | .ok (found, r) =>
    let r := (settle line found r).past opening
    (!r.atEnd, { reading := r, failure := none })

/-- Reports a file without any comment, if it defines members of classes. -/
def reportUndocumented (r : Reading) : Reading :=
  let (found, c) := r.cursor.scanTo "::"
  if found then ({ r with cursor := c } : Reading).reportHere .undocumentedFile else r

/-- Attaches the comments of a source file to what they are about.  A failure comes with the state
in which it ended the scan. -/
def scan (tree : FileTree) (reg : Registry) (file : FileId) : Registry × Option Failure :=
  let begun := Reading.begin reg file
  let r := begun.past opening
  if r.atEnd then ((reportUndocumented begun).registry, none)
  else
    let s := iterate (fun s => s.reading.left) (scanComment tree) { reading := r, failure := none }
    (s.reading.registry, s.failure)

/-- Reads a source file of the tree and scans it. -/
def scanSourceFile (tree : FileTree) (reg : Registry) (path : String) :
    Registry × Except Failure FileId :=
  match tree.read path with
  | .text text =>
    let (id, reg) := reg.addFile { path, kind := .source, text }
    match scan tree reg id with
    | (reg, some e) => (reg, .error e)
    | (reg, none) => (reg, .ok id)
  | _ => (reg, .error (.unreadableSource path))

end CppDoc.Comment
