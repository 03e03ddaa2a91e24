import CppDoc.Path

/-!
# File trees

The files and directories that a run can see, with the texts of the files.  A **place** is a path
from the current directory in which no part is idle and `..` only leads out of it; `/` is the first
part of a place that is counted from the root.

* `resolve` finds the place that a path leads to;
* `read`, `isFile` and `isDirectory` look at a path, and `below` at everything under it;
* `write` and `makeDirectories` change the tree, or fail as they would on a disk.
-/

namespace CppDoc

/-- A path from the current directory, part by part. -/
abbrev Place := List String

/-- What stands at a place.  A file whose text is not known cannot be read. -/
inductive Entry where
  | file (text : Option String)
  | directory
  deriving DecidableEq, Repr, Inhabited

/-- Files and directories, each with its place.  The current directory is always there. -/
structure FileTree where
  entries : List (Place × Entry)
  deriving DecidableEq, Repr, Inhabited

/-- What comes of reading a file.  A directory cannot be read, nor can a path that leads through a
file. -/
inductive ReadResult where
  | text (s : String)
  | missing
  | unreadable
  deriving DecidableEq, Repr, Inhabited

namespace FileTree

/-- Only the current directory. -/
def empty : FileTree := ⟨[]⟩

/-- What stands at a place. -/
def entry? (t : FileTree) (place : Place) : Option Entry :=
  if place.isEmpty then some .directory else t.entries.lookup place

/-- Does `name` fit into a directory? -/
def isName (name : String) : Bool :=
  name.utf8ByteSize ≤ 255

/-- Can there be a path like this at all? -/
def isPath (path : String) : Bool :=
  path.utf8ByteSize < 4096 && !path.toList.contains '\x00'

/-- The place above a place. -/
def up (place : Place) : Place :=
  match place.getLast? with
  | none => [".."]
  | some ".." => place ++ [".."]
  | some "/" => place
  | some _ => place.dropLast

/-- Follows the parts of a path from a place on.  Each part needs a directory to start from. -/
def follow (t : FileTree) (place : Place) : List String → Except ReadResult Place
  | [] => .ok place
  | part :: rest =>
    match t.entry? place with
    | none => .error .missing
    | some (.file _) => .error .unreadable
    | some .directory =>
      if Path.isIdle part.toList then t.follow place rest
      else if part = ".." then t.follow (up place) rest
      else if isName part then t.follow (place ++ [part]) rest
      else .error .unreadable

/-- The place where a path starts, and its parts. -/
def start (path : String) : Place × List String :=
  match path.toList with
  | '/' :: rest => (["/"], (Path.pieces rest).map String.ofList)
  | chars => ([], (Path.pieces chars).map String.ofList)

/-- The place that a path leads to; something need not be there. -/
def resolve (t : FileTree) (path : String) : Except ReadResult Place :=
  if path.isEmpty then .error .missing
  else if isPath path then t.follow (start path).1 (start path).2
  else .error .unreadable

/-- What a path leads to. -/
def at? (t : FileTree) (path : String) : Option Entry :=
  match t.resolve path with
  | .ok place => t.entry? place
  | .error _ => none

/-- Does the path lead to a directory? -/
def isDirectory (t : FileTree) (path : String) : Bool :=
  t.at? path == some .directory

/-- Does the path lead to a file? -/
def isFile (t : FileTree) (path : String) : Bool :=
  match t.at? path with
  | some (.file _) => true
  | _ => false

/-- Reads the file that a path leads to. -/
def read (t : FileTree) (path : String) : ReadResult :=
  match t.resolve path with
  | .error e => e
  | .ok place =>
    match t.entry? place with
    | some (.file (some text)) => .text text
    | some _ => .unreadable
    | none => .missing

/-- Do the parts of a place lead down from where they start, and nowhere out of it? -/
def leadsDown (parts : Place) : Bool :=
  parts.all fun part => part != ".." && part != "/"

/-- The places below `place`, seen from there. -/
def below (t : FileTree) (place : Place) : List Place :=
  t.entries.filterMap fun (p, _) =>
    let parts := p.drop place.length
    if place.isPrefixOf p && !parts.isEmpty && leadsDown parts then some parts else none

/-- Puts an entry at a place, in the place of what was there. -/
def put (t : FileTree) (place : Place) (entry : Entry) : FileTree :=
  ⟨t.entries.filter (·.1 != place) ++ [(place, entry)]⟩

/-- Do the parts name the directory that they start from as `.`?  A directory cannot be made under
that name. -/
def endsHere (parts : List String) : Bool :=
  (parts.all fun part => Path.isIdle part.toList) && parts.contains "."

/-- Follows the parts of a path from a place on and makes the directories that are missing; fails
where a file is in the way. -/
def makeFrom (t : FileTree) (place : Place) : List String → Option FileTree
  | [] => some t
  | part :: rest =>
    if Path.isIdle part.toList then t.makeFrom place rest
    else if part = ".." then t.makeFrom (up place) rest
    else if isName part then
      let place := place ++ [part]
      match t.entry? place with
      | some .directory => t.makeFrom place rest
      | some (.file _) => none
      | none => if endsHere rest then none else (t.put place .directory).makeFrom place rest
    else none

/-- Makes the directory that a path leads to, and those on the way. -/
def makeDirectories (t : FileTree) (path : String) : Option FileTree :=
  if isPath path then t.makeFrom (start path).1 (start path).2 else none

/-- Writes a file, in a directory that is there. -/
def write (t : FileTree) (path text : String) : Option FileTree :=
  match t.resolve path with
  | .error _ => none
  | .ok place =>
    if t.entry? place = some .directory then none else some (t.put place (.file (some text)))

/-- Adds a file and the directories that it is in. -/
def add (t : FileTree) (path text : String) : Option FileTree := do
  (← t.makeDirectories (Path.parent path)).write path text

/-- The files of the tree whose texts are known, with their paths and texts. -/
def files (t : FileTree) : List (String × String) :=
  t.entries.filterMap fun (place, entry) =>
    match entry with
    | .file (some text) => some ("/".intercalate place, text)
    | _ => none

end FileTree

end CppDoc
