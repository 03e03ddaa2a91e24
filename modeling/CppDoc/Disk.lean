import CppDoc.Page.Basic
import CppDoc.Project
import CppDoc.Text.Utf8

/-!
# The disk

A run works on a tree of files.  This module fills that tree from the disk, with no more than the
run needs to see, and writes what the run made.

* `load` lists what is below the root directory of a project and reads the sources and the headers
  that they name;
* `makeDirectories` makes the output directory, and `store` writes the pages into it.
-/

namespace CppDoc.Disk

/-- The path of a place. -/
def pathOf (place : Place) : String :=
  if place.isEmpty then "." else "/".intercalate place

/-- Reads the text of a file, if that is possible. -/
def readText? (place : Place) : IO (Option String) :=
  try
    let bytes ← IO.FS.readBinFile (pathOf place)
    return some (String.ofList (Text.decode bytes.toList))
  catch _ => return none

/-- Adds what stands at a place of the disk, if anything does. -/
def look (t : FileTree) (place : Place) : IO FileTree := do
  let path := (← IO.currentDir) / pathOf place
  if ← path.isDir then return t.put place .directory
  else if ← path.pathExists then return t.put place (.file (← readText? place))
  else return t

/-- Adds what stands at the places from `place` on that a path goes through. -/
def lookOn (t : FileTree) (place : Place) : List String → IO FileTree
  | [] => return t
  | part :: rest => do
    if Path.isIdle part.toList then lookOn t place rest
    else
      let next := if part = ".." then FileTree.up place else place ++ [part]
      lookOn (← look t next) next rest

/-- Adds what stands at the places that a path goes through. -/
def lookAlong (t : FileTree) (path : String) : IO FileTree := do
  let (place, parts) := FileTree.start path
  lookOn (← look t place) place parts

/-- The files and directories below a place, at any depth.  The files are not read. -/
partial def list (place : Place) : IO (List (Place × Entry)) := do
  let entries ← ((← IO.currentDir) / pathOf place).readDir
  let found ← entries.toList.mapM fun entry => do
    let next := place ++ [entry.fileName]
    if ← entry.path.isDir then return (next, Entry.directory) :: (← list next)
    else return [(next, Entry.file none)]
  return found.flatten

/-- Lists what is below the root directory of a project, if it is one. -/
def listRoot (p : Project) (t : FileTree) : IO (List (Place × Entry)) :=
  match t.resolve p.root with
  | .ok root => if t.isDirectory p.root then list root else return []
  | .error _ => return []

/-- Loads what a run of a project sees of the disk. -/
def load (p : Project) : IO (Except Failure FileTree) := do
  let t ← lookAlong .empty p.root
  let below ← try listRoot p t catch _ => return .error (.noListing p.root)
  let listed : FileTree := ⟨t.entries ++ below⟩
  let sources := (p.sources listed).toOption.getD []
  let bare : FileTree := ⟨t.entries ++ below.filter (·.2 == .directory)⟩
  let t ← sources.foldlM lookAlong bare
  return .ok (← (p.missingHeaders t).foldlM lookAlong t)

/-- Makes a directory of the disk, and those on the way.  The answer tells whether it is there. -/
def makeDirectories (path : String) : IO Bool := do
  match (← lookAlong .empty path).makeDirectories path with
  | none => return false
  | some _ => try IO.FS.createDirAll path; return true catch _ => return false

/-- Writes pages into a directory of the disk.  The answer is the path of the first page that cannot
be written. -/
def store (output : String) : List Page → IO (Option String)
  | [] => return none
  | page :: rest => do
    let path := Path.join output page.name
    try IO.FS.writeFile path page.content catch _ => return some path
    store output rest

end CppDoc.Disk
