import CppDoc.FileTree

/-!
# Finding source files

The source files of a project are those below its root directory, at any depth, whose names end in a
given suffix.  A suffix with separators goes on into the directories whose names end in its first
part.

* `discover` lists the files in the order of their paths, part by part;
* `follow` walks along fixed parts of a path, as they are written.
-/

namespace CppDoc.Discovery

/-- Does the path stand for the current directory? -/
def isHere (path : String) : Bool :=
  Path.components path == [.here]

/-- The path one part further on, if it leads somewhere.  The current directory is not written
before the part. -/
def step (t : FileTree) (path part : String) : Option String :=
  let next := if isHere path then part else Path.join path part
  let there := if part = "." || part = ".." then t.isDirectory path else (t.at? next).isSome
  if there then some next else none

/-- The path with some parts more, if it leads somewhere all the way. -/
def follow (t : FileTree) (path : String) (parts : List String) : Option String :=
  parts.foldlM (step t) path

/-- The path of the root directory as files below it are named. -/
def base? (t : FileTree) (root : String) : Option String :=
  match root.toList with
  | '/' :: rest => follow t "/" ((Path.pieces rest).map String.ofList)
  | chars => follow t "." ((Path.pieces chars).map String.ofList)

/-- The paths of everything below the directory at `path` whose names end in `suffix`. -/
def endingIn (t : FileTree) (path : String) (suffix : List Char) : List String :=
  match t.resolve path with
  | .error _ => []
  | .ok place =>
    (t.below place).filterMap fun parts =>
      if (parts.getLast?.map String.toList).any (suffix.isSuffixOf ·) then
        let name := "/".intercalate parts
        some (if isHere path then name else Path.join path name)
      else none

/-- Every path below `root` that the suffix fits, in no particular order. -/
def candidates (t : FileTree) (root suffix : String) : List String :=
  match base? t root, Path.pieces suffix.toList with
  | some base, first :: others =>
    (endingIn t base first).filterMap fun path => follow t path (others.map String.ofList)
  | _, _ => []

/-- Is the first path the same as the second one, or does it come before it? -/
def inOrder (a b : String) : Bool :=
  Path.notAfter (Path.components a) (Path.components b)

/-- A sorted list of paths without those that are the same as the one before. -/
def dropRepeats : List String → List String
  | [] => []
  | [a] => [a]
  | a :: b :: rest =>
    if Path.components a = Path.components b then dropRepeats (a :: rest)
    else a :: dropRepeats (b :: rest)

/-- The source files below `root`, sorted. -/
def discover (t : FileTree) (root suffix : String) : List String :=
  dropRepeats (((candidates t root suffix).filter t.isFile).mergeSort inOrder)

end CppDoc.Discovery
