/-!
# Paths

Paths are written with `/` and kept as they are written: `.`, `..` and doubled separators stand.
Only their order looks at the parts between separators.

* `parent` is the directory a file is in, and `join` names a file relative to a directory;
* `components` are the parts that matter when paths are compared.
-/

namespace CppDoc.Path

/-- The parts of a path between its separators. -/
def pieces (path : List Char) : List (List Char) :=
  path.splitOn '/'

/-- Does a part of a path stand for the directory before it? -/
def isIdle (piece : List Char) : Bool :=
  piece.isEmpty || piece == ['.']

/-- `ps` without the idle parts at its end. -/
def dropIdle (ps : List (List Char)) : List (List Char) :=
  (ps.reverse.dropWhile isIdle).reverse

/-- A path in two parts: the mark of the place where it starts, `/` for the root and `.` for the
current directory if it is named, and what follows. -/
def splitStart : List Char → List Char × List Char
  | '/' :: rest => (['/'], rest)
  | '.' :: '/' :: rest => (['.'], '/' :: rest)
  | ['.'] => (['.'], [])
  | path => ([], path)

/-- The directory that the last part of a path is in; empty for a single part. -/
def parent (path : String) : String :=
  let (start, body) := splitStart path.toList
  match (dropIdle (pieces body)).dropLast with
  | [] => if (dropIdle (pieces body)).isEmpty then "" else String.ofList start
  | front => String.ofList (start ++ List.intercalate ['/'] (dropIdle front))

/-- The path `path` seen from the directory `dir`; an absolute one stays as it is. -/
def join (dir path : String) : String :=
  if path.toList.head? == some '/' || dir.isEmpty then path
  else if dir.toList.getLast? == some '/' then dir ++ path
  else dir ++ "/" ++ path

/-- A part of a path that matters in comparisons, in the order in which parts are sorted. -/
inductive Component where
  | root
  | here
  | up
  | name (n : List Char)
  deriving DecidableEq, Repr

/-- The parts of a path that matter: idle ones do not, except for a `.` at the start. -/
def components (path : String) : List Component :=
  let (start, body) := splitStart path.toList
  let first :=
    match start with
    | ['/'] => [Component.root]
    | ['.'] => [Component.here]
    | _ => []
  first ++ ((pieces body).filter fun p => !isIdle p).map fun p =>
    if p = ['.', '.'] then Component.up else Component.name p

/-- Does the part `a` come before the part `b`? -/
def Component.before : Component → Component → Bool
  | .name a, .name b => a < b
  | .name _, _ => false
  | _, .name _ => true
  | .up, _ => false
  | _, .up => true
  | .here, _ => false
  | _, .here => true
  | .root, .root => false

/-- Does the path with parts `as` come before that with parts `bs`, or are they the same? -/
def notAfter : List Component → List Component → Bool
  | [], _ => true
  | _ :: _, [] => false
  | a :: as, b :: bs => a.before b || (a == b && notAfter as bs)

end CppDoc.Path
