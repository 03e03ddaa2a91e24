import CppDoc.Comment
import CppDoc.Discovery
import CppDoc.Manual

/-!
# Projects

From a tree of files to its manual: the source files below a root directory are found, their
comments are read together with the headers that they name, the classes are linked to their parents,
and the manual is written.
-/

namespace CppDoc

/-- Where the source files of a project are: below `root`, with names that end in `suffix`. -/
structure Project where
  root : String
  suffix : String
  deriving DecidableEq, Repr, Inhabited

namespace Project

/-- The source files of a project, sorted. -/
def sources (p : Project) (t : FileTree) : Except Failure (List String) :=
  if t.isDirectory p.root then .ok (Discovery.discover t p.root p.suffix)
  else .error (.noRoot p.root)

/-- Scans source files one after another. -/
def scanAll (t : FileTree) (reg : Registry) : List String → Except Failure Registry
  | [] => .ok reg
  | path :: rest =>
    match Comment.scanSourceFile t reg path with
    | (_, .error e) => .error e
    | (reg, .ok _) => scanAll t reg rest

/-- Scans a project and links its classes. -/
def scan (p : Project) (t : FileTree) : Except Failure Registry := do
  let reg ← scanAll t .empty (← p.sources t)
  return reg.buildHierarchy

/-- The headers that a scan looks for and does not find. -/
def missingHeaders (p : Project) (t : FileTree) : List String :=
  match p.scan t with
  | .error _ => []
  | .ok reg =>
    reg.diagnostics.filterMap fun d =>
      match d.problem with
      | .headerNotFound path _ => some path
      | _ => none

/-- The manual of a project as a stream of events, and the registry with all that was reported. -/
def run (p : Project) (t : FileTree) : Except Failure (Registry × List Event) :=
  (p.scan t).map Manual.events

end Project

end CppDoc
