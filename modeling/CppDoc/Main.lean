import CppDoc.CommandLine
import CppDoc.Disk

/-!
# The program

Documents the project that the command line names.  Problems are printed, pages are written, and
what ends the run goes to the error output.
-/

open CppDoc CppDoc.CommandLine

/-- Ends a run with a complaint. -/
def complainAndFail (message : String) : IO UInt32 := do
  IO.eprintln (complain message)
  return 1

/-- Documents the project that the options name, as far as `tree` shows it. -/
def documentProject (o : Options) (tree : FileTree) : IO UInt32 := do
  match o.document tree with
  | .error message => complainAndFail message
  | .ok done =>
    IO.print (unlines done.problems)
    if ← Disk.makeDirectories o.output then
      match ← Disk.store o.output done.pages with
      | some path => complainAndFail (notWritten path)
      | none => return (o.status done).toUInt32
    else complainAndFail (noOutput o.output)

/-- Carries out the command line. -/
def main (args : List String) : IO UInt32 := do
  let owner ← IO.getEnv ownerVariable
  let home ← IO.getEnv homeVariable
  let environment (name : String) : Option String :=
    if name = ownerVariable then owner else if name = homeVariable then home else none
  match parse environment args with
  | .ok o =>
    match ← Disk.load o.project with
    | .ok tree => documentProject o tree
    | .error e => complainAndFail e.message
  | .error .help =>
    IO.print usage
    return 0
  | .error .usage =>
    IO.eprint usage
    return 2
