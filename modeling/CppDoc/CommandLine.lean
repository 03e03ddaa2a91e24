import CppDoc.Page.Format
import CppDoc.Project

/-!
# The command line

The command line names the root directory of a project and says where its manual goes and in which
format.

* `parse` reads the arguments; options are given at most once, and two of them have a default in the
  environment;
* `Options.document` runs a project and gives the lines to print and the pages to write;
* `execute` does all of it on a tree of files.
-/

namespace CppDoc.CommandLine

/-- What the command line asks for. -/
structure Options where
  root : String
  output : String
  format : String
  suffix : String
  owner : Owner
  strict : Bool
  deriving DecidableEq, Repr, Inhabited

/-- The options that take a value. -/
inductive Setting where
  | output
  | format
  | suffix
  | owner
  | home
  deriving DecidableEq, Repr, Inhabited

/-- The setting of a long option. -/
def Setting.ofLong? : String → Option Setting
  | "output" => some .output
  | "format" => some .format
  | "suffix" => some .suffix
  | "owner" => some .owner
  | "owner-home" => some .home
  | _ => none

/-- The setting of a short option. -/
def Setting.ofShort? : Char → Option Setting
  | 'o' => some .output
  | 'f' => some .format
  | _ => none

/-- Why the arguments are not carried out: help is asked for, or they make no sense. -/
inductive Refusal where
  | help
  | usage
  deriving DecidableEq, Repr, Inhabited

/-- The arguments read so far. -/
structure Given where
  root : Option String
  settings : List (Setting × String)
  strict : Bool
  deriving DecidableEq, Repr, Inhabited

namespace Given

/-- Takes a value for a setting that has none yet.  A directory has a name. -/
def set (g : Given) (s : Setting) (value : String) : Except Refusal Given :=
  if (g.settings.lookup s).isSome || (s = .output && value.isEmpty) then .error .usage
  else .ok { g with settings := g.settings ++ [(s, value)] }

/-- Takes the root directory. -/
def setRoot (g : Given) (value : String) : Except Refusal Given :=
  if g.root.isSome || value.isEmpty then .error .usage else .ok { g with root := some value }

/-- Takes the flag for strict checking. -/
def setStrict (g : Given) : Except Refusal Given :=
  if g.strict then .error .usage else .ok { g with strict := true }

end Given

/-- Does an argument look like an option, so that it cannot be the value of another one? -/
def isOption (arg : String) : Bool :=
  match arg.toList with
  | '-' :: _ :: _ => true
  | _ => false

/-- What one argument says. -/
inductive Argument where
  | root (value : String)
  | setting (s : Setting) (value : Option String)
  | strict
  | onlyRoots
  | refused (r : Refusal)
  deriving DecidableEq, Repr, Inhabited

/-- A long option, split at its first equals sign. -/
def readLong (body : List Char) : Argument :=
  let name := String.ofList (body.takeWhile (· != '='))
  let value := (Text.after? '=' body).map String.ofList
  match Setting.ofLong? name, value with
  | some s, value => .setting s value
  | none, some _ => .refused .usage
  | none, none =>
    if name = "help" then .refused .help
    else if name = "strict" then .strict
    else .refused .usage

/-- A short option, with its value if that follows at once. -/
def readShort (letter : Char) (rest : List Char) : Argument :=
  match Setting.ofShort? letter with
  | some s =>
    .setting s
      (match rest with
        | [] => none
        | '=' :: value => some (String.ofList value)
        | value => some (String.ofList value))
  | none => .refused (if letter = 'h' then .help else .usage)

/-- Reads one argument. -/
def readArgument (arg : String) : Argument :=
  match arg.toList with
  | ['-', '-'] => .onlyRoots
  | '-' :: '-' :: body => readLong body
  | '-' :: letter :: rest => readShort letter rest
  | _ => .root arg

/-- Reads the arguments. -/
def readArguments (g : Given) : List String → Except Refusal Given
  | [] => .ok g
  | arg :: rest =>
    match readArgument arg with
    | .root value => do readArguments (← g.setRoot value) rest
    | .strict => do readArguments (← g.setStrict) rest
    | .onlyRoots => rest.foldlM Given.setRoot g
    | .refused r => .error r
    | .setting s (some value) => do readArguments (← g.set s value) rest
    | .setting s none =>
      match rest with
      | [] => .error .usage
      | value :: rest =>
        if isOption value then .error .usage else do readArguments (← g.set s value) rest

/-- The environment variable for the owner's name, which counts if no option gives it. -/
def ownerVariable : String := "UDOC_OWNER"

/-- The environment variable for the owner's home page, which counts if no option gives it. -/
def homeVariable : String := "UDOC_OWNER_HOME"

/-- Reads a command line. -/
def parse (environment : String → Option String) (args : List String) : Except Refusal Options := do
  let g ← readArguments { root := none, settings := [], strict := false } args
  let value (s : Setting) (default : String) : String := (g.settings.lookup s).getD default
  return {
    root := g.root.getD "."
    output := value .output "."
    format := value .format "html"
    suffix := value .suffix ".cpp"
    owner :=
      { name := value .owner ((environment ownerVariable).getD "")
        home := value .home ((environment homeVariable).getD "") }
    strict := g.strict }

/-- The project that the options name. -/
def Options.project (o : Options) : Project :=
  { root := o.root, suffix := o.suffix }

/-- The manual of a project: the problems found, as lines of text, and the pages. -/
structure Documented where
  problems : List String
  pages : List Page
  deriving DecidableEq, Repr, Inhabited

/-- Runs the project that the options name, or says why that is impossible. -/
def Options.document (o : Options) (t : FileTree) : Except String Documented :=
  match Format.ofName? o.format with
  | none => .error (Format.unknown o.format)
  | some format =>
    match o.project.run t with
    | .error e => .error e.message
    | .ok (reg, events) =>
      .ok
        { problems := reg.diagnostics.map reg.describe
          pages := format.pages o.owner events }

/-- The complaint about an output directory that cannot be made. -/
def noOutput (path : String) : String :=
  "failed to create output directory: " ++ path

/-- The complaint about a page that cannot be written. -/
def notWritten (path : String) : String :=
  "failed to write " ++ path

/-- The status with which a run ends that has written its pages. -/
def Options.status (o : Options) (done : Documented) : Nat :=
  if o.strict && !done.problems.isEmpty then 1 else 0

/-- Writes pages into a directory of a tree.  The first page that cannot be written ends that. -/
def writePages (output : String) (t : FileTree) : List Page → FileTree × Option String
  | [] => (t, none)
  | page :: rest =>
    let path := Path.join output page.name
    match t.write path page.content with
    | none => (t, some (notWritten path))
    | some t => writePages output t rest

/-- How a run ended: its status, what it printed, what it complained about, and the tree it left
behind. -/
structure Outcome where
  status : Nat
  printed : String
  complaint : String
  tree : FileTree
  deriving DecidableEq, Repr, Inhabited

/-- Lines of text, each with its end. -/
def unlines (lines : List String) : String :=
  String.join (lines.map (· ++ "\n"))

/-- A failure as it is written to the user. -/
def complain (message : String) : String :=
  "Error: " ++ message

/-- Carries out a run on a tree of files. -/
def Options.execute (o : Options) (t : FileTree) : Outcome :=
  match o.document t with
  | .error message => { status := 1, printed := "", complaint := complain message, tree := t }
  | .ok done =>
    let printed := unlines done.problems
    match t.makeDirectories o.output with
    | none => { status := 1, printed, complaint := complain (noOutput o.output), tree := t }
    | some t =>
      match writePages o.output t done.pages with
      | (tree, some message) => { status := 1, printed, complaint := complain message, tree }
      | (tree, none) => { status := o.status done, printed, complaint := "", tree }

/-- How the program is called. -/
def usage : String :=
  unlines [
    "usage: udoc [options] [root]",
    "",
    "  -o, --output DIR      directory for the pages (default: .)",
    "  -f, --format FORMAT   html, markdown or json (default: html)",
    "      --suffix SUFFIX   suffix of source files (default: .cpp)",
    "      --owner NAME      owner named on each page (default: $UDOC_OWNER)",
    "      --owner-home URL  home page of the owner (default: $UDOC_OWNER_HOME)",
    "      --strict          fail if any problem was found",
    "  -h, --help            print this text"]

/-- Carries out a command line on a tree of files. -/
def execute (environment : String → Option String) (args : List String) (t : FileTree) : Outcome :=
  match parse environment args with
  | .ok o => o.execute t
  | .error .help => { status := 0, printed := usage, complaint := "", tree := t }
  | .error .usage => { status := 2, printed := "", complaint := usage, tree := t }

end CppDoc.CommandLine
