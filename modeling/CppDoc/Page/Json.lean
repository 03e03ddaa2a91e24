import CppDoc.Page.Basic

/-!
# JSON pages

The events of each page, one record to a line.  The events themselves are kept, so that all of them
can be asked for as well.
-/

namespace CppDoc.Json

/-- The extension of the pages. -/
def extension : String := "json"

/-- A character of a text within quotes. -/
def escapeChar (c : Char) : String :=
  if c = '\\' then "\\\\"
  else if c = '"' then "\\\""
  else if c = '\n' then "\\n"
  else if c = '\r' then "\\r"
  else if c = '\t' then "\\t"
  else String.singleton c

/-- A text in quotes. -/
def quote (s : String) : String :=
  "\"" ++ String.join (s.toList.map escapeChar) ++ "\""

/-- The value of a field. -/
inductive Value where
  | text (s : String)
  | number (n : Nat)
  deriving DecidableEq, Repr

/-- The written form of a value. -/
def Value.render : Value → String
  | .text s => quote s
  | .number n => toString n

/-- The fields that describe an event, in the order in which they are written. -/
def fields : Event → List (String × Value)
  | .headline (.chapter name) =>
    [("event", .text "headline"), ("kind", .text "intro"), ("name", .text name)]
  | .headline (.classPage name) =>
    [("event", .text "headline"), ("kind", .text "class"), ("name", .text name)]
  | .headline (.function f) =>
    [("event", .text "headline"), ("kind", .text "function"), ("name", .text f.name),
      ("anchor", .text f.anchor)]
  | .close => [("event", .text "end_paragraph")]
  | .content (.text t) => [("event", .text "text"), ("text", .text t)]
  | .content (.link url title) =>
    [("event", .text "link"), ("url", .text url), ("title", .text title)]
  | .content (.argument t) => [("event", .text "argument"), ("text", .text t)]
  | .content (.classLink t className) =>
    [("event", .text "class"), ("text", .text t), ("class", .text className)]
  | .content (.functionLink t f) =>
    [("event", .text "function"), ("text", .text t), ("function", .text f.name),
      ("page", .text (pageName f.owner)), ("anchor", .text f.anchor)]
  | .content (.code t) => [("event", .text "code"), ("text", .text t)]
  | .content (.warning t) => [("event", .text "warning"), ("text", .text t)]
  | .content (.note t) => [("event", .text "note"), ("text", .text t)]
  | .content (.heading level t) =>
    [("event", .text "section"), ("level", .number level), ("text", .text t)]

/-- The record of an event. -/
def renderEvent (e : Event) : String :=
  "\x7b " ++ ", ".intercalate ((fields e).map fun (key, v) => quote key ++ ": " ++ v.render) ++
    " \x7d"

/-- The content of the page `name` with the given events. -/
def renderPage (name : String) (events : List Event) : String :=
  "\x7b\n  \"page\": " ++ quote name ++ ",\n  \"events\": [\n" ++
    ",\n".intercalate (events.map fun e => "    " ++ renderEvent e) ++ "\n  ]\n\x7d\n"

/-- The pages begun so far, each with its name and its events.  A page without a name holds what
comes before the first headline. -/
structure Writer where
  sheets : List (String × List Event)
  deriving Repr

namespace Writer

/-- Nothing has been written. -/
def empty : Writer := ⟨[]⟩

/-- Every event written so far, in order. -/
def events (w : Writer) : List Event :=
  w.sheets.flatMap (·.2)

/-- The name of the page being written. -/
def currentName (w : Writer) : Option String :=
  w.sheets.getLast?.map (·.1)

/-- Begins a page. -/
def startPage (w : Writer) (name : String) : Writer :=
  ⟨w.sheets ++ [(pageName name, [])]⟩

/-- Adds an event to the page being written. -/
def put (w : Writer) (e : Event) : Writer :=
  match w.sheets.getLast? with
  | some (name, events) => ⟨w.sheets.dropLast ++ [(name, events ++ [e])]⟩
  | none => ⟨[("", [e])]⟩

/-- Writes one event.  A function stands on the page of its class, which is begun if another page
is being written. -/
def write (w : Writer) (e : Event) : Writer :=
  let w :=
    match e with
    | .headline (.chapter name) => w.startPage name
    | .headline (.classPage name) => w.startPage name
    | .headline (.function f) =>
      if w.currentName = some (pageName f.owner) then w else w.startPage f.owner
    | _ => w
  w.put e

/-- The pages written so far, without the one that has no name. -/
def finish (w : Writer) : List Page × Writer :=
  let named := w.sheets.filter fun (name, _) => !name.isEmpty
  (named.map fun (name, events) =>
    { name := name ++ "." ++ extension, content := renderPage name events }, w)

end Writer

end CppDoc.Json
