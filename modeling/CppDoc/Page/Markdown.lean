import CppDoc.Page.Basic

/-!
# Markdown pages

One page for each chapter and each class, linked by relative names.  What is open is followed by a
blank line before the next block.
-/

namespace CppDoc.Markdown

/-- The extension of the pages. -/
def extension : String := "md"

/-- The pages finished so far; the name and the text of the one being written; and whether something
on it still needs a blank line after it. -/
structure Writer where
  owner : Owner
  finished : List Page
  current : Option (String × String)
  opened : Bool
  deriving Repr

/-- A link to `href`, or the bare text if there is none. -/
def linkMarkup (t : LinkText) (href : Option String) : String :=
  let linked :=
    match href with
    | some href => "[" ++ t.linked ++ "](" ++ href ++ ")"
    | none => t.linked
  t.before ++ linked ++ t.after

/-- The file of the page `name` as a link from the page `current`; empty within that page. -/
def pageHref (current : Option String) (name : String) : String :=
  if current = some name then "" else name ++ "." ++ extension

/-- `s` without the line feeds it ends with. -/
def trimLineFeeds (s : String) : String :=
  String.ofList (Text.trimRightIf (· == '\n') s.toList)

/-- The text of content that stands in a paragraph, or of a block, on the page `current`. -/
def contentMarkup (current : Option String) : Content → String
  | .text t => t
  | .link url title => "[" ++ title ++ "](" ++ url ++ ")"
  | .argument t => "*" ++ t ++ "*"
  | .classLink t className =>
    let page := pageName className
    linkMarkup (.toClass className t)
      (if current = some page then none else some (pageHref current page))
  | .functionLink t f =>
    linkMarkup (.toFunction f t) (some (pageHref current (pageName f.owner) ++ "#" ++ f.anchor))
  | .code t => "```cpp\n" ++ trimLineFeeds t ++ "\n```"
  | .warning t => "> **Warning:** " ++ t
  | .note t => "> **Note:** " ++ t
  | .heading level t => "".pushn '#' (max 1 (min level 3) + 1) ++ " " ++ t

/-- The notice that names the owner. -/
def notice (owner : Owner) : String :=
  if owner.name.isEmpty then ""
  else
    let name :=
      if owner.home.isEmpty then owner.name
      else "[" ++ owner.name ++ "](" ++ owner.home ++ ")"
    "---\n\nThis page based on source code belonging to " ++ name ++ ". All rights reserved.\n"

namespace Writer

/-- Nothing has been written. -/
def empty (owner : Owner) : Writer :=
  { owner, finished := [], current := none, opened := false }

/-- Adds text to the page being written, if there is one. -/
def put (w : Writer) (text : String) : Writer :=
  match w.current with
  | some (name, out) => { w with current := some (name, out ++ text), opened := true }
  | none => w

/-- Adds the blank line that is needed. -/
def close (w : Writer) : Writer :=
  if w.opened then
    { w with current := w.current.map fun (name, out) => (name, out ++ "\n\n"), opened := false }
  else w

/-- Finishes the page being written. -/
def endPage (w : Writer) : Writer :=
  let w := w.close
  match w.current with
  | some (name, out) =>
    let page : Page := { name := name ++ "." ++ extension, content := out ++ notice w.owner }
    { w with finished := w.finished ++ [page], current := none }
  | none => w

/-- Begins a page. -/
def startPage (w : Writer) (name : String) : Writer :=
  { w.endPage with current := some (pageName name, "") }

/-- The name of the page being written. -/
def currentName (w : Writer) : Option String :=
  w.current.map (·.1)

/-- Writes a headline.  A function stands on the page of its class, which is begun if another page
is being written. -/
def headline (w : Writer) : Headline → Writer
  | .chapter name => w.startPage name
  | .classPage name => (w.startPage name).put "# "
  | .function f =>
    let w := if w.currentName = some (pageName f.owner) then w else w.startPage f.owner
    w.close.put ("<a name=\"" ++ f.anchor ++ "\"></a>\n\n### ")

/-- Writes one event. -/
def write (w : Writer) : Event → Writer
  | .headline h => w.headline h
  | .close => w.close
  | .content c =>
    let markup := contentMarkup w.currentName c
    if c.inline?.isSome then w.put markup else (w.close.put markup).close

/-- Finishes the page being written and hands out the finished pages, each of them once. -/
def finish (w : Writer) : List Page × Writer :=
  let w := w.endPage
  (w.finished, { w with finished := [] })

end Writer

end CppDoc.Markdown
