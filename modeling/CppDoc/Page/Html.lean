import CppDoc.Page.Basic

/-!
# HTML pages

One web page for each chapter and each class.  Text is escaped and stands in paragraphs that are
opened when needed; blocks close the open paragraph.  Code is taken over as it is.
-/

namespace CppDoc.Html

/-- The extension of the pages. -/
def extension : String := "html"

/-- A character of a text as markup. -/
def escapeChar (c : Char) : String :=
  if c = '&' then "&amp;"
  else if c = '<' then "&lt;"
  else if c = '>' then "&gt;"
  else if c = '"' then "&quot;"
  else String.singleton c

/-- A text as markup. -/
def escape (s : String) : String :=
  String.join (s.toList.map escapeChar)

/-- The elements that inline markup can stand in. -/
inductive Block where
  | paragraph
  | classHeadline
  | functionHeadline
  deriving DecidableEq, Repr

/-- The markup that opens a block. -/
def Block.opening : Block → String
  | .paragraph => "<p class=\"text\">"
  | .classHeadline => "<h1 class=\"classh\">"
  | .functionHeadline => "<h2 class=\"functionh\">"

/-- The markup that closes a block. -/
def Block.closing : Block → String
  | .paragraph => "</p>\n"
  | .classHeadline => "</h1>\n"
  | .functionHeadline => "</h2>\n"

/-- A page being written: its name without the extension, its markup so far, the block that is
open, and the anchors set on it. -/
structure Sheet where
  name : String
  markup : String
  block : Option Block
  anchors : List String
  deriving Repr

namespace Sheet

/-- A new page. -/
def blank (name title : String) : Sheet :=
  { name := pageName name
    markup :=
      "<!DOCTYPE html>\n<html lang=en><head>\n<meta charset=\"utf-8\">\n<title>" ++ escape title ++
        "</title>\n<link rel=stylesheet href=\"udoc.css\" type=\"text/css\">\n</head><body>\n"
    block := none
    anchors := [] }

/-- Adds markup. -/
def put (s : Sheet) (markup : String) : Sheet :=
  { s with markup := s.markup ++ markup }

/-- Closes the open block. -/
def close (s : Sheet) : Sheet :=
  match s.block with
  | some b => { s.put b.closing with block := none }
  | none => s

/-- Opens a block. -/
def enter (s : Sheet) (b : Block) : Sheet :=
  { s.put b.opening with block := some b }

/-- Adds markup in the open block, or in a new paragraph. -/
def inline (s : Sheet) (markup : String) : Sheet :=
  (if s.block.isNone then s.enter .paragraph else s).put markup

/-- Adds an element of its own. -/
def element (s : Sheet) (markup : String) : Sheet :=
  s.close.put markup

/-- Sets an anchor, the first time it is needed. -/
def anchor (s : Sheet) (name : String) : Sheet :=
  if s.anchors.contains name then s
  else { s.put ("<a name=\"" ++ escape name ++ "\"></a>") with anchors := s.anchors ++ [name] }

/-- The finished page, with the notice that names the owner. -/
def finish (s : Sheet) (owner : Owner) : Page :=
  let name :=
    if owner.home.isEmpty then escape owner.name
    else "<a href=\"" ++ escape owner.home ++ "\">" ++ escape owner.name ++ "</a>"
  let s := s.element ("<p class=\"rights\">This web page based on source code belonging to " ++
    name ++ ". All rights reserved.</p>\n</body></html>\n")
  { name := s.name ++ "." ++ extension, content := s.markup }

end Sheet

/-- A link to `href`, or the bare text if there is none.  A text of several words is kept on one
line. -/
def linkMarkup (t : LinkText) (href : Option String) : String :=
  let linked :=
    match href with
    | some href => "<a href=\"" ++ href ++ "\">" ++ escape t.linked ++ "</a>"
    | none => escape t.linked
  let markup := escape t.before ++ linked ++ escape t.after
  if (t.before ++ t.linked ++ t.after).toList.contains ' ' then
    "<span class=nobr>" ++ markup ++ "</span>"
  else markup

/-- The file of the page `name` as a link from the page `current`; empty within that page. -/
def pageHref (current : Option String) (name : String) : String :=
  if current = some name then "" else escape name ++ "." ++ extension

/-- The markup of content that stands in a paragraph, or of a block, on the page `current`. -/
def contentMarkup (current : Option String) : Content → String
  | .text t => escape t
  | .link url title => "<a href=\"" ++ escape url ++ "\">" ++ escape title ++ "</a>"
  | .argument t => "<i>" ++ escape t ++ "</i>"
  | .classLink t className =>
    let page := pageName className
    linkMarkup (.toClass className t)
      (if current = some page then none else some (pageHref current page))
  | .functionLink t f =>
    linkMarkup (.toFunction f t)
      (some (pageHref current (pageName f.owner) ++ "#" ++ escape f.anchor))
  | .code t => "<pre>" ++ t ++ "</pre>\n"
  | .warning t => "<p class=\"warning\"><b>Warning:</b> " ++ escape t ++ "</p>\n"
  | .note t => "<p class=\"note\"><b>Note:</b> " ++ escape t ++ "</p>\n"
  | .heading level t =>
    let h := "h" ++ toString (max 1 (min level 3) + 2)
    "<" ++ h ++ ">" ++ escape t ++ "</" ++ h ++ ">\n"

/-- The pages finished so far and the one being written. -/
structure Writer where
  owner : Owner
  finished : List Page
  current : Option Sheet
  deriving Repr

namespace Writer

/-- Nothing has been written. -/
def empty (owner : Owner) : Writer :=
  { owner, finished := [], current := none }

/-- Finishes the page being written. -/
def endPage (w : Writer) : Writer :=
  match w.current with
  | some s => { w with finished := w.finished ++ [s.finish w.owner], current := none }
  | none => w

/-- Begins a page. -/
def startPage (w : Writer) (name title : String) : Writer :=
  { w.endPage with current := some (.blank name title) }

/-- Changes the page being written, if there is one. -/
def edit (w : Writer) (f : Sheet → Sheet) : Writer :=
  { w with current := w.current.map f }

/-- The name of the page being written. -/
def currentName (w : Writer) : Option String :=
  w.current.map (·.name)

/-- The title of the page of a class. -/
def classTitle (className : String) : String :=
  className ++ " documentation"

/-- Writes a headline.  A function stands on the page of its class, which is begun if another page
is being written. -/
def headline (w : Writer) : Headline → Writer
  | .chapter name => w.startPage name name
  | .classPage name => (w.startPage name (classTitle name)).edit (·.enter .classHeadline)
  | .function f =>
    let w :=
      if w.currentName = some (pageName f.owner) then w
      else w.startPage f.owner (classTitle f.owner)
    w.edit fun s =>
      let s := s.close.put Block.functionHeadline.opening
      { s.anchor f.anchor with block := some .functionHeadline }

/-- Writes one event. -/
def write (w : Writer) : Event → Writer
  | .headline h => w.headline h
  | .close => w.edit Sheet.close
  | .content c =>
    let markup := contentMarkup w.currentName c
    w.edit fun s => if c.inline?.isSome then s.inline markup else s.element markup

/-- Finishes the page being written and hands out the finished pages, each of them once. -/
def finish (w : Writer) : List Page × Writer :=
  let w := w.endPage
  (w.finished, { w with finished := [] })

end Writer

end CppDoc.Html
