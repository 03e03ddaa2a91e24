import CppDoc.Page.Html
import CppDoc.Page.Json
import CppDoc.Page.Markdown

/-!
# Page formats

The formats that pages can be written in, and a writer for any of them.
-/

namespace CppDoc

/-- A page format. -/
inductive Format where
  | html
  | markdown
  | json
  deriving DecidableEq, Repr, Inhabited

namespace Format

/-- The format that a name on the command line stands for. -/
def ofName? : String → Option Format
  | "html" => some .html
  | "markdown" => some .markdown
  | "md" => some .markdown
  | "json" => some .json
  | _ => none

/-- The complaint about a name that stands for no format. -/
def unknown (name : String) : String :=
  "unknown format: " ++ name ++ ". Use html, markdown, or json"

/-- The extension of the pages. -/
def extension : Format → String
  | .html => Html.extension
  | .markdown => Markdown.extension
  | .json => Json.extension

end Format

/-- A writer of pages in one of the formats. -/
inductive PageWriter where
  | html (w : Html.Writer)
  | markdown (w : Markdown.Writer)
  | json (w : Json.Writer)
  deriving Repr

namespace PageWriter

/-- Nothing has been written. -/
def empty (owner : Owner) : Format → PageWriter
  | .html => .html (.empty owner)
  | .markdown => .markdown (.empty owner)
  | .json => .json .empty

/-- Writes one event. -/
def write : PageWriter → Event → PageWriter
  | .html w, e => .html (w.write e)
  | .markdown w, e => .markdown (w.write e)
  | .json w, e => .json (w.write e)

/-- Writes a stream of events. -/
def writeAll (w : PageWriter) (events : List Event) : PageWriter :=
  events.foldl write w

/-- Finishes the page being written and hands out pages. -/
def finish : PageWriter → List Page × PageWriter
  | .html w => (w.finish.1, .html w.finish.2)
  | .markdown w => (w.finish.1, .markdown w.finish.2)
  | .json w => (w.finish.1, .json w.finish.2)

end PageWriter

/-- The pages of a stream of events. -/
def Format.pages (format : Format) (owner : Owner) (events : List Event) : List Page :=
  ((PageWriter.empty owner format).writeAll events).finish.1

end CppDoc
