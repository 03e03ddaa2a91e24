import CppDoc.Event

/-!
# Settling spaces and paragraphs

A draft asks for spaces where words are separated and closes paragraphs wherever one might be open.
`Spacing` settles it: spaces asked for fall together and are dropped at the ends of paragraphs and
beside white space that is already there, and a paragraph is closed only if it is open.

* `Spacing.step` settles one item of a draft and `Spacing.settle` a whole one;
* `Spacing.closed` is the state in which nothing is open.
-/

namespace CppDoc

open CppDoc.Text

/-- What has to be known of the stream so far: whether a space was asked for, whether a headline or
a paragraph is open, whether it is still without content, and whether its content ends in white
space. -/
structure Spacing where
  pending : Bool
  opened : Bool
  fresh : Bool
  spaced : Bool
  deriving DecidableEq, Repr, Inhabited

namespace Spacing

/-- Nothing is open. -/
def closed : Spacing :=
  { pending := false, opened := false, fresh := true, spaced := false }

/-- Does `s` begin with white space? -/
def leadsWithSpace (s : String) : Bool :=
  s.toList.head?.any isSpace

/-- Does `s` end in white space? -/
def endsWithSpace (s : String) : Bool :=
  s.toList.getLast?.any isSpace

/-- The text `s` as it is added: at the start of a paragraph and after white space, leading spaces
are dropped. -/
def fitted (st : Spacing) (s : String) : String :=
  if st.fresh || st.spaced then String.ofList (s.toList.dropWhile (· == ' ')) else s

/-- Closes what is open. -/
def finish (st : Spacing) : Spacing × List Event :=
  (closed, if st.opened then [.close] else [])

/-- Adds content that shows `shown` in the open paragraph, with the space that was asked for. -/
def inline (st : Spacing) (c : Content) (shown : String) : Spacing × List Event :=
  let space :=
    if st.pending && !st.spaced && !leadsWithSpace shown then [.content (.text " ")] else []
  ({ pending := false, opened := true, fresh := false, spaced := endsWithSpace shown },
    space ++ [.content c])

/-- Settles one item of a draft. -/
def step (st : Spacing) : Draft → Spacing × List Event
  | .space => ({ st with pending := st.pending || !st.fresh }, [])
  | .event .close => st.finish
  | .event (.headline h) => ({ closed with opened := true }, st.finish.2 ++ [.headline h])
  | .event (.content (.text t)) =>
    let t := st.fitted t
    if t.isEmpty then (st, []) else st.inline (.text t) t
  | .event (.content c) =>
    match c.inline? with
    | some shown => st.inline c shown
    | none => ({ closed with opened := true }, [.content c])

/-- Settles a draft. -/
def settle (st : Spacing) : List Draft → Spacing × List Event
  | [] => (st, [])
  | d :: rest =>
    let (st, now) := st.step d
    let (st, later) := st.settle rest
    (st, now ++ later)

end Spacing

end CppDoc
