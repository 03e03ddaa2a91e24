import CppDoc.Event

/-!
# Pages

A page has a file name and a content.  This module holds what the page formats share: the notice
that names the owner of the documented sources, and the part of a link's text that carries the
link.
-/

namespace CppDoc

open CppDoc.Text

/-- A finished page; its name includes the extension of its format. -/
structure Page where
  name : String
  content : String
  deriving DecidableEq, Repr, Inhabited

/-- Who owns the documented sources, and the owner's home page; both may be empty. -/
structure Owner where
  name : String
  home : String
  deriving DecidableEq, Repr, Inhabited

/-- A text in three parts, of which the middle one carries a link. -/
structure LinkText where
  before : String
  linked : String
  after : String
  deriving DecidableEq, Repr, Inhabited

namespace LinkText

/-- Links the first occurrence of `needle` in `text`. -/
def within? (needle text : String) : Option LinkText :=
  (find? needle.toList text.toList).map fun n =>
    { before := String.ofList (text.toList.take n)
      linked := needle
      after := String.ofList (text.toList.drop (n + needle.toList.length)) }

/-- Links the whole text. -/
def whole (text : String) : LinkText :=
  { before := "", linked := text, after := "" }

/-- Takes the `()` behind the linked part into it. -/
def withCall (t : LinkText) : LinkText :=
  match t.after.toList with
  | '(' :: ')' :: rest => { t with linked := t.linked ++ "()", after := String.ofList rest }
  | _ => t

/-- The link to a class within a text: the name of the class carries it. -/
def toClass (className text : String) : LinkText :=
  (within? className text).getD (whole text)

/-- The link to a function within a text: its qualified name carries it, or else its member name,
and an empty pair of parentheses after that as well. -/
def toFunction (f : MemberRef) (text : String) : LinkText :=
  ((within? f.name text).getD ((within? f.member text).getD (whole text))).withCall

end LinkText

end CppDoc
