import CppDoc.Text.Blank
import CppDoc.Text.LowerCase
import CppDoc.Text.Search

/-!
# Documentation events

Documentation is a stream of events: headlines, content, and the ends of paragraphs.  Chapters and
classes have a page each, and the functions of a class are headlines on its page.

* `Event` is what a page writer receives;
* `Draft` is what the markup of a comment is turned into: events and soft spaces between them, whose
  final places are settled later;
* `pageName` and `MemberRef.anchor` name the places that links lead to.
-/

namespace CppDoc

open CppDoc.Text

/-- The separator of the parts of a qualified name. -/
def scopeSeparator : List Char :=
  "::".toList

/-- The part of a qualified name behind its last `::`. -/
def memberPart (name : String) : String :=
  match findLast? scopeSeparator name.toList with
  | some n => String.ofList (name.toList.drop (n + scopeSeparator.length))
  | none => name

/-- The part of a qualified name before its last `::`, unless nothing stands there. -/
def ownerPart? (name : String) : Option String :=
  match findLast? scopeSeparator name.toList with
  | some (n + 1) => some (String.ofList (name.toList.take (n + 1)))
  | _ => none

/-- A member function as the target of links: its qualified name and the name of its class. -/
structure MemberRef where
  name : String
  owner : String
  deriving DecidableEq, Repr, Inhabited

/-- The name of the function within its class. -/
def MemberRef.member (f : MemberRef) : String :=
  memberPart f.name

/-- The anchor of a qualified name on the page of its class: the member's name, except that all
destructors share one. -/
def anchorOf (name : String) : String :=
  let member := memberPart name
  if member.toList.head? == some '~' then "destructor" else member

/-- The anchor of the function on the page of its class. -/
def MemberRef.anchor (f : MemberRef) : String :=
  anchorOf f.name

/-- The name of the page of a chapter or a class, without its extension. -/
def pageName (name : String) : String :=
  lowerCase name

/-- What a headline announces. -/
inductive Headline where
  | chapter (name : String)
  | classPage (name : String)
  | function (f : MemberRef)
  deriving DecidableEq, Repr, Inhabited

/-- Content of a page.  The first five kinds stand in a paragraph, the others are blocks of their
own. -/
inductive Content where
  | text (text : String)
  | link (url title : String)
  | argument (text : String)
  | classLink (text className : String)
  | functionLink (text : String) (f : MemberRef)
  | code (text : String)
  | warning (text : String)
  | note (text : String)
  | heading (level : Nat) (text : String)
  deriving DecidableEq, Repr, Inhabited

/-- The text that content standing in a paragraph shows. -/
def Content.inline? : Content → Option String
  | .text t => some t
  | .link _ title => some title
  | .argument t => some t
  | .classLink t _ => some t
  | .functionLink t _ => some t
  | .code _ | .warning _ | .note _ | .heading _ _ => none

/-- One event of a documentation stream.  `close` ends the open headline or paragraph. -/
inductive Event where
  | headline (h : Headline)
  | close
  | content (c : Content)
  deriving DecidableEq, Repr, Inhabited

/-- One item of a drafted stream: an event, or a request for a space before the next piece of
text. -/
inductive Draft where
  | space
  | event (e : Event)
  deriving DecidableEq, Repr, Inhabited

namespace Draft

/-- A headline. -/
def headline (h : Headline) : Draft := .event (.headline h)

/-- The end of what may be open. -/
def close : Draft := .event .close

/-- Content of any kind. -/
def content (c : Content) : Draft := .event (.content c)

/-- Plain text. -/
def text (t : String) : Draft := content (.text t)

end Draft

end CppDoc
