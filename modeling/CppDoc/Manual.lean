import CppDoc.Markup.Interpreter
import CppDoc.Spacing

/-!
# The manual of a project

The documentation of everything in a registry, in one stream: the chapters, each followed by the
classes that it introduces, and then the other classes.  Every class is documented once, where it is
first reached.  What has no documentation is reported on the way.

* `draftClass` drafts a class and its members;
* `draft` drafts the whole manual, and `events` settles that draft.
-/

namespace CppDoc.Manual

/-- Drafts the documentation of one member, or reports that there is none.  A function that
reimplements another one needs none of its own. -/
def draftMember (reg : Registry) (id : FunctionId) : Registry × List Draft :=
  let f := reg.function id
  match f.doc with
  | some doc => Markup.interpret reg doc
  | none =>
    match reg.overridden id with
    | some _ => (reg, [])
    | none => (reg.report f.origin (.undocumentedFunction f.name f.parameters), [])

/-- Drafts one thing after another. -/
def draftEach {α : Type} (draftOne : Registry → α → Registry × List Draft) (reg : Registry) :
    List α → Registry × List Draft
  | [] => (reg, [])
  | a :: rest =>
    let (reg, now) := draftOne reg a
    let (reg, later) := draftEach draftOne reg rest
    (reg, now ++ later)

/-- Where to report that a class has no documentation: where its body is, or its first member. -/
def reportSite (reg : Registry) (c : Class) : Option Location :=
  match c.origin with
  | some site => some site
  | none => c.members.head?.map fun m => (reg.function m).origin

/-- Drafts a class and its members, unless that has been done.  Only a class whose body was found
has a page of its own. -/
def draftClass (reg : Registry) (id : ClassId) : Registry × List Draft :=
  let c := reg.getClass id
  if c.done then (reg, [])
  else
    let reg := reg.editClass id fun c => { c with done := true }
    match c.doc with
    | none => (reg.reportAt (reportSite reg c) (.undocumentedClass c.name), [])
    | some doc =>
      let (reg, page) := if c.origin.isSome then Markup.interpret reg doc else (reg, [])
      let (reg, members) := draftEach draftMember reg (reg.getClass id).members
      (reg, page ++ members)

/-- Drafts a chapter and the classes that it introduces. -/
def draftChapter (reg : Registry) (id : ChapterId) : Registry × List Draft :=
  let (reg, page) :=
    match (reg.chapter id).doc with
    | some doc => Markup.interpret reg doc
    | none => (reg, [])
  let (reg, classes) := draftEach draftClass reg (reg.chapter id).classes
  (reg, page ++ classes)

/-- Drafts the whole manual. -/
def draft (reg : Registry) : Registry × List Draft :=
  let (reg, chapters) := draftEach draftChapter reg reg.chapterIds
  let (reg, classes) := draftEach draftClass reg reg.classIds
  (reg, chapters ++ classes ++ [.close])

/-- The manual as a stream of events. -/
def events (reg : Registry) : Registry × List Event :=
  let (reg, drafts) := draft reg
  (reg, (Spacing.closed.settle drafts).2)

end CppDoc.Manual
