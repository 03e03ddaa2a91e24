import CppDoc.Proofs.Reading.Comment
import CppDoc.Proofs.Reading.Documentation

/-!
# Reachable registries

A registry is changed by calls: entities are entered one by one, files are scanned, and documentation
is drafted.  `Call` lists them.  Texts, names and trees of files are arbitrary; a number that is
passed to a call is one that an earlier call has given.

* `Call.leads`: every call is a sequence of edits;
* `wellFormed_of_reachable`: whatever calls are made, in whatever order, the registry stays well-formed.
-/

namespace CppDoc.Registry

/-- One call, and the registry that it leaves. -/
inductive Call (reg : Registry) : Registry → Prop
  | addFile (file : SourceFile) : Call reg (reg.addFile file).2
  | classNamed (name : String) : Call reg (reg.classNamed name).2
  | addFunction (returnType name parameters : String) (isConst : Bool) {origin : Location}
      (horigin : reg.HasFile origin.file) :
      Call reg (reg.addFunction returnType name parameters isConst origin).2
  | declare (returnType name parameters : String) (isConst : Bool) {origin : Location}
      (horigin : reg.HasFile origin.file) :
      Call reg (reg.declare returnType name parameters isConst origin).2
  | addChapter (name : String) : Call reg (reg.addChapter name).2
  | attachDoc {block : DocBlock} (horigin : reg.HasFile block.origin.file)
      (hsubject : reg.HasSubject block.subject) : Call reg (reg.attachDoc block).2
  | mention (name : String) {site : Location} (hsite : reg.HasFile site.file) :
      Call reg (reg.mention name site)
  | scanHeader {file : FileId} (hfile : reg.HasFile file) : Call reg (Header.scan reg file)
  | scanComments (tree : FileTree) {file : FileId} (hfile : reg.HasFile file) :
      Call reg (Comment.scan tree reg file).1
  | buildHierarchy : Call reg reg.buildHierarchy
  | interpret {doc : DocId} (hdoc : reg.HasDoc doc) : Call reg (Markup.interpret reg doc).1
  | events : Call reg (Manual.events reg).1

/-- What calls make of the empty registry. -/
inductive Reachable : Registry → Prop
  | empty : Reachable empty
  | call {reg reg' : Registry} (before : Reachable reg) (last : Call reg reg') : Reachable reg'

/-- **A step.**  From a well-formed registry, every call is a sequence of edits. -/
theorem Call.leads {reg reg' : Registry} (h : Call reg reg') : Leads reg reg' := by
  cases h with
  | addFile file => exact .of_edits (.single (.addFile file))
  | classNamed name => exact .of_edits (entries_classNamed reg name).edits
  | addFunction returnType name parameters isConst horigin =>
      exact .of_edits (entries_addFunction reg returnType name parameters isConst horigin).edits
  | declare returnType name parameters isConst horigin =>
      exact .of_edits (entries_declare reg returnType name parameters isConst horigin).edits
  | addChapter name => exact .of_edits (.single (.addChapter name))
  | attachDoc horigin hsubject => exact .of_edits (.single (.attachDoc horigin hsubject))
  | mention name hsite => exact leads_mention reg name hsite
  | scanHeader hfile => exact Header.leads_scan reg hfile
  | scanComments tree hfile => exact Comment.leads_scan tree reg hfile
  | buildHierarchy => exact leads_buildHierarchy reg
  | interpret hdoc => exact Markup.leads_interpret reg hdoc
  | events => exact Manual.leads_events reg

/-- **Well-formedness.**  Every reachable registry is well-formed. -/
theorem wellFormed_of_reachable {reg : Registry} (h : Reachable reg) : reg.WellFormed := by
  induction h with
  | empty => exact wellFormed_empty
  | call _ last ih => exact (last.leads ih).wellFormed ih

/-- A header is scanned, its classes are linked, and the manual is drafted. -/
theorem wellFormed_of_scan :
    (Manual.events (Header.scan (empty.addFile
      { path := "foo.h", kind := .header, text := "class Foo \x7b\n  void bar(int);\n\x7d;\n" }).2
      ⟨0⟩).buildHierarchy).1.WellFormed :=
  wellFormed_of_reachable
    (.call (.call (.call (.call .empty (.addFile _)) (.scanHeader Nat.zero_lt_one)) .buildHierarchy)
      .events)

end CppDoc.Registry
