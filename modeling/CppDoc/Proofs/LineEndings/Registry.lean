import CppDoc.Proofs.LineEndings.Text
import CppDoc.Registry.Hierarchy

/-!
# Registries and line endings

A registry keeps the texts of files and of comments.  `Registry.crlf` changes the line endings in them,
and nothing that is entered into a registry depends on that: every operation enters the same into a
registry and into its `crlf`.

* `file_crlf` and `doc_crlf`: the texts that are kept;
* `classNamed_crlf`, `declare_crlf` and so on: what is entered;
* `buildHierarchy_crlf` and `overridden_crlf`: the class hierarchy.
-/

namespace CppDoc

open CppDoc.Text

/-- A file with the other line endings. -/
def SourceFile.crlf (f : SourceFile) : SourceFile :=
  { f with text := crlfText f.text }

/-- A block of documentation with the other line endings. -/
def DocBlock.crlf (d : DocBlock) : DocBlock :=
  { d with text := crlfText d.text }

namespace Registry

/-- What is known, with the other line endings in all texts. -/
def crlf (reg : Registry) : Registry :=
  { reg with files := reg.files.map SourceFile.crlf, docs := reg.docs.map DocBlock.crlf }

section Entities

variable (reg : Registry)

theorem file_crlf (id : FileId) : reg.crlf.file id = (reg.file id).crlf := by
  simp only [file, crlf, List.getD_eq_getElem?_getD, List.getElem?_map]
  cases reg.files[id.index]? <;> rfl

theorem doc_crlf (id : DocId) : reg.crlf.doc id = (reg.doc id).crlf := by
  simp only [doc, crlf, List.getD_eq_getElem?_getD, List.getElem?_map]
  cases reg.docs[id.index]? <;> rfl

theorem path_crlf (id : FileId) : (reg.crlf.file id).path = (reg.file id).path := by
  rw [file_crlf]
  rfl

theorem findHeader?_crlf (name : String) : reg.crlf.findHeader? name = reg.findHeader? name := by
  simp only [findHeader?, crlf, List.findIdx?_map]
  rfl

theorem addFile_crlf (f : SourceFile) :
    reg.crlf.addFile f.crlf = ((reg.addFile f).1, (reg.addFile f).2.crlf) := by
  simp [addFile, crlf]

theorem report_crlf (site : Location) (problem : Problem) :
    reg.crlf.report site problem = (reg.report site problem).crlf := rfl

theorem reportAt_crlf (site : Option Location) (problem : Problem) :
    reg.crlf.reportAt site problem = (reg.reportAt site problem).crlf := by
  cases site <;> rfl

theorem classNamed_crlf (name : String) :
    reg.crlf.classNamed name = ((reg.classNamed name).1, (reg.classNamed name).2.crlf) := by
  have hfound : reg.crlf.findClass? name = reg.findClass? name := rfl
  rw [classNamed, classNamed, hfound]
  cases reg.findClass? name <;> rfl

theorem addFunction_crlf (returnType name parameters : String) (isConst : Bool) (origin : Location) :
    reg.crlf.addFunction returnType name parameters isConst origin =
      ((reg.addFunction returnType name parameters isConst origin).1,
        (reg.addFunction returnType name parameters isConst origin).2.crlf) := by
  unfold addFunction
  cases ownerPart? name with
  | none => rfl
  | some owner =>
      simp only [classNamed_crlf]
      rfl

/-- **Declarations** are entered alike. -/
theorem declare_crlf (returnType name parameters : String) (isConst : Bool) (origin : Location) :
    reg.crlf.declare returnType name parameters isConst origin =
      ((reg.declare returnType name parameters isConst origin).1,
        (reg.declare returnType name parameters isConst origin).2.crlf) := by
  have hfound : reg.crlf.findOverload? name parameters isConst =
      reg.findOverload? name parameters isConst := rfl
  rw [declare, declare, hfound]
  cases reg.findOverload? name parameters isConst with
  | none => exact addFunction_crlf reg _ _ _ _ _
  | some id => rfl

theorem attachDoc_crlf (block : DocBlock) :
    reg.crlf.attachDoc block.crlf = ((reg.attachDoc block).1, (reg.attachDoc block).2.crlf) := by
  have hsubject : block.crlf.subject = block.subject := rfl
  simp only [attachDoc, hsubject]
  cases block.subject <;> simp [crlf, editFunction, editClass, editChapter]

theorem mention_crlf (name : String) (site : Location) :
    reg.crlf.mention name site = (reg.mention name site).crlf := by
  have hmentions : reg.crlf.mentions = reg.mentions := rfl
  rw [mention, mention, hmentions]
  cases reg.mentions.lookup name with
  | none => rfl
  | some first => simp only [report_crlf, path_crlf]

end Entities

/-! ## The hierarchy -/

section Hierarchy

variable (reg : Registry)

theorem linkParent_crlf (id : ClassId) : reg.crlf.linkParent id = (reg.linkParent id).crlf := by
  have hclass : reg.crlf.getClass id = reg.getClass id := rfl
  have hfound (name : String) : reg.crlf.findClass? name = reg.findClass? name := rfl
  simp only [linkParent, hclass, hfound]
  split
  · rfl
  · cases reg.findClass? (baseName (reg.getClass id).parentName) with
    | none => exact reportAt_crlf reg _ _
    | some parent => rfl

theorem buildHierarchy_crlf : reg.crlf.buildHierarchy = reg.buildHierarchy.crlf := by
  have hlinked (ids : List ClassId) (reg : Registry) :
      ids.foldl linkParent reg.crlf = (ids.foldl linkParent reg).crlf := by
    induction ids generalizing reg with
    | nil => rfl
    | cons id ids ih => rw [List.foldl_cons, List.foldl_cons, linkParent_crlf, ih]
  have hbuilt : reg.crlf.hierarchyBuilt = reg.hierarchyBuilt := rfl
  rw [buildHierarchy, buildHierarchy, hbuilt]
  split
  · rfl
  · exact hlinked reg.classIds { reg with hierarchyBuilt := true }

theorem ancestorsAmong_crlf (fresh : List ClassId) (next : Option ClassId) :
    reg.crlf.ancestorsAmong fresh next = reg.ancestorsAmong fresh next := by
  induction fresh, next using ancestorsAmong.induct reg with
  | case1 fresh => simp [ancestorsAmong]
  | case2 fresh p hp ih =>
      rw [ancestorsAmong, ancestorsAmong, dif_pos hp, dif_pos hp]
      exact congrArg (p :: ·) ih
  | case3 fresh p hp => rw [ancestorsAmong, ancestorsAmong, dif_neg hp, dif_neg hp]

theorem ancestors_crlf (c : ClassId) : reg.crlf.ancestors c = reg.ancestors c :=
  ancestorsAmong_crlf reg _ _

theorem overridden_crlf (f : FunctionId) : reg.crlf.overridden f = reg.overridden f := by
  simp only [overridden, ancestors_crlf]
  rfl

end Hierarchy

end Registry

end CppDoc
