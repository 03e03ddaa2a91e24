import CppDoc.Markup.Interpreter
import CppDoc.Proofs.Lists

/-!
# The material of a manual

Documentation is drafted from what the files of a project have declared.  Drafting it leaves traces
in the registry: reports, mentions, marks, and the classes that chapters introduce.  `material` is a
registry without them, and everything that decides what a manual says can be asked of it as well.

* `material_report`, `material_mention` and so on: leaving a trace does not change the material;
* `eq_of_material`: a question that the material answers has one answer in all registries of that
  material;
* `resolve_material`, `preamble_material` and so on: the questions that the markup asks.
-/

namespace CppDoc

/-- A class without the mark that it has been drafted. -/
def Class.material (c : Class) : Class :=
  { c with done := false }

/-- A function without the mark that it is one of several. -/
def Function.material (f : Function) : Function :=
  { f with overload := false }

section Fields

variable (c : Class) (f : Function)

@[simp] theorem Class.name_material : c.material.name = c.name := rfl

@[simp] theorem Class.origin_material : c.material.origin = c.origin := rfl

@[simp] theorem Class.parent_material : c.material.parent = c.parent := rfl

@[simp] theorem Class.children_material : c.material.children = c.children := rfl

@[simp] theorem Class.members_material : c.material.members = c.members := rfl

@[simp] theorem Class.doc_material : c.material.doc = c.doc := rfl

@[simp] theorem Function.name_material : f.material.name = f.name := rfl

@[simp] theorem Function.owner_material : f.material.owner = f.owner := rfl

@[simp] theorem Function.returnType_material : f.material.returnType = f.returnType := rfl

@[simp] theorem Function.parameters_material : f.material.parameters = f.parameters := rfl

@[simp] theorem Function.isConst_material : f.material.isConst = f.isConst := rfl

@[simp] theorem Function.origin_material : f.material.origin = f.origin := rfl

@[simp] theorem Function.doc_material : f.material.doc = f.doc := rfl

end Fields

/-- A chapter without the classes that it introduces. -/
def Chapter.material (ch : Chapter) : Chapter :=
  { ch with classes := [] }

@[simp] theorem Chapter.name_material (ch : Chapter) : ch.material.name = ch.name := rfl

@[simp] theorem Chapter.doc_material (ch : Chapter) : ch.material.doc = ch.doc := rfl

namespace Registry

/-- What is known without the traces that drafting leaves. -/
def material (reg : Registry) : Registry :=
  { reg with
    classes := reg.classes.map Class.material
    functions := reg.functions.map Function.material
    chapters := reg.chapters.map Chapter.material
    mentions := []
    diagnostics := [] }

/-- A question that the material answers has one answer wherever the material is the same. -/
theorem eq_of_material {α : Type} (ask : Registry → α) (hask : ∀ reg, ask reg.material = ask reg)
    {reg reg' : Registry} (h : reg.material = reg'.material) : ask reg = ask reg' := by
  rw [← hask reg, h, hask reg']

/-! ## Traces -/

theorem material_report (reg : Registry) (site : Location) (problem : Problem) :
    (reg.report site problem).material = reg.material := rfl

theorem material_mention (reg : Registry) (name : String) (site : Location) :
    (reg.mention name site).material = reg.material := by
  unfold mention
  split <;> rfl

theorem material_introduce (reg : Registry) (ch : ChapterId) (c : ClassId) :
    (reg.editChapter ch (·.introduce c)).material = reg.material := by
  have hchapter (e : Chapter) : (e.introduce c).material = e.material := by
    unfold Chapter.introduce
    split <;> rfl
  simp only [material, editChapter, map_modify_eq hchapter]

theorem material_markOverload (reg : Registry) (f : FunctionId) :
    (reg.editFunction f fun g => { g with overload := true }).material = reg.material := by
  have hfunction (e : Function) : Function.material { e with overload := true } = e.material := rfl
  simp only [material, editFunction, map_modify_eq hfunction]

theorem material_markDone (reg : Registry) (c : ClassId) :
    (reg.editClass c fun e => { e with done := true }).material = reg.material := by
  have hclass (e : Class) : Class.material { e with done := true } = e.material := rfl
  simp only [material, editClass, map_modify_eq hclass]

/-! ## Entities -/

/-- Reading a list that has been changed throughout. -/
private theorem getD_map_eq {α : Type} [Inhabited α] {f : α → α} (h : f default = default)
    (l : List α) (i : Nat) : (l.map f).getD i default = f (l.getD i default) := by
  rw [List.getD_eq_getElem?_getD, List.getD_eq_getElem?_getD, List.getElem?_map]
  cases l[i]? with
  | none => exact h.symm
  | some a => rfl

variable (reg : Registry)

@[simp] theorem getClass_material (c : ClassId) :
    reg.material.getClass c = (reg.getClass c).material :=
  getD_map_eq rfl reg.classes c.index

@[simp] theorem function_material (f : FunctionId) :
    reg.material.function f = (reg.function f).material :=
  getD_map_eq rfl reg.functions f.index

@[simp] theorem chapter_material (ch : ChapterId) :
    reg.material.chapter ch = (reg.chapter ch).material :=
  getD_map_eq rfl reg.chapters ch.index

@[simp] theorem doc_material (d : DocId) : reg.material.doc d = reg.doc d := rfl

@[simp] theorem docOf_material (s : Subject) : reg.material.docOf s = reg.docOf s := by
  cases s <;> simp [docOf]

@[simp] theorem classIds_material : reg.material.classIds = reg.classIds := by
  simp [classIds, material]

@[simp] theorem chapterIds_material : reg.material.chapterIds = reg.chapterIds := by
  simp [chapterIds, material]

@[simp] theorem memberRef_material (f : FunctionId) : reg.material.memberRef f = reg.memberRef f := by
  simp [memberRef]

@[simp] theorem findClass?_material (name : String) :
    reg.material.findClass? name = reg.findClass? name := by
  simp [findClass?, material, List.findIdx?_map, Function.comp_def]

@[simp] theorem findFunction?_material (name : String) :
    reg.material.findFunction? name = reg.findFunction? name := by
  simp [findFunction?, material, List.findIdx?_map, Function.comp_def]

/-! ## The hierarchy -/

theorem ancestorsAmong_material (fresh : List ClassId) (next : Option ClassId) :
    reg.material.ancestorsAmong fresh next = reg.ancestorsAmong fresh next := by
  induction fresh, next using ancestorsAmong.induct reg with
  | case1 fresh => simp [ancestorsAmong]
  | case2 fresh p hp ih =>
      rw [ancestorsAmong, ancestorsAmong, dif_pos hp, dif_pos hp, getClass_material,
        Class.parent_material, ih]
  | case3 fresh p hp => rw [ancestorsAmong, ancestorsAmong, dif_neg hp, dif_neg hp]

@[simp] theorem ancestors_material (c : ClassId) : reg.material.ancestors c = reg.ancestors c := by
  rw [ancestors, ancestors, ancestorsAmong_material, classIds_material, getClass_material,
    Class.parent_material]

@[simp] theorem overridden_material (f : FunctionId) :
    reg.material.overridden f = reg.overridden f := by
  simp only [overridden, function_material, getClass_material, ancestors_material]
  rfl

end Registry

/-! ## What the markup asks -/

namespace Markup

open CppDoc.Registry

variable (reg : Registry)

@[simp] theorem scope_material (s : Subject) : scope reg.material s = scope reg s := by
  cases s <;> simp [scope]

@[simp] theorem findTarget?_material (within : Option ClassId) (name : String) :
    findTarget? reg.material within name = findTarget? reg within name := by
  cases within <;> simp [findTarget?]

@[simp] theorem resolve_material (s : Subject) (w : List Char) :
    resolve reg.material s w = resolve reg s w := by
  simp [resolve, resolveCall, resolveClass]

@[simp] theorem isArgument_material (s : Subject) (name : String) :
    isArgument reg.material s name = isArgument reg s name := by
  unfold isArgument
  split
  · rw [function_material]
    rfl
  · rfl

@[simp] theorem firstClass?_material (s : List Char) :
    firstClass? reg.material s = firstClass? reg s := by
  induction s using firstClass?.induct reg with
  | case1 => simp only [firstClass?]
  | case2 c rest hc found hfound =>
      rw [firstClass?, firstClass?, if_pos hc, if_pos hc, findClass?_material, hfound]
  | case3 c rest hc hnone ih =>
      rw [firstClass?, firstClass?, if_pos hc, if_pos hc, findClass?_material, hnone, ih]
  | case4 c rest hc ih => rw [firstClass?, firstClass?, if_neg hc, if_neg hc, ih]

@[simp] theorem signaturePiece_material (within : ClassId) (s : String) :
    signaturePiece reg.material within s = signaturePiece reg within s := by
  simp [signaturePiece]

@[simp] theorem preamble_material (s : Subject) : preamble reg.material s = preamble reg s := by
  cases s with
  | function f => simp [preamble, functionPreamble, parameterDrafts]
  | classPage c => simp [preamble, classPreamble]
  | chapter ch => simp [preamble]

end Markup

end CppDoc
