import CppDoc.Proofs.Registry.Preservation
import CppDoc.Proofs.Syntax.Tidy
import CppDoc.Proofs.Text.Search

/-!
# A registry keeps tidy texts

The texts of a registry that come to be shown are the names of its classes and the parts of its
functions.  They are tidy as long as tidy ones are entered, and a function has a return type only if
it has a name to stand before.

* `Registry.Tidy`: what is kept of the classes and functions is tidy;
* `tidy_classNamed`, `tidy_declare` and `tidy_attachDoc`: the operations that readers use;
* `tidy_buildHierarchy`: linking the classes.

The name of a class may end with a blank, as it is cut off the name of a member.
-/

namespace CppDoc

/-- What is kept of the function is tidy, and it has a name if it has a return type. -/
structure Function.Tidy (f : Function) : Prop where
  name : Text.Tidy f.name.toList
  returnType : Text.Tidy f.returnType.toList
  parameters : Text.Tidy f.parameters.toList
  named : f.returnType ≠ "" → f.name ≠ ""

namespace Registry

/-- What is kept of the classes and functions is tidy. -/
structure Tidy (reg : Registry) : Prop where
  classes : ∀ c ∈ reg.classes, Text.Spaced c.name.toList
  functions : ∀ f ∈ reg.functions, f.Tidy

theorem tidy_empty : empty.Tidy :=
  ⟨nofun, nofun⟩

variable {reg : Registry}

/-! ## Entities by number -/

/-- The name of a class, whether the registry has it or not. -/
theorem Tidy.getClass (h : reg.Tidy) (id : ClassId) : Text.Spaced (reg.getClass id).name.toList := by
  unfold Registry.getClass
  rw [List.getD_eq_getElem?_getD]
  cases hc : reg.classes[id.index]? with
  | none => exact Text.tidy_nil.toSpaced
  | some c => exact h.classes c (List.mem_of_getElem? hc)

/-- A function, whether the registry has it or not. -/
theorem Tidy.function (h : reg.Tidy) (id : FunctionId) : (reg.function id).Tidy := by
  unfold Registry.function
  rw [List.getD_eq_getElem?_getD]
  cases hf : reg.functions[id.index]? with
  | none => exact ⟨Text.tidy_nil, Text.tidy_nil, Text.tidy_nil, fun hne => absurd rfl hne⟩
  | some f => exact h.functions f (List.mem_of_getElem? hf)

/-! ## Changes -/

/-- A class that is changed keeps its name. -/
theorem tidy_editClass (h : reg.Tidy) (id : ClassId) {f : Class → Class}
    (hf : ∀ c, (f c).name = c.name) : (reg.editClass id f).Tidy where
  classes c hc := by
    obtain ⟨i, hi⟩ := List.getElem?_of_mem hc
    obtain ⟨b, hb, rfl⟩ := getElem?_modify_eq_some hi
    have hname := h.classes b (List.mem_of_getElem? hb)
    split
    · rw [hf]
      exact hname
    · exact hname
  functions := h.functions

/-- A function that is changed stays tidy. -/
theorem tidy_editFunction (h : reg.Tidy) (id : FunctionId) {f : Function → Function}
    (hf : ∀ g, reg.functions[id.index]? = some g → g.Tidy → (f g).Tidy) :
    (reg.editFunction id f).Tidy where
  classes := h.classes
  functions g hg := by
    obtain ⟨i, hi⟩ := List.getElem?_of_mem hg
    obtain ⟨b, hb, rfl⟩ := getElem?_modify_eq_some hi
    have hb' := h.functions b (List.mem_of_getElem? hb)
    split
    · rename_i hid
      exact hf b (hid ▸ hb) hb'
    · exact hb'

theorem tidy_classNamed (h : reg.Tidy) {name : String} (hname : Text.Spaced name.toList) :
    (reg.classNamed name).2.Tidy := by
  unfold classNamed
  cases reg.findClass? name with
  | some id => exact h
  | none =>
      refine ⟨fun c hc => ?_, h.functions⟩
      rcases List.mem_append.mp hc with hc | hc
      · exact h.classes c hc
      · obtain rfl := List.mem_singleton.mp hc
        exact hname

section Declare

variable {returnType name parameters : String}

/-- The owner of a new function is named by the beginning of its name. -/
theorem tidy_addFunction (h : reg.Tidy) (hname : Text.Tidy name.toList) (hne : name ≠ "")
    (htype : Text.Tidy returnType.toList) (hparameters : Text.Tidy parameters.toList)
    (isConst : Bool) (origin : Location) :
    (reg.addFunction returnType name parameters isConst origin).2.Tidy := by
  unfold addFunction
  cases howner : ownerPart? name with
  | none => exact h
  | some ownerName =>
      have hcut : Text.Spaced (ownerName.toList ++ ("::" ++ memberPart name).toList) := by
        rw [← String.toList_append, ← String.append_assoc, ← eq_of_ownerPart? howner]
        exact hname.toSpaced
      have hclass := tidy_classNamed h hcut.of_append
      dsimp only
      apply tidy_editClass
      · refine ⟨hclass.classes, fun f hf => ?_⟩
        rcases List.mem_append.mp hf with hf | hf
        · exact hclass.functions f hf
        · obtain rfl := List.mem_singleton.mp hf
          exact ⟨hname, htype, hparameters, fun _ => hne⟩
      · exact fun _ => rfl

theorem tidy_declare (h : reg.Tidy) (hname : Text.Tidy name.toList) (hne : name ≠ "")
    (htype : Text.Tidy returnType.toList) (hparameters : Text.Tidy parameters.toList)
    (isConst : Bool) (origin : Location) :
    (reg.declare returnType name parameters isConst origin).2.Tidy := by
  unfold declare
  cases hfind : reg.findOverload? name parameters isConst with
  | none => exact tidy_addFunction h hname hne htype hparameters isConst origin
  | some id =>
      refine tidy_editFunction h id fun g hg hg' => ?_
      obtain ⟨n, hn, rfl⟩ := Option.map_eq_some_iff.mp hfind
      obtain ⟨hlt, hmatch, _⟩ := List.findIdx?_eq_some_iff_getElem.mp hn
      obtain rfl : reg.functions[n] = g := by simpa [hlt] using hg
      simp only [Bool.and_eq_true, beq_iff_eq] at hmatch
      have hkept : reg.functions[n].name ≠ "" := by rwa [hmatch.1.1]
      refine ⟨hg'.name, ?_, hparameters, fun _ => hkept⟩
      unfold Function.redeclared
      dsimp only
      split
      · exact htype
      · exact hg'.returnType

end Declare

theorem tidy_attachDoc (h : reg.Tidy) (block : DocBlock) : (reg.attachDoc block).2.Tidy := by
  have hdocs : Tidy { reg with docs := reg.docs ++ [block] } := ⟨h.classes, h.functions⟩
  unfold attachDoc
  cases block.subject with
  | function f =>
      exact tidy_editFunction hdocs f fun _ _ hg =>
        ⟨hg.name, hg.returnType, hg.parameters, hg.named⟩
  | classPage c => exact tidy_editClass hdocs c fun _ => rfl
  | chapter ch => exact ⟨h.classes, h.functions⟩

/-! ## The hierarchy -/

theorem tidy_linkParent (h : reg.Tidy) (id : ClassId) : (reg.linkParent id).Tidy := by
  simp only [linkParent]
  split
  · exact h
  split
  · rename_i parent _
    have hset : (reg.editClass id fun c => { c with parent := some parent }).Tidy :=
      tidy_editClass h id fun _ => rfl
    unfold addChild
    refine tidy_editClass hset parent fun c => ?_
    split <;> rfl
  · unfold reportAt
    split <;> exact ⟨h.classes, h.functions⟩

/-- Linking the classes changes no text. -/
theorem tidy_buildHierarchy (h : reg.Tidy) : reg.buildHierarchy.Tidy := by
  unfold buildHierarchy
  split
  · exact h
  · have hbuilt : Tidy { reg with hierarchyBuilt := true } := ⟨h.classes, h.functions⟩
    exact List.foldlRecOn _ _ hbuilt fun reg' hreg' id _ => tidy_linkParent hreg' id

end Registry

end CppDoc
