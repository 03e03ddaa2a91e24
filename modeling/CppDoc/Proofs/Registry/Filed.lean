import CppDoc.Proofs.Lists
import CppDoc.Proofs.Registry.Operations

/-!
# Functions in the order of their declarations

A class lists its member functions in the order in which they were found, and it lists all of them.

* `filedUnder`: the functions of a class, in their order;
* `Entries.filed`: reading files keeps every class filed;
* `Filed.members`: the functions that a class lists.
-/

namespace CppDoc.Registry

/-- The numbers of the functions whose owner is `c`. -/
def filedUnder (owners : List ClassId) (c : ClassId) : List FunctionId :=
  (owners.zipIdx.filter (·.1 = c)).map fun p => ⟨p.2⟩

/-- The owners of the functions. -/
def owners (reg : Registry) : List ClassId :=
  reg.functions.map Function.owner

/-- Every class lists its functions in their order. -/
def Filed (reg : Registry) : Prop :=
  ∀ (k : ClassId) (c : Class), reg.classes[k.index]? = some c → c.members = filedUnder reg.owners k

/-- One more function is filed under its owner, behind the others. -/
theorem filedUnder_concat (owners : List ClassId) (owner c : ClassId) :
    filedUnder (owners ++ [owner]) c =
      filedUnder owners c ++ if c = owner then [⟨owners.length⟩] else [] := by
  unfold filedUnder
  rw [List.zipIdx_append, List.filter_append, List.map_append]
  by_cases hc : c = owner
  · simp [hc]
  · have hne : owner ≠ c := fun h => hc h.symm
    simp [hc, hne]

/-- A class without functions has none filed. -/
theorem filedUnder_eq_nil {owners : List ClassId} {c : ClassId} (h : c ∉ owners) :
    filedUnder owners c = [] := by
  unfold filedUnder
  rw [List.map_eq_nil_iff, List.filter_eq_nil_iff]
  intro p hp hsame
  obtain rfl := of_decide_eq_true hsame
  exact h (List.fst_mem_of_mem_zipIdx hp)

/-- A class that is changed keeps its members. -/
theorem filed_editClass {reg : Registry} (h : reg.Filed) (id : ClassId) {f : Class → Class}
    (hf : ∀ c, (f c).members = c.members) : (reg.editClass id f).Filed := by
  intro k c hc
  obtain ⟨b, hb, rfl⟩ := getElem?_modify_eq_some hc
  have hmembers := h k b hb
  split
  · rw [hf]
    exact hmembers
  · exact hmembers

/-- A function that is changed keeps its owner. -/
theorem filed_editFunction {reg : Registry} (h : reg.Filed) (id : FunctionId)
    {f : Function → Function} (hf : ∀ g, (f g).owner = g.owner) : (reg.editFunction id f).Filed := by
  intro k c hc
  rw [owners, editFunction, map_modify_eq hf]
  exact h k c hc

/-- **A step.**  An entry leaves the classes filed. -/
theorem Entry.filed {reg reg' : Registry} (h : Entry reg reg') (hreg : reg.WellFormed)
    (hfiled : reg.Filed) : reg'.Filed := by
  cases h with
  | @addPlaceholder name hfresh =>
      intro k c hc
      rcases Nat.lt_or_ge k.index reg.classes.length with hlt | hge
      · rw [List.getElem?_append_left hlt] at hc
        exact hfiled k c hc
      · -- No function has an owner that was not there.
        rw [List.getElem?_append_right hge] at hc
        have hnew : c = Class.placeholder name :=
          List.mem_singleton.mp (List.mem_of_getElem? hc)
        rw [hnew]
        refine (filedUnder_eq_nil fun hmem => ?_).symm
        obtain ⟨f, hf, howner⟩ := List.mem_map.mp hmem
        obtain ⟨i, hi⟩ := List.getElem?_of_mem hf
        obtain ⟨b, hb, -⟩ := (hreg.functions ⟨i⟩ f hi).owner
        rw [howner] at hb
        have hlt := (List.getElem?_eq_some_iff.mp hb).1
        omega
  | setParentName _ _ => exact filed_editClass hfiled _ fun _ => rfl
  | setOrigin _ _ => exact filed_editClass hfiled _ fun _ => rfl
  | @addMember f _ _ _ _ =>
      intro k c hc
      obtain ⟨b, hb, -, rfl⟩ := getElem?_withMember hc
      have howners : (reg.withMember f).owners = reg.owners ++ [f.owner] :=
        List.map_append
      have hlength : reg.owners.length = reg.functions.length := List.length_map _
      rw [howners, filedUnder_concat, hlength, ← hfiled k b hb]
      split
      · rfl
      · rw [List.append_nil]
  | redeclare _ _ => exact filed_editFunction hfiled _ fun _ => rfl
  | @attachDoc block _ _ =>
      have hadded : Filed { reg with docs := reg.docs ++ [block] } := hfiled
      unfold Registry.attachDoc
      cases block.subject with
      | function f => exact filed_editFunction hadded f fun _ => rfl
      | classPage c => exact filed_editClass hadded c fun _ => rfl
      | chapter ch => exact hadded
  | _ => exact hfiled

/-- **A run.**  Reading files leaves the classes filed. -/
theorem Entries.filed {reg reg' : Registry} (h : Entries reg reg') (hreg : reg.WellFormed)
    (hfiled : reg.Filed) : reg'.Filed := by
  induction h with
  | refl => exact hfiled
  | tail before last ih => exact last.filed (before.edits.wellFormed hreg) ih

/-- What stands at the numbers of the functions of a class, counted on from those before. -/
private theorem map_getD_zipIdx (c : ClassId) (before fs : List Function) :
    (((fs.map Function.owner).zipIdx before.length).filter (·.1 = c)).map
      (fun p => (before ++ fs).getD p.2 default) = fs.filter (·.owner = c) := by
  induction fs generalizing before with
  | nil => rfl
  | cons f rest ih =>
      have hrest := ih (before ++ [f])
      rw [List.length_append, List.append_assoc, List.singleton_append, List.length_singleton] at hrest
      rw [List.map_cons, List.zipIdx_cons, List.filter_cons, List.filter_cons]
      by_cases howner : f.owner = c
      · have hat : (before ++ f :: rest).getD before.length default = f := by simp
        simp only [howner, decide_true, if_true, List.map_cons, hat, hrest]
      · simp only [howner, decide_false, Bool.false_eq_true, if_false, hrest]

/-- **The functions** that a class lists are those whose owner it is. -/
theorem Filed.members {reg : Registry} (h : reg.Filed) {id : ClassId} (hid : reg.HasClass id) :
    (reg.getClass id).members.map reg.function = reg.functions.filter (·.owner = id) := by
  rw [h id _ (getElem?_getClass hid), filedUnder, List.map_map]
  exact map_getD_zipIdx id [] reg.functions

end CppDoc.Registry
