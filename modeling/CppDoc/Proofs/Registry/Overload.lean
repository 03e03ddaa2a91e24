import CppDoc.Proofs.Registry.Operations

/-!
# One function for one declaration

A declaration is recognised by its name, its signature and its constness.  Once a function has been
found by these three, it stays the one that is found, so that another declaration of the same function
adds no second one.

* `findOverload?_of_persists`: edits do not change what is found;
* `declare_fst`: what a declaration is about, and `findOverload?_declare`: it is found afterwards;
* `declare_of_found`: what is found is not entered again.
-/

namespace CppDoc.Registry

variable {reg reg' : Registry} {name parameters : String} {isConst : Bool} {f : FunctionId}

/-- What is found has the name, the signature and the constness that were asked for. -/
theorem function_of_findOverload? (h : reg.findOverload? name parameters isConst = some f) :
    ∃ g, reg.functions[f.index]? = some g ∧ g.name = name ∧
      g.signature = Syntax.typesOnly parameters ∧ g.isConst = isConst := by
  obtain ⟨n, hn, rfl⟩ := Option.map_eq_some_iff.mp h
  obtain ⟨hlt, hmatch, _⟩ := List.findIdx?_eq_some_iff_getElem.mp hn
  simp only [Bool.and_eq_true, beq_iff_eq] at hmatch
  exact ⟨reg.functions[n], List.getElem?_eq_getElem hlt, hmatch.1.1, hmatch.1.2, hmatch.2⟩

/-- **What is found stays what is found.** -/
theorem findOverload?_of_persists (h : Persists reg reg')
    (hf : reg.findOverload? name parameters isConst = some f) :
    reg'.findOverload? name parameters isConst = some f := by
  obtain ⟨n, hn, rfl⟩ := Option.map_eq_some_iff.mp hf
  obtain ⟨hlt, hmatch, hfirst⟩ := List.findIdx?_eq_some_iff_getElem.mp hn
  have hkept (i : Nat) (hi : i < reg.functions.length) :
      ∃ hi' : i < reg'.functions.length, reg'.functions[i].name = reg.functions[i].name ∧
        reg'.functions[i].signature = reg.functions[i].signature ∧
        reg'.functions[i].isConst = reg.functions[i].isConst := by
    obtain ⟨g, hg, hname, -, hsignature, hconst, -⟩ :=
      h.functions ⟨i⟩ _ (List.getElem?_eq_getElem hi)
    obtain ⟨hi', rfl⟩ := List.getElem?_eq_some_iff.mp hg
    exact ⟨hi', hname, hsignature, hconst⟩
  obtain ⟨hlt', hname, hsignature, hconst⟩ := hkept n hlt
  refine Option.map_eq_some_iff.mpr ⟨n, List.findIdx?_eq_some_iff_getElem.mpr ⟨hlt', ?_, ?_⟩, rfl⟩
  · rw [hname, hsignature, hconst]
    exact hmatch
  · intro j hj
    obtain ⟨_, hname, hsignature, hconst⟩ := hkept j (Nat.lt_trans hj hlt)
    rw [hname, hsignature, hconst]
    exact hfirst j hj

/-- What is found is redeclared, and nothing is added. -/
theorem declare_of_found (h : reg.findOverload? name parameters isConst = some f)
    (returnType : String) (origin : Location) :
    reg.declare returnType name parameters isConst origin =
      (some f, reg.editFunction f (·.redeclared returnType parameters)) := by
  simp only [declare, h]

/-- A function of a class is added behind the others. -/
theorem functions_addFunction {owner : String} (hname : ownerPart? name = some owner)
    (reg : Registry) (returnType parameters : String) (isConst : Bool) (origin : Location) :
    (reg.addFunction returnType name parameters isConst origin).1 = some ⟨reg.functions.length⟩ ∧
      (reg.addFunction returnType name parameters isConst origin).2.functions =
        reg.functions ++ [
          { name, owner := (reg.classNamed owner).1, returnType, parameters,
            signature := Syntax.typesOnly parameters, isConst, origin, doc := none,
            overload := false }] := by
  have hfunctions : (reg.classNamed owner).2.functions = reg.functions := by
    unfold classNamed
    split <;> rfl
  simp only [addFunction, hname, hfunctions, true_and]
  rfl

/-- What a declaration is about: the function that is found, or the next one. -/
theorem declare_fst {owner : String} (hname : ownerPart? name = some owner) (reg : Registry)
    (returnType parameters : String) (isConst : Bool) (origin : Location) :
    (reg.declare returnType name parameters isConst origin).1 =
      some ((reg.findOverload? name parameters isConst).getD ⟨reg.functions.length⟩) := by
  cases hfind : reg.findOverload? name parameters isConst with
  | some f => rw [declare_of_found hfind, Option.getD_some]
  | none =>
      simp only [declare, hfind, Option.getD_none]
      exact (functions_addFunction hname reg returnType parameters isConst origin).1

/-- A declaration adds a function if none is found. -/
theorem length_functions_declare {owner : String} (hname : ownerPart? name = some owner)
    (reg : Registry) (returnType parameters : String) (isConst : Bool) (origin : Location) :
    (reg.declare returnType name parameters isConst origin).2.functions.length =
      reg.functions.length + (if (reg.findOverload? name parameters isConst).isSome then 0 else 1) := by
  cases hfind : reg.findOverload? name parameters isConst with
  | some f =>
      rw [declare_of_found hfind]
      simp [editFunction]
  | none =>
      simp only [declare, hfind]
      rw [(functions_addFunction hname reg returnType parameters isConst origin).2]
      simp

/-- **What a declaration enters is found afterwards.** -/
theorem findOverload?_declare {owner : String} (hname : ownerPart? name = some owner)
    (reg : Registry) (returnType parameters : String) (isConst : Bool) (origin : Location) :
    ∃ f, (reg.declare returnType name parameters isConst origin).1 = some f ∧
      (reg.declare returnType name parameters isConst origin).2.findOverload? name parameters
        isConst = some f := by
  cases hfind : reg.findOverload? name parameters isConst with
  | some f =>
      rw [declare_of_found hfind]
      refine ⟨f, rfl, findOverload?_of_persists (Edit.persists (.redeclare returnType ?_)) hfind⟩
      intro g hg
      obtain ⟨g', hg', -, hsignature, -⟩ := function_of_findOverload? hfind
      obtain rfl := Option.some.inj (hg.symm.trans hg')
      exact hsignature
  | none =>
      have hnone := List.findIdx?_eq_none_iff.mp (Option.map_eq_none_iff.mp hfind)
      have hadded := functions_addFunction hname reg returnType parameters isConst origin
      simp only [declare, hfind]
      refine ⟨_, hadded.1, ?_⟩
      simp only [findOverload?, hadded.2]
      rw [List.findIdx?_append, List.findIdx?_eq_none_iff.mpr hnone]
      simp

/-- A function belongs to the class that its name is qualified with. -/
theorem name_owner (hreg : reg.WellFormed) {g : Function} (hg : reg.functions[f.index]? = some g)
    {owner : String} (howner : ownerPart? g.name = some owner) :
    (reg.getClass g.owner).name = owner := by
  obtain ⟨c, hc, hname⟩ := (hreg.functions f g hg).owner
  have hclass : reg.getClass g.owner = c := by simp [getClass, hc]
  have hparts : c.name ++ "::" ++ memberPart g.name = owner ++ "::" ++ memberPart g.name :=
    hname.symm.trans (eq_of_ownerPart? howner)
  rw [hclass]
  have hlists := congrArg String.toList hparts
  simp only [String.toList_append, List.append_assoc] at hlists
  exact String.ext (List.append_cancel_right hlists)

theorem docs_classNamed (reg : Registry) (name : String) : (reg.classNamed name).2.docs = reg.docs := by
  unfold classNamed
  split <;> rfl

/-- A declaration is no documentation. -/
theorem docs_declare (reg : Registry) (returnType name parameters : String) (isConst : Bool)
    (origin : Location) :
    (reg.declare returnType name parameters isConst origin).2.docs = reg.docs := by
  unfold declare
  split
  · rfl
  · unfold addFunction
    split
    · rfl
    · exact docs_classNamed reg _

/-- **Declarations.**  What a declaration of a member is about is found from then on. -/
theorem declare_spec {owner : String} (hname : ownerPart? name = some owner) {returnType : String}
    {origin : Location}
    (h : reg.declare returnType name parameters isConst origin = (some f, reg')) :
    f = (reg.findOverload? name parameters isConst).getD ⟨reg.functions.length⟩ ∧
      reg'.functions.length = reg.functions.length +
        (if (reg.findOverload? name parameters isConst).isSome then 0 else 1) ∧
      reg'.findOverload? name parameters isConst = some f ∧ reg'.docs = reg.docs := by
  have hfst := declare_fst hname reg returnType parameters isConst origin
  have hlength := length_functions_declare hname reg returnType parameters isConst origin
  have hdocs := docs_declare reg returnType name parameters isConst origin
  obtain ⟨f', hf', hfound⟩ := findOverload?_declare hname reg returnType parameters isConst origin
  rw [h] at hfst hlength hdocs hf' hfound
  obtain rfl := Option.some.inj hf'
  exact ⟨Option.some.inj hfst, hlength, hfound, hdocs⟩

end CppDoc.Registry
