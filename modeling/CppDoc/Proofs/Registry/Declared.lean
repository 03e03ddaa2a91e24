import CppDoc.Proofs.Registry.Filed
import CppDoc.Proofs.Registry.Merge

/-!
# Classes that are declared with their members

A header declares classes one after the other, each with its members.  Declared into a registry that
has none of them, each class is there in its place, and the functions that it lists are those of its
own declarations, whatever the other classes declare.

* `DeclaredClass`: a class with the declarations of its members;
* `Declares`: the classes and functions of a registry are those that have been declared;
* `Declares.enterAll` enters members, and `Declares.enterAllDeclared` classes with their members;
* `Declares.members`: the functions that a class lists.
-/

namespace CppDoc

/-- What is declared of a class. -/
structure DeclaredClass where
  name : String
  parentName : String
  origin : Location
  prototypes : List Prototype

/-- What is declared of a class apart from its members. -/
abbrev Outline := String × String × Option Location

def DeclaredClass.outline (d : DeclaredClass) : Outline :=
  (d.name, d.parentName, some d.origin)

def Class.outline (c : Class) : Outline :=
  (c.name, c.parentName, c.origin)

/-- The members are declared under the name of the class. -/
def DeclaredClass.Qualified (d : DeclaredClass) : Prop :=
  ∀ p ∈ d.prototypes, ownerPart? p.name = some d.name

/-- What is declared in other classes does not matter to a function. -/
theorem SumsUp.of_filter {ps : List Prototype} {f : Function} {q : Prototype → Bool}
    (h : SumsUp ps f) (hq : ∀ p, p.key = f.key → q p = true) : SumsUp (ps.filter q) f := by
  have habout : about f.key (ps.filter q) = about f.key ps := by
    rw [about, about, List.filter_filter]
    refine List.filter_congr fun p _ => ?_
    by_cases hkey : p.key = f.key
    · rw [hq p hkey, Bool.and_true]
    · rw [decide_eq_false hkey, Bool.false_and]
  constructor <;> rw [habout]
  · exact h.parameters
  · exact h.returnType
  · exact h.origin

namespace Registry

/-- The classes of a registry are those of `ds`, and its functions those of `ps`. -/
structure Declares (ds : List DeclaredClass) (ps : List Prototype) (reg : Registry) : Prop where
  outlines : reg.classes.map Class.outline = ds.map DeclaredClass.outline
  diagnostics : reg.diagnostics = []
  merges : Merges ps reg

variable {reg : Registry} {ds : List DeclaredClass} {ps : List Prototype} {d : DeclaredClass}
  {p : Prototype}

/-! ## One declaration -/

theorem Declares.names (h : Declares ds ps reg) :
    reg.classes.map Class.name = ds.map DeclaredClass.name := by
  have hfst := congrArg (List.map Prod.fst) h.outlines
  rwa [List.map_map, List.map_map] at hfst

/-- A class that has been declared is found. -/
theorem Declares.findClass?_isSome (h : Declares ds ps reg) (hd : d ∈ ds) :
    (reg.findClass? d.name).isSome := by
  have hmem : d.name ∈ reg.classes.map Class.name := h.names ▸ List.mem_map_of_mem hd
  obtain ⟨c, hc, hname⟩ := List.mem_map.mp hmem
  rw [findClass?, Option.isSome_map, List.findIdx?_isSome, List.any_eq_true]
  exact ⟨c, hc, beq_iff_eq.mpr hname⟩

/-- A member of a class that is there changes nothing of the classes but their members. -/
theorem classes_declare {owner : String} (howner : ownerPart? p.name = some owner)
    (hfound : (reg.findClass? owner).isSome) :
    (reg.enter p).2.classes.map Class.outline = reg.classes.map Class.outline ∧
      (reg.enter p).2.diagnostics = reg.diagnostics := by
  obtain ⟨id, hid⟩ := Option.isSome_iff_exists.mp hfound
  rw [enter, declare]
  split
  · exact ⟨rfl, rfl⟩
  · simp only [addFunction, howner, classNamed, hid]
    refine ⟨?_, rfl⟩
    rw [editClass]
    exact map_modify_eq (f := fun c : Class => { c with members := c.members ++ [_] })
      (fun _ => rfl) reg.classes id.index

/-- **One more member.** -/
theorem Declares.enter (h : Declares ds ps reg) (hd : d ∈ ds)
    (hp : ownerPart? p.name = some d.name) : Declares ds (ps ++ [p]) (reg.enter p).2 := by
  obtain ⟨hclasses, hdiagnostics⟩ := classes_declare hp (h.findClass?_isSome hd)
  obtain ⟨-, -, -, hmerges⟩ := h.merges.enter (Option.isSome_of_mem hp)
  exact ⟨hclasses.trans h.outlines, hdiagnostics.trans h.diagnostics, hmerges⟩

/-! ## Runs of declarations -/

/-- **Members** of one class. -/
theorem Declares.enterAll (h : Declares ds ps reg) (hd : d ∈ ds) {qs : List Prototype}
    (hqs : ∀ q ∈ qs, ownerPart? q.name = some d.name) :
    Declares ds (ps ++ qs) (reg.enterAll qs).2 := by
  induction qs generalizing ps reg with
  | nil => rwa [List.append_nil]
  | cons q qs ih =>
      have hstep := h.enter hd (hqs q List.mem_cons_self)
      have hrest := ih hstep fun p hp => hqs p (List.mem_cons_of_mem q hp)
      rwa [List.append_assoc, List.singleton_append] at hrest

/-- The declarations of the members of one class are those under its name. -/
theorem filter_prototypes (hds : ∀ d ∈ ds, d.Qualified)
    (hnames : (ds.map DeclaredClass.name).Nodup) (hd : d ∈ ds) :
    (ds.flatMap DeclaredClass.prototypes).filter (ownerPart? ·.name = some d.name) =
      d.prototypes := by
  have hothers {es : List DeclaredClass} (hes : ∀ e ∈ es, e.Qualified)
      (hname : d.name ∉ es.map DeclaredClass.name) :
      (es.flatMap DeclaredClass.prototypes).filter (ownerPart? ·.name = some d.name) = [] := by
    refine List.filter_eq_nil_iff.mpr fun p hp howner => ?_
    obtain ⟨e, he, hp⟩ := List.mem_flatMap.mp hp
    have heq := (hes e he p hp).symm.trans (of_decide_eq_true howner)
    exact hname (List.mem_map.mpr ⟨e, he, Option.some.inj heq⟩)
  obtain ⟨before, after, rfl⟩ := List.append_of_mem hd
  have hown : d.prototypes.filter (ownerPart? ·.name = some d.name) = d.prototypes :=
    List.filter_eq_self.mpr fun p hp => decide_eq_true (hds d hd p hp)
  rw [List.map_append, List.map_cons, List.nodup_append, List.nodup_cons] at hnames
  obtain ⟨-, ⟨hafter, -⟩, hapart⟩ := hnames
  have hbefore : d.name ∉ before.map DeclaredClass.name :=
    fun hmem => hapart _ hmem _ List.mem_cons_self rfl
  rw [List.flatMap_append, List.flatMap_cons, List.filter_append, List.filter_append, hown,
    hothers (fun e he => hds e (List.mem_append_left _ he)) hbefore,
    hothers (fun e he => hds e (List.mem_append_right _ (List.mem_cons_of_mem d he))) hafter,
    List.nil_append, List.append_nil]

/-- A function bears the name of its class. -/
theorem Declares.ownerPart?_name (h : Declares ds ps reg) (hreg : reg.WellFormed)
    (hps : ∀ p ∈ ps, (ownerPart? p.name).isSome) {f : Function} (hf : f ∈ reg.functions) :
    ownerPart? f.name = some (reg.getClass f.owner).name := by
  have hkey : f.key ∈ ps.map Prototype.key := h.merges.mem_keys.mp (List.mem_map_of_mem hf)
  obtain ⟨p, hp, hkey⟩ := List.mem_map.mp hkey
  have hname : p.name = f.name := congrArg Prod.fst hkey
  obtain ⟨owner, howner⟩ := Option.isSome_iff_exists.mp (hps p hp)
  rw [hname] at howner
  obtain ⟨i, hi⟩ := List.getElem?_of_mem hf
  rw [name_owner (f := ⟨i⟩) hreg hi howner, howner]

/-- **Members.**  The functions that a class lists are those of its own declarations, in their order
and merged. -/
theorem Declares.members (h : Declares ds (ds.flatMap DeclaredClass.prototypes) reg)
    (hreg : reg.WellFormed) (hfiled : reg.Filed) (hds : ∀ d ∈ ds, d.Qualified)
    (hnames : (ds.map DeclaredClass.name).Nodup) {i : Nat} (hd : ds[i]? = some d) :
    ((reg.getClass ⟨i⟩).members.map reg.function).map Function.key =
        (d.prototypes.map Prototype.key).eraseDups ∧
      ∀ f ∈ (reg.getClass ⟨i⟩).members, SumsUp d.prototypes (reg.function f) := by
  have hname : (reg.classes.map Class.name)[i]? = some d.name := by
    rw [h.names, List.getElem?_map, hd]
    rfl
  rw [List.getElem?_map, Option.map_eq_some_iff] at hname
  obtain ⟨c, hc, hname⟩ := hname
  have hclass : reg.HasClass ⟨i⟩ := (List.getElem?_eq_some_iff.mp hc).1
  have hthere : (reg.getClass ⟨i⟩).name = d.name := by
    rw [Option.some.inj ((getElem?_getClass hclass).symm.trans hc), hname]
  have hps : ∀ p ∈ ds.flatMap DeclaredClass.prototypes, (ownerPart? p.name).isSome := by
    intro p hp
    obtain ⟨e, he, hp⟩ := List.mem_flatMap.mp hp
    exact Option.isSome_of_mem (hds e he p hp)
  -- The owner of a function is read off its name.
  have howner (f : Function) (hf : f ∈ reg.functions) :
      f.owner = ⟨i⟩ ↔ ownerPart? f.name = some d.name := by
    rw [h.ownerPart?_name hreg hps hf, ← hthere]
    refine ⟨fun heq => by rw [heq], fun heq => ?_⟩
    obtain ⟨j, hj⟩ := List.getElem?_of_mem hf
    obtain ⟨b, hb, -⟩ := (hreg.functions ⟨j⟩ f hj).owner
    exact eq_of_name hreg (hasClass_of_getElem? hb) hclass (Option.some.inj heq)
  have hmembers : (reg.getClass ⟨i⟩).members.map reg.function =
      reg.functions.filter (ownerPart? ·.name = some d.name) := by
    rw [hfiled.members hclass]
    exact List.filter_congr fun f hf => decide_eq_decide.mpr (howner f hf)
  have hown := filter_prototypes hds hnames (List.mem_of_getElem? hd)
  constructor
  · have hkeys : (reg.functions.filter (ownerPart? ·.name = some d.name)).map Function.key =
        reg.keys.filter (ownerPart? ·.1 = some d.name) := by
      rw [keys, List.filter_map]
      rfl
    have hprototypes : ((ds.flatMap DeclaredClass.prototypes).map Prototype.key).filter
        (ownerPart? ·.1 = some d.name) = d.prototypes.map Prototype.key := by
      rw [List.filter_map]
      exact congrArg _ hown
    rw [hmembers, hkeys, h.merges.keys, filter_eraseDups, hprototypes]
  · intro id hid
    have hmem : reg.function id ∈ reg.functions.filter (ownerPart? ·.name = some d.name) :=
      hmembers ▸ List.mem_map_of_mem hid
    obtain ⟨hf, hname⟩ := List.mem_filter.mp hmem
    have hsums := (h.merges.sums _ hf).of_filter (q := (ownerPart? ·.name = some d.name)) ?_
    · rwa [hown] at hsums
    · intro p hkey
      have hsame : p.name = (reg.function id).name := congrArg Prod.fst hkey
      rw [hsame]
      exact hname

end Registry

end CppDoc
