import CppDoc.Proofs.Registry.Preservation

/-!
# Edits of a registry

Whatever is entered into a registry, by hand or by reading files, is entered by a few elementary
**edits**.  `Edit` lists them with what has to hold for each, and `Edits` is a sequence of them.

* `Edit.wellFormed` and `Edits.wellFormed`: a well-formed registry stays well-formed;
* `Edit.persists` and `Edits.persists`: entities keep their numbers and what identifies them.

An invariant of everything that changes registries need only be shown for the constructors of
`Edit`.
-/

namespace CppDoc.Registry

/-- One elementary change of a registry. -/
inductive Edit (reg : Registry) : Registry → Prop
  | addFile (file : SourceFile) : Edit reg (reg.addFile file).2
  | report {site : Location} (problem : Problem) (hsite : reg.HasFile site.file) :
      Edit reg (reg.report site problem)
  | noteMention (name : String) {site : Location} (hsite : reg.HasFile site.file) :
      Edit reg { reg with mentions := reg.mentions ++ [(name, site)] }
  | addPlaceholder {name : String} (hfresh : reg.findClass? name = none) :
      Edit reg { reg with classes := reg.classes ++ [Class.placeholder name] }
  | setParentName (id : ClassId) (name : String) :
      Edit reg (reg.editClass id fun c => { c with parentName := name })
  | setOrigin {id : ClassId} {site : Location} (hsite : reg.HasFile site.file)
      (hnone : (reg.getClass id).origin = none) :
      Edit reg (reg.editClass id fun c => { c with origin := some site })
  | setParent (id : ClassId) {parent : ClassId} (hparent : reg.HasClass parent) :
      Edit reg (reg.editClass id fun c => { c with parent := some parent })
  | addChild (parent : ClassId) {child : ClassId} (hchild : reg.HasClass child) :
      Edit reg (reg.addChild parent child)
  | markDone (id : ClassId) : Edit reg (reg.editClass id fun c => { c with done := true })
  | markBuilt : Edit reg { reg with hierarchyBuilt := true }
  | addMember {f : Function}
      (howner : ∃ c, reg.classes[f.owner.index]? = some c ∧ f.name = c.name ++ "::" ++ f.member)
      (hsignature : f.signature = Syntax.typesOnly f.parameters)
      (horigin : reg.HasFile f.origin.file) (hdoc : f.doc = none) : Edit reg (reg.withMember f)
  | redeclare {id : FunctionId} (returnType : String) {parameters : String}
      (hsignature : ∀ f, reg.functions[id.index]? = some f →
        f.signature = Syntax.typesOnly parameters) :
      Edit reg (reg.editFunction id (·.redeclared returnType parameters))
  | markOverload (id : FunctionId) :
      Edit reg (reg.editFunction id fun f => { f with overload := true })
  | addChapter (name : String) : Edit reg (reg.addChapter name).2
  | introduce (ch : ChapterId) {c : ClassId} (hclass : reg.HasClass c) :
      Edit reg (reg.editChapter ch (·.introduce c))
  | attachDoc {block : DocBlock} (horigin : reg.HasFile block.origin.file)
      (hsubject : reg.HasSubject block.subject) : Edit reg (reg.attachDoc block).2

/-- A sequence of edits. -/
inductive Edits : Registry → Registry → Prop
  | refl (reg : Registry) : Edits reg reg
  | tail {a b c : Registry} (before : Edits a b) (last : Edit b c) : Edits a c

theorem Edits.single {a b : Registry} (h : Edit a b) : Edits a b :=
  .tail (.refl a) h

theorem Edits.trans {a b c : Registry} (hab : Edits a b) (hbc : Edits b c) : Edits a c := by
  induction hbc with
  | refl => exact hab
  | tail _ last ih => exact .tail ih last

/-- **A step.**  An edit keeps a registry well-formed. -/
theorem Edit.wellFormed {reg reg' : Registry} (h : Edit reg reg') (hreg : reg.WellFormed) :
    reg'.WellFormed := by
  cases h with
  | addFile file =>
      exact wellFormed_of_entities_eq hreg (by simp [Registry.addFile]) rfl rfl rfl rfl
        (fun _ h => .inl h) (fun _ h => .inl h)
  | report problem hsite =>
      exact wellFormed_of_entities_eq hreg (Nat.le_refl _) rfl rfl rfl rfl (fun _ h => .inl h)
        (mem_append_singleton hsite)
  | noteMention name hsite =>
      exact wellFormed_of_entities_eq hreg (Nat.le_refl _) rfl rfl rfl rfl
        (mem_append_singleton hsite) (fun _ h => .inl h)
  | addPlaceholder hfresh => exact wellFormed_addPlaceholder hreg hfresh
  | setParentName id name =>
      exact wellFormed_editClass hreg id (fun _ => ⟨rfl, rfl⟩) fun _ _ hc => { hc with }
  | setOrigin hsite _ =>
      exact wellFormed_editClass hreg _ (fun _ => ⟨rfl, rfl⟩) fun _ _ hc =>
        { hc with origin := fun _ h => Option.some.inj h ▸ hsite }
  | setParent id hparent =>
      exact wellFormed_editClass hreg id (fun _ => ⟨rfl, rfl⟩) fun _ _ hc =>
        { hc with parent := fun _ h => Option.some.inj h ▸ hparent }
  | addChild parent hchild => exact wellFormed_addChild hreg parent hchild
  | markDone id =>
      exact wellFormed_editClass hreg id (fun _ => ⟨rfl, rfl⟩) fun _ _ hc => { hc with }
  | markBuilt =>
      exact wellFormed_of_entities_eq hreg (Nat.le_refl _) rfl rfl rfl rfl (fun _ h => .inl h)
        (fun _ h => .inl h)
  | addMember howner hsignature horigin hdoc =>
      exact wellFormed_withMember hreg howner hsignature horigin hdoc
  | redeclare returnType hsignature =>
      exact wellFormed_editFunction hreg _ fun f hf hfits =>
        hfits.redeclared returnType (hsignature f hf)
  | markOverload id => exact wellFormed_editFunction hreg id fun _ _ hf => { hf with }
  | addChapter name => exact wellFormed_addChapter hreg name
  | introduce ch hclass =>
      exact wellFormed_editChapter hreg ch fun _ _ hch => hch.introduce hclass
  | attachDoc horigin hsubject => exact wellFormed_attachDoc hreg horigin hsubject

/-- **A run.**  Edits keep a registry well-formed. -/
theorem Edits.wellFormed {reg reg' : Registry} (h : Edits reg reg') (hreg : reg.WellFormed) :
    reg'.WellFormed := by
  induction h with
  | refl => exact hreg
  | tail _ last ih => exact last.wellFormed ih

/-! ## Entities stay what they are -/

/-- `reg'` has all that `reg` has under the same numbers.  A class may gain members, and a function
another return type and other names of its parameters, but neither changes its identity; texts,
documentation and reports stay as they are. -/
structure Persists (reg reg' : Registry) : Prop where
  files : reg.files <+: reg'.files
  classes : ∀ (id : ClassId) (c : Class), reg.classes[id.index]? = some c →
    ∃ c', reg'.classes[id.index]? = some c' ∧ c'.name = c.name ∧ c.members <+: c'.members
  functions : ∀ (id : FunctionId) (f : Function), reg.functions[id.index]? = some f →
    ∃ f', reg'.functions[id.index]? = some f' ∧ f'.name = f.name ∧ f'.owner = f.owner ∧
      f'.signature = f.signature ∧ f'.isConst = f.isConst ∧ f'.origin = f.origin
  chapters : reg.chapters.map Chapter.name <+: reg'.chapters.map Chapter.name
  docs : reg.docs <+: reg'.docs
  diagnostics : reg.diagnostics <+: reg'.diagnostics

theorem Persists.refl (reg : Registry) : Persists reg reg where
  files := List.prefix_rfl
  classes := fun _ c hc => ⟨c, hc, rfl, List.prefix_rfl⟩
  functions := fun _ f hf => ⟨f, hf, rfl, rfl, rfl, rfl, rfl⟩
  chapters := List.prefix_rfl
  docs := List.prefix_rfl
  diagnostics := List.prefix_rfl

theorem Persists.trans {a b c : Registry} (hab : Persists a b) (hbc : Persists b c) :
    Persists a c where
  files := hab.files.trans hbc.files
  classes := by
    intro id x hx
    obtain ⟨y, hy, hname, hmembers⟩ := hab.classes id x hx
    obtain ⟨z, hz, hname', hmembers'⟩ := hbc.classes id y hy
    exact ⟨z, hz, hname'.trans hname, hmembers.trans hmembers'⟩
  functions := by
    intro id x hx
    obtain ⟨y, hy, h₁, h₂, h₃, h₄, h₅⟩ := hab.functions id x hx
    obtain ⟨z, hz, k₁, k₂, k₃, k₄, k₅⟩ := hbc.functions id y hy
    exact ⟨z, hz, k₁.trans h₁, k₂.trans h₂, k₃.trans h₃, k₄.trans h₄, k₅.trans h₅⟩
  chapters := hab.chapters.trans hbc.chapters
  docs := hab.docs.trans hbc.docs
  diagnostics := hab.diagnostics.trans hbc.diagnostics

/-- A class that is changed without losing its name or members. -/
private theorem persists_editClass {reg : Registry} (id : ClassId) {g : Class → Class}
    (hg : ∀ c, (g c).name = c.name ∧ c.members <+: (g c).members) :
    Persists reg (reg.editClass id g) :=
  { Persists.refl reg with
    classes := fun k c hc => by
      refine ⟨if id.index = k.index then g c else c, ?_, ?_, ?_⟩
      · simp [editClass, List.getElem?_modify, hc]
      · split <;> simp [hg]
      · split <;> simp [hg] }

/-- A function that is changed without losing its identity. -/
private theorem persists_editFunction {reg : Registry} (id : FunctionId)
    {g : Function → Function}
    (hg : ∀ f, (g f).name = f.name ∧ (g f).owner = f.owner ∧ (g f).signature = f.signature ∧
      (g f).isConst = f.isConst ∧ (g f).origin = f.origin) :
    Persists reg (reg.editFunction id g) :=
  { Persists.refl reg with
    functions := fun k f hf => by
      refine ⟨if id.index = k.index then g f else f, ?_, ?_⟩
      · simp [editFunction, List.getElem?_modify, hf]
      · split
        · exact hg f
        · exact ⟨rfl, rfl, rfl, rfl, rfl⟩ }

/-- A chapter that is changed without losing its name. -/
private theorem persists_editChapter {reg : Registry} (id : ChapterId) {g : Chapter → Chapter}
    (hg : ∀ ch, (g ch).name = ch.name) : Persists reg (reg.editChapter id g) := by
  have hnames : (reg.editChapter id g).chapters.map Chapter.name =
      reg.chapters.map Chapter.name := by
    apply List.ext_getElem?
    intro j
    by_cases hj : id.index = j <;> simp [editChapter, hj, Function.comp_def, hg]
  exact { Persists.refl reg with chapters := by simp [hnames] }

/-- A list of entities that has grown at its end. -/
private theorem getElem?_append_of_some {α : Type} {l later : List α} {i : Nat} {a : α}
    (h : l[i]? = some a) : (l ++ later)[i]? = some a := by
  rw [List.getElem?_append_left (List.getElem?_eq_some_iff.mp h).1, h]

theorem persists_report (reg : Registry) (site : Location) (problem : Problem) :
    Persists reg (reg.report site problem) :=
  { Persists.refl reg with diagnostics := List.prefix_append _ _ }

theorem persists_attachDoc (reg : Registry) (block : DocBlock) :
    Persists reg (reg.attachDoc block).2 := by
  have hgrown : Persists reg { reg with docs := reg.docs ++ [block] } :=
    { Persists.refl reg with docs := List.prefix_append _ _ }
  refine hgrown.trans ?_
  unfold Registry.attachDoc
  cases block.subject with
  | function f => exact persists_editFunction f fun _ => ⟨rfl, rfl, rfl, rfl, rfl⟩
  | classPage c => exact persists_editClass c fun _ => ⟨rfl, List.prefix_rfl⟩
  | chapter ch => exact persists_editChapter ch fun _ => rfl

/-- An edit leaves every entity what it is. -/
theorem Edit.persists {reg reg' : Registry} (h : Edit reg reg') : Persists reg reg' := by
  cases h with
  | addFile file => exact { Persists.refl reg with files := List.prefix_append _ _ }
  | report problem _ => exact persists_report reg _ problem
  | noteMention name _ => exact { Persists.refl reg with }
  | addPlaceholder _ =>
      exact
        { Persists.refl reg with
          classes := fun _ c hc => ⟨c, getElem?_append_of_some hc, rfl, List.prefix_rfl⟩ }
  | setParentName id name => exact persists_editClass id fun _ => ⟨rfl, List.prefix_rfl⟩
  | setOrigin _ _ => exact persists_editClass _ fun _ => ⟨rfl, List.prefix_rfl⟩
  | setParent id _ => exact persists_editClass id fun _ => ⟨rfl, List.prefix_rfl⟩
  | addChild parent _ =>
      exact persists_editClass parent fun c => by split <;> exact ⟨rfl, List.prefix_rfl⟩
  | markDone id => exact persists_editClass id fun _ => ⟨rfl, List.prefix_rfl⟩
  | markBuilt => exact { Persists.refl reg with }
  | @addMember f _ _ _ _ =>
      have hgrown : Persists reg { reg with functions := reg.functions ++ [f] } :=
        { Persists.refl reg with
          functions := fun _ g hg => ⟨g, getElem?_append_of_some hg, rfl, rfl, rfl, rfl, rfl⟩ }
      exact hgrown.trans (persists_editClass f.owner fun _ => ⟨rfl, List.prefix_append _ _⟩)
  | redeclare returnType _ => exact persists_editFunction _ fun _ => ⟨rfl, rfl, rfl, rfl, rfl⟩
  | markOverload id => exact persists_editFunction id fun _ => ⟨rfl, rfl, rfl, rfl, rfl⟩
  | addChapter name =>
      exact { Persists.refl reg with chapters := by simp [Registry.addChapter] }
  | introduce ch _ =>
      exact persists_editChapter ch fun _ => by unfold Chapter.introduce; split <;> rfl
  | attachDoc _ _ => exact persists_attachDoc reg _

/-- Edits leave every entity what it is. -/
theorem Edits.persists {reg reg' : Registry} (h : Edits reg reg') : Persists reg reg' := by
  induction h with
  | refl => exact Persists.refl _
  | tail _ last ih => exact ih.trans last.persists

section Persists

variable {reg reg' : Registry}

theorem Persists.hasFile (h : Persists reg reg') {id : FileId} (hid : reg.HasFile id) :
    reg'.HasFile id :=
  Nat.lt_of_lt_of_le hid h.files.length_le

theorem Persists.hasClass (h : Persists reg reg') {id : ClassId} (hid : reg.HasClass id) :
    reg'.HasClass id := by
  obtain ⟨_, hc, _⟩ := h.classes id _ (getElem?_getClass hid)
  exact hasClass_of_getElem? hc

theorem Persists.hasChapter (h : Persists reg reg') {id : ChapterId} (hid : reg.HasChapter id) :
    reg'.HasChapter id :=
  Nat.lt_of_lt_of_le hid (by simpa using h.chapters.length_le)

theorem Persists.hasFunction (h : Persists reg reg') {id : FunctionId}
    (hid : reg.HasFunction id) : reg'.HasFunction id := by
  obtain ⟨_, hf, _⟩ := h.functions id _ (getElem?_function hid)
  exact (List.getElem?_eq_some_iff.mp hf).1

end Persists

end CppDoc.Registry
