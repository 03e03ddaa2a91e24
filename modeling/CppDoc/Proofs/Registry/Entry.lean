import CppDoc.Proofs.Registry.Edit
import CppDoc.Proofs.Text.Search

/-!
# What files enter

Of all edits, some are made when files are read: they enter files, classes, functions, chapters and
documentation, and report problems.  These are **entries**.  Linking the classes and drafting the
manual are done by the other edits, so that what those leave behind is not there yet when all files
have been read.

* `Entry.edit` and `Entries.edits`: entries are edits;
* `entries_classNamed`, `entries_declare` and so on: the operations that readers use;
* `Entries.undone`: no class is marked as drafted.

A class declares a parent only where its body is found, and the name of the parent is left with
something when its template arguments are cut off.  That a parent is unknown is no entry, since it is
not known yet.

An invariant of everything that reads files need only be shown for the constructors of `Entry`.
-/

namespace CppDoc

/-- Is this a report of linking the classes, and not of reading a file? -/
def Problem.isUnknownParent : Problem → Bool
  | .unknownParent _ _ => true
  | _ => false

namespace Registry

/-- One elementary change that is made when a file is read. -/
inductive Entry (reg : Registry) : Registry → Prop
  | addFile (file : SourceFile) : Entry reg (reg.addFile file).2
  | report {site : Location} {problem : Problem} (hsite : reg.HasFile site.file)
      (hread : problem.isUnknownParent = false) : Entry reg (reg.report site problem)
  | addPlaceholder {name : String} (hfresh : reg.findClass? name = none) :
      Entry reg { reg with classes := reg.classes ++ [Class.placeholder name] }
  | setParentName {id : ClassId} {name : String}
      (hplaced : (reg.getClass id).origin.isSome = true)
      (hname : name ≠ "" → baseName name ≠ "") :
      Entry reg (reg.editClass id fun c => { c with parentName := name })
  | setOrigin {id : ClassId} {site : Location} (hsite : reg.HasFile site.file)
      (hnone : (reg.getClass id).origin = none) :
      Entry reg (reg.editClass id fun c => { c with origin := some site })
  | addMember {f : Function}
      (howner : ∃ c, reg.classes[f.owner.index]? = some c ∧ f.name = c.name ++ "::" ++ f.member)
      (hsignature : f.signature = Syntax.typesOnly f.parameters)
      (horigin : reg.HasFile f.origin.file) (hdoc : f.doc = none) : Entry reg (reg.withMember f)
  | redeclare {id : FunctionId} (returnType : String) {parameters : String}
      (hsignature : ∀ f, reg.functions[id.index]? = some f →
        f.signature = Syntax.typesOnly parameters) :
      Entry reg (reg.editFunction id (·.redeclared returnType parameters))
  | addChapter (name : String) : Entry reg (reg.addChapter name).2
  | attachDoc {block : DocBlock} (horigin : reg.HasFile block.origin.file)
      (hsubject : reg.HasSubject block.subject) : Entry reg (reg.attachDoc block).2

/-- A sequence of entries. -/
inductive Entries : Registry → Registry → Prop
  | refl (reg : Registry) : Entries reg reg
  | tail {a b c : Registry} (before : Entries a b) (last : Entry b c) : Entries a c

theorem Entries.single {a b : Registry} (h : Entry a b) : Entries a b :=
  .tail (.refl a) h

theorem Entries.trans {a b c : Registry} (hab : Entries a b) (hbc : Entries b c) :
    Entries a c := by
  induction hbc with
  | refl => exact hab
  | tail _ last ih => exact .tail ih last

theorem Entry.edit {reg reg' : Registry} (h : Entry reg reg') : Edit reg reg' := by
  cases h with
  | addFile file => exact .addFile file
  | report hsite _ => exact .report _ hsite
  | addPlaceholder hfresh => exact .addPlaceholder hfresh
  | setParentName _ _ => exact .setParentName _ _
  | setOrigin hsite hnone => exact .setOrigin hsite hnone
  | addMember howner hsignature horigin hdoc => exact .addMember howner hsignature horigin hdoc
  | redeclare returnType hsignature => exact .redeclare returnType hsignature
  | addChapter name => exact .addChapter name
  | attachDoc horigin hsubject => exact .attachDoc horigin hsubject

theorem Entries.edits {reg reg' : Registry} (h : Entries reg reg') : Edits reg reg' := by
  induction h with
  | refl => exact .refl _
  | tail _ last ih => exact .tail ih last.edit

/-! ## Marks -/

/-- No class has been drafted. -/
def Undone (reg : Registry) : Prop :=
  ∀ c ∈ reg.classes, c.done = false

/-- A class that is changed, but not marked. -/
theorem undone_editClass {reg : Registry} (h : reg.Undone) (id : ClassId) {f : Class → Class}
    (hf : ∀ c, (f c).done = c.done) : (reg.editClass id f).Undone := by
  intro c hc
  obtain ⟨i, hi⟩ := List.getElem?_of_mem hc
  obtain ⟨b, hb, rfl⟩ := getElem?_modify_eq_some hi
  have hundone := h b (List.mem_of_getElem? hb)
  split
  · rw [hf, hundone]
  · exact hundone

/-- **A step.**  An entry marks no class. -/
theorem Entry.undone {reg reg' : Registry} (h : Entry reg reg') (hreg : reg.Undone) :
    reg'.Undone := by
  cases h with
  | addPlaceholder _ =>
      intro c hc
      rcases List.mem_append.mp hc with hc | hc
      · exact hreg c hc
      · obtain rfl := List.mem_singleton.mp hc
        rfl
  | setParentName _ _ => exact undone_editClass hreg _ fun _ => rfl
  | setOrigin _ _ => exact undone_editClass hreg _ fun _ => rfl
  | addMember _ _ _ _ => exact undone_editClass hreg _ fun _ => rfl
  | @attachDoc block _ _ =>
      unfold Registry.attachDoc
      cases block.subject with
      | function f => exact hreg
      | classPage c => exact undone_editClass hreg c fun _ => rfl
      | chapter ch => exact hreg
  | _ => exact hreg

/-- **A run.**  Reading files marks no class. -/
theorem Entries.undone {reg reg' : Registry} (h : Entries reg reg') (hreg : reg.Undone) :
    reg'.Undone := by
  induction h with
  | refl => exact hreg
  | tail _ last ih => exact last.undone ih

variable (reg : Registry)

/-! ## Classes and functions -/

theorem entries_classNamed (name : String) : Entries reg (reg.classNamed name).2 := by
  unfold classNamed
  cases hfind : reg.findClass? name with
  | some id => exact .refl reg
  | none => exact .single (.addPlaceholder hfind)

/-- The class that is found or added has the name. -/
theorem getElem?_classNamed (name : String) :
    ∃ c, (reg.classNamed name).2.classes[(reg.classNamed name).1.index]? = some c ∧
      c.name = name := by
  unfold classNamed
  cases hfind : reg.findClass? name with
  | some id => exact getElem?_of_findClass? hfind
  | none => exact ⟨Class.placeholder name, by simp, rfl⟩

theorem entries_addFunction (returnType name parameters : String) (isConst : Bool)
    {origin : Location} (horigin : reg.HasFile origin.file) :
    Entries reg (reg.addFunction returnType name parameters isConst origin).2 := by
  unfold addFunction
  cases hname : ownerPart? name with
  | none => exact .refl reg
  | some ownerName =>
      have hclass := entries_classNamed reg ownerName
      obtain ⟨c, hc, howner⟩ := getElem?_classNamed reg ownerName
      refine .tail hclass (.addMember ⟨c, hc, ?_⟩ rfl (hclass.edits.persists.hasFile horigin) rfl)
      rw [howner]
      exact eq_of_ownerPart? hname

theorem entries_declare (returnType name parameters : String) (isConst : Bool)
    {origin : Location} (horigin : reg.HasFile origin.file) :
    Entries reg (reg.declare returnType name parameters isConst origin).2 := by
  unfold declare
  cases hfind : reg.findOverload? name parameters isConst with
  | none => exact entries_addFunction reg returnType name parameters isConst horigin
  | some id =>
      refine .single (.redeclare returnType fun f hf => ?_)
      obtain ⟨n, hn, rfl⟩ := Option.map_eq_some_iff.mp hfind
      obtain ⟨hlt, hmatch, _⟩ := List.findIdx?_eq_some_iff_getElem.mp hn
      obtain rfl : reg.functions[n] = f := by simpa [hlt] using hf
      simp only [Bool.and_eq_true, beq_iff_eq] at hmatch
      exact hmatch.1.2

/-- The function that a declaration is about is there. -/
theorem hasFunction_declare {returnType name parameters : String} {isConst : Bool}
    {origin : Location} {f : FunctionId}
    (h : (reg.declare returnType name parameters isConst origin).1 = some f) :
    (reg.declare returnType name parameters isConst origin).2.HasFunction f := by
  unfold declare at h ⊢
  cases hfind : reg.findOverload? name parameters isConst with
  | some id =>
      obtain ⟨n, hn, rfl⟩ := Option.map_eq_some_iff.mp hfind
      obtain ⟨hlt, _⟩ := List.findIdx?_eq_some_iff_getElem.mp hn
      simp only [hfind, Option.some.injEq] at h ⊢
      subst h
      simpa [HasFunction, editFunction] using hlt
  | none =>
      simp only [hfind, addFunction] at h ⊢
      cases howner : ownerPart? name with
      | none => simp [howner] at h
      | some ownerName =>
          simp only [howner, Option.some.injEq] at h ⊢
          subst h
          simp [HasFunction, editClass]

/-! ## Reports -/

theorem entries_report {site : Location} {problem : Problem} (hsite : reg.HasFile site.file)
    (hread : problem.isUnknownParent = false) : Entries reg (reg.report site problem) :=
  .single (.report hsite hread)

end Registry

end CppDoc
