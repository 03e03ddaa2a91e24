import CppDoc.Registry.Hierarchy

/-!
# Well-formed registries

A registry stores its entities in lists and lets them refer to each other by number.  It is
**well-formed** if those numbers lead somewhere and agree with each other:

* class names are pairwise distinct;
* a function is listed once, by the class that owns it, and is named after that class;
* the signature that a function keeps is that of its current parameters;
* a block of documentation is about the entity that points at it;
* a chapter introduces a class once;
* every number that is stored anywhere is that of an entity.

`ClassFits`, `FunctionFits`, `ChapterFits` and `DocFits` say this of one entity, and `WellFormed` of
the registry as a whole.
-/

namespace CppDoc.Registry

/-! ## Numbers in range -/

/-- There is a file with the number. -/
def HasFile (reg : Registry) (id : FileId) : Prop :=
  id.index < reg.files.length

/-- There is a class with the number. -/
def HasClass (reg : Registry) (id : ClassId) : Prop :=
  id.index < reg.classes.length

/-- There is a function with the number. -/
def HasFunction (reg : Registry) (id : FunctionId) : Prop :=
  id.index < reg.functions.length

/-- There is a chapter with the number. -/
def HasChapter (reg : Registry) (id : ChapterId) : Prop :=
  id.index < reg.chapters.length

/-- There is a block of documentation with the number. -/
def HasDoc (reg : Registry) (id : DocId) : Prop :=
  id.index < reg.docs.length

/-- The subject is an entity of the registry. -/
def HasSubject (reg : Registry) : Subject → Prop
  | .function f => reg.HasFunction f
  | .classPage c => reg.HasClass c
  | .chapter ch => reg.HasChapter ch

/-- The number is that of a block of documentation about the subject. -/
def IsAbout (reg : Registry) (id : DocId) (subject : Subject) : Prop :=
  ∃ block, reg.docs[id.index]? = some block ∧ block.subject = subject

/-! ## One entity -/

/-- What holds of the class with the number `id`. -/
structure ClassFits (reg : Registry) (id : ClassId) (c : Class) : Prop where
  origin : ∀ site, c.origin = some site → reg.HasFile site.file
  parent : ∀ p, c.parent = some p → reg.HasClass p
  children : ∀ child ∈ c.children, reg.HasClass child
  members : ∀ m ∈ c.members, reg.HasFunction m
  doc : ∀ d, c.doc = some d → reg.IsAbout d (.classPage id)

/-- What holds of the function with the number `id`.  `filed` says that the class `k` lists it once
if it is the owner, and not at all otherwise. -/
structure FunctionFits (reg : Registry) (id : FunctionId) (f : Function) : Prop where
  owner : ∃ c, reg.classes[f.owner.index]? = some c ∧ f.name = c.name ++ "::" ++ f.member
  filed : ∀ (k : ClassId) (c : Class), reg.classes[k.index]? = some c →
    c.members.count id = if k = f.owner then 1 else 0
  signature : f.signature = Syntax.typesOnly f.parameters
  origin : reg.HasFile f.origin.file
  doc : ∀ d, f.doc = some d → reg.IsAbout d (.function id)

/-- What holds of the chapter with the number `id`. -/
structure ChapterFits (reg : Registry) (id : ChapterId) (ch : Chapter) : Prop where
  nodup : ch.classes.Nodup
  classes : ∀ c ∈ ch.classes, reg.HasClass c
  doc : ∀ d, ch.doc = some d → reg.IsAbout d (.chapter id)

/-- What holds of a block of documentation. -/
structure DocFits (reg : Registry) (d : DocBlock) : Prop where
  origin : reg.HasFile d.origin.file
  subject : reg.HasSubject d.subject

/-! ## The registry -/

/-- The numbers stored in a registry lead somewhere and agree with each other. -/
structure WellFormed (reg : Registry) : Prop where
  names : (reg.classes.map Class.name).Nodup
  classes : ∀ (id : ClassId) (c : Class), reg.classes[id.index]? = some c → reg.ClassFits id c
  functions : ∀ (id : FunctionId) (f : Function),
    reg.functions[id.index]? = some f → reg.FunctionFits id f
  chapters : ∀ (id : ChapterId) (ch : Chapter),
    reg.chapters[id.index]? = some ch → reg.ChapterFits id ch
  docs : ∀ d ∈ reg.docs, reg.DocFits d
  mentions : ∀ m ∈ reg.mentions, reg.HasFile m.2.file
  diagnostics : ∀ d ∈ reg.diagnostics, reg.HasFile d.site.file

/-- Where nothing is known, nothing is wrong. -/
theorem wellFormed_empty : empty.WellFormed := by
  constructor <;> simp [empty]

/-! ## Looking up entities -/

theorem getElem?_getClass {reg : Registry} {id : ClassId} (h : reg.HasClass id) :
    reg.classes[id.index]? = some (reg.getClass id) := by
  unfold HasClass at h
  simp [getClass, h]

/-- Where there is no class, the default one is read. -/
theorem getClass_absent {reg : Registry} {id : ClassId} (h : ¬reg.HasClass id) :
    reg.getClass id = default := by
  unfold HasClass at h
  simp [getClass, h]

/-- What is read of a class that has been changed. -/
theorem getClass_editClass {reg : Registry} {id : ClassId} (h : reg.HasClass id)
    (f : Class → Class) : (reg.editClass id f).getClass id = f (reg.getClass id) := by
  unfold HasClass at h
  simp [editClass, getClass, List.getD_eq_getElem?_getD, h]

/-- The other classes stay as they are. -/
theorem getClass_editClass_ne {reg : Registry} {id other : ClassId} (h : other ≠ id)
    (f : Class → Class) : (reg.editClass id f).getClass other = reg.getClass other := by
  have hindex : id.index ≠ other.index := fun heq => h (congrArg ClassId.mk heq.symm)
  simp [editClass, getClass, List.getD_eq_getElem?_getD, hindex]

/-- A class that has members is there. -/
theorem hasClass_of_member {reg : Registry} {c : ClassId} {f : FunctionId}
    (h : f ∈ (reg.getClass c).members) : reg.HasClass c := by
  refine Classical.byContradiction fun habsent => ?_
  rw [getClass_absent habsent] at h
  exact nomatch h

theorem function_absent {reg : Registry} {id : FunctionId} (h : ¬reg.HasFunction id) :
    reg.function id = default := by
  unfold HasFunction at h
  simp [function, h]

theorem chapter_absent {reg : Registry} {id : ChapterId} (h : ¬reg.HasChapter id) :
    reg.chapter id = default := by
  unfold HasChapter at h
  simp [chapter, h]

/-- What is documented is there. -/
theorem hasSubject_of_docOf {reg : Registry} {s : Subject} {d : DocId} (h : reg.docOf s = some d) :
    reg.HasSubject s := by
  refine Classical.byContradiction fun habsent => ?_
  cases s with
  | function f =>
      rw [docOf, function_absent habsent] at h
      exact nomatch h
  | classPage c =>
      rw [docOf, getClass_absent habsent] at h
      exact nomatch h
  | chapter ch =>
      rw [docOf, chapter_absent habsent] at h
      exact nomatch h

theorem getElem?_function {reg : Registry} {id : FunctionId} (h : reg.HasFunction id) :
    reg.functions[id.index]? = some (reg.function id) := by
  unfold HasFunction at h
  simp [function, h]

theorem getElem?_chapter {reg : Registry} {id : ChapterId} (h : reg.HasChapter id) :
    reg.chapters[id.index]? = some (reg.chapter id) := by
  unfold HasChapter at h
  simp [chapter, h]

theorem doc_mem {reg : Registry} {id : DocId} (h : reg.HasDoc id) : reg.doc id ∈ reg.docs := by
  unfold HasDoc at h
  simp [doc, h]

theorem hasClass_of_getElem? {reg : Registry} {id : ClassId} {c : Class}
    (h : reg.classes[id.index]? = some c) : reg.HasClass id :=
  (List.getElem?_eq_some_iff.mp h).1

/-- A class that is found by its name has that name. -/
theorem getElem?_of_findClass? {reg : Registry} {name : String} {id : ClassId}
    (h : reg.findClass? name = some id) :
    ∃ c, reg.classes[id.index]? = some c ∧ c.name = name := by
  obtain ⟨n, hn, rfl⟩ := Option.map_eq_some_iff.mp h
  obtain ⟨hlt, hname, _⟩ := List.findIdx?_eq_some_iff_getElem.mp hn
  exact ⟨reg.classes[n], List.getElem?_eq_getElem hlt, by simpa using hname⟩

theorem hasClass_of_findClass? {reg : Registry} {name : String} {id : ClassId}
    (h : reg.findClass? name = some id) : reg.HasClass id := by
  obtain ⟨c, hc, _⟩ := getElem?_of_findClass? h
  exact hasClass_of_getElem? hc

/-- No class has a name that is not found. -/
theorem name_ne_of_findClass?_eq_none {reg : Registry} {name : String}
    (h : reg.findClass? name = none) : ∀ c ∈ reg.classes, c.name ≠ name := by
  intro c hc
  have hnone := List.findIdx?_eq_none_iff.mp (Option.map_eq_none_iff.mp h) c hc
  simpa using hnone

/-- Only the class with the name is found by it. -/
theorem findClass?_eq_of_getElem? {reg : Registry} (hnames : (reg.classes.map Class.name).Nodup)
    {id : ClassId} {c : Class} (h : reg.classes[id.index]? = some c) :
    reg.findClass? c.name = some id := by
  cases hfind : reg.findClass? c.name with
  | none =>
      exact absurd rfl (name_ne_of_findClass?_eq_none hfind c (List.mem_of_getElem? h))
  | some other =>
      obtain ⟨b, hb, hname⟩ := getElem?_of_findClass? hfind
      have hb' : (reg.classes.map Class.name)[other.index]? = some c.name := by simp [hb, hname]
      have hc' : (reg.classes.map Class.name)[id.index]? = some c.name := by simp [h]
      have hlt : other.index < (reg.classes.map Class.name).length :=
        (List.getElem?_eq_some_iff.mp hb').1
      have hindex := (List.getElem?_inj hlt hnames).mp (hb'.trans hc'.symm)
      rw [show other = id from congrArg ClassId.mk hindex]

/-- Class names are distinct. -/
theorem eq_of_name {reg : Registry} (hreg : reg.WellFormed) {c e : ClassId}
    (hc : reg.HasClass c) (he : reg.HasClass e)
    (hname : (reg.getClass c).name = (reg.getClass e).name) : c = e := by
  have hfound := findClass?_eq_of_getElem? hreg.names (getElem?_getClass hc)
  rw [hname, findClass?_eq_of_getElem? hreg.names (getElem?_getClass he)] at hfound
  exact (Option.some.inj hfound).symm

end CppDoc.Registry
