import CppDoc.Proofs.Registry.WellFormed

/-!
# Registries stay well-formed

Each operation that enters something into a registry keeps it well-formed, provided that the numbers
it is given are those of entities.  They all work in one way.  `Keeps` says that what was there
before is still there, with the names and the members of classes unchanged, so that everything old
fits as before; `WellFormed.of_keeps` then asks only about what is new.  The one exception is a new
function, which its owner gains as a member: `wellFormed_withMember` treats it by itself.
-/

namespace CppDoc.Registry

/-! ## What is never taken away -/

/-- `reg'` has all the entities of `reg`, with their names and members, and its further classes have
no members yet. -/
structure Keeps (reg reg' : Registry) : Prop where
  files : reg.files.length ≤ reg'.files.length
  functions : reg.functions.length ≤ reg'.functions.length
  chapters : reg.chapters.length ≤ reg'.chapters.length
  docs : reg.docs <+: reg'.docs
  oldClasses : ∀ (k : ClassId) (c : Class), reg.classes[k.index]? = some c →
    ∃ c', reg'.classes[k.index]? = some c' ∧ c'.name = c.name ∧ c'.members = c.members
  newClasses : ∀ (k : ClassId) (c' : Class), reg'.classes[k.index]? = some c' →
    reg.classes.length ≤ k.index → c'.members = []

section Keeps

variable {reg reg' : Registry}

theorem Keeps.hasFile (h : Keeps reg reg') {id : FileId} (hid : reg.HasFile id) :
    reg'.HasFile id :=
  Nat.lt_of_lt_of_le hid h.files

theorem Keeps.hasClass (h : Keeps reg reg') {id : ClassId} (hid : reg.HasClass id) :
    reg'.HasClass id := by
  obtain ⟨_, hc, _⟩ := h.oldClasses id _ (getElem?_getClass hid)
  exact hasClass_of_getElem? hc

theorem Keeps.hasSubject (h : Keeps reg reg') {subject : Subject}
    (hs : reg.HasSubject subject) : reg'.HasSubject subject := by
  cases subject with
  | function f => exact Nat.lt_of_lt_of_le hs h.functions
  | classPage c => exact h.hasClass hs
  | chapter ch => exact Nat.lt_of_lt_of_le hs h.chapters

theorem Keeps.isAbout (h : Keeps reg reg') {id : DocId} {subject : Subject}
    (hid : reg.IsAbout id subject) : reg'.IsAbout id subject := by
  obtain ⟨block, hblock, hsubject⟩ := hid
  obtain ⟨later, hdocs⟩ := h.docs
  have hlt : id.index < reg.docs.length := (List.getElem?_eq_some_iff.mp hblock).1
  exact ⟨block, by rw [← hdocs, List.getElem?_append_left hlt, hblock], hsubject⟩

theorem Keeps.classFits (h : Keeps reg reg') {id : ClassId} {c : Class}
    (hc : reg.ClassFits id c) : reg'.ClassFits id c where
  origin := fun site hsite => h.hasFile (hc.origin site hsite)
  parent := fun p hp => h.hasClass (hc.parent p hp)
  children := fun child hchild => h.hasClass (hc.children child hchild)
  members := fun m hm => Nat.lt_of_lt_of_le (hc.members m hm) h.functions
  doc := fun d hd => h.isAbout (hc.doc d hd)

theorem Keeps.functionFits (h : Keeps reg reg') {id : FunctionId} {f : Function}
    (hf : reg.FunctionFits id f) : reg'.FunctionFits id f where
  owner := by
    obtain ⟨c, hc, hname⟩ := hf.owner
    obtain ⟨c', hc', hname', _⟩ := h.oldClasses _ c hc
    exact ⟨c', hc', by rw [hname', hname]⟩
  filed := by
    intro k c' hc'
    by_cases hk : k.index < reg.classes.length
    · obtain ⟨_, hold, _, hmembers⟩ := h.oldClasses k _ (List.getElem?_eq_getElem hk)
      rw [hc', Option.some.injEq] at hold
      subst hold
      rw [hmembers]
      exact hf.filed k _ (List.getElem?_eq_getElem hk)
    · -- A further class has no members, and it is not the owner, which `reg` has.
      obtain ⟨c, hc, _⟩ := hf.owner
      have howner : f.owner.index < reg.classes.length := hasClass_of_getElem? hc
      have hne : k ≠ f.owner := fun heq => hk (heq ▸ howner)
      simp [h.newClasses k c' hc' (by omega), hne]
  signature := hf.signature
  origin := h.hasFile hf.origin
  doc := fun d hd => h.isAbout (hf.doc d hd)

theorem Keeps.chapterFits (h : Keeps reg reg') {id : ChapterId} {ch : Chapter}
    (hch : reg.ChapterFits id ch) : reg'.ChapterFits id ch where
  nodup := hch.nodup
  classes := fun c hc => h.hasClass (hch.classes c hc)
  doc := fun d hd => h.isAbout (hch.doc d hd)

theorem Keeps.docFits (h : Keeps reg reg') {d : DocBlock} (hd : reg.DocFits d) :
    reg'.DocFits d where
  origin := h.hasFile hd.origin
  subject := h.hasSubject hd.subject

/-- A registry that keeps what a well-formed one has is well-formed if everything new in it
fits. -/
theorem WellFormed.of_keeps (hreg : reg.WellFormed) (h : Keeps reg reg')
    (hnames : (reg'.classes.map Class.name).Nodup)
    (hclasses : ∀ (id : ClassId) (c : Class), reg'.classes[id.index]? = some c →
      reg.classes[id.index]? = some c ∨ reg'.ClassFits id c)
    (hfunctions : ∀ (id : FunctionId) (f : Function), reg'.functions[id.index]? = some f →
      reg.functions[id.index]? = some f ∨ reg'.FunctionFits id f)
    (hchapters : ∀ (id : ChapterId) (ch : Chapter), reg'.chapters[id.index]? = some ch →
      reg.chapters[id.index]? = some ch ∨ reg'.ChapterFits id ch)
    (hdocs : ∀ d ∈ reg'.docs, d ∈ reg.docs ∨ reg'.DocFits d)
    (hmentions : ∀ m ∈ reg'.mentions, m ∈ reg.mentions ∨ reg'.HasFile m.2.file)
    (hdiagnostics : ∀ d ∈ reg'.diagnostics, d ∈ reg.diagnostics ∨ reg'.HasFile d.site.file) :
    reg'.WellFormed where
  names := hnames
  classes := fun id c hc =>
    (hclasses id c hc).elim (fun hold => h.classFits (hreg.classes id c hold)) (fun hfit => hfit)
  functions := fun id f hf =>
    (hfunctions id f hf).elim (fun hold => h.functionFits (hreg.functions id f hold))
      (fun hfit => hfit)
  chapters := fun id ch hch =>
    (hchapters id ch hch).elim (fun hold => h.chapterFits (hreg.chapters id ch hold))
      (fun hfit => hfit)
  docs := fun d hd => (hdocs d hd).elim (fun hold => h.docFits (hreg.docs d hold)) (fun hfit => hfit)
  mentions := fun m hm =>
    (hmentions m hm).elim (fun hold => h.hasFile (hreg.mentions m hold)) (fun hfit => hfit)
  diagnostics := fun d hd =>
    (hdiagnostics d hd).elim (fun hold => h.hasFile (hreg.diagnostics d hold)) (fun hfit => hfit)

end Keeps

/-! ## Changes of one entity -/

section OneEntity

variable {reg : Registry}

/-- What stands at a place of a list after one place of it has been changed. -/
theorem getElem?_modify_eq_some {α : Type} {l : List α} {f : α → α} {i j : Nat} {b : α}
    (h : (l.modify i f)[j]? = some b) :
    ∃ a, l[j]? = some a ∧ b = if i = j then f a else a := by
  rw [List.getElem?_modify] at h
  obtain ⟨a, ha, hb⟩ := Option.map_eq_some_iff.mp h
  exact ⟨a, ha, hb.symm⟩

/-- A change of a class that leaves its name and its members alone. -/
theorem keeps_editClass (id : ClassId) {g : Class → Class}
    (hg : ∀ c, (g c).name = c.name ∧ (g c).members = c.members) :
    Keeps reg (reg.editClass id g) where
  files := Nat.le_refl _
  functions := Nat.le_refl _
  chapters := Nat.le_refl _
  docs := List.prefix_rfl
  oldClasses := by
    intro k c hc
    refine ⟨if id.index = k.index then g c else c, ?_, ?_, ?_⟩
    · simp [editClass, List.getElem?_modify, hc]
    all_goals split <;> simp [hg]
  newClasses := by
    intro k c hc hk
    have hlt := (List.getElem?_eq_some_iff.mp hc).1
    simp only [editClass, List.length_modify] at hlt
    omega

theorem wellFormed_editClass (hreg : reg.WellFormed) (id : ClassId) {g : Class → Class}
    (hg : ∀ c, (g c).name = c.name ∧ (g c).members = c.members)
    (hfits : ∀ c, reg.classes[id.index]? = some c → reg.ClassFits id c → reg.ClassFits id (g c)) :
    (reg.editClass id g).WellFormed := by
  have hkeeps : Keeps reg (reg.editClass id g) := keeps_editClass id hg
  have hnames : (reg.classes.modify id.index g).map Class.name = reg.classes.map Class.name := by
    apply List.ext_getElem?
    intro j
    by_cases hj : id.index = j <;> simp [hj, Function.comp_def, hg]
  refine hreg.of_keeps hkeeps (by simpa [editClass, hnames] using hreg.names) ?_
    (fun _ _ h => .inl h) (fun _ _ h => .inl h) (fun _ h => .inl h) (fun _ h => .inl h)
    (fun _ h => .inl h)
  intro k c hc
  obtain ⟨a, ha, rfl⟩ := getElem?_modify_eq_some hc
  split
  · obtain rfl : id = k := congrArg ClassId.mk ‹_›
    exact .inr (hkeeps.classFits (hfits a ha (hreg.classes id a ha)))
  · exact .inl ha

/-- A registry that only has more functions, chapters, documentation and so on keeps what it
had. -/
theorem keeps_of_classes_eq {reg' : Registry} (hclasses : reg'.classes = reg.classes)
    (hfiles : reg.files.length ≤ reg'.files.length)
    (hfunctions : reg.functions.length ≤ reg'.functions.length)
    (hchapters : reg.chapters.length ≤ reg'.chapters.length)
    (hdocs : reg.docs <+: reg'.docs) : Keeps reg reg' where
  files := hfiles
  functions := hfunctions
  chapters := hchapters
  docs := hdocs
  oldClasses := fun _ c hc => ⟨c, by rw [hclasses, hc], rfl, rfl⟩
  newClasses := by
    intro k c hc hk
    have hlt := (List.getElem?_eq_some_iff.mp hc).1
    rw [hclasses] at hlt
    omega

theorem wellFormed_editFunction (hreg : reg.WellFormed) (id : FunctionId) {g : Function → Function}
    (hfits : ∀ f, reg.functions[id.index]? = some f → reg.FunctionFits id f →
      reg.FunctionFits id (g f)) :
    (reg.editFunction id g).WellFormed := by
  have hkeeps : Keeps reg (reg.editFunction id g) :=
    keeps_of_classes_eq rfl (Nat.le_refl _) (by simp [editFunction]) (Nat.le_refl _)
      List.prefix_rfl
  refine hreg.of_keeps hkeeps hreg.names (fun _ _ h => .inl h) ?_ (fun _ _ h => .inl h)
    (fun _ h => .inl h) (fun _ h => .inl h) (fun _ h => .inl h)
  intro k f hf
  obtain ⟨a, ha, rfl⟩ := getElem?_modify_eq_some hf
  split
  · obtain rfl : id = k := congrArg FunctionId.mk ‹_›
    exact .inr (hkeeps.functionFits (hfits a ha (hreg.functions id a ha)))
  · exact .inl ha

theorem wellFormed_editChapter (hreg : reg.WellFormed) (id : ChapterId) {g : Chapter → Chapter}
    (hfits : ∀ ch, reg.chapters[id.index]? = some ch → reg.ChapterFits id ch →
      reg.ChapterFits id (g ch)) :
    (reg.editChapter id g).WellFormed := by
  have hkeeps : Keeps reg (reg.editChapter id g) :=
    keeps_of_classes_eq rfl (Nat.le_refl _) (Nat.le_refl _) (by simp [editChapter])
      List.prefix_rfl
  refine hreg.of_keeps hkeeps hreg.names (fun _ _ h => .inl h) (fun _ _ h => .inl h) ?_
    (fun _ h => .inl h) (fun _ h => .inl h) (fun _ h => .inl h)
  intro k ch hch
  obtain ⟨a, ha, rfl⟩ := getElem?_modify_eq_some hch
  split
  · obtain rfl : id = k := congrArg ChapterId.mk ‹_›
    exact .inr (hkeeps.chapterFits (hfits a ha (hreg.chapters id a ha)))
  · exact .inl ha

/-- The function after a further declaration of the same signature fits as before. -/
theorem FunctionFits.redeclared {id : FunctionId} {f : Function} (hf : reg.FunctionFits id f)
    (returnType : String) {parameters : String}
    (hsignature : f.signature = Syntax.typesOnly parameters) :
    reg.FunctionFits id (f.redeclared returnType parameters) where
  owner := hf.owner
  filed := hf.filed
  signature := hsignature
  origin := hf.origin
  doc := hf.doc

/-- The chapter with one more class introduces each class once. -/
theorem ChapterFits.introduce {id : ChapterId} {ch : Chapter} (hch : reg.ChapterFits id ch)
    {c : ClassId} (hclass : reg.HasClass c) : reg.ChapterFits id (ch.introduce c) := by
  unfold Chapter.introduce
  split
  · exact hch
  · rename_i hnew
    have hnot : c ∉ ch.classes := by simpa using hnew
    refine ⟨?_, ?_, hch.doc⟩
    · refine List.nodup_append.mpr ⟨hch.nodup, by simp, ?_⟩
      intro a ha b hb hab
      rw [hab, List.mem_singleton.mp hb] at ha
      exact hnot ha
    · intro b hb
      rcases List.mem_append.mp hb with hb | hb
      · exact hch.classes b hb
      · rw [List.mem_singleton.mp hb]
        exact hclass

/-- A further block of documentation, before its subject points at it. -/
theorem wellFormed_addDoc (hreg : reg.WellFormed) {block : DocBlock}
    (horigin : reg.HasFile block.origin.file) (hsubject : reg.HasSubject block.subject) :
    ({ reg with docs := reg.docs ++ [block] } : Registry).WellFormed := by
  have hkeeps : Keeps reg { reg with docs := reg.docs ++ [block] } :=
    keeps_of_classes_eq rfl (Nat.le_refl _) (Nat.le_refl _) (Nat.le_refl _)
      (List.prefix_append _ _)
  refine hreg.of_keeps hkeeps hreg.names (fun _ _ h => .inl h) (fun _ _ h => .inl h)
    (fun _ _ h => .inl h) ?_ (fun _ h => .inl h) (fun _ h => .inl h)
  intro d hd
  rcases List.mem_append.mp hd with hd | hd
  · exact .inl hd
  · rw [List.mem_singleton.mp hd]
    exact .inr (hkeeps.docFits ⟨horigin, hsubject⟩)

theorem wellFormed_attachDoc (hreg : reg.WellFormed) {block : DocBlock}
    (horigin : reg.HasFile block.origin.file) (hsubject : reg.HasSubject block.subject) :
    (reg.attachDoc block).2.WellFormed := by
  have hadded := wellFormed_addDoc hreg horigin hsubject
  have habout : IsAbout { reg with docs := reg.docs ++ [block] } ⟨reg.docs.length⟩ block.subject :=
    ⟨block, by simp, rfl⟩
  unfold attachDoc
  cases hs : block.subject with
  | function f =>
      rw [hs] at habout
      refine wellFormed_editFunction hadded f fun e _ he => ?_
      exact { he with doc := fun d hd => Option.some.inj hd ▸ habout }
  | classPage c =>
      rw [hs] at habout
      refine wellFormed_editClass hadded c (fun _ => ⟨rfl, rfl⟩) fun e _ he => ?_
      exact { he with doc := fun d hd => Option.some.inj hd ▸ habout }
  | chapter ch =>
      rw [hs] at habout
      refine wellFormed_editChapter hadded ch fun e _ he => ?_
      exact { he with doc := fun d hd => Option.some.inj hd ▸ habout }

/-- Changing a class does not change which numbers are in range. -/
theorem ClassFits.of_editClass {k : ClassId} {c : Class} (hc : reg.ClassFits k c) (id : ClassId)
    (g : Class → Class) : (reg.editClass id g).ClassFits k c := by
  have hclass : ∀ j, reg.HasClass j → (reg.editClass id g).HasClass j := by
    intro j hj
    simpa [HasClass, editClass] using hj
  exact
    { origin := hc.origin
      parent := fun p hp => hclass p (hc.parent p hp)
      children := fun child hchild => hclass child (hc.children child hchild)
      members := hc.members
      doc := hc.doc }

/-- The registry with one more function, listed by its owner. -/
def withMember (reg : Registry) (f : Function) : Registry :=
  ({ reg with functions := reg.functions ++ [f] } : Registry).editClass f.owner fun c =>
    { c with members := c.members ++ [⟨reg.functions.length⟩] }

/-- A class that has got a new member, or any other class, in terms of the class before. -/
theorem getElem?_withMember {f : Function} {k : ClassId} {c' : Class}
    (h : (reg.withMember f).classes[k.index]? = some c') :
    ∃ c, reg.classes[k.index]? = some c ∧ c'.name = c.name ∧
      c' = if k = f.owner then { c with members := c.members ++ [⟨reg.functions.length⟩] }
        else c := by
  obtain ⟨c, hc, rfl⟩ := getElem?_modify_eq_some h
  have hiff : f.owner.index = k.index ↔ k = f.owner :=
    ⟨fun h => congrArg ClassId.mk h.symm, fun h => h ▸ rfl⟩
  refine ⟨c, hc, ?_, ?_⟩
  · split <;> rfl
  · simp only [hiff]

/-- The members that a class lists after a function has been added to its owner. -/
theorem count_withMember {f : Function} {k : ClassId} {c' : Class}
    (h : (reg.withMember f).classes[k.index]? = some c') (id : FunctionId) :
    ∃ c, reg.classes[k.index]? = some c ∧ c'.members.count id =
      c.members.count id + if k = f.owner ∧ id = ⟨reg.functions.length⟩ then 1 else 0 := by
  obtain ⟨c, hc, _, rfl⟩ := getElem?_withMember h
  refine ⟨c, hc, ?_⟩
  by_cases hk : k = f.owner
  · have hnew : (⟨reg.functions.length⟩ : FunctionId) = id ↔ id = ⟨reg.functions.length⟩ := eq_comm
    simp [hk, List.count_append, List.count_singleton, hnew]
  · simp [hk]

theorem names_withMember (f : Function) :
    (reg.withMember f).classes.map Class.name = reg.classes.map Class.name := by
  apply List.ext_getElem?
  intro j
  by_cases hj : f.owner.index = j <;> simp [withMember, editClass, hj, Function.comp_def]

/-- Every class is still there under its name. -/
theorem exists_withMember {k : ClassId} {c : Class} (hc : reg.classes[k.index]? = some c)
    (f : Function) : ∃ c', (reg.withMember f).classes[k.index]? = some c' ∧ c'.name = c.name := by
  have hname : ((reg.withMember f).classes.map Class.name)[k.index]? = some c.name := by
    rw [names_withMember, List.getElem?_map, hc, Option.map_some]
  simpa using hname

theorem hasClass_withMember {k : ClassId} (h : reg.HasClass k) (f : Function) :
    (reg.withMember f).HasClass k := by
  simpa [HasClass, withMember, editClass] using h

theorem keeps_addFunction (reg : Registry) (f : Function) :
    Keeps reg { reg with functions := reg.functions ++ [f] } :=
  keeps_of_classes_eq rfl (Nat.le_refl _) (by simp) (Nat.le_refl _) List.prefix_rfl

theorem ClassFits.withMember {k : ClassId} {c : Class} (hc : reg.ClassFits k c) (f : Function) :
    (reg.withMember f).ClassFits k
      (if k = f.owner then { c with members := c.members ++ [⟨reg.functions.length⟩] } else c) := by
  have hold := ((keeps_addFunction reg f).classFits hc).of_editClass f.owner
    fun c => { c with members := c.members ++ [⟨reg.functions.length⟩] }
  split
  · refine { hold with members := fun m hm => ?_ }
    rcases List.mem_append.mp hm with hm | hm
    · exact hold.members m hm
    · rw [List.mem_singleton.mp hm]
      show reg.functions.length < (reg.functions ++ [f]).length
      simp
  · exact hold

/-- An old function is filed where it was. -/
theorem FunctionFits.withMember {id : FunctionId} {g : Function} (h : reg.FunctionFits id g)
    (hid : reg.HasFunction id) (f : Function) : (reg.withMember f).FunctionFits id g where
  owner := by
    obtain ⟨c, hc, hname⟩ := h.owner
    obtain ⟨c', hc', hname'⟩ := exists_withMember hc f
    exact ⟨c', hc', by rw [hname', hname]⟩
  filed := by
    intro k b hb
    obtain ⟨a, ha, hcount⟩ := count_withMember hb id
    have hne : id ≠ ⟨reg.functions.length⟩ := by
      rintro rfl
      exact Nat.lt_irrefl _ hid
    rw [hcount, h.filed k a ha]
    simp [hne]
  signature := h.signature
  origin := h.origin
  doc := h.doc

/-- The new function is filed under its owner: no class had its number among its members. -/
theorem functionFits_withMember (hreg : reg.WellFormed) {f : Function}
    (howner : ∃ c, reg.classes[f.owner.index]? = some c ∧ f.name = c.name ++ "::" ++ f.member)
    (hsignature : f.signature = Syntax.typesOnly f.parameters)
    (horigin : reg.HasFile f.origin.file) (hdoc : f.doc = none) :
    (reg.withMember f).FunctionFits ⟨reg.functions.length⟩ f where
  owner := by
    obtain ⟨c, hc, hname⟩ := howner
    obtain ⟨c', hc', hname'⟩ := exists_withMember hc f
    exact ⟨c', hc', by rw [hname', hname]⟩
  filed := by
    intro k b hb
    obtain ⟨a, ha, hcount⟩ := count_withMember hb ⟨reg.functions.length⟩
    have hfresh : a.members.count ⟨reg.functions.length⟩ = 0 :=
      List.count_eq_zero.mpr fun hm => Nat.lt_irrefl _ ((hreg.classes k a ha).members _ hm)
    rw [hcount, hfresh]
    simp
  signature := hsignature
  origin := horigin
  doc := by simp [hdoc]

theorem ChapterFits.withMember {id : ChapterId} {ch : Chapter} (h : reg.ChapterFits id ch)
    (f : Function) : (reg.withMember f).ChapterFits id ch where
  nodup := h.nodup
  classes := fun c hc => hasClass_withMember (h.classes c hc) f
  doc := h.doc

theorem DocFits.withMember {d : DocBlock} (h : reg.DocFits d) (f : Function) :
    (reg.withMember f).DocFits d where
  origin := h.origin
  subject := by
    have hgrown := (keeps_addFunction reg f).hasSubject h.subject
    revert hgrown
    cases d.subject with
    | function => exact fun h => h
    | classPage c => simp [HasSubject, HasClass, Registry.withMember, editClass]
    | chapter => exact fun h => h

/-- A function is added under its owner. -/
theorem wellFormed_withMember (hreg : reg.WellFormed) {f : Function}
    (howner : ∃ c, reg.classes[f.owner.index]? = some c ∧ f.name = c.name ++ "::" ++ f.member)
    (hsignature : f.signature = Syntax.typesOnly f.parameters)
    (horigin : reg.HasFile f.origin.file) (hdoc : f.doc = none) :
    (reg.withMember f).WellFormed where
  names := by
    rw [names_withMember]
    exact hreg.names
  classes := by
    intro k c' hc'
    obtain ⟨c, hc, _, rfl⟩ := getElem?_withMember hc'
    exact (hreg.classes k c hc).withMember f
  functions := by
    intro id g hg
    have hg' : (reg.functions ++ [f])[id.index]? = some g := hg
    by_cases hid : reg.HasFunction id
    · rw [List.getElem?_append_left hid] at hg'
      exact (hreg.functions id g hg').withMember hid f
    · have hlen : id.index = reg.functions.length := by
        have := (List.getElem?_eq_some_iff.mp hg').1
        simp only [List.length_append, List.length_singleton] at this
        unfold HasFunction at hid
        omega
      obtain rfl : id = ⟨reg.functions.length⟩ := congrArg FunctionId.mk hlen
      obtain rfl : f = g := by simpa using hg'
      exact functionFits_withMember hreg howner hsignature horigin hdoc
  chapters := fun id ch hch => (hreg.chapters id ch hch).withMember f
  docs := fun d hd => (hreg.docs d hd).withMember f
  mentions := hreg.mentions
  diagnostics := hreg.diagnostics

theorem mem_append_singleton {α : Type} {l : List α} {a : α} {p : α → Prop} (ha : p a) :
    ∀ b ∈ l ++ [a], b ∈ l ∨ p b := by
  intro b hb
  rcases List.mem_append.mp hb with hb | hb
  · exact .inl hb
  · rw [List.mem_singleton.mp hb]
    exact .inr ha

private theorem getElem?_append_singleton {α : Type} {l : List α} {a b : α} {i : Nat}
    (h : (l ++ [a])[i]? = some b) : l[i]? = some b ∨ l.length ≤ i ∧ b = a := by
  by_cases hi : i < l.length
  · exact .inl (by rwa [List.getElem?_append_left hi] at h)
  · rw [List.getElem?_append_right (Nat.le_of_not_lt hi)] at h
    exact .inr ⟨Nat.le_of_not_lt hi, List.mem_singleton.mp (List.mem_of_getElem? h)⟩

/-- A registry with a placeholder for a name that no class had. -/
theorem wellFormed_addPlaceholder (hreg : reg.WellFormed) {name : String}
    (hfresh : reg.findClass? name = none) :
    ({ reg with classes := reg.classes ++ [Class.placeholder name] } : Registry).WellFormed := by
  have hkeeps : Keeps reg { reg with classes := reg.classes ++ [Class.placeholder name] } := by
    refine ⟨Nat.le_refl _, Nat.le_refl _, Nat.le_refl _, List.prefix_rfl, ?_, ?_⟩
    · intro k c hc
      have hlt := (List.getElem?_eq_some_iff.mp hc).1
      exact ⟨c, by rw [List.getElem?_append_left hlt, hc], rfl, rfl⟩
    · intro k c hc hk
      obtain hold | ⟨_, rfl⟩ := getElem?_append_singleton hc
      · have hlt := (List.getElem?_eq_some_iff.mp hold).1
        omega
      · rfl
  refine hreg.of_keeps hkeeps ?_ ?_ (fun _ _ h => .inl h) (fun _ _ h => .inl h)
    (fun _ h => .inl h) (fun _ h => .inl h) (fun _ h => .inl h)
  · rw [List.map_append, List.nodup_append]
    refine ⟨hreg.names, by simp, ?_⟩
    intro a ha b hb hab
    obtain ⟨c, hc, rfl⟩ := List.mem_map.mp ha
    have hb' : b = name := by simpa [Class.placeholder] using hb
    exact name_ne_of_findClass?_eq_none hfresh c hc (hab.trans hb')
  · intro id c hc
    obtain hold | ⟨_, rfl⟩ := getElem?_append_singleton hc
    · exact .inl hold
    · exact .inr (by constructor <;> simp [Class.placeholder])

theorem wellFormed_addChapter (hreg : reg.WellFormed) (name : String) :
    (reg.addChapter name).2.WellFormed := by
  have hkeeps : Keeps reg (reg.addChapter name).2 :=
    keeps_of_classes_eq rfl (Nat.le_refl _) (Nat.le_refl _) (by simp [addChapter])
      List.prefix_rfl
  refine hreg.of_keeps hkeeps hreg.names (fun _ _ h => .inl h) (fun _ _ h => .inl h) ?_
    (fun _ h => .inl h) (fun _ h => .inl h) (fun _ h => .inl h)
  intro id ch hch
  obtain hold | ⟨_, rfl⟩ := getElem?_append_singleton hch
  · exact .inl hold
  · exact .inr (by constructor <;> simp)

theorem wellFormed_addChild (hreg : reg.WellFormed) (parent : ClassId) {child : ClassId}
    (hchild : reg.HasClass child) : (reg.addChild parent child).WellFormed := by
  refine wellFormed_editClass hreg parent (fun _ => by split <;> exact ⟨rfl, rfl⟩) ?_
  intro c _ hc
  split
  · exact hc
  · refine { hc with children := fun k hk => ?_ }
    rcases List.mem_append.mp hk with hk | hk
    · exact hc.children k ((List.takeWhile_prefix _).subset hk)
    · rcases List.mem_cons.mp hk with rfl | hk
      · exact hchild
      · exact hc.children k ((List.dropWhile_suffix _).subset hk)

/-- What is only entered into the lists of files, mentions and problems, or is a flag. -/
theorem wellFormed_of_entities_eq (hreg : reg.WellFormed) {reg' : Registry}
    (hfiles : reg.files.length ≤ reg'.files.length) (hclasses : reg'.classes = reg.classes)
    (hfunctions : reg'.functions = reg.functions) (hchapters : reg'.chapters = reg.chapters)
    (hdocs : reg'.docs = reg.docs)
    (hmentions : ∀ m ∈ reg'.mentions, m ∈ reg.mentions ∨ reg'.HasFile m.2.file)
    (hdiagnostics : ∀ d ∈ reg'.diagnostics, d ∈ reg.diagnostics ∨ reg'.HasFile d.site.file) :
    reg'.WellFormed := by
  have hkeeps : Keeps reg reg' :=
    keeps_of_classes_eq hclasses hfiles (by simp [hfunctions]) (by simp [hchapters])
      (by simp [hdocs])
  refine hreg.of_keeps hkeeps (by rw [hclasses]; exact hreg.names) ?_ ?_ ?_ ?_ hmentions
    hdiagnostics
  · exact fun id c hc => .inl (hclasses ▸ hc)
  · exact fun id f hf => .inl (hfunctions ▸ hf)
  · exact fun id ch hch => .inl (hchapters ▸ hch)
  · exact fun d hd => .inl (hdocs ▸ hd)

end OneEntity

end CppDoc.Registry
