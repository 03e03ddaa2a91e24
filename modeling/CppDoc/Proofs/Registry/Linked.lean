import CppDoc.Proofs.Lists
import CppDoc.Proofs.Registry.Operations

/-!
# Linked classes

Files declare the parents of classes by name.  `buildHierarchy` goes through the classes once and
links each of them to the class of that name, or reports that there is none.

* `Unlinked`: what reading files leaves to be linked; `Entries.unlinked`: it does so;
* `Linked`: what has come of the classes that have been linked so far; `Linked.linkParent`: one more
  of them;
* `linked_buildHierarchy`: all classes.
-/

namespace CppDoc.Registry

/-! ## Before linking -/

/-- No class is linked and no parent is reported.  A class that declares a parent has a place, and
the name of the parent is left with something without its template arguments. -/
structure Unlinked (reg : Registry) : Prop where
  built : reg.hierarchyBuilt = false
  alone : ∀ c ∈ reg.classes, c.parent = none ∧ c.children = []
  placed : ∀ c ∈ reg.classes, c.parentName ≠ "" →
    c.origin.isSome = true ∧ baseName c.parentName ≠ ""
  unreported : ∀ d ∈ reg.diagnostics, d.problem.isUnknownParent = false

/-- The classes after one of them has been changed. -/
theorem mem_editClass {reg : Registry} {id : ClassId} {f : Class → Class} {c : Class}
    (h : c ∈ (reg.editClass id f).classes) :
    c ∈ reg.classes ∨ reg.HasClass id ∧ c = f (reg.getClass id) := by
  obtain ⟨i, hi⟩ := List.getElem?_of_mem h
  obtain ⟨b, hb, rfl⟩ := getElem?_modify_eq_some hi
  split
  · rename_i hid
    rw [← hid] at hb
    have hclass : reg.HasClass id := hasClass_of_getElem? hb
    obtain rfl := Option.some.inj (hb.symm.trans (getElem?_getClass hclass))
    exact .inr ⟨hclass, rfl⟩
  · exact .inl (List.mem_of_getElem? hb)

/-- A class that is changed, but not linked. -/
theorem unlinked_editClass {reg : Registry} (h : reg.Unlinked) (id : ClassId) {f : Class → Class}
    (hlinks : ∀ c, (f c).parent = c.parent ∧ (f c).children = c.children)
    (hplaced : reg.HasClass id → (f (reg.getClass id)).parentName ≠ "" →
      (f (reg.getClass id)).origin.isSome = true ∧
        baseName (f (reg.getClass id)).parentName ≠ "") : (reg.editClass id f).Unlinked where
  built := h.built
  alone := by
    intro c hc
    rcases mem_editClass hc with hc | ⟨hclass, rfl⟩
    · exact h.alone c hc
    · rw [(hlinks _).1, (hlinks _).2]
      exact h.alone _ (List.mem_of_getElem? (getElem?_getClass hclass))
  placed := by
    intro c hc hname
    rcases mem_editClass hc with hc | ⟨hclass, rfl⟩
    · exact h.placed c hc hname
    · exact hplaced hclass hname
  unreported := h.unreported

/-- **A step.**  An entry links no class. -/
theorem Entry.unlinked {reg reg' : Registry} (h : Entry reg reg') (hreg : reg.Unlinked) :
    reg'.Unlinked := by
  have hkept (id : ClassId) (hclass : reg.HasClass id) :=
    hreg.placed _ (List.mem_of_getElem? (getElem?_getClass hclass))
  cases h with
  | report _ hread =>
      refine ⟨hreg.built, hreg.alone, hreg.placed, fun d hd => ?_⟩
      rcases List.mem_append.mp hd with hd | hd
      · exact hreg.unreported d hd
      · obtain rfl := List.mem_singleton.mp hd
        exact hread
  | @addPlaceholder name _ =>
      refine ⟨hreg.built, fun c hc => ?_, fun c hc hname => ?_, hreg.unreported⟩
      · rcases List.mem_append.mp hc with hc | hc
        · exact hreg.alone c hc
        · obtain rfl := List.mem_singleton.mp hc
          exact ⟨rfl, rfl⟩
      · rcases List.mem_append.mp hc with hc | hc
        · exact hreg.placed c hc hname
        · obtain rfl := List.mem_singleton.mp hc
          exact absurd rfl hname
  | setParentName hplaced hname =>
      exact unlinked_editClass hreg _ (fun _ => ⟨rfl, rfl⟩) fun _ hne => ⟨hplaced, hname hne⟩
  | setOrigin _ _ =>
      exact unlinked_editClass hreg _ (fun _ => ⟨rfl, rfl⟩) fun hclass hne =>
        ⟨rfl, (hkept _ hclass hne).2⟩
  | @addMember f _ _ _ _ =>
      have hadded : Unlinked { reg with functions := reg.functions ++ [f] } :=
        ⟨hreg.built, hreg.alone, hreg.placed, hreg.unreported⟩
      exact unlinked_editClass hadded f.owner (fun _ => ⟨rfl, rfl⟩) (hkept f.owner)
  | @attachDoc block _ _ =>
      have hadded : Unlinked { reg with docs := reg.docs ++ [block] } :=
        ⟨hreg.built, hreg.alone, hreg.placed, hreg.unreported⟩
      unfold Registry.attachDoc
      cases block.subject with
      | function f => exact ⟨hreg.built, hreg.alone, hreg.placed, hreg.unreported⟩
      | classPage c => exact unlinked_editClass hadded c (fun _ => ⟨rfl, rfl⟩) (hkept c)
      | chapter ch => exact ⟨hreg.built, hreg.alone, hreg.placed, hreg.unreported⟩
  | _ => exact ⟨hreg.built, hreg.alone, hreg.placed, hreg.unreported⟩

/-- **A run.**  Reading files links no class. -/
theorem Entries.unlinked {reg reg' : Registry} (h : Entries reg reg') (hreg : reg.Unlinked) :
    reg'.Unlinked := by
  induction h with
  | refl => exact hreg
  | tail _ last ih => exact last.unlinked ih

/-! ## What linking does -/

/-- The class that the declared parent of a class names, if there is one. -/
def namedParent? (reg : Registry) (id : ClassId) : Option ClassId :=
  if (baseName (reg.getClass id).parentName).isEmpty then none
  else reg.findClass? (baseName (reg.getClass id).parentName)

/-- The report that a class declares a parent that is not there. -/
def orphanReport? (reg : Registry) (id : ClassId) : Option Diagnostic :=
  if (baseName (reg.getClass id).parentName).isEmpty || (reg.namedParent? id).isSome then none
  else (reg.getClass id).origin.map fun site =>
    ⟨site, .unknownParent (reg.getClass id).name (reg.getClass id).parentName⟩

end CppDoc.Registry

namespace CppDoc

/-- A class without its links. -/
def Class.unlinked (c : Class) : Class :=
  { c with parent := none, children := [] }

namespace Registry

/-- Where a child is put among the children of a class. -/
def insertChild (name : ClassId → String) (child : ClassId) (children : List ClassId) :
    List ClassId :=
  children.takeWhile (fun other => !(name child < name other)) ++
    child :: children.dropWhile (fun other => !(name child < name other))

section Insert

variable {name : ClassId → String} {child : ClassId} {children : List ClassId}

theorem count_insertChild (id : ClassId) :
    (insertChild name child children).count id =
      children.count id + if id = child then 1 else 0 := by
  have hsplit := List.takeWhile_append_dropWhile
    (p := fun other => !(name child < name other)) (l := children)
  have hcount : children.count id =
      (children.takeWhile (fun other => !(name child < name other))).count id +
        (children.dropWhile (fun other => !(name child < name other))).count id := by
    rw [← List.count_append, hsplit]
  rw [insertChild, List.count_append, List.count_cons, hcount]
  by_cases hid : id = child
  · subst hid
    simp only [beq_self_eq_true, if_true]
    omega
  · have hne : (child == id) = false := beq_false_of_ne fun h => hid h.symm
    simp [hne, hid]

theorem mem_insertChild {id : ClassId} :
    id ∈ insertChild name child children ↔ id ∈ children ∨ id = child := by
  have hcount := @count_insertChild name child children id
  rw [← List.count_pos_iff, hcount, ← List.count_pos_iff]
  split <;> simp [*]

/-- A child with a new name is put where the order of the names is kept. -/
theorem sorted_insertChild (hnew : ∀ other ∈ children, name other ≠ name child)
    (hsorted : children.Pairwise fun a b => name a < name b) :
    (insertChild name child children).Pairwise fun a b => name a < name b := by
  induction children with
  | nil => exact List.pairwise_singleton _ _
  | cons first rest ih =>
      obtain ⟨hfirst, hrest⟩ := List.pairwise_cons.mp hsorted
      by_cases hlt : name child < name first
      · have hstop : ¬ (!decide (name child < name first)) = true := by
          rw [decide_eq_true hlt]
          exact Bool.false_ne_true
        have hfront : insertChild name child (first :: rest) = child :: first :: rest := by
          rw [insertChild, List.takeWhile_cons, List.dropWhile_cons, if_neg hstop, if_neg hstop]
          rfl
        rw [hfront]
        refine List.pairwise_cons.mpr ⟨fun other hother => ?_, hsorted⟩
        rcases List.mem_cons.mp hother with rfl | hother
        · exact hlt
        · exact String.lt_trans hlt (hfirst other hother)
      · have hpass : (!decide (name child < name first)) = true := by
          rw [decide_eq_false hlt]
          rfl
        have hbehind : insertChild name child (first :: rest) =
            first :: insertChild name child rest := by
          rw [insertChild, List.takeWhile_cons, List.dropWhile_cons, if_pos hpass, if_pos hpass]
          rfl
        have hless : name first < name child :=
          Std.lt_of_le_of_ne (String.not_lt.mp hlt) (hnew first List.mem_cons_self)
        rw [hbehind]
        refine List.pairwise_cons.mpr ⟨fun other hother => ?_, ?_⟩
        · rcases mem_insertChild.mp hother with hother | rfl
          · exact hfirst other hother
          · exact hless
        · exact ih (fun other hother => hnew other (List.mem_cons_of_mem first hother)) hrest

end Insert

/-! ## One class -/

variable {reg now : Registry} {id p : ClassId}

/-- A class that is found is one of the classes. -/
theorem hasClass_namedParent (h : reg.namedParent? id = some p) : reg.HasClass p := by
  unfold namedParent? at h
  split at h
  · exact nomatch h
  · exact hasClass_of_findClass? h

/-- Only a class can name a parent. -/
theorem hasClass_of_namedParent (h : reg.namedParent? id = some p) : reg.HasClass id := by
  refine Classical.byContradiction fun habsent => ?_
  have hempty : (baseName (default : Class).parentName).isEmpty = true := by decide
  rw [namedParent?, getClass_absent habsent, if_pos hempty] at h
  exact nomatch h

/-- What is read of each class when one of them has been changed. -/
theorem getClass_editClass_eq (hid : now.HasClass id) (f : Class → Class) (k : ClassId) :
    (now.editClass id f).getClass k = if k = id then f (now.getClass k) else now.getClass k := by
  split
  · rename_i hk
    rw [hk, getClass_editClass hid]
  · rename_i hk
    exact getClass_editClass_ne hk f

/-- What is read of each class when one more child has been linked to its parent. -/
theorem getClass_link (hid : now.HasClass id) (hp : now.HasClass p)
    (hnew : id ∉ (now.getClass p).children) (k : ClassId) :
    ((now.editClass id fun c => { c with parent := some p }).addChild p id).getClass k =
      { now.getClass k with
        parent := if k = id then some p else (now.getClass k).parent
        children :=
          if k = p then insertChild (fun c => (now.getClass c).name) id (now.getClass p).children
          else (now.getClass k).children } := by
  have hset (k : ClassId) :
      (now.editClass id fun c => { c with parent := some p }).getClass k =
        { now.getClass k with
          parent := if k = id then some p else (now.getClass k).parent } := by
    rw [getClass_editClass_eq hid]
    split <;> rfl
  have hp' : (now.editClass id fun c => { c with parent := some p }).HasClass p := by
    simpa [HasClass, editClass] using hp
  rw [addChild, getClass_editClass_eq hp']
  simp only [hset]
  by_cases hk : k = p
  · subst hk
    rw [if_pos rfl, if_pos rfl, if_neg (by simpa using hnew)]
    rfl
  · rw [if_neg hk, if_neg hk]

/-- The classes `seen` have been linked, and the others have not. -/
structure Linked (reg : Registry) (seen : List ClassId) (now : Registry) : Prop where
  built : now.hierarchyBuilt = true
  classes : now.classes.map Class.unlinked = reg.classes.map Class.unlinked
  parent : ∀ id, (now.getClass id).parent = if id ∈ seen then reg.namedParent? id else none
  children : ∀ p id, (now.getClass p).children.count id =
    if id ∈ seen ∧ reg.namedParent? id = some p then 1 else 0
  sorted : ∀ p, (now.getClass p).children.Pairwise fun a b =>
    (reg.getClass a).name < (reg.getClass b).name
  diagnostics : now.diagnostics = reg.diagnostics ++ seen.filterMap reg.orphanReport?

section Linked

variable {seen : List ClassId}

/-- What linking does not touch is read as before. -/
theorem getClass_of_classes (h : now.classes.map Class.unlinked = reg.classes.map Class.unlinked)
    (id : ClassId) :
    (now.getClass id).name = (reg.getClass id).name ∧
      (now.getClass id).origin = (reg.getClass id).origin ∧
      (now.getClass id).parentName = (reg.getClass id).parentName := by
  have hread : (now.getClass id).unlinked = (reg.getClass id).unlinked := by
    have hat := congrArg (fun l => l.getD id.index (Class.unlinked default)) h
    simp only [List.getD_eq_getElem?_getD, List.getElem?_map, Option.getD_map] at hat
    exact hat
  exact ⟨(congrArg Class.name hread :), (congrArg Class.origin hread :),
    (congrArg Class.parentName hread :)⟩

theorem hasClass_of_classes
    (h : now.classes.map Class.unlinked = reg.classes.map Class.unlinked)
    (id : ClassId) : now.HasClass id ↔ reg.HasClass id := by
  have hlength := congrArg List.length h
  simp only [List.length_map] at hlength
  rw [HasClass, HasClass, hlength]

/-- Classes are found by their names, which stay. -/
theorem findClass?_of_classes
    (h : now.classes.map Class.unlinked = reg.classes.map Class.unlinked) (name : String) :
    now.findClass? name = reg.findClass? name := by
  have hread := congrArg (fun l => l.findIdx? (·.name == name)) h
  simp only [List.findIdx?_map] at hread
  exact congrArg (Option.map ClassId.mk) hread

/-- A child names its parent. -/
theorem Linked.named (h : Linked reg seen now) {child : ClassId}
    (hchild : child ∈ (now.getClass p).children) : reg.namedParent? child = some p := by
  have hlisted : 0 < (now.getClass p).children.count child := List.count_pos_iff.mpr hchild
  rw [h.children] at hlisted
  by_cases hseen : child ∈ seen ∧ reg.namedParent? child = some p
  · exact hseen.2
  · rw [if_neg hseen] at hlisted
    omega

/-- A class with no parent to be linked to leaves the classes as they are. -/
theorem Linked.keep {now' : Registry} (h : Linked reg seen now) (hnone : reg.namedParent? id = none)
    (hbuilt : now'.hierarchyBuilt = now.hierarchyBuilt) (hclasses : now'.classes = now.classes)
    (hdiagnostics : now'.diagnostics = now.diagnostics ++ (reg.orphanReport? id).toList) :
    Linked reg (seen ++ [id]) now' := by
  have hread (k : ClassId) : now'.getClass k = now.getClass k := by
    rw [getClass, getClass, hclasses]
  refine ⟨hbuilt.trans h.built, hclasses ▸ h.classes, fun k => ?_, fun p k => ?_, fun p => ?_, ?_⟩
  · rw [hread, h.parent]
    by_cases hk : k = id
    · rw [hk, hnone, ite_self, ite_self]
    · simp [hk]
  · rw [hread, h.children]
    by_cases hk : k = id
    · rw [hk, hnone]
      simp
    · simp [hk]
  · rw [hread]
    exact h.sorted p
  · have hone : [id].filterMap reg.orphanReport? = (reg.orphanReport? id).toList := by
      cases horphan : reg.orphanReport? id <;> simp [horphan]
    rw [hdiagnostics, h.diagnostics, List.filterMap_append, List.append_assoc, hone]

/-- A class is linked to the parent that it names. -/
theorem Linked.link (hreg : reg.WellFormed) (h : Linked reg seen now) (hid : reg.HasClass id)
    (hnew : id ∉ seen) (hparent : reg.namedParent? id = some p) :
    Linked reg (seen ++ [id])
      ((now.editClass id fun c => { c with parent := some p }).addChild p id) := by
  have hchildless (k : ClassId) : (now.getClass k).children.count id = 0 := by
    rw [h.children, if_neg fun hseen => hnew hseen.1]
  have hread := getClass_link ((hasClass_of_classes h.classes id).mpr hid)
    ((hasClass_of_classes h.classes p).mpr (hasClass_namedParent hparent))
    (List.count_eq_zero.mp (hchildless p))
  have hname (k : ClassId) : (now.getClass k).name = (reg.getClass k).name :=
    (getClass_of_classes h.classes k).1
  refine ⟨h.built, ?_, fun k => ?_, fun k child => ?_, fun k => ?_, ?_⟩
  · rw [addChild, editClass, map_modify_eq, editClass, map_modify_eq]
    · exact h.classes
    · exact fun _ => rfl
    · intro c
      split <;> rfl
  · rw [hread]
    by_cases hk : k = id
    · simp [hk, hparent]
    · simp [hk, h.parent]
  · have hnow := h.children k child
    rw [hread]
    by_cases hk : k = p
    · subst hk
      rw [if_pos rfl, count_insertChild, hnow]
      by_cases hchild : child = id
      · subst hchild
        simp [hnew, hparent]
      · simp [hchild]
    · rw [if_neg hk, hnow]
      have hother : reg.namedParent? id ≠ some k := by
        rw [hparent]
        exact fun heq => hk (Option.some.inj heq).symm
      by_cases hchild : child = id
      · subst hchild
        simp [hnew, hother]
      · simp [hchild]
  · rw [hread]
    by_cases hk : k = p
    · subst hk
      rw [if_pos rfl]
      simp only [hname]
      apply sorted_insertChild _ (h.sorted k)
      intro other hother hsame
      have hclass : reg.HasClass other := hasClass_of_namedParent (h.named hother)
      obtain rfl := eq_of_name hreg hclass hid hsame
      exact List.count_eq_zero.mp (hchildless k) hother
    · rw [if_neg hk]
      exact h.sorted k
  · have hunreported : reg.orphanReport? id = none := by simp [orphanReport?, hparent]
    rw [List.filterMap_append, List.filterMap_cons_none hunreported, List.filterMap_nil,
      List.append_nil]
    exact h.diagnostics

/-- **A step.**  One more class is linked. -/
theorem Linked.linkParent (hreg : reg.WellFormed) (hplaced : reg.Unlinked)
    (h : Linked reg seen now) (hid : reg.HasClass id) (hnew : id ∉ seen) :
    Linked reg (seen ++ [id]) (now.linkParent id) := by
  obtain ⟨hname, horigin, hparentName⟩ := getClass_of_classes h.classes id
  rw [Registry.linkParent]
  simp only [hparentName, findClass?_of_classes h.classes]
  by_cases hbase : (baseName (reg.getClass id).parentName).isEmpty
  · rw [if_pos hbase]
    refine h.keep ?_ rfl rfl ?_
    · rw [namedParent?, if_pos hbase]
    · simp [orphanReport?, hbase]
  · rw [if_neg hbase]
    cases hfind : reg.findClass? (baseName (reg.getClass id).parentName) with
    | some p =>
        apply h.link hreg hid hnew
        rw [namedParent?, if_neg hbase, hfind]
    | none =>
        have hnone : reg.namedParent? id = none := by rw [namedParent?, if_neg hbase, hfind]
        have hdeclared : (reg.getClass id).parentName ≠ "" := by
          intro hempty
          rw [hempty] at hbase
          exact hbase (by decide)
        have hmem := List.mem_of_getElem? (getElem?_getClass hid)
        obtain ⟨site, hsite⟩ := Option.isSome_iff_exists.mp (hplaced.placed _ hmem hdeclared).1
        have horphan : reg.orphanReport? id =
            some ⟨site, .unknownParent (reg.getClass id).name (reg.getClass id).parentName⟩ := by
          simp [orphanReport?, hbase, hnone, hsite]
        simp only [horigin, hsite, hname, reportAt]
        exact h.keep hnone rfl rfl (by rw [horphan]; rfl)

/-- **A run.**  One class after the other is linked. -/
theorem Linked.foldl (hreg : reg.WellFormed) (hplaced : reg.Unlinked) {ids : List ClassId}
    (h : Linked reg seen now) (hids : ∀ id ∈ ids, reg.HasClass id) (hnew : (seen ++ ids).Nodup) :
    Linked reg (seen ++ ids) (ids.foldl Registry.linkParent now) := by
  induction ids generalizing seen now with
  | nil =>
      rw [List.append_nil, List.foldl_nil]
      exact h
  | cons id rest ih =>
      have hunseen : id ∉ seen := fun hseen =>
        (List.nodup_append.mp hnew).2.2 id hseen id List.mem_cons_self rfl
      have hstep := h.linkParent hreg hplaced (hids id List.mem_cons_self) hunseen
      rw [List.append_cons seen id rest] at hnew ⊢
      rw [List.foldl_cons]
      exact ih hstep (fun other hother => hids other (List.mem_cons_of_mem id hother)) hnew

end Linked

theorem mem_classIds : id ∈ reg.classIds ↔ reg.HasClass id := by
  simp only [classIds, List.mem_map, List.mem_range]
  refine ⟨?_, fun hid => ⟨id.index, hid, rfl⟩⟩
  rintro ⟨n, hn, rfl⟩
  exact hn

theorem nodup_classIds : reg.classIds.Nodup := by
  refine List.pairwise_map.mpr (List.nodup_range.imp ?_)
  intro m n hne hsame
  exact hne (congrArg ClassId.index hsame)

/-- Once the hierarchy has been built, it stays. -/
theorem Edits.built {later : Registry} (h : Edits reg later) (hbuilt : reg.hierarchyBuilt = true) :
    later.hierarchyBuilt = true := by
  induction h with
  | refl => exact hbuilt
  | tail _ last ih =>
      cases last with
      | @attachDoc block _ _ =>
          unfold Registry.attachDoc
          cases block.subject <;> exact ih
      | markBuilt => rfl
      | _ => exact ih

end Registry

end CppDoc
