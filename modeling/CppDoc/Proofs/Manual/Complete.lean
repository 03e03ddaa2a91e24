import CppDoc.Proofs.Manual.Sweep
import CppDoc.Proofs.Reading.Project

/-!
# Which documentation a manual holds

If nothing is reported in a whole run, the manual holds every block of documentation that a reader
would look for in it, and holds it once.  What is left out without a report are internal blocks,
blocks that a later comment on the same subject has replaced, and blocks on classes whose body is in
no header.

* `sweepable_of_wellFormed`: the sweep starts from what has been scanned;
* `drafted`: the blocks of a manual, in their order; `isKept`: whether a block should be among them;
* `count_drafted`: each block that is kept is drafted once, and the others are not;
* `run_drafts`: the manual of a project, block by block.
-/

namespace CppDoc.Manual

open CppDoc.Registry

/-! ## The sweep of a scanned project -/

section WellFormed

variable {reg : Registry} (hreg : reg.WellFormed)

include hreg

/-- A class that lists a function owns it. -/
theorem owner_of_member {k : ClassId} {c : Class} {f : FunctionId}
    (hc : reg.classes[k.index]? = some c) (hf : f ∈ c.members) :
    c.members.count f = 1 ∧ k = (reg.function f).owner := by
  have hfunction := (hreg.classes k c hc).members f hf
  have hcount := (hreg.functions f _ (getElem?_function hfunction)).filed k c hc
  have hpos := List.count_pos_iff.mpr hf
  split at hcount
  · rename_i howner
    exact ⟨hcount, howner⟩
  · omega

/-- No function is listed twice. -/
theorem nodup_members_of_wellFormed : (reg.classes.flatMap Class.members).Nodup := by
  refine List.pairwise_flatMap.mpr ⟨fun c hc => ?_, ?_⟩
  · obtain ⟨i, hi⟩ := List.getElem?_of_mem hc
    refine List.nodup_iff_count.mpr fun f => ?_
    by_cases hf : f ∈ c.members
    · exact Nat.le_of_eq (owner_of_member hreg (k := ⟨i⟩) hi hf).1
    · rw [List.count_eq_zero_of_not_mem hf]
      exact Nat.zero_le 1
  · refine List.pairwise_iff_getElem.mpr fun i j hi hj hlt f hf g hg hsame => ?_
    subst hsame
    have hfirst := (owner_of_member hreg (k := ⟨i⟩) (List.getElem?_eq_getElem hi) hf).2
    have hsecond := (owner_of_member hreg (k := ⟨j⟩) (List.getElem?_eq_getElem hj) hg).2
    have hindex : i = j := congrArg ClassId.index (hfirst.trans hsecond.symm)
    omega

/-- Every function is listed by its owner. -/
theorem mem_members_owner {f : FunctionId} (hf : reg.HasFunction f) :
    reg.HasClass (reg.function f).owner ∧ f ∈ (reg.getClass (reg.function f).owner).members := by
  have hfits := hreg.functions f _ (getElem?_function hf)
  obtain ⟨c, hc, _⟩ := hfits.owner
  have hclass := hasClass_of_getElem? hc
  refine ⟨hclass, List.count_pos_iff.mp ?_⟩
  rw [hfits.filed _ _ (getElem?_getClass hclass), if_pos rfl]
  exact Nat.one_pos

theorem sweepable_of_wellFormed (hundone : reg.Undone) : Sweepable reg where
  partition := by
    refine (List.perm_ext_iff_of_nodup (nodup_members_of_wellFormed hreg)
      (nodup_functionIds _)).mpr fun f => ?_
    have hfunction : f ∈ (List.range reg.functions.length).map FunctionId.mk ↔
        reg.HasFunction f := by
      refine ⟨fun h => ?_, fun h => List.mem_map.mpr ⟨f.index, List.mem_range.mpr h, rfl⟩⟩
      obtain ⟨n, hn, rfl⟩ := List.mem_map.mp h
      exact List.mem_range.mp hn
    rw [hfunction, List.mem_flatMap]
    refine ⟨fun ⟨c, hc, hf⟩ => ?_, fun hf => ?_⟩
    · obtain ⟨i, hi⟩ := List.getElem?_of_mem hc
      exact (hreg.classes ⟨i⟩ c hi).members f hf
    · obtain ⟨hclass, hmem⟩ := mem_members_owner hreg hf
      exact ⟨_, List.mem_of_getElem? (getElem?_getClass hclass), hmem⟩
  docs := by
    intro s d h
    have hsubject := hasSubject_of_docOf h
    cases s with
    | function f => exact (hreg.functions f _ (getElem?_function hsubject)).doc d h
    | classPage c => exact (hreg.classes c _ (getElem?_getClass hsubject)).doc d h
    | chapter ch => exact (hreg.chapters ch _ (getElem?_chapter hsubject)).doc d h
  fresh := hundone

end WellFormed

/-! ## The blocks of a manual -/

/-- The blocks that are drafted, in their order. -/
def drafted (reg : Registry) : List DocId :=
  ((visited reg).flatMap (sections reg)).filterMap reg.docOf

/-- Should the block be in the manual?  It is not internal, it is what its subject is documented by
in the end, and if that is a class, the body of the class has been found. -/
def isKept (reg : Registry) (d : DocId) : Bool :=
  !(reg.doc d).isInternal && reg.docOf (reg.doc d).subject == some d &&
    match (reg.doc d).subject with
    | .classPage c => (reg.getClass c).origin.isSome
    | _ => true

variable {reg : Registry}

/-- Sections consist of blocks. -/
theorem flatMap_sectionDraft (l : List Subject) :
    l.flatMap (sectionDraft reg) =
      (l.filterMap reg.docOf).flatMap fun d => (Markup.interpret reg d).2 := by
  induction l with
  | nil => rfl
  | cons s rest ih =>
      rw [List.flatMap_cons, ih, List.filterMap_cons]
      cases h : reg.docOf s <;> simp [sectionDraft, h]

theorem hasSection_of_mem {x s : Subject} (h : x ∈ sections reg s) : hasSection reg x = true := by
  have hown {y : Subject} (hy : x ∈ ownSection reg y) : hasSection reg x = true := by
    obtain rfl := mem_ownSection hy
    unfold ownSection at hy
    split at hy
    · assumption
    · exact nomatch hy
  cases s with
  | function f => exact hown h
  | chapter ch => exact hown h
  | classPage c =>
      simp only [sections] at h
      split at h
      · rcases List.mem_append.mp h with h | h
        · split at h
          · exact hown h
          · exact nomatch h
        · obtain ⟨m, _, h⟩ := List.mem_flatMap.mp h
          exact hown h
      · exact nomatch h

/-- Only a class whose body has been found has a section of its own. -/
theorem origin_of_mem_sections {c : ClassId} {s : Subject} (h : .classPage c ∈ sections reg s) :
    (reg.getClass c).origin.isSome = true := by
  obtain hs | ⟨_, _, _, hx, _⟩ := mem_sections h
  · subst hs
    simp only [sections] at h
    split at h
    · rcases List.mem_append.mp h with h | h
      · split at h
        · assumption
        · cases h
      · obtain ⟨m, _, h⟩ := List.mem_flatMap.mp h
        cases mem_ownSection h
    · cases h
  · cases hx

/-- What has a section is documented by a block that is not internal. -/
theorem docOf_of_hasSection {s : Subject} (h : hasSection reg s = true) :
    ∃ d, reg.docOf s = some d ∧ (reg.doc d).isInternal = false := by
  unfold hasSection at h
  cases hd : reg.docOf s with
  | none => simp [hd] at h
  | some d => exact ⟨d, rfl, by simpa [hd] using h⟩

/-- The headlines of the sections are those of their blocks. -/
theorem map_headline (hback : PointsBack reg) {l : List Subject}
    (h : ∀ s ∈ l, hasSection reg s = true) :
    l.map reg.headline =
      (l.filterMap reg.docOf).map fun d => reg.headline (reg.doc d).subject := by
  induction l with
  | nil => rfl
  | cons s rest ih =>
      obtain ⟨d, hd, _⟩ := docOf_of_hasSection (h s List.mem_cons_self)
      rw [List.map_cons, ih fun t ht => h t (List.mem_cons_of_mem s ht), List.filterMap_cons, hd,
        List.map_cons, hback s d hd]

/-- A class that has members is documented, unless that has been reported. -/
theorem documented_of_member {c : ClassId} {f : FunctionId} (hf : f ∈ (reg.getClass c).members)
    (hquiet : lacking reg (.classPage c) = []) : (reg.getClass c).doc.isSome = true := by
  cases hdoc : (reg.getClass c).doc with
  | some d => rfl
  | none =>
      simp only [lacking, hdoc, Option.isSome_none, Bool.false_eq_true, if_false, reportSite,
        List.map_eq_nil_iff] at hquiet
      cases horigin : (reg.getClass c).origin with
      | some site => simp [horigin] at hquiet
      | none =>
          obtain ⟨m, rest, hmembers⟩ := List.exists_cons_of_ne_nil (List.ne_nil_of_mem hf)
          simp [horigin, hmembers] at hquiet

/-- If nothing is reported in the end, nothing that is visited lacks documentation. -/
theorem lacking_of_quiet (hreg : Sweepable reg) (hquiet : (events reg).1.diagnostics = []) :
    ∀ s ∈ visited reg, lacking reg s = [] := by
  obtain ⟨_, _, hswept⟩ := swept_draft hreg
  have hnone : (draft reg).1.diagnostics = [] := hquiet
  have hcomplaints : (draft reg).1.complaints = [] := by simp [complaints, hnone]
  rw [hswept.complaints, List.append_eq_nil_iff] at hcomplaints
  exact List.flatMap_eq_nil_iff.mp hcomplaints.2

theorem chapter_mem_itinerary {ch : ChapterId} (h : reg.HasChapter ch) :
    .chapter ch ∈ itinerary reg := by
  refine List.mem_append_left _ (List.mem_flatMap.mpr ⟨ch, ?_, List.mem_cons_self⟩)
  exact List.mem_map.mpr ⟨ch.index, List.mem_range.mpr h, rfl⟩

section Quiet

variable (hreg : reg.WellFormed) (hundone : reg.Undone)
  (hquiet : ∀ s ∈ visited reg, lacking reg s = [])

include hreg hquiet

/-- **One section.**  What has a section has it in the manual; a class only if its body has been
found. -/
theorem mem_visited_sections {s : Subject} (hsection : hasSection reg s = true)
    (horigin : ∀ c, s = .classPage c → (reg.getClass c).origin.isSome = true) :
    s ∈ (visited reg).flatMap (sections reg) := by
  have hvisited {t : Subject} (ht : t ∈ itinerary reg) (hs : s ∈ sections reg t) :
      s ∈ (visited reg).flatMap (sections reg) :=
    List.mem_flatMap.mpr ⟨t, List.mem_eraseDups.mpr ht, hs⟩
  obtain ⟨d, hd, _⟩ := docOf_of_hasSection hsection
  have hthere := hasSubject_of_docOf hd
  cases s with
  | function f =>
      obtain ⟨hclass, hmember⟩ := mem_members_owner hreg hthere
      have hpage := classPage_mem_itinerary hclass
      have hdoc := documented_of_member hmember (hquiet _ (List.mem_eraseDups.mpr hpage))
      refine hvisited hpage ?_
      simp only [sections, hdoc, if_true]
      refine List.mem_append_right _ (List.mem_flatMap.mpr ⟨f, hmember, ?_⟩)
      simp [ownSection, hsection]
  | classPage c =>
      have hdoc : (reg.getClass c).doc = some d := hd
      refine hvisited (classPage_mem_itinerary hthere) ?_
      simp [sections, hdoc, horigin c rfl, ownSection, hsection]
  | chapter ch =>
      refine hvisited (chapter_mem_itinerary hthere) ?_
      simp [sections, ownSection, hsection]

include hundone

/-- **One block.**  It is drafted if it should be, and otherwise it is not. -/
theorem mem_drafted (d : DocId) : d ∈ drafted reg ↔ isKept reg d = true := by
  have hback := (sweepable_of_wellFormed hreg hundone).pointsBack
  refine ⟨fun h => ?_, fun h => ?_⟩
  · obtain ⟨s, hs, hd⟩ := List.mem_filterMap.mp h
    obtain ⟨t, _, hs⟩ := List.mem_flatMap.mp hs
    obtain ⟨e, he, hinternal⟩ := docOf_of_hasSection (hasSection_of_mem hs)
    obtain rfl := Option.some.inj (he.symm.trans hd)
    have hsubject := hback s e he
    simp only [isKept, hsubject, hinternal, he, beq_self_eq_true, Bool.not_false, Bool.true_and]
    split
    · exact origin_of_mem_sections hs
    · rfl
  · simp only [isKept, Bool.and_eq_true, Bool.not_eq_true', beq_iff_eq] at h
    obtain ⟨⟨hinternal, hd⟩, horigin⟩ := h
    have hsection : hasSection reg (reg.doc d).subject = true := by simp [hasSection, hd, hinternal]
    have hclass : ∀ c, (reg.doc d).subject = .classPage c →
        (reg.getClass c).origin.isSome = true := by
      intro c hc
      rwa [hc] at horigin
    exact List.mem_filterMap.mpr
      ⟨_, mem_visited_sections hreg hquiet hsection hclass, hd⟩

/-- **All blocks.**  Each of those that should be in the manual is drafted once. -/
theorem count_drafted (d : DocId) :
    (drafted reg).count d = if isKept reg d then 1 else 0 := by
  have hsweep := sweepable_of_wellFormed hreg hundone
  have hnodup : (drafted reg).Nodup := by
    refine List.pairwise_filterMap.mpr ((nodup_visited_sections hsweep).imp ?_)
    intro s t hne d hd e he hsame
    subst hsame
    exact hne ((hsweep.pointsBack s d hd).symm.trans (hsweep.pointsBack t d he))
  have hmem := mem_drafted hreg hundone hquiet d
  rw [hnodup.count]
  simp only [hmem]

end Quiet

/-! ## Whole runs -/

/-- **Documentation is not lost silently.**  If a run reports nothing, its manual consists of blocks
that have been attached, in some order; each block that should be in the manual is drafted once, so
that its headline is there, and no other block is drafted. -/
theorem run_drafts {p : Project} {t : FileTree} {final : Registry} {events : List Event}
    (hrun : p.run t = .ok (final, events)) (hquiet : final.diagnostics = []) :
    ∃ reg, p.scan t = .ok reg ∧ final.docs = reg.docs ∧
      events = (Spacing.closed.settle
        ((drafted reg).flatMap (fun d => (Markup.interpret reg d).2) ++ [.close])).2 ∧
      Event.headlines events = (drafted reg).map (fun d => reg.headline (reg.doc d).subject) ∧
      ∀ d, reg.HasDoc d → (drafted reg).count d = if isKept reg d then 1 else 0 := by
  obtain ⟨reg, hscan, rfl, rfl⟩ := Project.run_eq hrun
  have hreg := Project.wellFormed_scan hscan
  have hundone := Project.undone_scan hscan
  have hsweep := sweepable_of_wellFormed hreg hundone
  obtain ⟨drafts, hdraft, hswept⟩ := swept_draft hsweep
  have hsaid : drafts = (drafted reg).flatMap fun d => (Markup.interpret reg d).2 :=
    hswept.said.trans (flatMap_sectionDraft _)
  have hevents : (Manual.events reg).2 = (Spacing.closed.settle (drafts ++ [.close])).2 := by
    rw [← hdraft]
    rfl
  have hlacking := lacking_of_quiet hsweep hquiet
  refine ⟨reg, hscan, ?_, ?_, ?_, fun d _ => count_drafted hreg hundone hlacking d⟩
  · have hdocs : (draft reg).1.material.docs = reg.material.docs :=
      congrArg Registry.docs hswept.material
    exact hdocs
  · rw [hevents, hsaid]
  · rw [headlines_events hsweep, map_headline hsweep.pointsBack fun x hx => ?_]
    · rfl
    · obtain ⟨s, _, hx⟩ := List.mem_flatMap.mp hx
      exact hasSection_of_mem hx

/-- A project in which a class and its member are documented. -/
def fooTree : FileTree :=
  Project.smallTree "class Foo \x7b\n  void bar();\n\x7d;\n"
    ("#include \"foo.h\"\n/*! \\class Foo foo.h\n  A foo.\n*/\n" ++
      "/*! \\fn void Foo::bar()\n  Bars.\n*/\n")

/-- Nothing is reported of it. -/
theorem run_foo : ∃ final events, Project.small.run fooTree = .ok (final, events) ∧
    final.diagnostics = [] := by
  have hquiet : (Project.small.run fooTree).toOption.map (fun result => result.1.diagnostics) =
      some [] := by
    rw [fooTree, Project.run_small]
    decide +kernel
  obtain ⟨⟨final, events⟩, hrun, hnone⟩ := Project.exists_of_toOption_map hquiet
  exact ⟨final, events, hrun, hnone⟩

theorem run_drafts_foo :
    ∃ final events reg, Project.small.run fooTree = .ok (final, events) ∧ final.diagnostics = [] ∧
      Project.small.scan fooTree = .ok reg ∧
      Event.headlines events = (drafted reg).map (fun d => reg.headline (reg.doc d).subject) ∧
      ∀ d, reg.HasDoc d → (drafted reg).count d = if isKept reg d then 1 else 0 := by
  obtain ⟨final, events, hrun, hquiet⟩ := run_foo
  obtain ⟨reg, hscan, _, _, hheadlines, hdrafted⟩ := run_drafts hrun hquiet
  exact ⟨final, events, reg, hrun, hquiet, hscan, hheadlines, hdrafted⟩

/-- **Exceptions.**  The first of two comments on a function is left out, and so is a comment on a
class whose body is not in the header that it names; nothing is reported. -/
theorem documentation_left_out :
    ((Project.small.run (Project.smallTree "class Foo \x7b\n  void bar();\n\x7d;\n"
        ("#include \"foo.h\"\n/*! \\class Foo foo.h\n  A foo.\n*/\n" ++
          "/*! \\fn void Foo::bar()\n  First.\n*/\n/*! \\fn void Foo::bar()\n  Second.\n*/\n"))).toOption.map
      fun (final, events) =>
        (final.diagnostics, final.docs.map (·.text), Event.headlines events,
          events.contains (.content (.text "First.")))) =
      some ([], ["A foo.\n", "First.\n", "Second.\n"],
        [.classPage "Foo", .function ⟨"Foo::bar", "Foo"⟩], false) ∧
    ((Project.small.run (Project.smallTree "\n"
        ("#include \"foo.h\"\n/*! \\fn void Foo::bar()\n  Bars.\n*/\n" ++
          "/*! \\class Foo foo.h\n  A foo.\n*/\n"))).toOption.map
      fun (final, events) => (final.diagnostics, final.docs.map (·.text), Event.headlines events)) =
      some ([], ["Bars.\n", "A foo.\n"], [.function ⟨"Foo::bar", "Foo"⟩]) := by
  rw [Project.run_small, Project.run_small]
  constructor <;> decide +kernel

end CppDoc.Manual
