import CppDoc.Proofs.Manual.Sections

/-!
# The manual as a sweep

Drafting the manual of a project is a sweep over its chapters and classes.  The order in which it
reaches them can be read off the registry before it begins: `itinerary` is each chapter followed by
the classes that its own text introduces, and then all classes.  A class that is reached again is
passed over, so that the manual consists of the sections of what is reached, each at its first
reaching.

* `Sweepable`: what a registry has to satisfy for that;
* `Swept`: what has come of the stops made so far;
* `Swept.draftClass` and `Swept.draftPage`: one more stop; `swept_draft`: the whole itinerary;
* `events_sweep`: the manual of a project, stop by stop.
-/

namespace CppDoc.Manual

open CppDoc.Registry

/-! ## The itinerary -/

/-- The page of a chapter, without the classes that it introduces. -/
def chapterPage (reg : Registry) (ch : ChapterId) : Registry × List Draft :=
  match (reg.chapter ch).doc with
  | some doc => Markup.interpret reg doc
  | none => (reg, [])

/-- The classes that a chapter introduces once its own text has been read. -/
def introduced (reg : Registry) (ch : ChapterId) : List ClassId :=
  ((chapterPage reg ch).1.chapter ch).classes

/-- A chapter and the classes that it introduces. -/
def route (reg : Registry) (ch : ChapterId) : List Subject :=
  .chapter ch :: (introduced reg ch).map .classPage

/-- The chapters and classes in the order in which the sweep reaches them, again and again. -/
def itinerary (reg : Registry) : List Subject :=
  reg.chapterIds.flatMap (route reg) ++ reg.classIds.map .classPage

/-- The chapters and classes in the order in which the sweep reaches them first. -/
def visited (reg : Registry) : List Subject :=
  (itinerary reg).eraseDups

/-- Each function is a member of one class, documentation is about what points at it, and no class
has been drafted. -/
structure Sweepable (reg : Registry) : Prop where
  partition : (reg.classes.flatMap Class.members).Perm
    ((List.range reg.functions.length).map FunctionId.mk)
  docs : ∀ (s : Subject) (d : DocId), reg.docOf s = some d → reg.IsAbout d s
  fresh : ∀ c ∈ reg.classes, c.done = false

theorem Sweepable.pointsBack {reg : Registry} (h : Sweepable reg) : PointsBack reg := by
  intro s d hd
  obtain ⟨block, hblock, hsubject⟩ := h.docs s d hd
  rw [Registry.doc, List.getD_eq_getElem?_getD, hblock]
  exact hsubject

/-! ## What there is to a section -/

section Sections

variable {reg : Registry} {x s : Subject}

theorem mem_ownSection (h : x ∈ ownSection reg s) : x = s := by
  unfold ownSection at h
  split at h
  · exact List.mem_singleton.mp h
  · exact nomatch h

/-- The sections of a class are about the class itself and its members. -/
theorem mem_sections (h : x ∈ sections reg s) :
    x = s ∨ ∃ c f, s = .classPage c ∧ x = .function f ∧ f ∈ (reg.getClass c).members := by
  cases s with
  | function f => exact .inl (mem_ownSection h)
  | chapter ch => exact .inl (mem_ownSection h)
  | classPage c =>
      simp only [sections] at h
      split at h
      · rcases List.mem_append.mp h with h | h
        · split at h
          · exact .inl (mem_ownSection h)
          · cases h
        · obtain ⟨f, hf, hx⟩ := List.mem_flatMap.mp h
          exact .inr ⟨c, f, rfl, mem_ownSection hx, hf⟩
      · cases h

theorem chapter_not_mem_sections (ch : ChapterId) (c : ClassId) :
    .chapter ch ∉ sections reg (.classPage c) := by
  intro h
  obtain h | ⟨_, _, _, h, _⟩ := mem_sections h
  all_goals exact nomatch h

/-- Where there is no class, nothing is drafted. -/
theorem sections_absent {c : ClassId} (h : ¬reg.HasClass c) :
    sections reg (.classPage c) = [] ∧ lacking reg (.classPage c) = [] := by
  have hdoc : (reg.getClass c).doc = none := by rw [getClass_absent h]; rfl
  have hsite : reportSite reg (reg.getClass c) = none := by rw [getClass_absent h]; rfl
  simp [sections, lacking, hdoc, hsite]

end Sections

/-! ## One more stop -/

/-- After the stops `stops`, the sweep of `reg` has led to the registry `now` and to `drafts`. -/
structure Swept (reg : Registry) (stops : List Subject) (now : Registry) (drafts : List Draft) :
    Prop where
  material : now.material = reg.material
  done : ∀ c, (now.getClass c).done = true ↔ reg.HasClass c ∧ .classPage c ∈ stops
  ahead : ∀ ch, .chapter ch ∉ stops → now.chapter ch = reg.chapter ch
  behind : ∀ ch, .chapter ch ∈ stops → (now.chapter ch).classes = introduced reg ch
  said : drafts = (stops.eraseDups.flatMap (sections reg)).flatMap (sectionDraft reg)
  headlines : Draft.headlines drafts = (stops.eraseDups.flatMap (sections reg)).map reg.headline
  complaints : now.complaints = reg.complaints ++ stops.eraseDups.flatMap (lacking reg)

variable {reg now : Registry} {stops : List Subject} {drafts : List Draft}

theorem swept_nil (h : Sweepable reg) : Swept reg [] reg [] where
  material := rfl
  done := by
    intro c
    refine ⟨fun hdone => ?_, fun hstop => absurd hstop.2 List.not_mem_nil⟩
    by_cases hc : reg.HasClass c
    · have hfresh := h.fresh _ (List.mem_of_getElem? (getElem?_getClass hc))
      exact absurd hdone (by simp [hfresh])
    · rw [getClass_absent hc] at hdone
      exact nomatch hdone
  ahead := fun _ _ => rfl
  behind := fun _ h => absurd h List.not_mem_nil
  said := rfl
  headlines := rfl
  complaints := by simp

/-- What one more stop adds, if it is a new one or adds nothing. -/
theorem flatMap_stops {β : Type} (f : Subject → List β) {s : Subject} (h : s ∉ stops ∨ f s = []) :
    (stops ++ [s]).eraseDups.flatMap f = stops.eraseDups.flatMap f ++ f s := by
  by_cases hs : s ∈ stops
  · have hnone : f s = [] := h.resolve_left fun hnew => hnew hs
    rw [eraseDups_concat_of_mem hs, hnone, List.append_nil]
  · rw [eraseDups_concat_of_not_mem hs, List.flatMap_append, List.flatMap_singleton]

/-- A class that has been drafted adds nothing. -/
theorem Swept.again (h : Swept reg stops now drafts) {c : ClassId} (hc : .classPage c ∈ stops) :
    Swept reg (stops ++ [.classPage c]) now drafts where
  material := h.material
  done := by
    intro e
    rw [h.done e, List.mem_append, List.mem_singleton]
    refine and_congr_right fun _ => ⟨.inl, fun he => ?_⟩
    rcases he with he | he
    · exact he
    · exact he ▸ hc
  ahead := fun ch hch => h.ahead ch fun hmem => hch (List.mem_append_left _ hmem)
  behind := by
    intro ch hch
    rcases List.mem_append.mp hch with hch | hch
    · exact h.behind ch hch
    · exact nomatch List.mem_singleton.mp hch
  said := by rw [eraseDups_concat_of_mem hc, ← h.said]
  headlines := by rw [eraseDups_concat_of_mem hc, h.headlines]
  complaints := by rw [eraseDups_concat_of_mem hc, h.complaints]

/-- The classes that are marked once one more of them is. -/
theorem done_marked (reg : Registry) (c e : ClassId) :
    ((marked reg c).getClass e).done = true ↔
      (reg.getClass e).done = true ∨ reg.HasClass e ∧ e = c := by
  by_cases he : e = c
  · subst he
    by_cases hclass : reg.HasClass e
    · simp [marked, editClass, Registry.getClass, List.getD_eq_getElem?_getD,
        List.getElem?_eq_getElem hclass, hclass]
    · have habsent : ¬(marked reg e).HasClass e := by
        simpa [HasClass, marked, editClass] using hclass
      simp [getClass_absent hclass, getClass_absent habsent, hclass]
  · have hindex : c.index ≠ e.index := fun h => he (congrArg ClassId.mk h.symm)
    simp [marked, editClass, Registry.getClass, hindex, he]

/-- **A class.**  It is drafted where it is reached first, and passed over after that. -/
theorem Swept.draftClass (hreg : Sweepable reg) (h : Swept reg stops now drafts) (c : ClassId) :
    Swept reg (stops ++ [.classPage c]) (draftClass now c).1 (drafts ++ (draftClass now c).2) := by
  cases hdone : (now.getClass c).done with
  | true =>
      rw [draftClass_of_done hdone, List.append_nil]
      exact h.again ((h.done c).mp hdone).2
  | false =>
      have hsaid := says_draftClass hreg.pointsBack hdone h.material
      have hnew : .classPage c ∉ stops ∨
          sections reg (.classPage c) = [] ∧ lacking reg (.classPage c) = [] := by
        by_cases hclass : reg.HasClass c
        · refine .inl fun hmem => ?_
          rw [(h.done c).mpr ⟨hclass, hmem⟩] at hdone
          cases hdone
        · exact .inr (sections_absent hclass)
      have hchapter (ch : ChapterId) : (Manual.draftClass now c).1.chapter ch = now.chapter ch :=
        hsaid.chapters ch (chapter_not_mem_sections ch c)
      refine ⟨hsaid.material, fun e => ?_, fun ch hch => ?_, fun ch hch => ?_, ?_, ?_, ?_⟩
      · have hclasses : (Manual.draftClass now c).1.getClass e = (marked now c).getClass e := by
          rw [Registry.getClass, hsaid.classes, Registry.getClass]
        have hclass : now.HasClass e ↔ reg.HasClass e := hasClass_congr h.material e
        rw [hclasses, done_marked, h.done e, hclass, List.mem_append, List.mem_singleton,
          Subject.classPage.injEq]
        exact and_or_left.symm
      · rw [hchapter]
        exact h.ahead ch fun hmem => hch (List.mem_append_left _ hmem)
      · rw [hchapter]
        rcases List.mem_append.mp hch with hch | hch
        · exact h.behind ch hch
        · cases List.mem_singleton.mp hch
      · rw [flatMap_stops (sections reg) (hnew.imp_right And.left), List.flatMap_append, ← h.said,
          hsaid.drafts]
      · rw [Draft.headlines_append, h.headlines, hsaid.headlines,
          flatMap_stops (sections reg) (hnew.imp_right And.left), List.map_append]
      · have hmarked : (marked now c).complaints = now.complaints := rfl
        rw [hsaid.complaints, hmarked, h.complaints,
          flatMap_stops (lacking reg) (hnew.imp_right And.right), List.append_assoc]

theorem says_chapterPage (hreg : Sweepable reg) (hnow : now.material = reg.material)
    {ch : ChapterId} (hchapter : now.chapter ch = reg.chapter ch) :
    Says reg now (sections reg (.chapter ch)) (lacking reg (.chapter ch)) (chapterPage now ch) := by
  unfold chapterPage
  rw [hchapter]
  cases hpointer : (reg.chapter ch).doc with
  | some d =>
      refine says_interpret hreg.pointsBack hpointer hnow fun own hown => ?_
      obtain rfl := Subject.chapter.inj hown
      exact hchapter
  | none =>
      have hsection : sections reg (.chapter ch) = [] := by
        simp [sections, ownSection, hasSection, docOf, hpointer]
      rw [hsection]
      exact says_nothing hnow

/-- What a chapter introduces does not depend on what has been drafted before it. -/
theorem introduced_congr (hreg : Sweepable reg) (hnow : now.material = reg.material)
    {ch : ChapterId} (hchapter : now.chapter ch = reg.chapter ch) :
    introduced now ch = introduced reg ch := by
  unfold introduced chapterPage
  rw [hchapter]
  cases hpointer : (reg.chapter ch).doc with
  | none => exact congrArg Chapter.classes hchapter
  | some d =>
      have hsubject : (now.doc d).subject = .chapter ch := by
        rw [eq_of_material (·.doc d) (doc_material · d) hnow]
        exact hreg.pointsBack (.chapter ch) d hpointer
      have hown : ∀ own, (now.doc d).subject = .chapter own →
          now.chapter own = reg.chapter own := by
        intro own hsame
        obtain rfl := Subject.chapter.inj (hsubject.symm.trans hsame)
        exact hchapter
      have hafter := (Markup.interpret_congr hnow hown).2 ch hsubject
      exact congrArg Chapter.classes hafter

/-- **A chapter.**  Its own page is drafted, and then it introduces classes. -/
theorem Swept.draftPage (hreg : Sweepable reg) (h : Swept reg stops now drafts) {ch : ChapterId}
    (hnew : .chapter ch ∉ stops) :
    Swept reg (stops ++ [.chapter ch]) (chapterPage now ch).1
      (drafts ++ (chapterPage now ch).2) := by
  have hsaid := says_chapterPage hreg h.material (h.ahead ch hnew)
  have hother {own : ChapterId} (hne : own ≠ ch) :
      (chapterPage now ch).1.chapter own = now.chapter own := by
    refine hsaid.chapters own fun hmem => hne ?_
    exact Subject.chapter.inj (mem_ownSection hmem)
  refine ⟨hsaid.material, fun c => ?_, fun own hown => ?_, fun own hown => ?_, ?_, ?_, ?_⟩
  · have hclass : (chapterPage now ch).1.getClass c = now.getClass c := by
      rw [Registry.getClass, hsaid.classes, Registry.getClass]
    rw [hclass, h.done c]
    simp
  · rw [List.mem_append, List.mem_singleton, not_or] at hown
    have hne : own ≠ ch := fun hsame => hown.2 (congrArg Subject.chapter hsame)
    rw [hother hne]
    exact h.ahead own hown.1
  · by_cases hsame : own = ch
    · subst hsame
      exact introduced_congr hreg h.material (h.ahead own hnew)
    · rw [hother hsame]
      rcases List.mem_append.mp hown with hown | hown
      · exact h.behind own hown
      · exact absurd (Subject.chapter.inj (List.mem_singleton.mp hown)) hsame
  · rw [flatMap_stops _ (.inl hnew), List.flatMap_append, ← h.said, hsaid.drafts]
  · rw [Draft.headlines_append, h.headlines, hsaid.headlines, flatMap_stops _ (.inl hnew),
      List.map_append]
  · rw [hsaid.complaints, h.complaints, flatMap_stops _ (.inl hnew), List.append_assoc]

/-! ## The whole itinerary -/

/-- **One thing after another.**  If each of them makes its own stops after those before it, all of
them make their stops one after the other. -/
theorem Swept.each {α : Type} (draftOne : Registry → α → Registry × List Draft)
    (path : α → List Subject) {l : List α} (h : Swept reg stops now drafts)
    (hstep : ∀ before a after, l = before ++ a :: after → ∀ now drafts,
      Swept reg (stops ++ before.flatMap path) now drafts →
        Swept reg (stops ++ before.flatMap path ++ path a) (draftOne now a).1
          (drafts ++ (draftOne now a).2)) :
    Swept reg (stops ++ l.flatMap path) (draftEach draftOne now l).1
      (drafts ++ (draftEach draftOne now l).2) := by
  induction l generalizing stops now drafts with
  | nil => simpa [draftEach] using h
  | cons a rest ih =>
      have hfirst : Swept reg (stops ++ path a) (draftOne now a).1
          (drafts ++ (draftOne now a).2) := by
        simpa using hstep [] a rest rfl now drafts (by simpa using h)
      have hrest := ih hfirst fun before b after hl now drafts hbefore => by
        have hnext := hstep (a :: before) b after (by rw [hl]; rfl) now drafts
        simp only [List.flatMap_cons, ← List.append_assoc] at hnext
        exact hnext hbefore
      simpa [draftEach, List.append_assoc] using hrest

/-- Classes that are drafted one after another. -/
theorem Swept.draftClasses (hreg : Sweepable reg) (h : Swept reg stops now drafts)
    (l : List ClassId) :
    Swept reg (stops ++ l.map .classPage) (draftEach Manual.draftClass now l).1
      (drafts ++ (draftEach Manual.draftClass now l).2) := by
  rw [List.map_eq_flatMap]
  exact h.each Manual.draftClass (fun c => [.classPage c])
    fun _ c _ _ _ _ hbefore => hbefore.draftClass hreg c

theorem Swept.draftChapter (hreg : Sweepable reg) (h : Swept reg stops now drafts) {ch : ChapterId}
    (hnew : .chapter ch ∉ stops) :
    Swept reg (stops ++ route reg ch) (Manual.draftChapter now ch).1
      (drafts ++ (Manual.draftChapter now ch).2) := by
  have hpage := h.draftPage hreg hnew
  have hbehind : ((chapterPage now ch).1.chapter ch).classes = introduced reg ch :=
    hpage.behind ch (List.mem_append_right _ (List.mem_singleton_self _))
  have hclasses := hpage.draftClasses hreg (introduced reg ch)
  have hdraft : Manual.draftChapter now ch =
      ((draftEach Manual.draftClass (chapterPage now ch).1 (introduced reg ch)).1,
        (chapterPage now ch).2 ++
          (draftEach Manual.draftClass (chapterPage now ch).1 (introduced reg ch)).2) := by
    rw [← hbehind]
    rfl
  rw [hdraft, route, ← List.append_assoc]
  simpa using hclasses

/-- A chapter is not on the way of the chapters before it. -/
theorem chapter_not_mem_routes {before : List ChapterId} {ch : ChapterId} (h : ch ∉ before) :
    .chapter ch ∉ before.flatMap (route reg) := by
  intro hmem
  obtain ⟨own, hown, hmem⟩ := List.mem_flatMap.mp hmem
  rcases List.mem_cons.mp hmem with hsame | hclass
  · exact h (Subject.chapter.inj hsame ▸ hown)
  · obtain ⟨_, _, hclass⟩ := List.mem_map.mp hclass
    exact nomatch hclass

theorem nodup_chapterIds (reg : Registry) : reg.chapterIds.Nodup :=
  List.Pairwise.map ChapterId.mk (fun _ _ hne h => hne (ChapterId.mk.inj h)) List.nodup_range

/-- **The whole itinerary.**  The end of the manual is closed. -/
theorem swept_draft (hreg : Sweepable reg) :
    ∃ drafts, (draft reg).2 = drafts ++ [.close] ∧
      Swept reg (itinerary reg) (draft reg).1 drafts := by
  have hchapters : Swept reg (reg.chapterIds.flatMap (route reg))
      (draftEach Manual.draftChapter reg reg.chapterIds).1
      (draftEach Manual.draftChapter reg reg.chapterIds).2 := by
    refine (swept_nil hreg).each Manual.draftChapter (route reg) ?_
    intro before ch after hl now drafts hbefore
    have hnodup : (before ++ ch :: after).Nodup := hl ▸ nodup_chapterIds reg
    have hnew : ch ∉ before := fun hmem =>
      (List.nodup_append.mp hnodup).2.2 ch hmem ch List.mem_cons_self rfl
    exact hbefore.draftChapter hreg (chapter_not_mem_routes hnew)
  have hids : (draftEach Manual.draftChapter reg reg.chapterIds).1.classIds = reg.classIds :=
    eq_of_material (·.classIds) classIds_material hchapters.material
  have hclasses := hchapters.draftClasses hreg reg.classIds
  rw [← hids] at hclasses
  refine ⟨_, rfl, ?_⟩
  rw [itinerary, ← hids]
  exact hclasses

/-! ## Each once -/

/-- Functions are not on the itinerary; they are drafted with their classes. -/
theorem function_not_mem_itinerary (f : FunctionId) : .function f ∉ itinerary reg := by
  intro h
  rcases List.mem_append.mp h with h | h
  · obtain ⟨ch, _, h⟩ := List.mem_flatMap.mp h
    rcases List.mem_cons.mp h with h | h
    · exact nomatch h
    · obtain ⟨_, _, h⟩ := List.mem_map.mp h
      exact nomatch h
  · obtain ⟨_, _, h⟩ := List.mem_map.mp h
    exact nomatch h

theorem classPage_mem_itinerary {c : ClassId} (h : reg.HasClass c) :
    .classPage c ∈ itinerary reg := by
  refine List.mem_append_right _ (List.mem_map.mpr ⟨c, ?_, rfl⟩)
  exact List.mem_map.mpr ⟨c.index, List.mem_range.mpr h, rfl⟩

theorem nodup_functionIds (n : Nat) : ((List.range n).map FunctionId.mk).Nodup :=
  List.Pairwise.map FunctionId.mk (fun _ _ hne h => hne (FunctionId.mk.inj h)) List.nodup_range

section Partition

variable (hreg : Sweepable reg)

include hreg

theorem nodup_flatMap_members : (reg.classes.flatMap Class.members).Nodup :=
  hreg.partition.nodup_iff.mpr (nodup_functionIds _)

theorem nodup_members (c : ClassId) : (reg.getClass c).members.Nodup := by
  by_cases hc : reg.HasClass c
  · have hmem := List.mem_of_getElem? (getElem?_getClass hc)
    exact (List.pairwise_flatMap.mp (nodup_flatMap_members hreg)).1 _ hmem
  · rw [getClass_absent hc]
    exact List.nodup_nil

/-- A function is a member of one class. -/
theorem class_of_member {c e : ClassId} {f : FunctionId} (hc : f ∈ (reg.getClass c).members)
    (he : f ∈ (reg.getClass e).members) : c = e := by
  have hin {k : ClassId} (hk : f ∈ (reg.getClass k).members) : k.index < reg.classes.length :=
    hasClass_of_member hk
  have hget {k : ClassId} (hk : k.index < reg.classes.length) :
      reg.getClass k = reg.classes[k.index] := by
    simp [Registry.getClass, hk]
  have hapart := (List.pairwise_flatMap.mp (nodup_flatMap_members hreg)).2
  have hbefore {k l : ClassId} (hk : f ∈ (reg.getClass k).members)
      (hl : f ∈ (reg.getClass l).members) : ¬k.index < l.index := by
    intro hlt
    have hpair := List.pairwise_iff_getElem.mp hapart k.index l.index (hin hk) (hin hl) hlt
    rw [hget (hin hk)] at hk
    rw [hget (hin hl)] at hl
    exact hpair f hk f hl rfl
  have hindex : c.index = e.index := by
    have := hbefore hc he
    have := hbefore he hc
    omega
  exact congrArg ClassId.mk hindex

omit hreg in
/-- A subject has one section at most. -/
theorem nodup_ownSection (reg : Registry) (s : Subject) : (ownSection reg s).Nodup := by
  unfold ownSection
  split <;> simp

theorem nodup_sections (s : Subject) : (sections reg s).Nodup := by
  cases s with
  | function f => exact nodup_ownSection reg _
  | chapter ch => exact nodup_ownSection reg _
  | classPage c =>
      simp only [sections]
      split
      · have hmembers :
            ((reg.getClass c).members.flatMap fun m => ownSection reg (.function m)).Nodup := by
          refine List.pairwise_flatMap.mpr ⟨fun m _ => nodup_ownSection reg _, ?_⟩
          refine (nodup_members hreg c).imp fun hne x hx y hy hsame => hne ?_
          rw [mem_ownSection hx, mem_ownSection hy] at hsame
          exact Subject.function.inj hsame
        refine List.nodup_append.mpr ⟨?_, hmembers, fun x hx y hy hsame => ?_⟩
        · split
          · exact nodup_ownSection reg _
          · exact List.nodup_nil
        · obtain ⟨m, _, hy⟩ := List.mem_flatMap.mp hy
          rw [mem_ownSection hy] at hsame
          split at hx
          · rw [mem_ownSection hx] at hsame
            cases hsame
          · cases hx
      · exact List.nodup_nil

/-- No section is drafted twice. -/
theorem nodup_visited_sections : ((visited reg).flatMap (sections reg)).Nodup := by
  refine List.pairwise_flatMap.mpr ⟨fun s _ => nodup_sections hreg s, ?_⟩
  refine List.Pairwise.imp_of_mem ?_ (nodup_eraseDups (itinerary reg))
  intro s t hs ht hne x hx y hy hsame
  subst hsame
  have hs' (f : FunctionId) : s ≠ .function f := fun h =>
    function_not_mem_itinerary f (h ▸ List.mem_eraseDups.mp hs)
  have ht' (f : FunctionId) : t ≠ .function f := fun h =>
    function_not_mem_itinerary f (h ▸ List.mem_eraseDups.mp ht)
  rcases mem_sections hx with hxs | ⟨c, f, hs, hxf, hc⟩
  · rcases mem_sections hy with hxt | ⟨_, f, _, hxf, _⟩
    · exact hne (hxs.symm.trans hxt)
    · exact hs' f (hxs.symm.trans hxf)
  · rcases mem_sections hy with hxt | ⟨e, g, ht, hxg, he⟩
    · exact ht' f (hxt.symm.trans hxf)
    · obtain rfl := Subject.function.inj (hxf.symm.trans hxg)
      exact hne (by rw [hs, ht, class_of_member hreg hc he])

end Partition

/-! ## The manual -/

/-- Settling the draft leaves its headlines as they are. -/
theorem headlines_events (hreg : Sweepable reg) :
    Event.headlines (events reg).2 = ((visited reg).flatMap (sections reg)).map reg.headline := by
  obtain ⟨drafts, hdraft, hswept⟩ := swept_draft hreg
  have hevents : (events reg).2 = (Spacing.closed.settle (draft reg).2).2 := rfl
  rw [hevents, Spacing.headlines_settle, hdraft, Draft.headlines_append, hswept.headlines]
  exact List.append_nil _

/-- A class with one member, and a chapter that introduces the class. -/
def guide : Registry :=
  { empty with
    files := [⟨"foo.cpp", .source, "#include \"foo.h\"\n"⟩, ⟨"foo.h", .header, "class Foo \x7b\n"⟩]
    classes := [{ Class.placeholder "Foo" with
      origin := some ⟨⟨1⟩, 1⟩, members := [⟨0⟩], doc := some ⟨1⟩ }]
    functions := [{
      name := "Foo::bar", owner := ⟨0⟩, returnType := "void", parameters := "()", signature := "()",
      isConst := false, origin := ⟨⟨1⟩, 2⟩, doc := some ⟨2⟩, overload := false }]
    chapters := [{ name := "Guide", classes := [], doc := some ⟨0⟩ }]
    docs := [
      ⟨⟨⟨0⟩, 2⟩, 2, "\\introduces Foo\n", .chapter ⟨0⟩⟩,
      ⟨⟨⟨0⟩, 4⟩, 4, "A foo.\n", .classPage ⟨0⟩⟩,
      ⟨⟨⟨0⟩, 6⟩, 6, "Goes to the bar.\n", .function ⟨0⟩⟩] }

end CppDoc.Manual
