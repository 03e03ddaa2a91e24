import CppDoc.Proofs.Manual.Complete
import CppDoc.Proofs.Page.Html
import Mathlib.Data.List.Nodup

/-!
# Where the sections of a manual stand

The sections of a manual are those of the chapters and classes that the sweep reaches, and each of
them is a headline and what follows it up to the next one.  So a link stands in the section of the
last headline before it, and since the sections of a class follow each other, all of them stand on
one page.

* `home`: the class or chapter that a section comes with;
* `content_in_section`: the section that a link stands in;
* `place_of_home`: the sections of a class stand on one page.
-/

namespace CppDoc

/-- Where a headline stands in a stream. -/
theorem Event.split_headlines {events : List Event} {hs hs' : List Headline} {h : Headline}
    (hsplit : Event.headlines events = hs ++ h :: hs') :
    ∃ before after, events = before ++ .headline h :: after ∧ Event.headlines before = hs := by
  obtain ⟨first, rest, rfl, hfirst, hrest⟩ := List.filterMap_eq_append_iff.mp hsplit
  obtain ⟨between, e, after, rfl, hbetween, he, _⟩ := List.filterMap_eq_cons_iff.mp hrest
  have hevent : e = .headline h := by
    cases e with
    | headline h' => exact congrArg Event.headline (Option.some.inj he)
    | close => exact nomatch he
    | content c => exact nomatch he
  refine ⟨first ++ between, after, by rw [hevent, List.append_assoc], ?_⟩
  have hnone : Event.headlines between = [] := List.filterMap_eq_nil_iff.mpr hbetween
  rw [← hfirst, ← List.append_nil (List.filterMap _ first), ← hnone]
  exact List.filterMap_append

theorem Draft.landmarks_flatMap {α : Type} (f : α → List Draft) (l : List α) :
    Draft.landmarks (l.flatMap f) = l.flatMap fun a => Draft.landmarks (f a) := by
  simp only [Draft.landmarks, List.filterMap_flatMap, List.filter_flatMap]

namespace Manual

open CppDoc.Registry

/-! ## The sections in their order -/

/-- The sections of the manual, in their order. -/
def contents (reg : Registry) : List Subject :=
  (visited reg).flatMap (sections reg)

/-- The chapter or class that a section comes with. -/
def home (reg : Registry) : Subject → Subject
  | .function f => .classPage (reg.function f).owner
  | .classPage c => .classPage c
  | .chapter ch => .chapter ch

variable {reg : Registry}

theorem hasSection_of_mem_contents {s : Subject} (h : s ∈ contents reg) :
    hasSection reg s = true := by
  obtain ⟨_, _, hs⟩ := List.mem_flatMap.mp h
  exact hasSection_of_mem hs

theorem home_of_mem_class (hreg : reg.WellFormed) {s : Subject} {c : ClassId}
    (h : s ∈ sections reg (.classPage c)) : home reg s = .classPage c := by
  obtain rfl | ⟨e, f, he, rfl, hf⟩ := mem_sections h
  · rfl
  · obtain rfl := Subject.classPage.inj he
    have howner := (owner_of_member hreg (getElem?_getClass (hasClass_of_member hf)) hf).2
    exact congrArg Subject.classPage howner.symm

/-- A section of the manual is one of those of its home. -/
theorem mem_sections_home (hreg : reg.WellFormed) {s : Subject} (h : s ∈ contents reg) :
    home reg s ∈ visited reg ∧ s ∈ sections reg (home reg s) := by
  obtain ⟨t, ht, hs⟩ := List.mem_flatMap.mp h
  have hhome : home reg s = t := by
    cases t with
    | function f => exact absurd (List.mem_eraseDups.mp ht) (function_not_mem_itinerary f)
    | classPage c => exact home_of_mem_class hreg hs
    | chapter ch => obtain rfl := mem_ownSection hs; rfl
  rw [hhome]
  exact ⟨ht, hs⟩

/-- Behind the first section of a class there are only functions. -/
theorem function_of_mem_tail {c : ClassId} {first : Subject} {others : List Subject}
    (h : sections reg (.classPage c) = first :: others) : ∀ s ∈ others, ∃ f, s = .function f := by
  have hmember {s : Subject}
      (hs : s ∈ (reg.getClass c).members.flatMap fun m => ownSection reg (.function m)) :
      ∃ f, s = .function f := by
    obtain ⟨m, _, hs⟩ := List.mem_flatMap.mp hs
    exact ⟨m, mem_ownSection hs⟩
  intro s hs
  simp only [sections] at h
  split at h
  · rcases List.append_eq_cons_iff.mp h with ⟨_, hmembers⟩ | ⟨own, hown, hothers⟩
    · exact hmember (hmembers ▸ List.mem_cons_of_mem first hs)
    · have hnone : own = [] := by
        unfold ownSection at hown
        split at hown
        · split at hown
          · exact (List.cons.inj hown).2.symm
          · cases hown
        · cases hown
      rw [hnone, List.nil_append] at hothers
      exact hmember (hothers ▸ hs)
  · cases h

/-! ## What stands in a section -/

/-- A section is the headline of its subject and a body. -/
theorem sectionDraft_eq (hback : PointsBack reg) {s : Subject} (h : hasSection reg s = true) :
    ∃ body, sectionDraft reg s = .headline (reg.headline s) :: body ∧
      ∀ x ∈ body, Markup.Body reg x := by
  obtain ⟨d, hd, hinternal⟩ := docOf_of_hasSection h
  obtain ⟨body, hdraft, hbody⟩ := Markup.interpret_eq reg hinternal
  rw [hback s d hd] at hdraft
  refine ⟨body, ?_, hbody⟩
  unfold sectionDraft
  rw [hd]
  exact hdraft

theorem headlines_sectionDraft (hback : PointsBack reg) {s : Subject}
    (h : hasSection reg s = true) :
    Draft.headlines (sectionDraft reg s) = [reg.headline s] := by
  obtain ⟨body, hdraft, hbody⟩ := sectionDraft_eq hback h
  have hnone := Markup.headlines_of_body hbody
  rw [hdraft]
  exact congrArg (reg.headline s :: ·) hnone

/-- The headlines and links of the manual are those of its sections. -/
theorem landmarks_events (hreg : Sweepable reg) :
    (events reg).2.filter Event.isLandmark =
      (contents reg).flatMap fun s => Draft.landmarks (sectionDraft reg s) := by
  obtain ⟨drafts, hdraft, hswept⟩ := swept_draft hreg
  have hevents : (events reg).2 = (Spacing.closed.settle (draft reg).2).2 := rfl
  have hclose : Draft.landmarks [Draft.close] = [] := rfl
  rw [hevents, Spacing.landmarks_settle, hdraft, Draft.landmarks_append, hclose, List.append_nil,
    hswept.said, Draft.landmarks_flatMap]
  rfl

/-- **Links.**  A link stands in a section, which is that of the last headline before the link, and
leads to something that the registry speaks of. -/
theorem content_in_section (hreg : Sweepable reg) {before after : List Event} {c : Content}
    (hc : c.isReference = true) (hsplit : (events reg).2 = before ++ .content c :: after) :
    ∃ l₁ s l₂, contents reg = l₁ ++ s :: l₂ ∧
      Event.headlines before = (l₁ ++ [s]).map reg.headline ∧ Markup.Body reg (.content c) := by
  have hlandmarks := landmarks_events hreg
  have hlink : Event.isLandmark (.content c) = true := hc
  rw [hsplit, List.filter_append, List.filter_cons_of_pos hlink] at hlandmarks
  obtain ⟨l₁, s, l₂, b₁, b₂, hl, hs, hbefore⟩ := flatMap_eq_append_cons hlandmarks.symm
  have hsection {t : Subject} (ht : t ∈ l₁ ++ s :: l₂) : hasSection reg t = true :=
    hasSection_of_mem_contents (hl ▸ ht)
  have hheadlines {t : Subject} (ht : t ∈ l₁) :
      Event.headlines (Draft.landmarks (sectionDraft reg t)) = [reg.headline t] := by
    rw [Draft.headlines_landmarks]
    exact headlines_sectionDraft hreg.pointsBack (hsection (List.mem_append_left _ ht))
  obtain ⟨body, hdraft, hbody⟩ := sectionDraft_eq hreg.pointsBack
    (hsection (List.mem_append_right _ List.mem_cons_self))
  have hcons : Draft.landmarks (sectionDraft reg s) =
      .headline (reg.headline s) :: Draft.landmarks body := by
    rw [hdraft]
    rfl
  rw [hcons] at hs
  -- the link is not the headline, so it stands in the body
  rcases List.append_eq_cons_iff.mp hs.symm with ⟨_, hfirst⟩ | ⟨b, hb, hlinks⟩
  · cases (List.cons.inj hfirst).1
  have hmem : Event.content c ∈ Draft.landmarks body := by
    rw [hlinks]
    exact List.mem_append_right _ List.mem_cons_self
  have hnone : Event.headlines b = [] := by
    have hbodyNone : Event.headlines (Draft.landmarks body) = [] := by
      rw [Draft.headlines_landmarks]
      exact Markup.headlines_of_body hbody
    rw [hlinks] at hbodyNone
    exact (List.append_eq_nil_iff.mp (List.filterMap_append.symm.trans hbodyNone)).1
  refine ⟨l₁, s, l₂, hl, ?_, ?_⟩
  · have hmap : Event.headlines (l₁.flatMap fun t => Draft.landmarks (sectionDraft reg t)) =
        l₁.map reg.headline := by
      rw [Event.headlines, List.filterMap_flatMap, List.map_eq_flatMap]
      exact List.flatMap_congr fun t ht => hheadlines ht
    have hlast : Event.headlines (.headline (reg.headline s) :: b) = [reg.headline s] :=
      congrArg (reg.headline s :: ·) hnone
    rw [← Event.headlines_landmarks, hbefore, hb, List.map_append, ← hmap, List.map_singleton,
      ← hlast]
    exact List.filterMap_append
  · obtain ⟨x, hx, hevent⟩ := List.mem_filterMap.mp (List.mem_filter.mp hmem).1
    cases x with
    | space => cases hevent
    | event e =>
        obtain rfl := Option.some.inj hevent
        exact hbody _ hx

/-- Each section begins with its headline. -/
theorem section_in_events (hreg : Sweepable reg) {l₁ l₂ : List Subject} {s : Subject}
    (h : contents reg = l₁ ++ s :: l₂) :
    ∃ before after, (events reg).2 = before ++ .headline (reg.headline s) :: after ∧
      Event.headlines before = l₁.map reg.headline := by
  have hheadlines : Event.headlines (events reg).2 =
      l₁.map reg.headline ++ reg.headline s :: l₂.map reg.headline := by
    rw [headlines_events hreg, ← List.map_cons, ← List.map_append, ← h]
    rfl
  exact Event.split_headlines hheadlines

/-! ## On which page -/

/-- The page of a section is that of its class. -/
theorem page_of_home {s : Subject} {c : ClassId} (h : home reg s = .classPage c) :
    (reg.headline s).page = pageName (reg.getClass c).name := by
  cases s with
  | function f => obtain rfl := Subject.classPage.inj h; rfl
  | classPage e => obtain rfl := Subject.classPage.inj h; rfl
  | chapter ch => exact nomatch h

section Places

variable (hreg : reg.WellFormed) (hundone : reg.Undone)

include hreg hundone

/-- A section of a class stands where the first one of the class stands. -/
theorem place_in_class {c : ClassId} {s first : Subject} {v₁ v₂ l₁ l₂ others : List Subject}
    (hv : visited reg = v₁ ++ .classPage c :: v₂)
    (hsections : sections reg (.classPage c) = first :: others)
    (hs : contents reg = l₁ ++ s :: l₂) (hhome : home reg s = .classPage c) :
    Html.place ((l₁ ++ [s]).map reg.headline) =
      Html.place ((v₁.flatMap (sections reg) ++ [first]).map reg.headline) := by
  have hmem : s ∈ first :: others := by
    have hthere := (mem_sections_home hreg (hs ▸ List.mem_append_right l₁ List.mem_cons_self)).2
    rwa [hhome, hsections] at hthere
  obtain ⟨b₁, b₂, hb⟩ := List.append_of_mem hmem
  have hbefore : l₁ = v₁.flatMap (sections reg) ++ b₁ := by
    have hall : contents reg =
        (v₁.flatMap (sections reg) ++ b₁) ++ s :: (b₂ ++ v₂.flatMap (sections reg)) := by
      rw [contents, hv, List.flatMap_append, List.flatMap_cons, hsections, hb]
      simp only [List.append_assoc, List.cons_append]
    have hnodup : (contents reg).Nodup :=
      nodup_visited_sections (sweepable_of_wellFormed hreg hundone)
    rw [hall] at hnodup hs
    have hnew := (List.nodup_cons.mp (List.nodup_middle.mp hnodup)).1
    rw [List.mem_append, not_or] at hnew
    exact ((List.append_cons_inj_of_notMem hnew.1 hnew.2).mp hs).1.symm
  have hpage {t : Subject} (ht : t ∈ first :: others) :
      (reg.headline t).page = pageName (reg.getClass c).name :=
    page_of_home (home_of_mem_class hreg (hsections ▸ ht))
  rw [hbefore]
  cases b₁ with
  | nil =>
      obtain ⟨rfl, -⟩ := List.cons.inj hb
      rw [List.append_nil]
  | cons first' b₁ =>
      obtain ⟨rfl, hothers⟩ := List.cons.inj hb
      have hmore {t : Subject} (ht : t ∈ b₁ ++ [s]) : t ∈ others := by
        rw [hothers]
        rcases List.mem_append.mp ht with ht | ht
        · exact List.mem_append_left _ ht
        · exact List.mem_append_right _ (List.mem_singleton.mp ht ▸ List.mem_cons_self)
      have hsplit : v₁.flatMap (sections reg) ++ first :: b₁ ++ [s] =
          v₁.flatMap (sections reg) ++ [first] ++ (b₁ ++ [s]) := by simp
      have hfirst : (Html.place ((v₁.flatMap (sections reg) ++ [first]).map reg.headline)).2 =
          some (pageName (reg.getClass c).name) := by
        rw [List.map_append, ← hpage List.mem_cons_self]
        exact Html.place_concat_snd _ (reg.headline first)
      rw [hsplit, List.map_append]
      refine Html.place_functions hfirst fun h hh => ?_
      obtain ⟨t, ht, rfl⟩ := List.mem_map.mp hh
      obtain ⟨f, rfl⟩ := function_of_mem_tail hsections t (hmore ht)
      exact ⟨_, rfl, hpage (List.mem_cons_of_mem first (hmore ht))⟩

/-- **One page for each class.**  Its sections stand on the same page, wherever they begin. -/
theorem place_of_home {c : ClassId} {s t : Subject} {l₁ l₂ m₁ m₂ : List Subject}
    (hs : contents reg = l₁ ++ s :: l₂) (hsc : home reg s = .classPage c)
    (ht : contents reg = m₁ ++ t :: m₂) (htc : home reg t = .classPage c) :
    Html.place ((l₁ ++ [s]).map reg.headline) = Html.place ((m₁ ++ [t]).map reg.headline) := by
  obtain ⟨hvisited, hmem⟩ :=
    mem_sections_home hreg (hs ▸ List.mem_append_right l₁ (List.mem_cons_self (a := s)))
  rw [hsc] at hvisited hmem
  obtain ⟨v₁, v₂, hv⟩ := List.append_of_mem hvisited
  obtain ⟨first, others, hsections⟩ := List.exists_cons_of_ne_nil (List.ne_nil_of_mem hmem)
  rw [place_in_class hreg hundone hv hsections hs hsc,
    place_in_class hreg hundone hv hsections ht htc]

end Places

end Manual

end CppDoc
