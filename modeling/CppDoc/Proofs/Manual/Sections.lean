import CppDoc.Proofs.Manual.Alike
import CppDoc.Proofs.Manual.Settle

/-!
# The sections of a manual

A class has a section for itself and one for each of its members, a chapter has one of its own, and
what is not documented, or only internally, has none.  `sections` and `lacking` say this of a
registry at rest: which sections a class or a chapter has, and which reports of missing documentation
it causes.

Drafting changes the registry as it goes on.  `Says` relates a step of it to the registry at rest:
the step has drafted the headlines of certain sections, has made certain reports, and has left alone
what the later steps rely on.

* `says_interpret`, `says_draftMember` and `says_draftClass`: the steps;
* `says_draftEach`: one step after another.
-/

namespace CppDoc.Manual

open CppDoc.Registry

/-! ## The registry at rest -/

/-- Every block of documentation is about what points at it. -/
def PointsBack (reg : Registry) : Prop :=
  ∀ (s : Subject) (d : DocId), reg.docOf s = some d → (reg.doc d).subject = s

/-- Does the subject have a section: is it documented, and not only internally? -/
def hasSection (reg : Registry) (s : Subject) : Bool :=
  (reg.docOf s).any fun d => !(reg.doc d).isInternal

/-- What the section of a subject consists of: its block of documentation. -/
def sectionDraft (reg : Registry) (s : Subject) : List Draft :=
  match reg.docOf s with
  | some d => (Markup.interpret reg d).2
  | none => []

/-- The section of a subject, if it has one. -/
def ownSection (reg : Registry) (s : Subject) : List Subject :=
  if hasSection reg s then [s] else []

/-- The sections of a chapter, a class or a function.  Those of a class are drafted if it is
documented; a class whose body was not found has none for itself. -/
def sections (reg : Registry) : Subject → List Subject
  | .function f => ownSection reg (.function f)
  | .chapter ch => ownSection reg (.chapter ch)
  | .classPage c =>
    if (reg.getClass c).doc.isSome then
      (if (reg.getClass c).origin.isSome then ownSection reg (.classPage c) else []) ++
        (reg.getClass c).members.flatMap fun m => ownSection reg (.function m)
    else []

/-- The report that a function is not documented, unless it reimplements another one. -/
def lackingMember (reg : Registry) (f : FunctionId) : List Diagnostic :=
  if (reg.function f).doc.isNone && (reg.overridden f).isNone then
    [⟨(reg.function f).origin,
      .undocumentedFunction (reg.function f).name (reg.function f).parameters⟩]
  else []

/-- The reports of missing documentation that a chapter or a class causes.  A class without
documentation is reported if it has a place, and nothing is said of its members then. -/
def lacking (reg : Registry) : Subject → List Diagnostic
  | .function _ => []
  | .chapter _ => []
  | .classPage c =>
    if (reg.getClass c).doc.isSome then (reg.getClass c).members.flatMap (lackingMember reg)
    else
      (reportSite reg (reg.getClass c)).toList.map fun site =>
        ⟨site, .undocumentedClass (reg.getClass c).name⟩

section Material

variable (reg : Registry)

theorem hasClass_congr {reg reg' : Registry} (h : reg.material = reg'.material) (c : ClassId) :
    reg.HasClass c ↔ reg'.HasClass c := by
  have hlength := congrArg (fun reg : Registry => reg.classes.length) h
  simp only [Registry.material, List.length_map] at hlength
  rw [HasClass, HasClass, hlength]

theorem reportSite_material (c : Class) :
    reportSite reg.material c.material = reportSite reg c := by
  simp only [reportSite, Class.origin_material, Class.members_material, function_material,
    Function.origin_material]

end Material

/-! ## One step after another -/

/-- From the registry `now`, a step of drafting has led to `p`: it has drafted the sections of
`shown` and reported `lacks`.  What the steps rely on is still that of `reg`.  Classes are marked by
the steps themselves, and only a chapter that has been drafted may introduce classes. -/
structure Says (reg now : Registry) (shown : List Subject) (lacks : List Diagnostic)
    (p : Registry × List Draft) : Prop where
  material : p.1.material = reg.material
  classes : p.1.classes = now.classes
  chapters : ∀ ch, .chapter ch ∉ shown → p.1.chapter ch = now.chapter ch
  drafts : p.2 = shown.flatMap (sectionDraft reg)
  headlines : Draft.headlines p.2 = shown.map reg.headline
  complaints : p.1.complaints = now.complaints ++ lacks

variable {reg now : Registry}

theorem says_nothing (hnow : now.material = reg.material) : Says reg now [] [] (now, []) :=
  ⟨hnow, rfl, fun _ _ => rfl, rfl, rfl, (List.append_nil _).symm⟩

theorem Says.append {shown shown' : List Subject} {lacks lacks' : List Diagnostic}
    {p p' : Registry × List Draft} (h : Says reg now shown lacks p)
    (h' : Says reg p.1 shown' lacks' p') :
    Says reg now (shown ++ shown') (lacks ++ lacks') (p'.1, p.2 ++ p'.2) where
  material := h'.material
  classes := h'.classes.trans h.classes
  chapters := by
    intro ch hch
    rw [List.mem_append, not_or] at hch
    exact (h'.chapters ch hch.2).trans (h.chapters ch hch.1)
  drafts := by rw [h.drafts, h'.drafts, List.flatMap_append]
  headlines := by rw [Draft.headlines_append, h.headlines, h'.headlines, List.map_append]
  complaints := by rw [h'.complaints, h.complaints, List.append_assoc]

/-- **One thing after another.**  What each of them says, all of them say one after the other. -/
theorem says_draftEach {α : Type} {draftOne : Registry → α → Registry × List Draft}
    {shown : α → List Subject} {lacks : α → List Diagnostic} {l : List α}
    (h : ∀ now a, now.material = reg.material → Says reg now (shown a) (lacks a) (draftOne now a))
    (hnow : now.material = reg.material) :
    Says reg now (l.flatMap shown) (l.flatMap lacks) (draftEach draftOne now l) := by
  induction l generalizing now with
  | nil => exact says_nothing hnow
  | cons a rest ih =>
      have hfirst := h now a hnow
      exact hfirst.append (ih hfirst.material)

/-! ## The steps -/

/-- A block has the section of its subject.  The block of a chapter says what it says in the
registry at rest as long as the chapter has not introduced anything. -/
theorem says_interpret (h : PointsBack reg) {s : Subject} {d : DocId} (hdoc : reg.docOf s = some d)
    (hnow : now.material = reg.material)
    (hown : ∀ ch, s = .chapter ch → now.chapter ch = reg.chapter ch) :
    Says reg now (ownSection reg s) [] (Markup.interpret now d) := by
  have hblock : now.doc d = reg.doc d := eq_of_material (·.doc d) (doc_material · d) hnow
  have hsubject : (reg.doc d).subject = s := h s d hdoc
  have hheadline : now.headline s = reg.headline s :=
    eq_of_material (·.headline s) (headline_material · s) hnow
  have hsection : hasSection reg s = !(reg.doc d).isInternal := by simp [hasSection, hdoc]
  have hnotes := Markup.notes_interpret now d
  refine ⟨hnotes.material.trans hnow, hnotes.classes, fun ch hch => ?_, ?_, ?_, ?_⟩
  · cases hinternal : (reg.doc d).isInternal with
    | true => rw [Markup.interpret_internal now (by rw [hblock, hinternal])]
    | false =>
        apply hnotes.chapter
        rw [hblock, hsubject]
        intro hs
        apply hch
        rw [ownSection, hsection, hinternal, hs]
        exact List.mem_singleton_self _
  · rw [ownSection, hsection]
    cases hinternal : (reg.doc d).isInternal with
    | true => rw [Markup.interpret_internal now (by rw [hblock, hinternal])]; rfl
    | false =>
        have hsame := (Markup.interpret_congr hnow (by rwa [hblock, hsubject])).1
        simp [sectionDraft, hdoc, hsame]
  · rw [Markup.headlines_interpret, hblock, hsubject, hheadline, ownSection, hsection]
    cases (reg.doc d).isInternal <;> rfl
  · rw [hnotes.complaints, List.append_nil]

/-- A report that documentation is missing. -/
theorem says_report (hnow : now.material = reg.material) (site : Location) {problem : Problem}
    (hworded : problem.isUndocumented = true) :
    Says reg now [] [⟨site, problem⟩] (now.report site problem, []) :=
  ⟨hnow, rfl, fun _ _ => rfl, rfl, rfl, by simp [complaints, report, hworded]⟩

/-- Where a class without documentation is reported, if anywhere. -/
theorem says_reportAt (hnow : now.material = reg.material) (site : Option Location)
    (name : String) :
    Says reg now [] (site.toList.map fun site => ⟨site, .undocumentedClass name⟩)
      (now.reportAt site (.undocumentedClass name), []) := by
  cases site with
  | none => exact says_nothing hnow
  | some site => exact says_report hnow site rfl

theorem says_draftMember (h : PointsBack reg) (f : FunctionId)
    (hnow : now.material = reg.material) :
    Says reg now (ownSection reg (.function f)) (lackingMember reg f) (draftMember now f) := by
  have hfunction : (now.function f).material = (reg.function f).material :=
    eq_of_material (fun reg => (reg.function f).material) (fun _ => by rw [function_material]; rfl)
      hnow
  have hdoc : (now.function f).doc = (reg.function f).doc := by
    rw [← Function.doc_material, hfunction, Function.doc_material]
  have hreport : now.report (now.function f).origin
      (.undocumentedFunction (now.function f).name (now.function f).parameters) =
      now.report (reg.function f).origin
        (.undocumentedFunction (reg.function f).name (reg.function f).parameters) := by
    rw [← Function.origin_material, ← Function.name_material, ← Function.parameters_material,
      hfunction]
    rfl
  have hoverridden : now.overridden f = reg.overridden f :=
    eq_of_material (·.overridden f) (overridden_material · f) hnow
  simp only [draftMember, hdoc, hreport, hoverridden]
  cases hpointer : (reg.function f).doc with
  | some d =>
      have hlacks : lackingMember reg f = [] := by simp [lackingMember, hpointer]
      rw [hlacks]
      exact says_interpret h hpointer hnow fun _ hs => nomatch hs
  | none =>
      have hsection : ownSection reg (.function f) = [] := by
        simp [ownSection, hasSection, docOf, hpointer]
      rw [hsection]
      cases hbase : reg.overridden f with
      | some base =>
          have hlacks : lackingMember reg f = [] := by simp [lackingMember, hbase]
          rw [hlacks]
          exact says_nothing hnow
      | none =>
          have hlacks : lackingMember reg f = [⟨(reg.function f).origin,
              .undocumentedFunction (reg.function f).name (reg.function f).parameters⟩] := by
            simp [lackingMember, hpointer, hbase]
          rw [hlacks]
          exact says_report hnow _ rfl

/-- The registry in which a class is marked as drafted. -/
def marked (reg : Registry) (c : ClassId) : Registry :=
  reg.editClass c fun e => { e with done := true }

/-- **A class.**  One that has not been drafted is marked, and then it has its sections. -/
theorem says_draftClass (h : PointsBack reg) {c : ClassId} (hfresh : (now.getClass c).done = false)
    (hnow : now.material = reg.material) :
    Says reg (marked now c) (sections reg (.classPage c)) (lacking reg (.classPage c))
      (draftClass now c) := by
  have hmarked : (marked now c).material = reg.material := (material_markDone now c).trans hnow
  have hclass {reg' : Registry} (hreg' : reg'.material = reg.material) :
      (reg'.getClass c).material = (reg.getClass c).material :=
    eq_of_material (fun reg => (reg.getClass c).material) (fun _ => by rw [getClass_material]; rfl)
      hreg'
  have hdoc : (now.getClass c).doc = (reg.getClass c).doc := by
    rw [← Class.doc_material, hclass hnow, Class.doc_material]
  have horigin : (now.getClass c).origin = (reg.getClass c).origin := by
    rw [← Class.origin_material, hclass hnow, Class.origin_material]
  have hname : (now.getClass c).name = (reg.getClass c).name := by
    rw [← Class.name_material, hclass hnow, Class.name_material]
  have hsite : reportSite (marked now c) (now.getClass c) = reportSite reg (reg.getClass c) := by
    rw [← reportSite_material, hmarked, hclass hnow, reportSite_material]
  have hmark : now.editClass c (fun e => { e with done := true }) = marked now c := rfl
  simp only [draftClass, hmark, hfresh, hdoc, horigin, hname, hsite, Bool.false_eq_true, if_false]
  cases hpointer : (reg.getClass c).doc with
  | none =>
      simp only [sections, lacking, hpointer]
      exact says_reportAt hmarked _ _
  | some d =>
      simp only [sections, lacking, hpointer]
      have hpage : Says reg (marked now c)
          (if (reg.getClass c).origin.isSome then ownSection reg (.classPage c) else []) []
          (if (reg.getClass c).origin.isSome then Markup.interpret (marked now c) d
            else (marked now c, [])) := by
        split
        · exact says_interpret h hpointer hmarked fun _ hs => nomatch hs
        · exact says_nothing hmarked
      have hmembers {reg' : Registry} (hreg' : reg'.material = reg.material) :
          (reg'.getClass c).members = (reg.getClass c).members := by
        rw [← Class.members_material, hclass hreg', Class.members_material]
      rw [hmembers hpage.material]
      exact hpage.append (says_draftEach (fun _ m => says_draftMember h m) hpage.material)

/-- A class that has been drafted is not drafted again. -/
theorem draftClass_of_done {c : ClassId} (h : (now.getClass c).done = true) :
    draftClass now c = (now, []) := by
  simp [draftClass, h]

end CppDoc.Manual
