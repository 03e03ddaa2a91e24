import CppDoc.Manual
import CppDoc.Proofs.Manual.Notes
import CppDoc.Proofs.Registry.Operations

/-!
# The manual is drafted by edits

Drafting the documentation of a registry changes the registry as well: problems are reported, the
mentions of classes are noted, chapters introduce classes, and what has been drafted is marked.  All
of that is done by edits.

* `Markup.leads_interpret`: one block of documentation;
* `Manual.leads_draft` and `Manual.leads_events`: the manual.
-/

namespace CppDoc

open CppDoc.Registry

namespace Markup

variable {d : DocBlock} {reg reg' : Registry}

/-- A note is an edit of a well-formed registry that has the file of the block. -/
theorem Note.leads (h : Note d reg reg') (hfile : reg.HasFile d.origin.file) : Leads reg reg' := by
  have hsite (line : Nat) : reg.HasFile (Location.mk d.origin.file line).file := hfile
  cases h with
  | report line _ => exact .of_edits (edits_report reg _ (hsite line))
  | mention name line => exact leads_mention reg name (hsite line)
  | introduce _ hclass => exact .of_edits (.single (.introduce _ (hasClass_of_findClass? hclass)))
  | markOverload _ => exact .of_edits (.single (.markOverload _))

theorem Notes.leads (h : Notes d reg reg') (hfile : reg.HasFile d.origin.file) :
    Leads reg reg' := by
  induction h with
  | refl => exact .refl reg
  | tail _ last ih =>
      intro hreg
      have hbefore := ih hreg
      have hlast := last.leads (hbefore.persists.hasFile hfile) (hbefore.wellFormed hreg)
      exact hbefore.trans hlast

/-- **One block.**  Drafting a block of documentation is done by edits. -/
theorem leads_interpret (reg : Registry) {id : DocId} (hid : reg.HasDoc id) :
    Registry.Leads reg (interpret reg id).1 := by
  intro hreg
  exact (notes_interpret reg id).leads (hreg.docs _ (doc_mem hid)).origin hreg

end Markup

namespace Manual

variable (reg : Registry)

theorem leads_draftMember {id : FunctionId} (hid : reg.HasFunction id) :
    Leads reg (draftMember reg id).1 := by
  intro hreg
  have hfits := hreg.functions id _ (getElem?_function hid)
  simp only [draftMember]
  split
  · rename_i doc hdoc
    obtain ⟨block, hblock, _⟩ := hfits.doc doc hdoc
    exact Markup.leads_interpret reg (List.getElem?_eq_some_iff.mp hblock).1 hreg
  · split
    · exact .refl reg
    · exact edits_report reg _ hfits.origin

/-- One thing after another, each of which is drafted in a registry that has been reached. -/
theorem leads_draftEach {α : Type} {draftOne : Registry → α → Registry × List Draft} {l : List α}
    (h : ∀ reg' a, Edits reg reg' → a ∈ l → Leads reg' (draftOne reg' a).1) :
    Leads reg (draftEach draftOne reg l).1 := by
  induction l generalizing reg with
  | nil => exact .refl reg
  | cons a rest ih =>
      intro hreg
      have hfirst := h reg a (.refl reg) List.mem_cons_self hreg
      have hrest := ih (draftOne reg a).1 (fun reg' b hedits hb =>
        h reg' b (hfirst.trans hedits) (List.mem_cons_of_mem a hb)) (hfirst.wellFormed hreg)
      exact hfirst.trans hrest

/-- The members of a class are drafted in a registry that has been reached. -/
theorem leads_draftMembers {id : ClassId} (hid : reg.HasClass id) :
    Leads reg (draftEach draftMember reg (reg.getClass id).members).1 := by
  intro hreg
  have hmembers := (hreg.classes id _ (getElem?_getClass hid)).members
  refine leads_draftEach reg (fun reg' m hedits hm => ?_) hreg
  exact leads_draftMember reg' (hedits.persists.hasFunction (hmembers m hm))

/-- Where a missing documentation is reported, there is a file. -/
theorem hasFile_reportSite {id : ClassId} {c : Class} (hreg : reg.WellFormed)
    (hfits : reg.ClassFits id c) : ∀ site, reportSite reg c = some site → reg.HasFile site.file := by
  intro site hsite
  unfold reportSite at hsite
  split at hsite
  · rename_i origin horigin
    obtain rfl := Option.some.inj hsite
    exact hfits.origin origin horigin
  · obtain ⟨m, hm, rfl⟩ := Option.map_eq_some_iff.mp hsite
    have hfunction := hfits.members m (List.mem_of_mem_head? hm)
    exact (hreg.functions m _ (getElem?_function hfunction)).origin

/-- A block that an entity points at is there. -/
theorem hasDoc_of_isAbout {id : DocId} {subject : Subject} (h : reg.IsAbout id subject) :
    reg.HasDoc id := by
  obtain ⟨_, hblock, _⟩ := h
  exact (List.getElem?_eq_some_iff.mp hblock).1

/-- The page of a class is drafted if its body was found, and then its members are. -/
private theorem leads_draftPage {id : ClassId} {doc : DocId} (c : Bool) (hid : reg.HasClass id)
    (hdoc : reg.HasDoc doc) :
    let page := if c then Markup.interpret reg doc else (reg, [])
    Leads reg (draftEach draftMember page.1 (page.1.getClass id).members).1 := by
  intro page hreg
  have hpage : Edits reg page.1 := by
    cases c with
    | false => exact .refl reg
    | true => exact Markup.leads_interpret reg hdoc hreg
  exact hpage.trans
    (leads_draftMembers page.1 (hpage.persists.hasClass hid) (hpage.wellFormed hreg))

theorem leads_draftClass {id : ClassId} (hid : reg.HasClass id) :
    Leads reg (draftClass reg id).1 := by
  intro hreg
  have hkept := (keeps_editClass id (g := fun c => { c with done := true })
    fun _ => ⟨rfl, rfl⟩).classFits (hreg.classes id _ (getElem?_getClass hid))
  have hmark : Edits reg (reg.editClass id fun c => { c with done := true }) :=
    .single (.markDone id)
  have hmarked := hmark.wellFormed hreg
  simp only [draftClass]
  split
  · exact .refl reg
  split
  · exact hmark.trans (edits_reportAt _ _ (hasFile_reportSite _ hmarked hkept))
  · rename_i doc hdoc
    have hpage := leads_draftPage _ (reg.getClass id).origin.isSome
      (hmark.persists.hasClass hid) (hasDoc_of_isAbout _ (hkept.doc doc hdoc))
    exact hmark.trans (hpage hmarked)

/-- The classes of a chapter are drafted in a registry that has been reached. -/
theorem leads_draftClasses {id : ChapterId} (hid : reg.HasChapter id) :
    Leads reg (draftEach draftClass reg (reg.chapter id).classes).1 := by
  intro hreg
  have hclasses := (hreg.chapters id _ (getElem?_chapter hid)).classes
  refine leads_draftEach reg (fun reg' c hedits hc => ?_) hreg
  exact leads_draftClass reg' (hedits.persists.hasClass (hclasses c hc))

theorem leads_draftChapter {id : ChapterId} (hid : reg.HasChapter id) :
    Leads reg (draftChapter reg id).1 := by
  intro hreg
  have hdoc := (hreg.chapters id _ (getElem?_chapter hid)).doc
  unfold draftChapter
  dsimp only
  cases hpointer : (reg.chapter id).doc with
  | none => exact leads_draftClasses reg hid hreg
  | some doc =>
      have hpage := Markup.leads_interpret reg (hasDoc_of_isAbout reg (hdoc doc hpointer)) hreg
      exact hpage.trans
        (leads_draftClasses _ (hpage.persists.hasChapter hid) (hpage.wellFormed hreg))

/-- **The manual.**  It is drafted by edits. -/
theorem leads_draft : Leads reg (draft reg).1 := by
  have hchapters : Leads reg (draftEach draftChapter reg reg.chapterIds).1 := by
    refine leads_draftEach reg fun reg' ch hedits hch => leads_draftChapter reg' ?_
    obtain ⟨n, hn, rfl⟩ := List.mem_map.mp hch
    exact hedits.persists.hasChapter (List.mem_range.mp hn)
  refine hchapters.trans (leads_draftEach _ fun reg' c hedits hc => leads_draftClass reg' ?_)
  obtain ⟨n, hn, rfl⟩ := List.mem_map.mp hc
  exact hedits.persists.hasClass (List.mem_range.mp hn)

theorem leads_events : Leads reg (events reg).1 :=
  leads_draft reg

end Manual

end CppDoc
