import CppDoc.Proofs.LineEndings.Comment
import CppDoc.Proofs.LineEndings.Markup
import CppDoc.Proofs.Reading.Project

/-!
# Manuals and line endings

What is drafted of a registry and of the same registry with the other line endings differs in the texts
of code only, and settling the drafts keeps it so.  With what a scan knows this makes the runs of two
projects that differ in their line endings the same.

* `Registry.NumbersInLine`: what is asked of the comments of a project;
* `Redrafted`: what is drafted of both registries, one thing after another;
* `settle_crlf`: the spaces between the words;
* `Project.run_crlf`: a whole run.
-/

namespace CppDoc

open CppDoc.Text

/-- In every comment, the number of a standards document stands on the line of the letters before it. -/
def Registry.NumbersInLine (reg : Registry) : Prop :=
  ∀ d ∈ reg.docs, Markup.NumbersInLine d.text.toList

instance (reg : Registry) : Decidable reg.NumbersInLine :=
  inferInstanceAs (Decidable (∀ d ∈ reg.docs, Markup.NumbersInLine d.text.toList))

namespace Registry.NumbersInLine

variable {reg reg' : Registry}

theorem doc (h : reg.NumbersInLine) (id : DocId) : Markup.NumbersInLine (reg.doc id).text.toList := by
  rw [Registry.doc, List.getD_eq_getElem?_getD]
  cases hd : reg.docs[id.index]? with
  | some d => exact h d (List.mem_of_getElem? hd)
  | none =>
      intro t ht
      have hnone := List.eq_nil_of_suffix_nil ht
      cases hnone

theorem of_docs (h : reg.NumbersInLine) (hdocs : reg'.docs = reg.docs) : reg'.NumbersInLine := by
  rw [Registry.NumbersInLine, hdocs]
  exact h

end Registry.NumbersInLine

namespace Manual

/-! ## Drafts -/

/-- The same has been drafted of `reg` and of its other line endings, and no comment has been changed by
that. -/
structure Redrafted (reg : Registry) (p p' : Registry × List Draft) : Prop where
  same : p' = (p.1.crlf, p.2.map Draft.crlf)
  docs : p.1.docs = reg.docs

section Redrafted

variable {reg : Registry}

theorem redrafted_nothing {now : Registry} (h : now.docs = reg.docs) : Redrafted reg (now, []) (now.crlf, []) :=
  ⟨rfl, h⟩

/-- One draft after the other. -/
theorem Redrafted.append {p p' q q' : Registry × List Draft} (h : Redrafted reg p p')
    (h' : Redrafted p.1 q q') : Redrafted reg (q.1, p.2 ++ q.2) (q'.1, p'.2 ++ q'.2) := by
  refine ⟨?_, h'.docs.trans h.docs⟩
  rw [h.same, h'.same, List.map_append]

/-- One thing after another. -/
theorem redrafted_draftEach {α : Type} {draftOne : Registry → α → Registry × List Draft}
    (hone : ∀ (reg : Registry) (a : α), reg.NumbersInLine →
      Redrafted reg (draftOne reg a) (draftOne reg.crlf a)) (h : reg.NumbersInLine) (l : List α) :
    Redrafted reg (draftEach draftOne reg l) (draftEach draftOne reg.crlf l) := by
  induction l generalizing reg with
  | nil => exact redrafted_nothing rfl
  | cons a rest ih =>
      have hfirst := hone reg a h
      have hlater := ih (h.of_docs hfirst.docs)
      have hregistry : (draftOne reg.crlf a).1 = (draftOne reg a).1.crlf := by rw [hfirst.same]
      rw [← hregistry] at hlater
      exact hfirst.append hlater

/-- Something, and then one thing after another of those that are listed by then. -/
theorem Redrafted.thenEach {α : Type} {draftOne : Registry → α → Registry × List Draft}
    {p p' : Registry × List Draft} (hp : Redrafted reg p p') (h : reg.NumbersInLine)
    (hone : ∀ (reg : Registry) (a : α), reg.NumbersInLine →
      Redrafted reg (draftOne reg a) (draftOne reg.crlf a))
    (listed : Registry → List α) (hlisted : ∀ reg : Registry, listed reg.crlf = listed reg) :
    Redrafted reg
      ((draftEach draftOne p.1 (listed p.1)).1, p.2 ++ (draftEach draftOne p.1 (listed p.1)).2)
      ((draftEach draftOne p'.1 (listed p'.1)).1, p'.2 ++ (draftEach draftOne p'.1 (listed p'.1)).2) := by
  have hregistry : p'.1 = p.1.crlf := by rw [hp.same]
  rw [hregistry, hlisted]
  exact hp.append (redrafted_draftEach hone (h.of_docs hp.docs) (listed p.1))

theorem redrafted_interpret (id : DocId) (h : reg.NumbersInLine) :
    Redrafted reg (Markup.interpret reg id) (Markup.interpret reg.crlf id) where
  same := Markup.interpret_crlf reg id (h.doc id)
  docs := by
    have hdocs := congrArg Registry.docs (Markup.notes_interpret reg id).material
    exact hdocs

theorem redrafted_draftMember (reg : Registry) (id : FunctionId) (h : reg.NumbersInLine) :
    Redrafted reg (draftMember reg id) (draftMember reg.crlf id) := by
  have hfunction : reg.crlf.function id = reg.function id := rfl
  simp only [draftMember, hfunction, Registry.overridden_crlf]
  cases (reg.function id).doc with
  | some doc => exact redrafted_interpret doc h
  | none =>
      cases reg.overridden id with
      | some base => exact redrafted_nothing rfl
      | none => exact redrafted_nothing rfl

/-- **Classes** are drafted alike, with their members. -/
theorem redrafted_draftClass (reg : Registry) (id : ClassId) (h : reg.NumbersInLine) :
    Redrafted reg (draftClass reg id) (draftClass reg.crlf id) := by
  have hclass : reg.crlf.getClass id = reg.getClass id := rfl
  simp only [draftClass, hclass]
  split
  · exact redrafted_nothing rfl
  have hmarked : (reg.crlf.editClass id fun c => { c with done := true }) =
      (reg.editClass id fun c => { c with done := true }).crlf := rfl
  have hdocs : (reg.editClass id fun c => { c with done := true }).docs = reg.docs := rfl
  rw [hmarked]
  generalize (reg.editClass id fun c => { c with done := true }) = marked at hdocs ⊢
  have hinLine := h.of_docs hdocs
  cases (reg.getClass id).doc with
  | none =>
      have hsite : reportSite marked.crlf (reg.getClass id) = reportSite marked (reg.getClass id) := rfl
      simp only [hsite, Registry.reportAt_crlf]
      refine redrafted_nothing (Eq.trans ?_ hdocs)
      cases reportSite marked (reg.getClass id) <;> rfl
  | some doc =>
      have hpage : Redrafted marked
          (if (reg.getClass id).origin.isSome then Markup.interpret marked doc else (marked, []))
          (if (reg.getClass id).origin.isSome then Markup.interpret marked.crlf doc
            else (marked.crlf, [])) := by
        split
        · exact redrafted_interpret doc hinLine
        · exact redrafted_nothing rfl
      have hmembers := hpage.thenEach hinLine redrafted_draftMember
        (fun reg => (reg.getClass id).members) fun _ => rfl
      exact ⟨hmembers.same, hmembers.docs.trans hdocs⟩

/-- **Chapters** are drafted alike, with the classes that they introduce. -/
theorem redrafted_draftChapter (reg : Registry) (id : ChapterId) (h : reg.NumbersInLine) :
    Redrafted reg (draftChapter reg id) (draftChapter reg.crlf id) := by
  have hchapter : reg.crlf.chapter id = reg.chapter id := rfl
  simp only [draftChapter, hchapter]
  cases (reg.chapter id).doc with
  | none =>
      exact (redrafted_nothing rfl).thenEach h redrafted_draftClass
        (fun reg => (reg.chapter id).classes) fun _ => rfl
  | some doc =>
      exact (redrafted_interpret doc h).thenEach h redrafted_draftClass
        (fun reg => (reg.chapter id).classes) fun _ => rfl

/-- **Manuals** are drafted alike. -/
theorem draft_crlf (h : reg.NumbersInLine) :
    draft reg.crlf = ((draft reg).1.crlf, (draft reg).2.map Draft.crlf) := by
  have hchapters := redrafted_draftEach redrafted_draftChapter h reg.chapterIds
  have hclasses := hchapters.thenEach h redrafted_draftClass Registry.classIds fun _ => rfl
  have hids : reg.crlf.chapterIds = reg.chapterIds := rfl
  have hsame := hclasses.same
  simp only [Prod.mk.injEq] at hsame
  simp only [draft, hids, hsame, List.map_append]
  rfl

end Redrafted

end Manual

/-! ## Spaces -/

namespace Spacing

theorem finish_crlf (st : Spacing) : st.finish.2.map Event.crlf = st.finish.2 := by
  unfold finish
  cases st.opened <;> rfl

/-- What stands in a paragraph is no code. -/
theorem inline_crlf (st : Spacing) {c : Content} {shown : String} (hc : c.inline? = some shown)
    (s : String) : (st.inline c s).2.map Event.crlf = (st.inline c s).2 := by
  unfold inline
  cases c with
  | code | warning | note | heading => exact nomatch hc
  | text | link | argument | classLink | functionLink => split <;> rfl

theorem step_crlf (st : Spacing) (d : Draft) :
    st.step d.crlf = ((st.step d).1, (st.step d).2.map Event.crlf) := by
  cases d with
  | space => rfl
  | event e =>
      cases e with
      | close => simp only [Draft.crlf, Event.crlf, step, finish_crlf]
      | headline name =>
          simp only [Draft.crlf, Event.crlf, step, List.map_append, finish_crlf, List.map_cons,
            List.map_nil]
      | content c =>
          cases c with
          | text t =>
              simp only [Draft.crlf, Event.crlf, Content.crlf, step]
              split
              · rfl
              · rw [inline_crlf st rfl]
          | link | argument | classLink | functionLink =>
              simp only [Draft.crlf, Event.crlf, Content.crlf, step, Content.inline?]
              rw [inline_crlf st rfl]
          | code | warning | note | heading => rfl

/-- **Spaces** between the words are the same. -/
theorem settle_crlf (st : Spacing) (drafts : List Draft) :
    st.settle (drafts.map Draft.crlf) = ((st.settle drafts).1, (st.settle drafts).2.map Event.crlf) := by
  induction drafts generalizing st with
  | nil => rfl
  | cons d rest ih => simp only [List.map_cons, settle, step_crlf, ih, List.map_append]

end Spacing

/-- **Line endings** do not matter, as long as the numbers of standards documents stand on the lines of
the letters before them: the same is reported, and the same is sent out but for the line endings of
code. -/
theorem Project.run_crlf (p : Project) (t : FileTree)
    (h : ∀ reg, p.scan t = .ok reg → reg.NumbersInLine) :
    p.run t.crlf = (p.run t).map fun (reg, events) => (reg.crlf, events.map Event.crlf) := by
  rw [run, run, scan_crlf]
  cases hscan : p.scan t with
  | error e => rfl
  | ok reg =>
      simp only [Except.map, Manual.events, Manual.draft_crlf (h reg hscan), Spacing.settle_crlf]

/-- A project whose comments name a standards document, and hold code. -/
def rfcTree : FileTree :=
  Project.smallTree "class Foo \x7b\n  void bar();\n\x7d;\n"
    ("#include \"foo.h\"\n/*! \\class Foo foo.h\n  As RFC 822\n  has it.\n*/\n" ++
      "/*! \\fn void Foo::bar()\n  Bars.\n\n  \\code\n  a;\n  b;\n  \\endcode\n*/\n")

theorem Project.run_crlf_rfc :
    ∃ final events, Project.small.run rfcTree = .ok (final, events) ∧ final.diagnostics = [] ∧
      Project.small.run rfcTree.crlf = .ok (final.crlf, events.map Event.crlf) := by
  have hquiet : (Project.small.run rfcTree).toOption.map (fun result => result.1.diagnostics) =
      some [] := by
    rw [rfcTree, Project.run_small]
    decide +kernel
  have hinLine : (Project.small.scan rfcTree).toOption.map
      (fun reg => decide reg.NumbersInLine) = some true := by
    rw [rfcTree, Project.scan_small]
    decide +kernel
  obtain ⟨⟨final, events⟩, hrun, hnone⟩ := Project.exists_of_toOption_map hquiet
  obtain ⟨scanned, hscan, hlines⟩ := Project.exists_of_toOption_map hinLine
  refine ⟨final, events, hrun, hnone, ?_⟩
  rw [Project.run_crlf Project.small rfcTree, hrun]
  · rfl
  · intro reg hreg
    obtain rfl : scanned = reg := Except.ok.inj (hscan.symm.trans hreg)
    exact of_decide_eq_true hlines

end CppDoc
