import CppDoc.Proofs.Manual.Alike
import CppDoc.Proofs.Markup.Paragraphs

/-!
# Blocks about functions and classes are independent

A block about a function or a class leaves a **trace** in the registry: reports, and perhaps the mark
that its own function is one of several.  Which trace it leaves is decided by its text, by the
material of the manual, and by whether its function has been marked before.  So it does not matter
which of two such blocks is drafted first.

* `Trace`: what such a block leaves, with `Trace.append_on`, `isMarked_on_ne` and `on_comm`;
* `Beside`: two states in which the rest of a block is read in the same way and leaves the same trace;
* `SameTrace`: what two readings from such states come to, reader by reader, with `Beside.readRest`
  for a whole text;
* `interpret_sameTrace`: one block in two registries;
* `send_independent`: two blocks, sent out in either order.
-/

namespace CppDoc

open CppDoc.Registry CppDoc.Text

namespace Registry

/-- Is the subject a function that is said to be one of several? -/
def isMarked (reg : Registry) : Subject → Bool
  | .function f => (reg.function f).overload
  | _ => false

/-- Says of the subject that it is one of several, if it is a function. -/
def markOverload (reg : Registry) : Subject → Registry
  | .function f => reg.editFunction f fun g => { g with overload := true }
  | _ => reg

end Registry

namespace Markup

/-! ## Traces -/

/-- What a block about a function or a class leaves in a registry. -/
structure Trace where
  marks : Bool
  reports : List Diagnostic

namespace Trace

/-- The registry with the trace of a block about `s` in it. -/
def on (t : Trace) (s : Subject) (reg : Registry) : Registry :=
  let marked := if t.marks then reg.markOverload s else reg
  { marked with diagnostics := reg.diagnostics ++ t.reports }

/-- No trace. -/
def none : Trace := ⟨false, []⟩

/-- One report. -/
def report (site : Location) (problem : Problem) : Trace := ⟨false, [⟨site, problem⟩]⟩

/-- One trace after the other. -/
def append (t t' : Trace) : Trace := ⟨t.marks || t'.marks, t.reports ++ t'.reports⟩

section On

variable (t t' : Trace) (s s' : Subject) (reg : Registry)

theorem none_on : none.on s reg = reg := by
  simp only [on, none, List.append_nil, Bool.false_eq_true, if_false]

theorem report_on (site : Location) (problem : Problem) :
    (report site problem).on s reg = reg.report site problem := rfl

theorem diagnostics_on : (t.on s reg).diagnostics = reg.diagnostics ++ t.reports := rfl

/-- A function is marked once. -/
theorem markOverload_twice : (reg.markOverload s).markOverload s = reg.markOverload s := by
  cases s with
  | function f => simp only [markOverload, editFunction, List.modify_modify_eq, Function.comp_def]
  | classPage c => rfl
  | chapter ch => rfl

theorem append_on : (t.append t').on s reg = t'.on s (t.on s reg) := by
  obtain ⟨marks, reports⟩ := t
  obtain ⟨marks', reports'⟩ := t'
  have htwice := markOverload_twice s reg
  cases marks <;> cases marks' <;> cases s <;>
    simp_all [append, on, markOverload, editFunction, List.append_assoc]

/-- A mark is seen in both of two registries of one material, or in neither. -/
theorem isMarked_on {reg reg' : Registry} (hmaterial : reg.material = reg'.material)
    (hmarked : reg.isMarked s = reg'.isMarked s) :
    (t.on s reg).isMarked s = (t.on s reg').isMarked s := by
  cases s with
  | classPage c => rfl
  | chapter ch => rfl
  | function f =>
      have hlength : reg.functions.length = reg'.functions.length := by
        have hlengths := congrArg (fun reg : Registry => reg.functions.length) hmaterial
        simpa [Registry.material] using hlengths
      have hmark (reg : Registry) : (reg.markOverload (.function f)).isMarked (.function f) =
          (decide (f.index < reg.functions.length) || reg.isMarked (.function f)) := by
        by_cases hlt : f.index < reg.functions.length <;>
          simp [markOverload, editFunction, isMarked, Registry.function, List.getD_eq_getElem?_getD, hlt]
      cases t with
      | mk marks reports =>
          cases marks with
          | false => exact hmarked
          | true =>
              have hboth := hmark reg
              rw [hlength, hmarked, ← hmark reg'] at hboth
              exact hboth

/-- The trace of one block marks the subject of no other block. -/
theorem isMarked_on_ne (hne : s ≠ s') : (t.on s reg).isMarked s' = reg.isMarked s' := by
  have hmark : (reg.markOverload s).isMarked s' = reg.isMarked s' := by
    cases s with
    | classPage c => rfl
    | chapter ch => rfl
    | function f =>
        cases s' with
        | classPage c => rfl
        | chapter ch => rfl
        | function g =>
            have hindex : f.index ≠ g.index :=
              fun heq => hne (congrArg (fun i => Subject.function ⟨i⟩) heq)
            simp [markOverload, editFunction, isMarked, Registry.function,
              List.getD_eq_getElem?_getD, hindex]
  cases t with
  | mk marks reports =>
      cases marks with
      | false => rfl
      | true => exact hmark

/-- Two functions are marked in either order. -/
theorem markOverload_comm :
    (reg.markOverload s).markOverload s' = (reg.markOverload s').markOverload s := by
  have hswap (l : List Function) (i j : Nat) :
      (l.modify i fun g => { g with overload := true }).modify j (fun g => { g with overload := true }) =
        (l.modify j fun g => { g with overload := true }).modify i
          (fun g => { g with overload := true }) := by
    apply List.ext_getElem?
    intro k
    simp only [List.getElem?_modify]
    cases l[k]? with
    | none => rfl
    | some g => by_cases hi : i = k <;> by_cases hj : j = k <;> simp [hi, hj]
  cases s with
  | classPage c => rfl
  | chapter ch => rfl
  | function f =>
      cases s' with
      | classPage c => rfl
      | chapter ch => rfl
      | function g => simp only [markOverload, editFunction, hswap]

/-- **Two traces** in either order: only the order of the reports differs. -/
theorem on_comm :
    { t'.on s' (t.on s reg) with diagnostics := [] } =
        { t.on s (t'.on s' reg) with diagnostics := [] } ∧
      (t'.on s' (t.on s reg)).diagnostics.Perm (t.on s (t'.on s' reg)).diagnostics := by
  constructor
  · have hcomm := markOverload_comm s s' reg
    obtain ⟨marks, reports⟩ := t
    obtain ⟨marks', reports'⟩ := t'
    cases marks <;> cases marks' <;> cases s <;> cases s' <;>
      simp_all [on, markOverload, editFunction]
  · simp only [diagnostics_on, List.append_assoc]
    exact List.Perm.append_left _ List.perm_append_comm

end On

end Trace

/-! ## Two readings of one block -/

/-- Two states in which the rest of the block `d` is read in the same way and leaves the same trace. -/
structure Beside (d : DocBlock) (st st' : State) : Prop where
  alike : Alike d st st'
  marked : st.registry.isMarked d.subject = st'.registry.isMarked d.subject
  unnamed : st.expecting ≠ .classes

/-- From two states, two readings of the block `d` have come to `out` and `out'` and left the same
trace. -/
structure SameTrace (d : DocBlock) (st st' out out' : State) : Prop where
  alike : Alike d out out'
  unnamed : out.expecting ≠ .classes
  trace : ∃ t : Trace, out.registry = t.on d.subject st.registry ∧
    out'.registry = t.on d.subject st'.registry

variable {d : DocBlock} {st st' out out' fin fin' : State}

theorem SameTrace.beside (h : SameTrace d st st' out out') (hbefore : Beside d st st') :
    Beside d out out' where
  alike := h.alike
  marked := by
    obtain ⟨t, hout, hout'⟩ := h.trace
    rw [hout, hout']
    exact t.isMarked_on d.subject hbefore.alike.material hbefore.marked
  unnamed := h.unnamed

theorem SameTrace.trans (h : SameTrace d st st' out out') (h' : SameTrace d out out' fin fin') :
    SameTrace d st st' fin fin' where
  alike := h'.alike
  unnamed := h'.unnamed
  trace := by
    obtain ⟨t, hout, hout'⟩ := h.trace
    obtain ⟨t', hfin, hfin'⟩ := h'.trace
    refine ⟨t.append t', ?_, ?_⟩
    · rw [Trace.append_on, ← hout, ← hfin]
    · rw [Trace.append_on, ← hout', ← hfin']

/-- Nothing is left. -/
theorem sameTrace_nothing (halike : Alike d out out') (hunnamed : out.expecting ≠ .classes)
    (hout : out.registry = st.registry) (hout' : out'.registry = st'.registry) :
    SameTrace d st st' out out' where
  alike := halike
  unnamed := hunnamed
  trace := ⟨.none, by rw [Trace.none_on, hout], by rw [Trace.none_on, hout']⟩

/-- One report is left. -/
theorem sameTrace_report (site : Location) (problem : Problem) (halike : Alike d out out')
    (hunnamed : out.expecting ≠ .classes) (hout : out.registry = st.registry.report site problem)
    (hout' : out'.registry = st'.registry.report site problem) : SameTrace d st st' out out' where
  alike := halike
  unnamed := hunnamed
  trace := ⟨.report site problem, by rw [Trace.report_on, hout], by rw [Trace.report_on, hout']⟩

namespace Beside

variable (h : Beside d st st')

include h

theorem refl : SameTrace d st st' st st' :=
  sameTrace_nothing h.alike h.unnamed rfl rfl

theorem report (line : Nat) (problem : Problem) :
    SameTrace d st st' (st.report d line problem) (st'.report d line problem) :=
  sameTrace_report _ _ (h.alike.report line line problem problem) h.unnamed rfl rfl

theorem expect (line : Nat) (directive : String) {next : Expecting} (hnext : next ≠ .classes) :
    SameTrace d st st' (st.expect d line directive next) (st'.expect d line directive next) := by
  have halike := h.alike.expect line directive next
  have hsame := h.alike.expecting
  by_cases htext : st.expecting = .text
  · have htext' : st'.expecting = .text := hsame ▸ htext
    exact sameTrace_nothing halike hnext (by simp [State.expect, htext])
      (by simp [State.expect, htext'])
  · have htext' : st'.expecting ≠ .text := hsame ▸ htext
    refine sameTrace_report ⟨d.origin.file, line⟩ (.directiveNegated directive) halike hnext ?_ ?_
    · simp [State.expect, htext, State.report]
    · simp [State.expect, htext', State.report]

theorem endParagraph (line : Nat) :
    SameTrace d st st' (endParagraph d line st).1 (endParagraph d line st').1 := by
  have halike := (h.alike.endParagraph line).state
  have hsame := h.alike.expecting
  by_cases hwaits : st.expecting = .argument
  · have hwaits' : st'.expecting = .argument := hsame ▸ hwaits
    refine sameTrace_report ⟨d.origin.file, line⟩ .directiveHanging halike nofun ?_ ?_
    · simp [Markup.endParagraph, hwaits, State.report]
    · simp [Markup.endParagraph, hwaits', State.report]
  · have hwaits' : st'.expecting ≠ .argument := hsame ▸ hwaits
    exact sameTrace_nothing halike nofun (by simp [Markup.endParagraph, hwaits])
      (by simp [Markup.endParagraph, hwaits'])

theorem readArgument (w : List Char) (line : Nat) :
    SameTrace d st st' (readArgument d w line st).1 (readArgument d w line st').1 := by
  have halike := (h.alike.readArgument w line).state
  have hargument := eq_of_material (isArgument · d.subject (argumentName w))
    (isArgument_material · d.subject (argumentName w)) h.alike.material
  have hmentioned := h.alike.mentioned
  by_cases hnamed : st.mentioned.contains (argumentName w) = true
  · have hnamed' : st'.mentioned.contains (argumentName w) = true := hmentioned ▸ hnamed
    exact sameTrace_nothing halike nofun (by simp only [Markup.readArgument, if_pos hnamed])
      (by simp only [Markup.readArgument, if_pos hnamed'])
  have hnamed' : ¬ st'.mentioned.contains (argumentName w) = true := hmentioned ▸ hnamed
  by_cases hknown : isArgument st.registry d.subject (argumentName w) = true
  · have hknown' : isArgument st'.registry d.subject (argumentName w) = true := hargument ▸ hknown
    refine sameTrace_nothing halike nofun ?_ ?_
    · simp only [Markup.readArgument, if_neg hnamed, if_pos hknown]
    · simp only [Markup.readArgument, if_neg hnamed', if_pos hknown']
  · have hknown' : ¬ isArgument st'.registry d.subject (argumentName w) = true := hargument ▸ hknown
    refine sameTrace_report ⟨d.origin.file, line⟩ (.unknownArgument (argumentName w)) halike nofun
      ?_ ?_
    · simp only [Markup.readArgument, if_neg hnamed, if_neg hknown, State.report]
    · simp only [Markup.readArgument, if_neg hnamed', if_neg hknown', State.report]

theorem readReference (w : List Char) (line : Nat) :
    SameTrace d st st' (readReference d w line st).1 (readReference d w line st').1 := by
  have hresolve := eq_of_material (resolve · d.subject w) (resolve_material · d.subject w)
    h.alike.material
  simp only [Markup.readReference, ← hresolve]
  split
  · exact h.refl
  · exact h.refl
  · exact h.refl
  · exact h.report line _

theorem readPlain (w : List Char) (line : Nat) :
    SameTrace d st st' (readPlain d w line st).1 (readPlain d w line st').1 := by
  have hunnamed := h.unnamed
  simp only [Markup.readPlain, ← h.alike.expecting]
  split
  · contradiction
  · exact h.readArgument w line
  · exact h.readReference w line

/-- The mark of the block's own function is read, and set where it is not. -/
theorem readOverload (line n : Nat) :
    SameTrace d st st' (readOverload d line n st) (readOverload d line n st') := by
  have hfirst {out out' : State} (hout : SameTrace d st st' out out') :
      SameTrace d st st' (if 1 < n then out.report d line .overloadNotFirst else out)
        (if 1 < n then out'.report d line .overloadNotFirst else out') := by
    split
    · exact hout.trans ((hout.beside h).report line _)
    · exact hout
  have hmarked := h.marked
  have halike := h.alike
  unfold Markup.readOverload
  apply hfirst
  cases hsubject : d.subject with
  | classPage c => exact h.report line _
  | chapter ch => exact h.report line _
  | function f =>
      rw [hsubject] at hmarked
      have hflag : (st.registry.function f).overload = (st'.registry.function f).overload := hmarked
      have hseen : Alike d { st with overload := true } { st' with overload := true } :=
        { halike with overload := rfl }
      dsimp only
      rw [← hflag]
      split
      · exact sameTrace_report _ _ (hseen.report line line _ _) h.unnamed rfl rfl
      · refine ⟨?_, h.unnamed, ⟨true, []⟩, ?_, ?_⟩
        · exact ((alike_markOverload _ f).symm.trans hseen).trans (alike_markOverload _ f)
        · rw [hsubject]
          simp [Trace.on, markOverload, editFunction]
        · rw [hsubject]
          simp [Trace.on, markOverload, editFunction]

variable (hsubject : ∀ ch, d.subject ≠ .chapter ch)

include hsubject

theorem readDirective (w rest : List Char) (line n : Nat) :
    SameTrace d st st' (readDirective d w rest line n st).state
      (readDirective d w rest line n st').state := by
  have hintroduces {out out' : State} (hout : SameTrace d st st' out out') :
      SameTrace d st st' { out with introduces := true } { out' with introduces := true } :=
    { hout with alike := { hout.alike with introduces := rfl } }
  unfold Markup.readDirective
  split
  · simp only [Outcome.ofPair]
    split
    · exact h.expect line _ fun hnext => by cases hnext
    · exact h.report line _
  · simp only [Outcome.ofPair]
    cases hd : d.subject with
    | chapter ch => exact absurd hd (hsubject ch)
    | function f => exact hintroduces (h.report line _)
    | classPage c => exact hintroduces (h.report line _)
  · exact h.readOverload line n
  all_goals first | exact h.refl | exact h.report line _

/-- **A word** leaves the same trace. -/
theorem readWord (w rest : List Char) (line n : Nat) :
    SameTrace d st st' (readWord d w rest line n st).state (readWord d w rest line n st').state := by
  unfold Markup.readWord
  split
  · split
    · exact h.refl
    · exact h.readPlain w line
  split
  · exact h.refl
  split
  · exact h.readDirective hsubject w rest line n
  · exact h.readPlain w line

omit hsubject in
theorem readBlanks (blanks : List Char) (last : Nat) :
    SameTrace d st st' (readBlanks d blanks last st).1 (readBlanks d blanks last st').1 := by
  simp only [Markup.readBlanks, ← h.alike.expecting]
  split
  · exact h.endParagraph last
  · split <;> exact h.refl

end Beside

/-- **A text** leaves the same trace. -/
theorem Beside.readRest (hsubject : ∀ ch, d.subject ≠ .chapter ch) {p : Progress} {other : State}
    (h : Beside d p.state other) (s : List Char) :
    SameTrace d p.state other (readRest d p s).1 (readRest d { p with state := other } s).1 := by
  induction s using text_induction generalizing p other with
  | blank s hs =>
      have hblanks := h.readBlanks s p.last
      rw [readRest_blank d p hs, readRest_blank d _ hs]
      exact hblanks.trans ((hblanks.beside h).endParagraph p.last)
  | word b w rest hb hw hrest ih =>
      have hblanks := h.readBlanks b p.last
      have hword := (hblanks.beside h).readWord hsubject w rest (p.line + lineFeeds b) (p.count + 1)
      have htoken := hblanks.trans hword
      rw [readRest_word d p hb hw hrest, readRest_word d _ hb hw hrest]
      exact htoken.trans (ih (p := (readToken d p ⟨b, w, rest⟩).1) (htoken.beside h))

/-! ## Blocks -/

/-- Reporting one problem after another leaves the reports. -/
private theorem reports_on (line : Nat) (problem : String → Problem) (names : List String)
    (st : State) :
    (names.foldl (fun st name => st.report d line (problem name)) st).registry =
      Trace.on ⟨false, names.map fun name => ⟨⟨d.origin.file, line⟩, problem name⟩⟩ d.subject
        st.registry := by
  induction names generalizing st with
  | nil => exact (Trace.none_on d.subject st.registry).symm
  | cons name rest ih =>
      rw [List.foldl_cons, ih]
      simp [Trace.on, State.report, Registry.report]

theorem Beside.conclusion (hsubject : ∀ ch, d.subject ≠ .chapter ch) (h : Beside d st st') :
    SameTrace d st st' (conclusion d st).1 (conclusion d st').1 := by
  have halike := h.alike.conclusion.state
  unfold Markup.conclusion at halike ⊢
  cases hd : d.subject with
  | chapter ch => exact absurd hd (hsubject ch)
  | classPage c => exact h.refl
  | function f =>
      have hnames : Syntax.parameterNames (st.registry.function f).parameters =
          Syntax.parameterNames (st'.registry.function f).parameters :=
        eq_of_material (fun reg => Syntax.parameterNames (reg.function f).parameters)
          (fun reg => by rw [function_material, Function.parameters_material]) h.alike.material
      rw [hd] at halike
      refine ⟨halike, ?_, ?_⟩
      · exact fun hclasses => h.unnamed ((alike_reports _ _ _ st).expecting.trans hclasses)
      · refine ⟨_, reports_on d.origin.line .undocumentedArgument _ st, ?_⟩
        rw [h.alike.overload, h.alike.mentioned, hnames]
        exact reports_on d.origin.line .undocumentedArgument _ st'

/-- A class without members is reported in both of two registries of one material, or in neither. -/
theorem checkMembers_sameTrace (d : DocBlock) {reg reg' : Registry}
    (hmaterial : reg.material = reg'.material) :
    ∃ t : Trace, checkMembers d reg = t.on d.subject reg ∧
      checkMembers d reg' = t.on d.subject reg' := by
  cases hd : d.subject with
  | function f => exact ⟨.none, by simp [checkMembers, hd, Trace.none_on]⟩
  | chapter ch => exact ⟨.none, by simp [checkMembers, hd, Trace.none_on]⟩
  | classPage c =>
      have hmembers : (reg.getClass c).members = (reg'.getClass c).members :=
        eq_of_material (fun reg => (reg.getClass c).members)
          (fun reg => by rw [getClass_material, Class.members_material]) hmaterial
      have hname : (reg.getClass c).name = (reg'.getClass c).name :=
        eq_of_material (fun reg => (reg.getClass c).name)
          (fun reg => by rw [getClass_material, Class.name_material]) hmaterial
      simp only [checkMembers, hd, ← hmembers, ← hname]
      split
      · exact ⟨.report d.origin (.classWithoutMembers (reg.getClass c).name), rfl, rfl⟩
      · exact ⟨.none, (Trace.none_on _ reg).symm, (Trace.none_on _ reg').symm⟩

/-- **One block** about a function or a class says the same and leaves the same trace in two
registries of one material that agree on the mark of its subject. -/
theorem interpret_sameTrace {reg reg' : Registry} {id : DocId}
    (hsubject : ∀ ch, (reg.doc id).subject ≠ .chapter ch) (hmaterial : reg.material = reg'.material)
    (hmarked : reg.isMarked (reg.doc id).subject = reg'.isMarked (reg.doc id).subject) :
    (interpret reg id).2 = (interpret reg' id).2 ∧
      ∃ t : Trace, (interpret reg id).1 = t.on (reg.doc id).subject reg ∧
        (interpret reg' id).1 = t.on (reg.doc id).subject reg' := by
  refine ⟨(interpret_congr hmaterial fun ch hch => absurd hch (hsubject ch)).1, ?_⟩
  have hdoc : reg.doc id = reg'.doc id := eq_of_material (·.doc id) (doc_material · id) hmaterial
  simp only [interpret, ← hdoc]
  generalize reg.doc id = d at hsubject hmarked ⊢
  split
  · exact ⟨.none, (Trace.none_on _ reg).symm, (Trace.none_on _ reg').symm⟩
  have hbefore : Beside d (.start reg) (.start reg') :=
    ⟨⟨hmaterial, fun ch hch => absurd hch (hsubject ch), rfl, rfl, rfl, rfl⟩, hmarked,
      fun hnaming => by cases hnaming⟩
  have hstart : SameTrace d (.start reg) (.start reg') (.start (checkMembers d reg))
      (.start (checkMembers d reg')) :=
    { alike := (alike_checkMembers d reg).symm.trans (hbefore.alike.trans (alike_checkMembers d reg'))
      unnamed := fun hnaming => by cases hnaming
      trace := checkMembers_sameTrace d hmaterial }
  have hwords := hstart.trans ((hstart.beside hbefore).readRest hsubject
    (p := ⟨d.textLine, d.textLine, 0, .start (checkMembers d reg)⟩) d.text.toList)
  exact (hwords.trans ((hwords.beside hbefore).conclusion hsubject)).trace

/-! ## Publishing blocks -/

/-- A text ends its last paragraph. -/
theorem readRest_close (d : DocBlock) (p : Progress) (s : List Char) :
    ∃ drafts, (readRest d p s).2 = drafts ++ [.close] := by
  induction s using text_induction generalizing p with
  | blank s hs =>
      rw [readRest_blank d p hs]
      exact ⟨_, rfl⟩
  | word b w rest hb hw hrest ih =>
      obtain ⟨drafts, hdrafts⟩ := ih (readToken d p ⟨b, w, rest⟩).1
      rw [readRest_word d p hb hw hrest]
      exact ⟨(readToken d p ⟨b, w, rest⟩).2 ++ drafts, by rw [hdrafts, List.append_assoc]⟩

/-- What is said behind a text ends its paragraph. -/
theorem conclusion_close (d : DocBlock) (st : State) :
    (conclusion d st).2 = [] ∨ ∃ drafts, (conclusion d st).2 = drafts ++ [.close] := by
  unfold conclusion
  split
  · unfold concludeFunction
    dsimp only
    split
    · exact .inl rfl
    · exact .inr ⟨[_, _], rfl⟩
  · exact .inl rfl
  · exact .inl rfl

/-- After a block nothing is open, if nothing was open before it. -/
theorem closed_interpret (reg : Registry) (id : DocId) :
    (Spacing.closed.settle (interpret reg id).2).1 = .closed := by
  simp only [interpret]
  split
  · rfl
  generalize reg.doc id = d
  obtain ⟨body, hbody⟩ := readRest_close d
    ⟨d.textLine, d.textLine, 0, .start (checkMembers d reg)⟩ d.text.toList
  simp only [readRest] at hbody
  obtain hnone | ⟨closing, hclosing⟩ := conclusion_close d
    (readWords d d.text.toList d.textLine d.textLine 0 (.start (checkMembers d reg))).1
  · rw [hnone, hbody, List.append_nil, ← List.append_assoc]
    exact (settle_close .closed _).1
  · rw [hclosing, ← List.append_assoc]
    exact (settle_close .closed _).1

/-- Drafts a block and sends it out behind a stream that has come to `sp`. -/
def send (reg : Registry) (sp : Spacing) (id : DocId) : Registry × Spacing × List Event :=
  let (reg, drafts) := interpret reg id
  (reg, sp.settle drafts)

/-- A block about a function or a class is sent in the same way from two registries of one material
that agree on the mark of its subject. -/
theorem send_sameTrace {reg reg' : Registry} {id : DocId}
    (hsubject : ∀ ch, (reg.doc id).subject ≠ .chapter ch) (hmaterial : reg.material = reg'.material)
    (hmarked : reg.isMarked (reg.doc id).subject = reg'.isMarked (reg.doc id).subject) :
    ∃ (t : Trace) (events : List Event),
      send reg .closed id = (t.on (reg.doc id).subject reg, .closed, events) ∧
        send reg' .closed id = (t.on (reg.doc id).subject reg', .closed, events) := by
  obtain ⟨hdrafts, t, ht, ht'⟩ := interpret_sameTrace hsubject hmaterial hmarked
  have hclosed : Spacing.closed.settle (interpret reg id).2 =
      (.closed, (Spacing.closed.settle (interpret reg id).2).2) :=
    Prod.ext (closed_interpret reg id) rfl
  refine ⟨t, (Spacing.closed.settle (interpret reg id).2).2, ?_, ?_⟩
  · simp only [send, ht, ← hclosed]
  · simp only [send, ht', ← hdrafts, ← hclosed]

/-- What a block about a function or a class leaves does not mark another subject. -/
theorem isMarked_interpret_ne {reg : Registry} {id : DocId} {s : Subject}
    (hsubject : ∀ ch, (reg.doc id).subject ≠ .chapter ch) (hne : (reg.doc id).subject ≠ s) :
    (interpret reg id).1.isMarked s = reg.isMarked s := by
  obtain ⟨-, t, ht, -⟩ := interpret_sameTrace hsubject (rfl : reg.material = reg.material) rfl
  rw [ht]
  exact t.isMarked_on_ne _ s reg hne

/-- The blocks `a` and `b` are sent in either order, and each of them leaves the same trace, sends the
same events and leaves nothing open.  The registries that the two orders come to differ only in the
order of the reports. -/
structure Independent (reg : Registry) (a b : DocId) (ofA ofB : Trace)
    (eventsA eventsB : List Event) : Prop where
  first_a : send reg .closed a = (ofA.on (reg.doc a).subject reg, .closed, eventsA)
  then_b : send (ofA.on (reg.doc a).subject reg) .closed b =
    (ofB.on (reg.doc b).subject (ofA.on (reg.doc a).subject reg), .closed, eventsB)
  first_b : send reg .closed b = (ofB.on (reg.doc b).subject reg, .closed, eventsB)
  then_a : send (ofB.on (reg.doc b).subject reg) .closed a =
    (ofA.on (reg.doc a).subject (ofB.on (reg.doc b).subject reg), .closed, eventsA)
  registry :
    { ofB.on (reg.doc b).subject (ofA.on (reg.doc a).subject reg) with diagnostics := [] } =
      { ofA.on (reg.doc a).subject (ofB.on (reg.doc b).subject reg) with diagnostics := [] }
  reports : (ofB.on (reg.doc b).subject (ofA.on (reg.doc a).subject reg)).diagnostics.Perm
    (ofA.on (reg.doc a).subject (ofB.on (reg.doc b).subject reg)).diagnostics

/-- **Two blocks** about different functions or classes are independent. -/
theorem send_independent {reg : Registry} {a b : DocId}
    (ha : ∀ ch, (reg.doc a).subject ≠ .chapter ch) (hb : ∀ ch, (reg.doc b).subject ≠ .chapter ch)
    (hne : (reg.doc a).subject ≠ (reg.doc b).subject) :
    ∃ (ofA ofB : Trace) (eventsA eventsB : List Event),
      Independent reg a b ofA ofB eventsA eventsB := by
  obtain ⟨ofA, eventsA, hA, hBA⟩ := send_sameTrace ha (notes_interpret reg b).material.symm
    (isMarked_interpret_ne hb hne.symm).symm
  obtain ⟨ofB, eventsB, hB, hAB⟩ := send_sameTrace hb (notes_interpret reg a).material.symm
    (isMarked_interpret_ne ha hne).symm
  have hafterA : (interpret reg a).1 = ofA.on (reg.doc a).subject reg := congrArg Prod.fst hA
  have hafterB : (interpret reg b).1 = ofB.on (reg.doc b).subject reg := congrArg Prod.fst hB
  rw [hafterB] at hBA
  rw [hafterA] at hAB
  obtain ⟨hregistry, hreports⟩ := ofA.on_comm ofB (reg.doc a).subject (reg.doc b).subject reg
  exact ⟨ofA, ofB, eventsA, eventsB, hA, hAB, hB, hBA, hregistry, hreports⟩

/-- The page of a class, and its one function, which is said to be one of several. -/
theorem send_independent_foo :
    let foo : Class := { Class.placeholder "Foo" with members := [⟨0⟩], doc := some ⟨0⟩ }
    let resize : Function :=
      { (default : Function) with name := "Foo::resize", parameters := "(int size)", doc := some ⟨1⟩ }
    let page : DocBlock :=
      { origin := default, textLine := 1, text := "Keeps bars, see resize().\n",
        subject := .classPage ⟨0⟩ }
    let block : DocBlock :=
      { origin := default, textLine := 9, text := "\\overload\nResizes the Foo.\n",
        subject := .function ⟨0⟩ }
    let reg : Registry :=
      { Registry.empty with classes := [foo], functions := [resize], docs := [page, block] }
    ∃ (ofA ofB : Trace) (eventsA eventsB : List Event),
      Independent reg ⟨0⟩ ⟨1⟩ ofA ofB eventsA eventsB := by
  intro foo resize page block reg
  exact send_independent (a := ⟨0⟩) (b := ⟨1⟩) nofun nofun nofun

end Markup

end CppDoc
