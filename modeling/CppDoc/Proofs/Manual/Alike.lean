import CppDoc.Proofs.Manual.Notes

/-!
# Blocks do not depend on traces

What a block of documentation says is decided by its text, by the material of the manual, and by the
classes that its own chapter has introduced so far.  What other blocks have reported, mentioned or
introduced before it makes no difference.

Two states of reading are **alike** if they agree on all that.  Each reader, started in states that
are alike, drafts the same and ends in states that are alike.

* `Alike.readWord` and `Alike.readWords`: the readers;
* `interpret_congr`: a whole block.
-/

namespace CppDoc.Markup

open CppDoc.Registry CppDoc.Text

/-- Two states in which the rest of the block `d` is read in the same way. -/
structure Alike (d : DocBlock) (st st' : State) : Prop where
  material : st.registry.material = st'.registry.material
  chapter : ∀ ch, d.subject = .chapter ch → st.registry.chapter ch = st'.registry.chapter ch
  expecting : st.expecting = st'.expecting
  mentioned : st.mentioned = st'.mentioned
  introduces : st.introduces = st'.introduces
  overload : st.overload = st'.overload

/-- Two readings that have drafted the same and go on in the same way. -/
structure SameDraft (d : DocBlock) (p p' : State × List Draft) : Prop where
  state : Alike d p.1 p'.1
  drafts : p.2 = p'.2

/-- Two words that have been read in the same way. -/
structure SameOutcome (d : DocBlock) (out out' : Outcome) : Prop where
  state : Alike d out.state out'.state
  drafts : out.drafts = out'.drafts
  taken : out.taken = out'.taken

variable {d : DocBlock} {st st' : State}

theorem Alike.refl (d : DocBlock) (st : State) : Alike d st st :=
  ⟨rfl, fun _ _ => rfl, rfl, rfl, rfl, rfl⟩

theorem Alike.symm (h : Alike d st st') : Alike d st' st where
  material := h.material.symm
  chapter := fun ch hch => (h.chapter ch hch).symm
  expecting := h.expecting.symm
  mentioned := h.mentioned.symm
  introduces := h.introduces.symm
  overload := h.overload.symm

theorem Alike.trans {st'' : State} (h : Alike d st st') (h' : Alike d st' st'') :
    Alike d st st'' where
  material := h.material.trans h'.material
  chapter := fun ch hch => (h.chapter ch hch).trans (h'.chapter ch hch)
  expecting := h.expecting.trans h'.expecting
  mentioned := h.mentioned.trans h'.mentioned
  introduces := h.introduces.trans h'.introduces
  overload := h.overload.trans h'.overload

/-- Reporting a problem makes no difference. -/
theorem alike_report (st : State) (line : Nat) (problem : Problem) :
    Alike d st (st.report d line problem) :=
  ⟨(material_report _ _ _).symm, fun _ _ => rfl, rfl, rfl, rfl, rfl⟩

/-- Nor does it make a difference whether a problem is reported. -/
theorem Alike.reports (h : Alike d st st') {c c' : Prop} [Decidable c] [Decidable c'] (line : Nat)
    (problem : Problem) :
    Alike d (if c then st.report d line problem else st)
      (if c' then st'.report d line problem else st') := by
  have hleft : Alike d st (if c then st.report d line problem else st) := by
    split
    · exact alike_report st line problem
    · exact .refl d st
  have hright : Alike d st' (if c' then st'.report d line problem else st') := by
    split
    · exact alike_report st' line problem
    · exact .refl d st'
  exact hleft.symm.trans (h.trans hright)

theorem Alike.report (h : Alike d st st') (line line' : Nat) (problem problem' : Problem) :
    Alike d (st.report d line problem) (st'.report d line' problem') :=
  (alike_report st line problem).symm.trans (h.trans (alike_report st' line' problem'))

/-- What is expected may be set to the same in both. -/
theorem Alike.setExpecting (h : Alike d st st') (next : Expecting) :
    Alike d { st with expecting := next } { st' with expecting := next } :=
  { h with expecting := rfl }

/-! ## Words -/

theorem Alike.expect (h : Alike d st st') (line : Nat) (directive : String) (next : Expecting) :
    Alike d (st.expect d line directive next) (st'.expect d line directive next) := by
  have hsame : (st.expecting = .text) = (st'.expecting = .text) := by rw [h.expecting]
  simp only [State.expect, hsame]
  split
  · exact h.setExpecting next
  · exact (h.report line line _ _).setExpecting next

theorem Alike.endParagraph (h : Alike d st st') (line : Nat) :
    SameDraft d (endParagraph d line st) (endParagraph d line st') := by
  have hreport : Alike d (if st.expecting = .argument then st.report d line .directiveHanging else st)
      (if st'.expecting = .argument then st'.report d line .directiveHanging else st') :=
    h.reports line .directiveHanging
  exact ⟨hreport.setExpecting .text, rfl⟩

/-- Mentioning a name makes no difference. -/
theorem alike_mention (st : State) (name : String) (site : Location) :
    Alike d st { st with registry := st.registry.mention name site } := by
  refine ⟨(material_mention _ _ _).symm, fun ch _ => ?_, rfl, rfl, rfl, rfl⟩
  unfold Registry.mention
  split <;> rfl

theorem Alike.mention (h : Alike d st st') (name : String) (site : Location) :
    Alike d { st with registry := st.registry.mention name site }
      { st' with registry := st'.registry.mention name site } :=
  (alike_mention st name site).symm.trans (h.trans (alike_mention st' name site))

/-- What an edit of a chapter makes of it. -/
theorem chapter_editChapter (reg : Registry) (ch : ChapterId) (f : Chapter → Chapter) :
    (reg.editChapter ch f).chapter ch =
      if ch.index < reg.chapters.length then f (reg.chapter ch) else reg.chapter ch := by
  split
  · rename_i hlt
    simp [Registry.chapter, editChapter, hlt]
  · rename_i hge
    simp [Registry.chapter, editChapter, hge]

theorem length_chapters_of_material {reg reg' : Registry} (h : reg.material = reg'.material) :
    reg.chapters.length = reg'.chapters.length := by
  have hlength := congrArg (fun reg : Registry => reg.chapters.length) h
  simpa [Registry.material] using hlength

/-- The block's own chapter introduces the same class in both. -/
theorem Alike.introduce (h : Alike d st st') {ch : ChapterId} (hsubject : d.subject = .chapter ch)
    (c : ClassId) :
    Alike d { st with registry := st.registry.editChapter ch (·.introduce c) }
      { st' with registry := st'.registry.editChapter ch (·.introduce c) } := by
  refine { h with material := ?_, chapter := fun own hown => ?_ }
  · rw [material_introduce, material_introduce, h.material]
  · obtain rfl : ch = own := Subject.chapter.inj (hsubject.symm.trans hown)
    simp only [chapter_editChapter, length_chapters_of_material h.material, h.chapter ch hsubject]

theorem Alike.readClassName (h : Alike d st st') (w : List Char) (line : Nat) :
    Alike d (readClassName d w line st) (readClassName d w line st') := by
  simp only [Markup.readClassName]
  generalize String.ofList (trimRightIf (fun c => c == ',' || c == '.') w) = name
  have hmention := (h.mention name ⟨d.origin.file, line⟩)
  have hfind := eq_of_material (·.findClass? name) (findClass?_material · name) hmention.material
  split
  · rename_i ch hsubject
    dsimp only at hfind
    rw [hfind]
    split
    · rename_i c _
      exact hmention.introduce hsubject c
    · exact hmention.report line line _ _
  · exact hmention

theorem Alike.readArgument (h : Alike d st st') (w : List Char) (line : Nat) :
    SameDraft d (readArgument d w line st) (readArgument d w line st') := by
  have hargument := eq_of_material (isArgument · d.subject (argumentName w))
    (isArgument_material · d.subject (argumentName w)) h.material
  refine ⟨?_, rfl⟩
  simp only [Markup.readArgument, h.mentioned, hargument]
  apply Alike.setExpecting
  split
  · exact h
  split
  · exact { h with mentioned := rfl }
  · exact h.report line line _ _

theorem Alike.readReference (h : Alike d st st') (w : List Char) (line : Nat) :
    SameDraft d (readReference d w line st) (readReference d w line st') := by
  have hresolve := eq_of_material (resolve · d.subject w) (resolve_material · d.subject w) h.material
  simp only [Markup.readReference, hresolve]
  split
  · rename_i f _
    exact ⟨h, by rw [eq_of_material (·.memberRef f) (memberRef_material · f) h.material]⟩
  · rename_i c _
    have hname : (st.registry.getClass c).name = (st'.registry.getClass c).name :=
      eq_of_material (fun reg => (reg.getClass c).name)
        (fun reg => by rw [getClass_material]; rfl) h.material
    exact ⟨h, by rw [hname]⟩
  · exact ⟨h, rfl⟩
  · exact ⟨h.report line line _ _, rfl⟩

theorem Alike.readPlain (h : Alike d st st') (w : List Char) (line : Nat) :
    SameDraft d (readPlain d w line st) (readPlain d w line st') := by
  simp only [Markup.readPlain, h.expecting]
  split
  · exact ⟨h.readClassName w line, rfl⟩
  · exact h.readArgument w line
  · exact h.readReference w line

/-- Marking a function as an overload makes no difference. -/
theorem alike_markOverload (st : State) (f : FunctionId) :
    Alike d st
      { st with registry := st.registry.editFunction f fun g => { g with overload := true } } :=
  ⟨(material_markOverload _ _).symm, fun _ _ => rfl, rfl, rfl, rfl, rfl⟩

theorem Alike.readOverload (h : Alike d st st') (line n : Nat) :
    Alike d (readOverload d line n st) (readOverload d line n st') := by
  have hfirst (f : FunctionId) (st : State) : Alike d { st with overload := true }
      (if (st.registry.function f).overload then
        { st with overload := true }.report d line .overloadRepeated
      else
        { st with
          overload := true
          registry := st.registry.editFunction f fun g => { g with overload := true } }) := by
    split
    · exact alike_report _ line _
    · exact alike_markOverload { st with overload := true } f
  simp only [Markup.readOverload]
  apply Alike.reports
  split
  · rename_i f _
    have hseen : Alike d { st with overload := true } { st' with overload := true } :=
      { h with overload := rfl }
    exact (hfirst f st).symm.trans (hseen.trans (hfirst f st'))
  · exact h.report line line _ _

theorem Alike.readDirective (h : Alike d st st') (w rest : List Char) (line n : Nat) :
    SameOutcome d (readDirective d w rest line n st) (readDirective d w rest line n st') := by
  unfold Markup.readDirective
  split
  · refine ⟨?_, rfl, rfl⟩
    simp only [Outcome.ofPair]
    split
    · exact h.expect line _ _
    · exact h.report line line _ _
  · refine ⟨?_, rfl, rfl⟩
    simp only [Outcome.ofPair]
    split
    · exact { h.expect line _ .classes with introduces := rfl }
    · exact { h.report line line _ _ with introduces := rfl }
  · exact ⟨h.readOverload line n, rfl, rfl⟩
  all_goals first | exact ⟨h, rfl, rfl⟩ | exact ⟨h.report line line _ _, rfl, rfl⟩

/-- **A word.**  It is read in the same way in states that are alike. -/
theorem Alike.readWord (h : Alike d st st') (w rest : List Char) (line n : Nat) :
    SameOutcome d (readWord d w rest line n st) (readWord d w rest line n st') := by
  have hplain := h.readPlain w line
  have hplain' : SameOutcome d (.ofPair (Markup.readPlain d w line st))
      (.ofPair (Markup.readPlain d w line st')) :=
    ⟨hplain.state, hplain.drafts, rfl⟩
  unfold Markup.readWord
  split
  · split
    · exact ⟨h, rfl, rfl⟩
    · exact hplain'
  split
  · exact ⟨h, rfl, rfl⟩
  split
  · exact h.readDirective w rest line n
  · exact hplain'

theorem Alike.readBlanks (h : Alike d st st') (blanks : List Char) (last : Nat) :
    SameDraft d (readBlanks d blanks last st) (readBlanks d blanks last st') := by
  simp only [Markup.readBlanks, h.expecting]
  split
  · exact h.endParagraph last
  · split <;> exact ⟨h, rfl⟩

/-- **The words of a block.**  They are read in the same way in states that are alike. -/
theorem Alike.readWords (h : Alike d st st') (s : List Char) (line last n : Nat) :
    SameDraft d (readWords d s line last n st) (readWords d s line last n st') := by
  induction hlen : s.length using Nat.strongRecOn generalizing s line last n st st' with
  | ind k ih =>
      have hblanks := h.readBlanks (s.takeWhile isBlank) last
      unfold Markup.readWords
      dsimp only
      split
      · have hend := hblanks.state.endParagraph last
        exact ⟨hend.state, by rw [hblanks.drafts, hend.drafts]⟩
      · rename_i c behind hbehind
        have hword := hblanks.state.readWord (c :: behind.takeWhile (!isBlank ·))
          (behind.dropWhile (!isBlank ·)) (line + lineFeeds (s.takeWhile isBlank)) (n + 1)
        have hrest (taken line last : Nat) :=
          ih _ (hlen ▸ length_behind_word hbehind taken) hword.state _ line last (n + 1) rfl
        rw [← hword.taken]
        refine ⟨(hrest _ _ _).state, ?_⟩
        rw [hblanks.drafts, hword.drafts, (hrest _ _ _).drafts]

/-! ## Blocks -/

/-- Reporting one problem after another makes no difference. -/
theorem alike_reports (line : Nat) (problem : String → Problem) (names : List String) (st : State) :
    Alike d st (names.foldl (fun st name => st.report d line (problem name)) st) := by
  induction names generalizing st with
  | nil => exact .refl d st
  | cons name rest ih => exact (alike_report st line (problem name)).trans (ih _)

theorem Alike.conclusion (h : Alike d st st') : SameDraft d (conclusion d st) (conclusion d st') := by
  unfold Markup.conclusion
  split
  · rename_i f _
    refine ⟨?_, ?_⟩
    · exact (alike_reports _ _ _ st).symm.trans (h.trans (alike_reports _ _ _ st'))
    · simp only [concludeFunction,
        eq_of_material (·.overridden f) (overridden_material · f) h.material]
      split
      · rfl
      · rename_i base _
        rw [eq_of_material (·.memberRef base) (memberRef_material · base) h.material]
  · refine ⟨?_, rfl⟩
    simp only [h.introduces]
    split
    · exact h
    · exact h.report _ _ _ _
  · exact ⟨h, rfl⟩

theorem alike_checkMembers (d : DocBlock) (reg : Registry) :
    Alike d (.start reg) (.start (checkMembers d reg)) := by
  have hnotes := notes_checkMembers d reg
  refine ⟨hnotes.material.symm, fun ch hch => ?_, rfl, rfl, rfl, rfl⟩
  unfold checkMembers
  split
  · split <;> rfl
  · rfl

/-- **A block.**  It says the same in all registries of one material in which its own chapter is the
same, and makes the same of that chapter. -/
theorem interpret_congr {reg reg' : Registry} {id : DocId} (h : reg.material = reg'.material)
    (hchapter : ∀ ch, (reg.doc id).subject = .chapter ch → reg.chapter ch = reg'.chapter ch) :
    (interpret reg id).2 = (interpret reg' id).2 ∧
      ∀ ch, (reg.doc id).subject = .chapter ch →
        (interpret reg id).1.chapter ch = (interpret reg' id).1.chapter ch := by
  have hdoc : reg.doc id = reg'.doc id := eq_of_material (·.doc id) (doc_material · id) h
  have hbefore : Alike (reg.doc id) (.start reg) (.start reg') :=
    ⟨h, hchapter, rfl, rfl, rfl, rfl⟩
  have hstart : Alike (reg.doc id) (.start (checkMembers (reg.doc id) reg))
      (.start (checkMembers (reg.doc id) reg')) :=
    (alike_checkMembers _ reg).symm.trans (hbefore.trans (alike_checkMembers _ reg'))
  have hwords := hstart.readWords (reg.doc id).text.toList (reg.doc id).textLine
    (reg.doc id).textLine 0
  have hend := hwords.state.conclusion
  have hpreamble := eq_of_material (preamble · (reg.doc id).subject) (preamble_material · _) h
  simp only [interpret, ← hdoc]
  split
  · exact ⟨rfl, hchapter⟩
  · refine ⟨?_, fun ch hch => hend.state.chapter ch hch⟩
    rw [hpreamble, hwords.drafts, hend.drafts]

end CppDoc.Markup
