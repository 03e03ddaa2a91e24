import CppDoc.Proofs.Manual.Material

/-!
# The notes that a block leaves

Drafting a block of documentation leaves **notes** in the registry: problems are reported in the file
of the block, names are noted as mentioned, the block's own function is marked as an overload, and
the block's own chapter introduces classes.  `Note` lists them, and `Notes` is a sequence of them.

* `resolve_cases`: what a word of plain text can refer to;
* `notes_readWords` and `notes_interpret`: nothing else is left;
* `Notes.material`, `Notes.classes`, `Notes.chapter` and `Notes.complaints`: what notes leave alone.
-/

namespace CppDoc

open CppDoc.Registry CppDoc.Text

/-- Does the problem say that documentation is missing altogether? -/
def Problem.isUndocumented : Problem → Bool
  | .undocumentedClass _ => true
  | .undocumentedFunction _ _ => true
  | _ => false

/-- The reports of missing documentation. -/
def Registry.complaints (reg : Registry) : List Diagnostic :=
  reg.diagnostics.filter (·.problem.isUndocumented)

namespace Markup

/-- One note that the block `d` leaves. -/
inductive Note (d : DocBlock) (reg : Registry) : Registry → Prop
  | report (line : Nat) {problem : Problem} (hworded : problem.isUndocumented = false) :
      Note d reg (reg.report ⟨d.origin.file, line⟩ problem)
  | mention (name : String) (line : Nat) : Note d reg (reg.mention name ⟨d.origin.file, line⟩)
  | introduce {ch : ChapterId} {name : String} {c : ClassId} (hsubject : d.subject = .chapter ch)
      (hclass : reg.findClass? name = some c) : Note d reg (reg.editChapter ch (·.introduce c))
  | markOverload {f : FunctionId} (hsubject : d.subject = .function f) :
      Note d reg (reg.editFunction f fun g => { g with overload := true })

/-- A sequence of notes that the block `d` leaves. -/
inductive Notes (d : DocBlock) : Registry → Registry → Prop
  | refl (reg : Registry) : Notes d reg reg
  | tail {a b c : Registry} (before : Notes d a b) (last : Note d b c) : Notes d a c

variable {d : DocBlock}

theorem Notes.single {a b : Registry} (h : Note d a b) : Notes d a b :=
  .tail (.refl a) h

theorem Notes.trans {a b c : Registry} (hab : Notes d a b) (hbc : Notes d b c) : Notes d a c := by
  induction hbc with
  | refl => exact hab
  | tail _ last ih => exact .tail ih last

theorem Notes.ite {reg a b : Registry} {c : Prop} [Decidable c] (ha : Notes d reg a)
    (hb : Notes d reg b) : Notes d reg (if c then a else b) := by
  split
  · exact ha
  · exact hb

/-! ## Words -/

theorem notes_report (line : Nat) {problem : Problem} (hworded : problem.isUndocumented = false)
    (st : State) : Notes d st.registry (st.report d line problem).registry :=
  .single (.report line hworded)

theorem notes_expect (line : Nat) (directive : String) (next : Expecting) (st : State) :
    Notes d st.registry (st.expect d line directive next).registry := by
  unfold State.expect
  split
  · exact .refl st.registry
  · exact notes_report line rfl st

theorem notes_endParagraph (line : Nat) (st : State) :
    Notes d st.registry (endParagraph d line st).1.registry := by
  unfold endParagraph
  dsimp only
  split
  · exact notes_report line rfl st
  · exact .refl st.registry

theorem notes_readClassName (w : List Char) (line : Nat) (st : State) :
    Notes d st.registry (readClassName d w line st).registry := by
  have hmention : Notes d st.registry (st.registry.mention
      (String.ofList (trimRightIf (fun c => c == ',' || c == '.') w)) ⟨d.origin.file, line⟩) :=
    .single (.mention _ line)
  simp only [readClassName]
  split
  · rename_i ch hsubject
    split
    · rename_i c hclass
      exact .tail hmention (.introduce hsubject hclass)
    · exact .tail hmention (.report line rfl)
  · exact hmention

theorem notes_readArgument (w : List Char) (line : Nat) (st : State) :
    Notes d st.registry (readArgument d w line st).1.registry := by
  unfold readArgument
  dsimp only
  split
  · exact .refl st.registry
  split
  · exact .refl st.registry
  · exact notes_report line rfl st

/-- What a word can refer to: nothing, another function, another class, or a function that is not
known in the class. -/
theorem resolve_cases (reg : Registry) (s : Subject) (w : List Char) :
    resolve reg s w = .text none ∨
    (∃ name f, resolve reg s w = .function f ∧ findTarget? reg (scope reg s) name = some f) ∨
    (∃ name c, resolve reg s w = .classPage c ∧ reg.findClass? name = some c) ∨
    (∃ name className, resolve reg s w = .text (some (.noLinkTarget name className))) := by
  have hcall (name : String) : resolveCall reg s name = .text none ∨
      (∃ f, resolveCall reg s name = .function f ∧ findTarget? reg (scope reg s) name = some f) ∨
      (∃ className, resolveCall reg s name = .text (some (.noLinkTarget name className))) := by
    unfold resolveCall
    dsimp only
    split
    · rename_i f hf
      split
      · exact .inl rfl
      · exact .inr (.inl ⟨f, rfl, hf⟩)
    split
    · split
      · exact .inl rfl
      · exact .inr (.inr ⟨_, rfl⟩)
    · exact .inl rfl
  have hclass (name : String) : resolveClass reg s name = .text none ∨
      (∃ c, resolveClass reg s name = .classPage c ∧ reg.findClass? name = some c) := by
    unfold resolveClass
    split
    · rename_i c hc
      split
      · exact .inl rfl
      · exact .inr ⟨c, rfl, hc⟩
    · exact .inl rfl
  unfold resolve
  dsimp only
  split
  · split
    · rename_i name _
      rcases hcall (String.ofList name) with h | ⟨f, h, hf⟩ | ⟨className, h⟩
      · exact .inl h
      · exact .inr (.inl ⟨_, f, h, hf⟩)
      · exact .inr (.inr (.inr ⟨_, className, h⟩))
    · exact .inl rfl
  split
  · rcases hclass (String.ofList (proper w)) with h | ⟨c, h, hc⟩
    · exact .inl h
    · exact .inr (.inr (.inl ⟨_, c, h, hc⟩))
  · exact .inl rfl

theorem notes_readReference (w : List Char) (line : Nat) (st : State) :
    Notes d st.registry (readReference d w line st).1.registry := by
  simp only [readReference]
  split
  · exact .refl st.registry
  · exact .refl st.registry
  · exact .refl st.registry
  · rename_i problem hproblem
    obtain h | ⟨_, _, h, _⟩ | ⟨_, _, h, _⟩ | ⟨_, _, h⟩ := resolve_cases st.registry d.subject w
    all_goals cases hproblem.symm.trans h
    exact notes_report line rfl st

theorem notes_readPlain (w : List Char) (line : Nat) (st : State) :
    Notes d st.registry (readPlain d w line st).1.registry := by
  unfold readPlain
  split
  · exact notes_readClassName w line st
  · exact notes_readArgument w line st
  · exact notes_readReference w line st

theorem notes_readOverload (line n : Nat) (st : State) :
    Notes d st.registry (readOverload d line n st).registry := by
  have hlast (st' : State) (h : Notes d st.registry st'.registry) :
      Notes d st.registry (if 1 < n then st'.report d line .overloadNotFirst else st').registry := by
    split
    · exact h.trans (notes_report line rfl st')
    · exact h
  apply hlast
  split
  · rename_i f hsubject
    dsimp only
    split
    · exact notes_report line rfl { st with overload := true }
    · exact .single (.markOverload hsubject)
  · exact notes_report line rfl st

theorem notes_readDirective (w rest : List Char) (line n : Nat) (st : State) :
    Notes d st.registry (readDirective d w rest line n st).state.registry := by
  unfold readDirective
  split
  · simp only [Outcome.ofPair]
    split
    · exact notes_expect line _ _ st
    · exact notes_report line rfl st
  · simp only [Outcome.ofPair]
    split
    · exact notes_expect line _ .classes st
    · exact notes_report line rfl st
  · exact notes_readOverload line n st
  all_goals first | exact .refl st.registry | exact notes_report line rfl st

theorem notes_readWord (w rest : List Char) (line n : Nat) (st : State) :
    Notes d st.registry (readWord d w rest line n st).state.registry := by
  unfold readWord
  split
  · split
    · exact .refl st.registry
    · exact notes_readPlain w line st
  split
  · exact .refl st.registry
  split
  · exact notes_readDirective w rest line n st
  · exact notes_readPlain w line st

theorem notes_readBlanks (blanks : List Char) (last : Nat) (st : State) :
    Notes d st.registry (readBlanks d blanks last st).1.registry := by
  unfold readBlanks
  split
  · exact notes_endParagraph last st
  · split <;> exact .refl st.registry

/-- What is left of a text behind a word is shorter than the text. -/
theorem length_behind_word {s behind : List Char} {c : Char} (h : s.dropWhile isBlank = c :: behind)
    (taken : Nat) : ((behind.dropWhile (!isBlank ·)).drop taken).length < s.length := by
  have hle := (List.dropWhile_sublist (l := s) isBlank).length_le
  have hrest := (List.dropWhile_sublist (l := behind) (!isBlank ·)).length_le
  simp only [h, List.length_cons] at hle
  simp only [List.length_drop]
  omega

/-- **The words of a block.**  Reading them leaves notes. -/
theorem notes_readWords (d : DocBlock) (s : List Char) (line last n : Nat) (st : State) :
    Notes d st.registry (readWords d s line last n st).1.registry := by
  induction hlen : s.length using Nat.strongRecOn generalizing s line last n st with
  | ind k ih =>
      have hblanks := notes_readBlanks (d := d) (s.takeWhile isBlank) last st
      unfold readWords
      dsimp only
      split
      · exact hblanks.trans (notes_endParagraph last _)
      · rename_i c behind hbehind
        have hrest := length_behind_word hbehind
        exact hblanks.trans
          ((notes_readWord _ _ _ _ _).trans (ih _ (hlen ▸ hrest _) _ _ _ _ _ rfl))

/-! ## Blocks -/

/-- Reporting one problem after another. -/
private theorem notes_reports (line : Nat) {problem : String → Problem}
    (hworded : ∀ name, (problem name).isUndocumented = false) (names : List String) (st : State) :
    Notes d st.registry
      (names.foldl (fun st name => st.report d line (problem name)) st).registry := by
  induction names generalizing st with
  | nil => exact .refl st.registry
  | cons name rest ih => exact (notes_report line (hworded name) st).trans (ih _)

theorem notes_conclusion (d : DocBlock) (st : State) :
    Notes d st.registry (conclusion d st).1.registry := by
  unfold conclusion
  split
  · exact notes_reports d.origin.line (fun _ => rfl) _ st
  · dsimp only
    split
    · exact .refl st.registry
    · exact notes_report d.origin.line rfl st
  · exact .refl st.registry

theorem notes_checkMembers (d : DocBlock) (reg : Registry) : Notes d reg (checkMembers d reg) := by
  unfold checkMembers
  split
  · exact .ite (.single (.report d.origin.line rfl)) (.refl reg)
  · exact .refl reg

/-- **One block.**  Drafting a block of documentation leaves notes. -/
theorem notes_interpret (reg : Registry) (id : DocId) :
    Notes (reg.doc id) reg (interpret reg id).1 := by
  have hchecked := notes_checkMembers (reg.doc id) reg
  have hwords := notes_readWords (reg.doc id) (reg.doc id).text.toList (reg.doc id).textLine
    (reg.doc id).textLine 0 (.start (checkMembers (reg.doc id) reg))
  simp only [interpret]
  split
  · exact .refl reg
  · exact hchecked.trans (hwords.trans (notes_conclusion _ _))

/-! ## What notes leave alone -/

section Notes

variable {reg reg' : Registry}

theorem Note.material (h : Note d reg reg') : reg'.material = reg.material := by
  cases h with
  | report line _ => exact material_report reg _ _
  | mention name line => exact material_mention reg name _
  | introduce _ _ => exact material_introduce reg _ _
  | markOverload _ => exact material_markOverload reg _

theorem Notes.material (h : Notes d reg reg') : reg'.material = reg.material := by
  induction h with
  | refl => rfl
  | tail _ last ih => exact last.material.trans ih

theorem Note.classes (h : Note d reg reg') : reg'.classes = reg.classes := by
  cases h with
  | mention name line =>
      unfold Registry.mention
      split <;> rfl
  | _ => rfl

/-- Notes mark no class as drafted. -/
theorem Notes.classes (h : Notes d reg reg') : reg'.classes = reg.classes := by
  induction h with
  | refl => rfl
  | tail _ last ih => exact last.classes.trans ih

theorem Note.chapter (h : Note d reg reg') {ch : ChapterId} (hother : d.subject ≠ .chapter ch) :
    reg'.chapter ch = reg.chapter ch := by
  cases h with
  | mention name line =>
      unfold Registry.mention
      split <;> rfl
  | introduce hsubject _ =>
      rename_i own _ c _
      have hne : own.index ≠ ch.index := by
        intro hindex
        exact hother (hsubject.trans (congrArg (fun i => Subject.chapter ⟨i⟩) hindex))
      simp [Registry.chapter, editChapter, hne]
  | _ => rfl

/-- A block is about one chapter at most, and only that one introduces classes. -/
theorem Notes.chapter (h : Notes d reg reg') {ch : ChapterId} (hother : d.subject ≠ .chapter ch) :
    reg'.chapter ch = reg.chapter ch := by
  induction h with
  | refl => rfl
  | tail _ last ih => exact (last.chapter hother).trans ih

theorem complaints_report (reg : Registry) (site : Location) {problem : Problem}
    (hworded : problem.isUndocumented = false) :
    (reg.report site problem).complaints = reg.complaints := by
  simp [complaints, report, hworded]

theorem Note.complaints (h : Note d reg reg') : reg'.complaints = reg.complaints := by
  cases h with
  | report line hworded => exact complaints_report reg _ hworded
  | mention name line =>
      unfold Registry.mention
      split
      · rfl
      · rw [complaints_report _ _ rfl, complaints_report _ _ rfl]
  | introduce _ _ => rfl
  | markOverload _ => rfl

/-- Notes do not say that documentation is missing altogether. -/
theorem Notes.complaints (h : Notes d reg reg') : reg'.complaints = reg.complaints := by
  induction h with
  | refl => rfl
  | tail _ last ih => exact last.complaints.trans ih

end Notes

end Markup

end CppDoc
