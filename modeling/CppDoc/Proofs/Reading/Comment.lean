import CppDoc.Comment
import CppDoc.Proofs.Reading.Header

/-!
# What comments enter

The readers of `Comment` take steps from one state of reading to another.  What a comment is about is
an entity of the registry by then, so that its text can be attached to it; and a failure leaves behind
what has been entered before it.

* `Finds`: the subject that has been found is there;
* `requireHeader_cases`: what happens to a header that a comment names;
* `leads_settle`: the text is attached to what has been found;
* `exists_leads_scan`: the whole scan, whether it fails or not; `entries_scan`, `tidy_scan` and
  `gathers_scan`: what it enters, that its texts are tidy, and that the headers that it adds are new ones.
-/

namespace CppDoc.Comment

open CppDoc.Syntax CppDoc.Registry Reading

/-- If something has been found, the registry has it. -/
def Bound (reg : Registry) (binding : Binding) : Prop :=
  ∀ subject, binding = .about subject → reg.HasSubject subject

/-- Steps lead from `r` to `p`, and what has been found on the way is there. -/
structure Finds (r : Reading) (p : Binding × Reading) : Prop where
  steps : Steps True r p.2
  bound : r.Sound → Bound p.2.registry p.1

/-! ## Functions -/

/-- A function that has been found is what the comment is about; otherwise it is reported. -/
private theorem finds_found {r : Reading} {found : Option FunctionId × Reading} (line : Nat)
    (h : Steps True r found.2) (hfound : ∀ f, found.1 = some f → found.2.registry.HasFunction f) :
    Finds r (match found.1 with
      | some f => (.about (.function f), found.2)
      | none => (.unbound, found.2.report line .unreadableFunction)) := by
  obtain ⟨_ | f, r'⟩ := found
  · exact ⟨h.trans (r'.steps_report line rfl), fun _ _ hsubject => nomatch hsubject⟩
  · refine ⟨h, fun _ subject hsubject => ?_⟩
    obtain rfl := Binding.about.inj hsubject
    exact hfound f rfl

/-- A function is declared on a condition. -/
private theorem finds_declared {r r' : Reading} {returnType name parameters : String}
    (htype : Text.Tidy returnType.toList) (hname : Text.Tidy name.toList)
    (hparameters : Text.Tidy parameters.toList) (isConst : Bool) (line : Nat) {c : Bool}
    (hc : c = true → name ≠ "") (h : Steps True r r') :
    let found := if c then r'.declare returnType name parameters isConst line else (none, r')
    Finds r (match found.1 with
      | some f => (.about (.function f), found.2)
      | none => (.unbound, found.2.report line .unreadableFunction)) := by
  cases c with
  | false => exact ⟨h.trans (r'.steps_report line rfl), fun _ _ hsubject => nomatch hsubject⟩
  | true =>
      have hdeclared := steps_declare (E := True) r' (fun _ => htype) (fun _ => hname) (hc rfl)
        (fun _ => hparameters) isConst line
      exact finds_found line (h.trans hdeclared) fun _ hf => hasFunction_declare r'.registry hf

/-- A qualified name is not empty. -/
private theorem ne_empty_of_isQualified {name : String} {c : Bool} (h : (isQualified name && c) = true) :
    name ≠ "" := by
  rintro rfl
  simp [isQualified] at h

theorem finds_scanFunction (r : Reading) : Finds r (scanFunction r) := by
  have hname : Steps True r ((r.read readType).2.line.2.read readName).2 :=
    ((r.steps_read readType).trans (steps_line _)).trans (steps_read _ readName)
  have hparameters := (hname.trans (steps_read _ readParameters)).trans (steps_skipGap _)
  have hconst := hparameters.trans (Header.steps_readConst _)
  have htype : Text.Tidy (r.read readType).1.toList := tidy_readType _
  have hname : Text.Tidy ((r.read readType).2.line.2.read readName).1.toList := tidy_readName _
  have hlist (r : Reading) : Text.Tidy (r.read readParameters).1.toList := tidy_readParameters _
  simp only [scanFunction]
  refine finds_declared ?_ ?_ (hlist _) _ _ ne_empty_of_isQualified hconst
  · split
    · exact Text.tidy_nil
    · exact htype
  · split
    · exact htype
    · exact hname

/-! ## Classes and chapters -/

/-- Reads one more word of the name of a header. -/
def readHeaderWord (s : String × Reading) : Bool × String × Reading :=
  if s.2.lookingAt "." || s.2.lookingAt "/" then
    let separator := if s.2.lookingAt "." then "." else "/"
    let (word, r) := s.2.step.read readWord
    (true, s.1 ++ separator ++ word, r)
  else (false, s.1, s.2)

theorem readHeaderName_eq_iterate (r : Reading) :
    readHeaderName r = iterate (·.2.left) readHeaderWord (r.read readWord) := rfl

theorem steps_readHeaderWord (s : String × Reading) : Steps True s.2 (readHeaderWord s).2.2 := by
  unfold readHeaderWord
  split
  · exact (steps_step _).trans (steps_read _ readWord)
  · exact .refl _

theorem steps_readHeaderName (r : Reading) : Steps True r (readHeaderName r).2 := by
  rw [readHeaderName_eq_iterate]
  exact iterate_induction (P := fun s : String × Reading => Steps True r s.2)
    (fun s hs => hs.trans (steps_readHeaderWord s)) (r.steps_read readWord)

/-- A file has been added and scanned as a header. -/
def withHeader (r : Reading) (file : SourceFile) : Reading :=
  { r with registry := Header.scan (r.registry.addFile file).2 (r.registry.addFile file).1 }

/-- **A header that is required** has been scanned before, or it is missing, or it is scanned now. -/
theorem requireHeader_cases {tree : FileTree} {className header : String} {line : Nat}
    {r r' : Reading} (h : requireHeader tree className header line r = .ok r') :
    (r.registry.findHeader? header).isSome = true ∧ r' = r ∨
      (r.registry.findHeader? header).isSome = false ∧
        ∃ path, path = Path.join (Path.parent (r.registry.file r.file).path) header ∧
          (tree.read path = .missing ∧ r' = r.report line (.headerNotFound path className) ∨
            ∃ text, tree.read path = .text text ∧ r' = withHeader r { path, kind := .header, text }) := by
  simp only [requireHeader, bind, Except.bind, pure, Except.pure] at h
  split at h
  · rename_i hfound
    exact .inl ⟨hfound, (Except.ok.inj h).symm⟩
  · rename_i hnone
    refine .inr ⟨Bool.not_eq_true _ ▸ hnone, _, rfl, ?_⟩
    unfold scanHeaderFile at h
    cases htext : tree.read (Path.join (Path.parent (r.registry.file r.file).path) header) with
    | missing =>
        rw [htext] at h
        exact .inl ⟨rfl, (Except.ok.inj h).symm⟩
    | unreadable =>
        rw [htext] at h
        exact nomatch h
    | text text =>
        rw [htext] at h
        exact .inr ⟨text, rfl, (Except.ok.inj h).symm⟩

theorem steps_withHeader {r : Reading} {file : SourceFile}
    (hgathers : Gathers r.registry (r.registry.addFile file).2) : Steps True r (withHeader r file) := by
  have hadd : Entries r.registry (r.registry.addFile file).2 := .single (.addFile file)
  have hnew : (r.registry.addFile file).2.HasFile (r.registry.addFile file).1 := by
    simp [HasFile, Registry.addFile]
  have hdocs : (withHeader r file).registry.docs = r.registry.docs :=
    Header.docs_scan (r.registry.addFile file).2 (r.registry.addFile file).1
  have htidy (h : r.registry.Tidy) : (r.registry.addFile file).2.Tidy := ⟨h.classes, h.functions⟩
  exact ⟨⟨rfl, hdocs, .refl r.cursor⟩,
    fun hr => hadd.trans (Header.entries_scan (hadd.edits.wellFormed hr.wellFormed) hnew),
    fun _ h => Header.tidy_scan (htidy h) _, hgathers.trans (Header.gathers_scan _ _)⟩

theorem steps_requireHeader {tree : FileTree} {className header : String} {line : Nat}
    {r r' : Reading} (h : requireHeader tree className header line r = .ok r') :
    Steps True r r' := by
  obtain ⟨-, rfl⟩ | ⟨hnone, path, rfl, ⟨-, rfl⟩ | ⟨text, -, rfl⟩⟩ := requireHeader_cases h
  · exact .refl r'
  · exact steps_report _ _ rfl
  · exact steps_withHeader (gathers_addHeader r.registry hnone _ text)

/-- A comment about a class that has been named, whatever is read after the name. -/
private theorem finds_classNamed {r r₁ r' : Reading} {name : String}
    (hname : Text.Tidy name.toList) (hr₁ : Steps True r r₁)
    (h : Steps True (r₁.classNamed name).2 r') :
    Finds r (.about (.classPage (r₁.classNamed name).1), r') := by
  have hclass := hr₁.trans (r₁.steps_classNamed fun _ => hname)
  refine ⟨hclass.trans h, fun hr subject hsubject => ?_⟩
  obtain rfl := Binding.about.inj hsubject
  obtain ⟨c, hc, _⟩ := getElem?_classNamed r₁.registry name
  have hedits := Leads.edits (.of_steps h) (Leads.sound (.of_steps hclass) hr)
  exact hedits.persists.hasClass (hasClass_of_getElem? hc)

/-- A class directive finds the class, or fails after it has been entered. -/
theorem finds_scanClassDirective (tree : FileTree) (line : Nat) (r : Reading) :
    (∀ p, scanClassDirective tree line r = .ok p → Finds r p) ∧
      ∀ e r', scanClassDirective tree line r = .error (e, r') → Steps True r r' := by
  have hread : Steps True r (r.read readName).2 := r.steps_read readName
  unfold scanClassDirective
  have htidy : Text.Tidy (r.read readName).1.toList := tidy_readName _
  rcases hname : r.read readName with ⟨className, r₁⟩
  rw [hname] at hread htidy
  have hnamed : Steps True r (if className.isEmpty then r₁.report line .unnamedClass else r₁) :=
    hread.trans (.ite (r₁.steps_report _ rfl) (.refl r₁))
  dsimp only
  generalize ite (className.isEmpty = true) _ _ = r₂ at hnamed ⊢
  have hheader := (r₂.classNamed className).2.steps_skipGap.trans
    (steps_readHeaderName (r₂.classNamed className).2.skipGap)
  generalize readHeaderName (r₂.classNamed className).2.skipGap = header at hheader ⊢
  split
  · refine ⟨fun p h => ?_, fun _ _ h => nomatch h⟩
    obtain rfl := Except.ok.inj h
    exact finds_classNamed htidy hnamed (hheader.trans (steps_report _ _ rfl))
  · have hincluded : Steps True (r₂.classNamed className).2
        (if includes (header.2.registry.file header.2.file).text header.1 then header.2
          else header.2.report line (.headerNotIncluded header.1)) :=
      hheader.trans (.ite (.refl _) (steps_report _ _ rfl))
    generalize ite (includes _ _ = true) _ _ = r₃ at hincluded ⊢
    cases hrequired : requireHeader tree className header.1 line r₃ with
    | error e =>
        refine ⟨fun _ h => (nomatch h), fun e r' h => ?_⟩
        obtain ⟨-, rfl⟩ := Prod.mk.inj (Except.error.inj h)
        exact (hnamed.trans (r₂.steps_classNamed fun _ => htidy)).trans hincluded
    | ok r₄ =>
        refine ⟨fun p h => ?_, fun _ _ h => nomatch h⟩
        obtain rfl := Except.ok.inj h
        have hscanned := hincluded.trans (steps_requireHeader hrequired)
        exact finds_classNamed htidy hnamed (hscanned.trans (.ite (steps_report _ _ rfl) (.refl _)))

/-- A chapter that is added is there. -/
private theorem finds_addChapter {r r' : Reading} (name : String) (h : Steps True r r') :
    Finds r (.about (.chapter (r'.registry.addChapter name).1),
      { r' with registry := (r'.registry.addChapter name).2 }) := by
  have hadd : Steps True r' { r' with registry := (r'.registry.addChapter name).2 } :=
    ⟨⟨rfl, rfl, .refl r'.cursor⟩, fun _ => .single (.addChapter name),
      fun _ hr => ⟨hr.classes, hr.functions⟩, .of_files_eq rfl⟩
  refine ⟨h.trans hadd, fun _ subject hsubject => ?_⟩
  obtain rfl := Binding.about.inj hsubject
  simp [HasSubject, HasChapter, Registry.addChapter]

theorem finds_scanChapterDirective (r : Reading) : Finds r (scanChapterDirective r) :=
  finds_addChapter _ ((r.steps_read readWord).trans (.ite (steps_reportHere _ rfl) (.refl _)))

/-! ## Comments -/

theorem steps_readBody (r : Reading) : Steps True r (readBody r).2 := by
  have hbody : Steps True r.line.2 (r.line.2.past closing) := steps_past _ closing
  exact r.steps_line.trans hbody

/-- The text behind a directive is read after what the comment is about. -/
private theorem finds_withBody {r : Reading} {found : Binding × Reading} (h : Finds r found) :
    Finds r ((withBody found).1.binding, (withBody found).2) :=
  ⟨h.steps.trans (steps_readBody found.2), h.bound⟩

/-- What moves the cursor first finds what is found from there. -/
private theorem Finds.of_steps {r r' : Reading} {p : Binding × Reading} (h : Steps True r r')
    (hp : Finds r' p) : Finds r p :=
  ⟨h.trans hp.steps, fun hr => hp.bound (Leads.sound (.of_steps h) hr)⟩

/-- What is read of a comment is there, and so is all that was entered before a failure. -/
theorem finds_readComment (tree : FileTree) (line : Nat) (r : Reading) :
    (∀ found r', readComment tree line r = .ok (found, r') → Finds r (found.binding, r')) ∧
      ∀ e r', readComment tree line r = .error (e, r') → Steps True r r' := by
  have hpast : Steps True r (r.past " ") := r.steps_past " "
  unfold readComment
  split
  · refine ⟨fun found r' h => ?_, fun _ _ h => nomatch h⟩
    have hfinds := finds_withBody (finds_scanFunction (r.past " "))
    rw [Except.ok.inj h] at hfinds
    exact .of_steps hpast hfinds
  split
  · refine ⟨fun found r' h => ?_, fun _ _ h => nomatch h⟩
    have hfinds := finds_withBody (finds_scanChapterDirective (r.past " "))
    rw [Except.ok.inj h] at hfinds
    exact .of_steps hpast hfinds
  split
  · obtain ⟨hok, herror⟩ := finds_scanClassDirective tree line (r.past " ")
    cases hscan : scanClassDirective tree line (r.past " ") with
    | error e =>
        refine ⟨fun _ _ h => (nomatch h), fun e' r' h => ?_⟩
        obtain rfl := Except.error.inj h
        exact hpast.trans (herror e' r' hscan)
    | ok p =>
        refine ⟨fun found r' h => ?_, fun _ _ h => nomatch h⟩
        have hfinds := finds_withBody (hok p hscan)
        rw [Except.ok.inj h] at hfinds
        exact .of_steps hpast hfinds
  split
  · refine ⟨fun found r' h => ?_, fun _ _ h => nomatch h⟩
    obtain ⟨rfl, rfl⟩ := Prod.mk.inj (Except.ok.inj h)
    exact ⟨.refl r, fun _ _ hsubject => nomatch hsubject⟩
  · refine ⟨fun found r' h => ?_, fun _ _ h => nomatch h⟩
    have hfinds := finds_scanFunction (readBody r).2
    dsimp only at h
    generalize scanFunction (readBody r).2 = p at h hfinds
    obtain ⟨rfl, rfl⟩ := Prod.mk.inj (Except.ok.inj h)
    exact .of_steps (steps_readBody r) hfinds

/-- The text of a comment is attached, or it is reported that there is none. -/
theorem leads_settle (line : Nat) {found : Finding} {r r' : Reading}
    (h : Finds r (found.binding, r')) : Leads r (settle line found r') := by
  have hfound : Leads r r' := .of_steps h.steps
  unfold settle
  split
  · exact hfound
  split
  · exact .of_steps (h.steps.trans (r'.steps_report line rfl))
  split
  · rename_i subject hsubject
    refine ⟨hfound.file, fun hr => .tail (hfound.entries hr) (.attachDoc ?_ ?_),
      fun hr => tidy_attachDoc (hfound.tidy hr) _,
      hfound.gathers.trans (.of_files_eq (files_attachDoc _ _))⟩
    · exact (hfound.sound hr).hasFile
    · exact h.bound hr subject hsubject
  · exact hfound

/-- **One comment.**  Whatever it says is entered. -/
theorem leads_scanComment (tree : FileTree) (s : State) :
    Leads s.reading (scanComment tree s).2.reading := by
  have hstart : Steps True s.reading s.reading.skipGap.line.2 :=
    (steps_skipGap _).trans (steps_line _)
  obtain ⟨hok, herror⟩ :=
    finds_readComment tree s.reading.skipGap.line.1 s.reading.skipGap.line.2
  simp only [scanComment]
  split
  · rename_i e r' hread
    exact .of_steps (hstart.trans (herror e r' hread))
  · rename_i found r' hread
    have hsettle := leads_settle s.reading.skipGap.line.1 (hok found r' hread)
    exact (Leads.trans (.of_steps hstart) hsettle).trans (.of_steps (steps_past _ opening))

theorem steps_reportUndocumented (r : Reading) : Steps True r (reportUndocumented r) := by
  refine .ite ?_ (.refl r)
  have hpast : Steps True r (r.past "::") := r.steps_past "::"
  exact hpast.trans (steps_reportHere _ rfl)

/-- **Sources.**  The whole scan of a source file, whether it fails or not: what has been entered before
a failure stays. -/
theorem exists_leads_scan (tree : FileTree) (reg : Registry) (file : FileId) :
    ∃ r, Leads (Reading.begin reg file) r ∧ (scan tree reg file).1 = r.registry := by
  have hpast : Leads (Reading.begin reg file) ((Reading.begin reg file).past opening) :=
    .of_steps (steps_past _ opening)
  unfold scan
  dsimp only
  split
  · exact ⟨_, .of_steps (steps_reportUndocumented _), rfl⟩
  · exact ⟨_, iterate_induction (P := fun s : State => Leads (Reading.begin reg file) s.reading)
      (fun s hs => hs.trans (leads_scanComment tree s)) hpast, rfl⟩

/-- What a source file says is entered into a well-formed registry. -/
theorem entries_scan (tree : FileTree) {reg : Registry} (hreg : reg.WellFormed) {file : FileId}
    (hfile : reg.HasFile file) : Entries reg (scan tree reg file).1 := by
  obtain ⟨r, hleads, hscan⟩ := exists_leads_scan tree reg file
  exact hscan ▸ hleads.entries ⟨hreg, hfile⟩

/-- What is kept of a source file is tidy. -/
theorem tidy_scan (tree : FileTree) {reg : Registry} (h : reg.Tidy) (file : FileId) :
    (scan tree reg file).1.Tidy := by
  obtain ⟨r, hleads, hscan⟩ := exists_leads_scan tree reg file
  exact hscan ▸ hleads.tidy h

/-- The headers that a source file has scanned are new ones. -/
theorem gathers_scan (tree : FileTree) (reg : Registry) (file : FileId) :
    Gathers reg (scan tree reg file).1 := by
  obtain ⟨r, hleads, hscan⟩ := exists_leads_scan tree reg file
  exact hscan ▸ hleads.gathers

theorem leads_scan (tree : FileTree) (reg : Registry) {file : FileId} (hfile : reg.HasFile file) :
    Registry.Leads reg (scan tree reg file).1 :=
  fun hreg => (entries_scan tree hreg hfile).edits

/-! ## Comments that a scan reaches -/

/-- The scan of a source file comes to a comment: `s` is where the comment is read. -/
structure Reaches (tree : FileTree) (reg : Registry) (file : FileId) (s : State) : Prop where
  hasComment : ((Reading.begin reg file).past opening).atEnd = false
  passes : Passes (fun s => s.reading.left) (scanComment tree)
    { reading := (Reading.begin reg file).past opening, failure := none } s

variable {tree : FileTree} {reg : Registry} {file : FileId} {s : State}

/-- Edits lead up to the comment. -/
theorem Reaches.leads_before (h : Reaches tree reg file s) :
    Leads (Reading.begin reg file) s.reading := by
  have hpast : Leads (Reading.begin reg file) ((Reading.begin reg file).past opening) :=
    .of_steps (steps_past _ opening)
  exact h.passes.preserves (P := fun s => Leads (Reading.begin reg file) s.reading)
    (fun s hs => hs.trans (leads_scanComment tree s)) hpast

/-- Edits lead from behind the comment to the end of the scan. -/
theorem Reaches.leads_after (h : Reaches tree reg file s) :
    ∃ r, Leads (scanComment tree s).2.reading r ∧ (scan tree reg file).1 = r.registry := by
  refine ⟨_, h.passes.after (P := fun t => Leads (scanComment tree s).2.reading t.reading)
    (fun t ht => ht.trans (leads_scanComment tree t)) (.refl _), ?_⟩
  simp [scan, h.hasComment]

end CppDoc.Comment
