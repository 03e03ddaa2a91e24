import CppDoc.Header
import CppDoc.Proofs.Reading.Onward
import CppDoc.Proofs.Syntax.Start
import CppDoc.Proofs.Syntax.Tidy

/-!
# What headers enter

Every reader of `Header` takes steps from one state of reading to another, and so does the whole scan:
what is found in a header, however badly it is written, is entered into the registry, and it is not
documented by it.

* `exists_steps_scan`: the whole scan; `entries_scan`, `tidy_scan`, `gathers_scan` and `docs_scan`: what
  it enters, that its texts are tidy, and that it adds neither files nor documentation;
* `Reaches`: the members that a scan comes to.
-/

namespace CppDoc.Header

open CppDoc.Syntax CppDoc.Registry Reading

variable {E : Prop}

/-! ## Members -/

/-- Blocks in braces are passed over. -/
theorem onward_skipBlock (level : Nat) (c : Cursor) : c.Onward (skipBlock level c) := by
  fun_induction skipBlock level c with
  | case1 level c | case2 level c => exact .refl c
  | case3 level c x rest hrest _ _ ih =>
      have hstep : c.Onward (c.skip 1) := by
        rw [← Cursor.step_eq (by simp [hrest])]
        exact c.onward_run .step
      exact (hstep.trans (Cursor.onward_run _ .skipGap)).trans ih

theorem steps_readConst (r : Reading) : Steps E r (readConst r).2 :=
  .ite_snd (r.steps_read readWord) (.refl r)

/-- An enumerator stands behind the brace or the comma before it. -/
theorem steps_enumerator (r : Reading) : Steps E r.step (scanEnumerator r).2 := by
  have hname : Steps E r.step (r.step.skipGap.read readWord).2 :=
    (steps_skipGap _).trans (steps_read _ readWord)
  have hvalue (r : Reading) :
      Steps E r (if r.lookingAt "=" then (r.step.skipGap.read readValue).2.skipGap else r) := by
    have hread : Steps E r (r.step.skipGap.read readValue).2 :=
      (r.steps_step.trans (steps_skipGap _)).trans (steps_read _ readValue)
    exact .ite (hread.trans (steps_skipGap _)) (.refl r)
  refine hname.trans (Steps.trans ?_ (Steps.trans (steps_skipGap _) (hvalue _)))
  exact .ite (steps_reportHere _ rfl) (.refl _)

theorem steps_scanEnumerator (r : Reading) : Steps E r (scanEnumerator r).2 :=
  r.steps_step.trans (steps_enumerator r)

theorem steps_scanEnumBody (className enumName : String) (r : Reading) :
    Steps E r (scanEnumBody className enumName r).2 := by
  have hloop : Steps E r (iterate left scanEnumerator r) := .iterate steps_scanEnumerator r
  exact .ite_snd (hloop.trans (steps_step _)) (hloop.trans (steps_reportHere _ rfl))

/-- The name of an enumeration stands behind the space behind the keyword. -/
theorem steps_enum (className : String) (line : Nat) (r : Reading) :
    Steps E (r.past " ") (scanEnum className line r).2 := by
  have hname : Steps E (r.past " ") ((r.past " ").read readWord).2.skipGap :=
    (steps_read _ readWord).trans (steps_skipGap _)
  have hbody := hname.trans (steps_scanEnumBody className ((r.past " ").read readWord).1 _)
  exact .ite_snd hbody (.ite_snd hname (hname.trans (steps_report _ _ rfl)))

theorem steps_scanEnum (className : String) (line : Nat) (r : Reading) :
    Steps E r (scanEnum className line r).2 :=
  (r.steps_past " ").trans (steps_enum className line r)

theorem steps_readMemberName (className : String) (r : Reading) :
    Steps E r (readMemberName className r).2.2 := by
  have hname : Steps E r ((r.read readType).2.read readName).2 :=
    (r.steps_read readType).trans (steps_read _ readName)
  simp only [readMemberName]
  split
  · exact hname
  · split
    · exact hname
    · split
      · exact hname.trans ((steps_step _).trans (steps_read _ readName))
      · exact hname

/-- The type and the name of a member are tidy. -/
theorem tidy_readMemberName (className : String) (r : Reading) :
    Text.Tidy (readMemberName className r).1.toList ∧
      Text.Tidy (readMemberName className r).2.1.toList := by
  have htype (s : List Char) : Text.Tidy (readType s).1.toList := tidy_readType s
  have hname (s : List Char) : Text.Tidy (readName s).1.toList := tidy_readName s
  simp only [readMemberName]
  split
  · exact ⟨htype _, hname _⟩
  · split
    · exact ⟨Text.tidy_nil, htype _⟩
    · split
      · refine ⟨Text.tidy_nil, ?_⟩
        rw [String.toList_append]
        exact Text.Tidy.append (Text.tidy_of_all (by decide)) (hname _)
      · exact ⟨htype _, Text.tidy_nil⟩

theorem steps_scanDeclarator {className returnType name : String}
    (hclass : E → Text.Tidy className.toList) (htype : E → Text.Tidy returnType.toList)
    (hname : E → Text.Tidy name.toList) (line : Nat) (r : Reading) :
    Steps E r (scanDeclarator className returnType name line r).2 := by
  have hparameters : Steps E r (r.skipGap.read readParameters).2.skipGap :=
    (r.steps_skipGap.trans (steps_read _ readParameters)).trans (steps_skipGap _)
  have hconst := hparameters.trans (steps_readConst _)
  have hseparator : Text.Tidy "::".toList := Text.tidy_of_all (by decide)
  have hqualified (hE : E) : Text.Tidy (className ++ "::" ++ name).toList := by
    rw [String.toList_append, String.toList_append]
    exact ((hclass hE).append hseparator).append (hname hE)
  have hne : className ++ "::" ++ name ≠ "" := by simp
  exact .ite_snd hconst (hconst.trans
    (steps_declare _ htype hqualified hne (fun _ => tidy_readParameters _) _ _))

theorem steps_skipLabels (r : Reading) : Steps E r (skipLabels r) := by
  refine r.steps_skipGap.trans (Steps.iterate (fun r => ?_) _)
  exact .ite_snd ((r.steps_past ":").trans (steps_skipGap _)) (.refl r)

/-- The body of a member, or what stands before a semicolon, behind a gap. -/
theorem steps_memberTail (r : Reading) : Steps E r.skipGap (skipMemberTail r) := by
  have hblock : Steps E r.skipGap (r.skipGap.move (skipBlock 0)) := .of_cursor (onward_skipBlock 0 _)
  exact .ite (hblock.trans (.ite (steps_step _) (.refl _))) (steps_past _ ";")

theorem steps_skipMemberTail (r : Reading) : Steps E r (skipMemberTail r) :=
  r.steps_skipGap.trans (steps_memberTail r)

/-- A member whose name has been read: it is recognised if it has one. -/
private theorem steps_declarator {r r' : Reading} {className returnType name : String}
    (hclass : E → Text.Tidy className.toList) (htype : E → Text.Tidy returnType.toList)
    (hname : E → Text.Tidy name.toList) (line : Nat) (h : Steps E r r') :
    Steps E r (if name.isEmpty then (false, r')
      else scanDeclarator className returnType name line r').2 :=
  .ite_snd h (h.trans (steps_scanDeclarator hclass htype hname _ _))

theorem steps_skipToMember (r : Reading) : Steps E r (skipToMember r) := by
  have hvirtual (r : Reading) :
      Steps E r (if r.lookingAt "virtual " then r.past " " else r).skipGap :=
    .trans (.ite (r.steps_past " ") (.refl r)) (steps_skipGap _)
  exact (steps_skipLabels r).trans (hvirtual (skipLabels r))

theorem steps_scanMember {className : String} (hclass : E → Text.Tidy className.toList)
    (r : Reading) : Steps E r (scanMember className r).2 := by
  have hbegun : Steps E r (skipToMember r).line.2 := (steps_skipToMember r).trans (steps_line _)
  have hoperator := hbegun.trans (steps_read _ readName)
  have hmember := hbegun.trans (steps_readMemberName className _)
  have hend (known : Bool × Reading) (h : Steps E r known.2) :
      Steps E r (if known.1 then (true, skipMemberTail known.2) else (false, known.2)).2 :=
    .ite_snd (h.trans (steps_skipMemberTail _)) h
  have hnone (_ : E) : Text.Tidy "".toList := Text.tidy_nil
  have hname (_ : E) := tidy_readName (skipToMember r).line.2.cursor.rest
  refine hend _ (.ite_snd (steps_declarator hclass hnone hname _ hoperator) ?_)
  refine .ite_snd (hbegun.trans (steps_scanEnum className _ _)) (.ite_snd hbegun ?_)
  obtain ⟨htype, hname⟩ := tidy_readMemberName className (skipToMember r).line.2
  exact steps_declarator hclass (fun _ => htype) (fun _ => hname) _ hmember

/-! ## Classes -/

theorem steps_readParent (className : String) (r : Reading) :
    Steps E r (readParent className r).2 := by
  have haccess : Steps E r (r.skipGap.step.read readWord).2 :=
    (r.steps_skipGap.trans (steps_step _)).trans (steps_read _ readWord)
  have hparent := haccess.trans (steps_read _ readName)
  have hbehind := hparent.trans (steps_skipGap _)
  refine .ite_snd r.steps_skipGap (.ite_snd (haccess.trans (steps_reportHere _ rfl)) ?_)
  refine .ite_snd (hparent.trans (steps_reportHere _ rfl)) ?_
  exact .ite_snd (hbehind.trans (steps_reportHere _ rfl)) hbehind

/-- The name of a parent that is read is left with something without its template arguments. -/
theorem baseName_readParent {className parentName : String} {r : Reading}
    (h : (readParent className r).1 = some parentName) (hname : parentName ≠ "") :
    baseName parentName ≠ "" := by
  simp only [readParent] at h
  split at h
  · exact absurd (Option.some.inj h).symm hname
  · split at h
    · exact nomatch h
    · split at h
      · exact nomatch h
      · split at h
        · exact nomatch h
        · obtain rfl := Option.some.inj h
          exact baseName_readName hname

/-- Neither the parent of a class nor its place is shown. -/
private theorem tidy_enterClass (className parentName : String) (line : Nat) {r : Reading}
    (h : (r.classNamed className).2.registry.Tidy) :
    (enterClass className parentName line r).registry.Tidy := by
  have hnamed : ((r.classNamed className).2.registry.editClass (r.classNamed className).1
      fun c => { c with parentName }).Tidy := tidy_editClass h _ fun _ => rfl
  simp only [enterClass]
  split
  · exact tidy_editClass hnamed _ fun _ => rfl
  · split
    · exact hnamed
    · exact ⟨hnamed.classes, hnamed.functions⟩

private theorem files_enterClass (className parentName : String) (line : Nat) (r : Reading) :
    (enterClass className parentName line r).registry.files =
      (r.classNamed className).2.registry.files := by
  simp only [enterClass]
  split
  · rfl
  · split <;> rfl

private theorem docs_enterClass (className parentName : String) (line : Nat) (r : Reading) :
    (enterClass className parentName line r).registry.docs =
      (r.classNamed className).2.registry.docs := by
  simp only [enterClass]
  split
  · rfl
  · split <;> rfl

/-- The class of a body is entered with the name of its parent, and where the body is. -/
theorem steps_enterClass {className parentName : String} (hname : Text.Tidy className.toList)
    (hparent : parentName ≠ "" → baseName parentName ≠ "") (line : Nat) (r : Reading) :
    Steps E r (enterClass className parentName line r) := by
  have honward : Onward (r.classNamed className).2 (enterClass className parentName line r) :=
    ⟨rfl, docs_enterClass className parentName line r, .refl r.cursor⟩
  refine (steps_classNamed r fun _ => hname).trans
    ⟨honward, fun hr => ?_, fun _ => tidy_enterClass className parentName line,
      .of_files_eq (files_enterClass className parentName line r)⟩
  obtain ⟨c, hc, _⟩ := getElem?_classNamed r.registry className
  have hclass : (r.classNamed className).2.registry.HasClass (r.classNamed className).1 :=
    hasClass_of_getElem? hc
  have hhere := hr.hasFile
  have hfits := hr.wellFormed.classes _ _ (getElem?_getClass hclass)
  simp only [enterClass]
  generalize (r.classNamed className).1 = id at hclass hfits ⊢
  generalize (r.classNamed className).2 = r' at hclass hfits hhere ⊢
  rw [getClass_editClass hclass]
  dsimp only
  split
  · rename_i hnone
    have horigin : Registry.Entry r'.registry
        (r'.registry.editClass id fun c => { c with origin := some ⟨r'.file, line⟩ }) :=
      .setOrigin hhere hnone
    have hplaced : ((r'.registry.editClass id fun c =>
        { c with origin := some ⟨r'.file, line⟩ }).getClass id).origin.isSome = true := by
      rw [getClass_editClass hclass]
      rfl
    have hboth := Entries.tail (.single horigin) (.setParentName hplaced hparent)
    -- the two fields of the class are set in the other order
    simp only [editClass, List.modify_modify_eq] at hboth ⊢
    exact hboth
  · rename_i there hthere
    have hplaced : (r'.registry.getClass id).origin.isSome = true := by
      rw [hthere]
      rfl
    have hname := Entries.single (.setParentName hplaced hparent)
    split
    · exact hname
    · have hkept {file : FileId} (hfile : r'.registry.HasFile file) :
          (r'.registry.editClass id fun c => { c with parentName }).HasFile file := hfile
      exact .tail (.tail hname (.report (hkept hhere) rfl))
        (.report (hkept (hfits.origin there hthere)) rfl)

theorem steps_openClass (r : Reading) : Steps E r (openClass r).2 := by
  have hname : Steps E r (r.line.2.read readName).2 := r.steps_line.trans (steps_read _ readName)
  unfold openClass
  rcases hline : r.line with ⟨line, r₁⟩
  rcases hread : r₁.read readName with ⟨className, r₂⟩
  rcases hgiven : readParent className r₂ with ⟨parent, r₃⟩
  simp only [hline, hread] at hname
  have hparent := hname.trans (steps_readParent className r₂)
  simp only [hread, hgiven] at hparent ⊢
  cases parent with
  | none => exact .ite_snd hname hparent
  | some parentName =>
      have hgap := hparent.trans (steps_skipGap r₃)
      have hbase : parentName ≠ "" → baseName parentName ≠ "" :=
        baseName_readParent (congrArg Prod.fst hgiven)
      have hclass : (r₁.read readName).1 = className := congrArg Prod.fst hread
      have htidy : Text.Tidy className.toList := hclass ▸ tidy_readName _
      have hentered := hgap.trans (steps_enterClass htidy hbase line _)
      exact .ite_snd hname (.ite_snd hgap (hentered.trans (steps_step _)))

/-- The name of a class that is opened is tidy. -/
theorem tidy_openClass {r r' : Reading} {className : String}
    (h : openClass r = (some className, r')) : Text.Tidy className.toList := by
  have hname : Text.Tidy (r.line.2.read readName).1.toList := tidy_readName _
  simp only [openClass] at h
  split at h
  · exact nomatch h
  · split at h
    · exact nomatch h
    · split at h
      · exact nomatch h
      · obtain ⟨hsome, -⟩ := Prod.mk.inj h
        rwa [← Option.some.inj hsome]

theorem steps_scanClass (r : Reading) : Steps E r (scanClass r) := by
  have hopen : Steps E r (openClass r).2 := steps_openClass r
  unfold scanClass
  rcases hopened : openClass r with ⟨_ | className, r'⟩
  all_goals rw [hopened] at hopen
  · exact hopen
  · exact hopen.trans (Steps.iterate (steps_scanMember fun _ => tidy_openClass hopened) r')

theorem steps_scanStatement (r : Reading) : Steps E r (scanStatement r).2 :=
  (steps_scanClass r).trans (steps_past _ classStart)

theorem steps_firstClass (reg : Registry) (file : FileId) :
    Steps E (Reading.begin reg file) (firstClass reg file) := by
  have hpass := (Reading.begin reg file).cursor.onward_run (.pass "class ")
  unfold firstClass
  dsimp only
  split
  · rename_i hlooking
    have hlooking : (Reading.begin reg file).cursor.lookingAt "class " = true := hlooking
    rw [Cursor.Scan.run, if_pos hlooking] at hpass
    exact .of_cursor hpass
  · exact steps_past _ classStart

/-- **Headers.**  The whole scan of a header takes steps. -/
theorem exists_steps_scan (E : Prop) (reg : Registry) (file : FileId) :
    ∃ r, Steps E (Reading.begin reg file) r ∧ scan reg file = r.registry := by
  have hfirst : Steps E (Reading.begin reg file) (firstClass reg file) := steps_firstClass reg file
  unfold scan
  dsimp only
  split
  · exact ⟨_, hfirst, rfl⟩
  · exact ⟨_, hfirst.trans (Steps.iterate steps_scanStatement _), rfl⟩

/-- What a header declares is entered into a well-formed registry. -/
theorem entries_scan {reg : Registry} (hreg : reg.WellFormed) {file : FileId}
    (hfile : reg.HasFile file) : Entries reg (scan reg file) := by
  obtain ⟨r, hsteps, hscan⟩ := exists_steps_scan True reg file
  exact hscan ▸ hsteps.entries ⟨hreg, hfile⟩

/-- What a header declares is tidy. -/
theorem tidy_scan {reg : Registry} (h : reg.Tidy) (file : FileId) : (scan reg file).Tidy := by
  obtain ⟨r, hsteps, hscan⟩ := exists_steps_scan True reg file
  exact hscan ▸ hsteps.tidy trivial h

theorem gathers_scan (reg : Registry) (file : FileId) : Gathers reg (scan reg file) := by
  obtain ⟨r, hsteps, hscan⟩ := exists_steps_scan True reg file
  exact hscan ▸ hsteps.gathers

/-- What a header declares is not documented by it. -/
theorem docs_scan (reg : Registry) (file : FileId) : (scan reg file).docs = reg.docs := by
  obtain ⟨r, hsteps, hscan⟩ := exists_steps_scan True reg file
  exact hscan ▸ hsteps.onward.docs

theorem leads_scan (reg : Registry) {file : FileId} (hfile : reg.HasFile file) :
    Registry.Leads reg (scan reg file) :=
  fun hreg => (entries_scan hreg hfile).edits

/-! ## Members that a scan reaches -/

/-- The scan of a header comes to a member of a class: `r` is where the member is read. -/
structure Reaches (reg : Registry) (file : FileId) (className : String) (r : Reading) : Prop where
  hasClass : (firstClass reg file).atEnd = false
  passes : ∃ statement body, Passes left scanStatement (firstClass reg file) statement ∧
    openClass statement = (some className, body) ∧ Passes left (scanMember className) body r

/-- The name of the class is tidy. -/
theorem Reaches.tidy {reg : Registry} {file : FileId} {className : String} {r : Reading}
    (h : Reaches reg file className r) : Text.Tidy className.toList := by
  obtain ⟨statement, body, -, hopen, -⟩ := h.passes
  exact tidy_openClass hopen

/-- Edits lead up to the member. -/
theorem Reaches.leads_before {reg : Registry} {file : FileId} {className : String} {r : Reading}
    (h : Reaches reg file className r) : Leads (Reading.begin reg file) r := by
  obtain ⟨statement, body, hstatement, hopen, hmember⟩ := h.passes
  have hfirst := hstatement.preserves (P := Steps True (Reading.begin reg file))
    (fun s hs => hs.trans (steps_scanStatement s)) (steps_firstClass reg file)
  have hbody : Steps True statement body := by
    have := steps_openClass (E := True) statement
    rwa [hopen] at this
  exact .of_steps (hmember.preserves
    (fun s hs => hs.trans (steps_scanMember (fun _ => h.tidy) s)) (hfirst.trans hbody))

/-- Edits lead from behind the member to the end of the scan. -/
theorem Reaches.leads_after {reg : Registry} {file : FileId} {className : String} {r : Reading}
    (h : Reaches reg file className r) :
    ∃ r', Leads (scanMember className r).2 r' ∧ scan reg file = r'.registry := by
  obtain ⟨statement, body, hstatement, hopen, hmember⟩ := h.passes
  have hclass : Steps True (scanMember className r).2 (scanClass statement) := by
    simp only [scanClass, hopen]
    exact hmember.after (fun s hs => hs.trans (steps_scanMember (fun _ => h.tidy) s)) (.refl _)
  have hstep : Steps True (scanMember className r).2 (scanStatement statement).2 :=
    hclass.trans (steps_past _ classStart)
  have hscan := hstatement.after (fun s hs => hs.trans (steps_scanStatement s)) hstep
  exact ⟨iterate left scanStatement (firstClass reg file), .of_steps hscan, by
    simp [scan, h.hasClass]⟩

end CppDoc.Header
