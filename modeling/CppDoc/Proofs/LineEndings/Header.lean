import CppDoc.Header
import CppDoc.Proofs.LineEndings.Moves

/-!
# Headers and line endings

The readers of `Header` keep two readings of one text side by side, whatever the line endings of the
second one are.  A line feed is looked for in one place only, before the word `class`, and a carriage
return in front of it is passed over.

* `answers_scanMember`: one member of a class;
* `mirrors_scanClass`: a class statement;
* `scan_crlf`: the same is entered for both texts of a header.
-/

namespace CppDoc.Header

open CppDoc.Syntax CppDoc.Text Reading

variable {text : List Char} {r r' : Reading}

/-! ## Blocks -/

/-- The number of braces that are open behind a character. -/
def levelBehind (level : Nat) (x : Char) : Nat :=
  if x = '{' then level + 1 else if x = '}' then level - 1 else level

theorem skipBlock_nil (level : Nat) {c : Cursor} (hc : c.rest = []) : skipBlock level c = c := by
  rw [skipBlock.eq_def]
  split
  · rfl
  · simp_all

theorem skipBlock_cons (level : Nat) {c : Cursor} {x : Char} {t : List Char} (hc : c.rest = x :: t) :
    skipBlock level c =
      if level = 0 && x != '{' then c else skipBlock (levelBehind level x) (c.skip 1).skipGap := by
  rw [skipBlock.eq_def]
  split
  · simp_all
  · rename_i y rest hrest
    obtain ⟨rfl, rfl⟩ := List.cons.inj (hc.symm.trans hrest)
    rfl

/-- Line endings are no braces. -/
theorem mirrors_skipBlock (level : Nat) (h : Mirrors text r r') :
    Mirrors text (r.move (skipBlock level)) (r'.move (skipBlock level)) := by
  induction hlen : r.left using Nat.strongRecOn generalizing r r' level with
  | ind n ih =>
      have hrest' := h.rest
      cases hrest : r.cursor.rest with
      | nil =>
          rw [hrest] at hrest'
          rw [Reading.move, Reading.move, skipBlock_nil level hrest, skipBlock_nil level hrest']
          exact h
      | cons x t =>
          have hless : (r.move (·.skip 1)).skipGap.left < r.left := by
            change ((r.cursor.rest.drop 1).drop _).length < r.cursor.rest.length
            rw [hrest, List.drop_succ_cons, List.drop_zero, List.length_drop, List.length_cons]
            omega
          have hbehind := ih _ (hlen ▸ hless) (levelBehind level x) h.skipOneGap rfl
          obtain ⟨y, u, hy, hlevel, hopen⟩ : ∃ y u, r'.cursor.rest = y :: u ∧
              levelBehind level y = levelBehind level x ∧ (y != '{') = (x != '{') := by
            by_cases hx : x = '\n'
            · subst hx
              exact ⟨'\r', _, by rw [hrest', hrest, crlf_feed], rfl, rfl⟩
            · exact ⟨x, _, by rw [hrest', hrest, crlf_cons hx], rfl, rfl⟩
          rw [Reading.move, Reading.move, skipBlock_cons level hrest, skipBlock_cons level hy, hlevel,
            hopen]
          split
          · exact h
          · exact hbehind

/-! ## Members -/

theorem answers_readConst (h : Mirrors text r r') : Answers text (readConst r) (readConst r') :=
  .ite (h.lookingAt "const" (by decide)) (fun _ => ⟨rfl, (h.read rereads_readWord).mirrors⟩) fun _ => ⟨rfl, h⟩

/-- Behind the name of an enumerator. -/
private theorem answers_enumeratorEnd (h : Mirrors text r r') :
    let value (r : Reading) := if r.lookingAt "=" then (r.step.skipGap.read readValue).2.skipGap else r
    Answers text ((value r).lookingAt ",", value r) ((value r').lookingAt ",", value r') := by
  intro value
  have hvalue : Mirrors text (value r) (value r') :=
    .ite (h.lookingAt "=" (by decide)) (fun _ => (h.stepGap.read rereads_readValue).mirrors.skipGap) fun _ => h
  exact ⟨hvalue.lookingAt "," (by decide), hvalue⟩

theorem answers_scanEnumerator (h : Mirrors text r r') :
    Answers text (scanEnumerator r) (scanEnumerator r') := by
  have hname := h.stepGap.read rereads_readWord
  have hunreadable : ((r'.step.skipGap.read readWord).1.isEmpty &&
        !(r'.step.skipGap.read readWord).2.lookingAt "\x7d") =
      ((r.step.skipGap.read readWord).1.isEmpty && !(r.step.skipGap.read readWord).2.lookingAt "\x7d") := by
    rw [hname.answer, hname.mirrors.lookingAt "\x7d" (by decide)]
  have hreported := Mirrors.ite hunreadable (fun _ => hname.mirrors.reportHere .unreadableEnumerator)
    fun _ => hname.mirrors
  exact answers_enumeratorEnd hreported.skipGap

theorem answers_scanEnumBody (className enumName : String) (h : Mirrors text r r') :
    Answers text (scanEnumBody className enumName r) (scanEnumBody className enumName r') := by
  have hloop := h.iterate fun _ _ => answers_scanEnumerator
  exact .ite (hloop.lookingAt "\x7d" (by decide)) (fun hclose => ⟨rfl, hloop.step hclose (by decide)⟩)
    fun _ => ⟨rfl, hloop.reportHere _⟩

theorem answers_scanEnum (className : String) (line : Nat) (h : Mirrors text r r') :
    Answers text (scanEnum className line r) (scanEnum className line r') := by
  have hname := (h.past " " (by decide)).read rereads_readWord
  have hbehind := hname.mirrors.skipGap
  simp only [scanEnum, hname.answer]
  exact .ite (hbehind.lookingAt "\x7b" (by decide)) (fun _ => answers_scanEnumBody _ _ hbehind) fun _ =>
    .ite (hbehind.lookingAt ";" (by decide)) (fun _ => ⟨rfl, hbehind⟩) fun _ => ⟨rfl, hbehind.report _ _⟩

/-- The type and the name of a member are the same. -/
theorem readMemberName_mirrors (className : String) (h : Mirrors text r r') :
    (readMemberName className r').1 = (readMemberName className r).1 ∧
      Answers text (readMemberName className r).2 (readMemberName className r').2 := by
  have htype := h.read rereads_readType
  have hname := htype.mirrors.read rereads_readName
  simp only [readMemberName, htype.answer, hname.answer, hname.mirrors.lookingAt "~" (by decide)]
  split
  · exact ⟨rfl, rfl, hname.mirrors⟩
  · split
    · exact ⟨rfl, rfl, hname.mirrors⟩
    · split
      · rename_i htilde
        have hdestructor := (hname.mirrors.step (Bool.and_eq_true_iff.mp htilde).2 (by decide)).read rereads_readName
        exact ⟨rfl, congrArg ("~" ++ ·) hdestructor.answer, hdestructor.mirrors⟩
      · exact ⟨rfl, rfl, hname.mirrors⟩

theorem answers_scanDeclarator (className returnType name : String) (line : Nat)
    (h : Mirrors text r r') :
    Answers text (scanDeclarator className returnType name line r)
      (scanDeclarator className returnType name line r') := by
  have hparameters := h.skipGap.read rereads_readParameters
  have hconst := answers_readConst hparameters.mirrors.skipGap
  simp only [scanDeclarator, hparameters.answer, hconst.answer, h.skipGap.lookingAt ";" (by decide)]
  exact .ite rfl (fun _ => ⟨rfl, hconst.mirrors⟩)
    fun _ => ⟨rfl, (hconst.mirrors.declare _ _ _ _ _).mirrors⟩

theorem mirrors_skipLabels (h : Mirrors text r r') : Mirrors text (skipLabels r) (skipLabels r') := by
  refine h.skipGap.iterate fun s s' hs => ?_
  have hlabel : (s'.lookingAt "public:" || s'.lookingAt "private:" || s'.lookingAt "protected:") =
      (s.lookingAt "public:" || s.lookingAt "private:" || s.lookingAt "protected:") := by
    rw [hs.lookingAt "public:" (by decide), hs.lookingAt "private:" (by decide), hs.lookingAt "protected:" (by decide)]
  exact .ite hlabel (fun _ => ⟨rfl, (hs.past ":" (by decide)).skipGap⟩) fun _ => ⟨rfl, hs⟩

theorem mirrors_skipMemberTail (h : Mirrors text r r') :
    Mirrors text (skipMemberTail r) (skipMemberTail r') := by
  have hblock := mirrors_skipBlock 0 h.skipGap
  refine .ite (h.skipGap.lookingAt "\x7b" (by decide)) (fun _ => ?_) fun _ => h.skipGap.past ";" (by decide)
  exact .ite (hblock.lookingAt ";" (by decide)) (fun hend => hblock.step hend (by decide)) fun _ => hblock

theorem mirrors_skipToMember (h : Mirrors text r r') :
    Mirrors text (skipToMember r) (skipToMember r') := by
  have hlabels := mirrors_skipLabels h
  exact (Mirrors.ite (hlabels.lookingAt "virtual " (by decide)) (fun _ => hlabels.past " " (by decide)) fun _ => hlabels).skipGap

/-- **Members** are recognised alike. -/
theorem answers_scanMember (className : String) (h : Mirrors text r r') :
    Answers text (scanMember className r) (scanMember className r') := by
  have hbegun := (mirrors_skipToMember h).line
  have hoperator := hbegun.mirrors.read rereads_readName
  obtain ⟨htype, hname⟩ := readMemberName_mirrors className hbegun.mirrors
  have hend {known known' : Bool × Reading} (hknown : Answers text known known') :
      Answers text (if known.1 then (true, skipMemberTail known.2) else (false, known.2))
        (if known'.1 then (true, skipMemberTail known'.2) else (false, known'.2)) :=
    .ite hknown.answer (fun _ => ⟨rfl, mirrors_skipMemberTail hknown.mirrors⟩)
      fun _ => ⟨rfl, hknown.mirrors⟩
  have hdeclarator (type name : String) (line : Nat) {s s' : Reading} (hs : Mirrors text s s') :
      Answers text (if name.isEmpty then (false, s) else scanDeclarator className type name line s)
        (if name.isEmpty then (false, s') else scanDeclarator className type name line s') :=
    .ite rfl (fun _ => ⟨rfl, hs⟩) fun _ => answers_scanDeclarator _ _ _ _ hs
  simp only [scanMember, hbegun.answer, hoperator.answer, htype, hname.answer]
  exact hend <|
    .ite (hbegun.mirrors.lookingAt "operator " (by decide)) (fun _ => hdeclarator _ _ _ hoperator.mirrors) fun _ =>
      .ite (hbegun.mirrors.lookingAt "enum " (by decide)) (fun _ => answers_scanEnum _ _ hbegun.mirrors) fun _ =>
        .ite (hbegun.mirrors.lookingAt "typedef " (by decide)) (fun _ => ⟨rfl, hbegun.mirrors⟩) fun _ =>
          hdeclarator _ _ _ hname.mirrors

/-! ## Classes -/

theorem answers_readParent (className : String) (h : Mirrors text r r') :
    Answers text (readParent className r) (readParent className r') := by
  have hgap := h.skipGap
  simp only [readParent, hgap.lookingAt ":" (by decide)]
  refine .ite rfl (fun _ => ⟨rfl, hgap⟩) fun hlook => ?_
  have hcolon : r.skipGap.lookingAt ":" = true := by simpa using hlook
  have haccess := (hgap.step hcolon (by decide)).read rereads_readWord
  have hparent := haccess.mirrors.read rereads_readName
  have hbehind := hparent.mirrors.skipGap
  simp only [haccess.answer, hparent.answer]
  exact .ite rfl (fun _ => ⟨rfl, haccess.mirrors.reportHere _⟩) fun _ =>
    .ite rfl (fun _ => ⟨rfl, hparent.mirrors.reportHere _⟩) fun _ =>
      .ite (hbehind.lookingAt "," (by decide)) (fun _ => ⟨rfl, hbehind.reportHere _⟩) fun _ => ⟨rfl, hbehind⟩

/-- Where the body of a class is entered does not depend on texts. -/
theorem mirrors_enterClass (className parentName : String) (line : Nat) (h : Mirrors text r r') :
    Mirrors text (enterClass className parentName line r) (enterClass className parentName line r') := by
  have hnamed := h.classNamed className
  have hregistry := hnamed.mirrors.registry
  have hfile := hnamed.mirrors.file
  simp only [enterClass, hnamed.answer]
  refine hnamed.mirrors.enter ?_
  rw [hregistry, hfile]
  generalize (r.classNamed className).1 = id
  generalize (r.classNamed className).2 = s
  have hedit : (s.registry.crlf.editClass id fun c => { c with parentName }) =
      (s.registry.editClass id fun c => { c with parentName }).crlf := rfl
  rw [hedit]
  generalize (s.registry.editClass id fun c => { c with parentName }) = reg
  have horigin : (reg.crlf.getClass id).origin = (reg.getClass id).origin := rfl
  rw [horigin]
  cases (reg.getClass id).origin with
  | none => rfl
  | some there =>
      simp only [Registry.report_crlf, Registry.path_crlf]
      split <;> rfl

theorem answers_openClass (h : Mirrors text r r') : Answers text (openClass r) (openClass r') := by
  have hname := h.line.mirrors.read rereads_readName
  have hparent := answers_readParent (r.line.2.read readName).1 hname.mirrors
  simp only [openClass, hname.answer, h.line.answer]
  refine .ite rfl (fun _ => ⟨rfl, hname.mirrors⟩) fun _ => ?_
  rcases hgiven : readParent (r.line.2.read readName).1 (r.line.2.read readName).2 with ⟨parent, s⟩
  rcases hgiven' : readParent (r.line.2.read readName).1 (r'.line.2.read readName).2 with ⟨parent', s'⟩
  rw [hgiven, hgiven'] at hparent
  obtain ⟨hsame, hs⟩ := hparent
  obtain rfl : parent' = parent := hsame
  cases parent' with
  | none => exact ⟨rfl, hs⟩
  | some parentName =>
      simp only [hs.skipGap.lookingAt "\x7b" (by decide)]
      refine .ite rfl (fun _ => ⟨rfl, hs.skipGap⟩) fun hopen => ⟨rfl, ?_⟩
      have hbrace : s.skipGap.lookingAt "\x7b" = true := by simpa using hopen
      exact (mirrors_enterClass _ _ _ hs.skipGap).step (p := "\x7b") hbrace (by decide)

theorem mirrors_scanClass (h : Mirrors text r r') : Mirrors text (scanClass r) (scanClass r') := by
  have hopened := answers_openClass h
  rw [scanClass, scanClass]
  rcases hclass : openClass r with ⟨_ | className, s⟩
  all_goals
    rcases hclass' : openClass r' with ⟨className', s'⟩
    rw [hclass, hclass'] at hopened
    obtain rfl : className' = _ := hopened.answer
  · exact hopened.mirrors
  · exact hopened.mirrors.iterate fun _ _ => answers_scanMember className

/-- **Class statements** follow each other at the same places. -/
theorem answers_scanStatement (h : Mirrors text r r') :
    Answers text (scanStatement r) (scanStatement r') := by
  have hnext : Mirrors text ((scanClass r).past classStart) ((scanClass r').past classStart) :=
    (mirrors_scanClass h).past_feed (w := "class ".toList) rfl (by decide)
  exact ⟨congrArg (!·) hnext.atEnd, hnext⟩

/-! ## Headers -/

variable (reg : Registry) (file : FileId)

theorem mirrors_firstClass :
    Mirrors (reg.file file).text.toList (firstClass reg file) (firstClass reg.crlf file) := by
  have hbegun := mirrors_begin reg file
  exact .ite (hbegun.lookingAt "class " (by decide)) (fun hclass => hbegun.skip_text hclass (by decide)) fun _ =>
    hbegun.past_feed (w := "class ".toList) rfl (by decide)

/-- **Headers.**  The same is entered for a header, whatever its line endings are. -/
theorem scan_crlf : scan reg.crlf file = (scan reg file).crlf := by
  have hfirst := mirrors_firstClass reg file
  rw [scan, scan, hfirst.atEnd]
  split
  · exact hfirst.registry
  · exact (hfirst.iterate fun _ _ => answers_scanStatement).registry

end CppDoc.Header
