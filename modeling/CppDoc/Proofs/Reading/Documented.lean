import CppDoc.Proofs.Reading.Comment
import CppDoc.Proofs.Reading.Signature
import CppDoc.Proofs.Registry.Overload

/-!
# Comments about declared members

A member that a header declares is documented in a source file, by a directive that repeats its
signature or by a comment in front of its definition.  Both find the function of the header: they
attach their text to it and add no second one.

* `Documents`: the two ways to write a comment about a function;
* `scanComment_documents`: such a comment is attached to the function of its signature;
* `documents_declared`: that function is the one of the header.
-/

namespace CppDoc.Comment

open CppDoc.Header CppDoc.Registry CppDoc.Syntax CppDoc.Text

/-! ## Texts of comments -/

/-- The text does not end the comment that it stands in. -/
def StaysOpen (text : List Char) : Prop :=
  ¬ closing.toList <:+: text

theorem StaysOpen.of_not_mem {text : List Char} (h : '*' ∉ text) : StaysOpen text := fun hoccurs =>
  h (hoccurs.subset List.mem_cons_self)

theorem all_isSpace {blanks : List Char} (h : blanks.all isBlank = true) :
    blanks.all isSpace = true :=
  List.all_eq_true.mpr fun c hc => isSpace_of_isBlank (List.all_eq_true.mp h c hc)

/-- White space in front of a text does not end the comment. -/
theorem StaysOpen.indent {text blanks : List Char} (h : StaysOpen text)
    (hblanks : blanks.all isSpace = true) : StaysOpen (blanks ++ text) := by
  induction blanks with
  | nil => exact h
  | cons c rest ih =>
      obtain ⟨hc, hrest⟩ := Bool.and_eq_true_iff.mp hblanks
      intro hoccurs
      rcases List.infix_cons_iff.mp hoccurs with ⟨v, hv⟩ | hoccurs
      · obtain rfl : '*' = c := (List.cons.inj hv).1
        exact nomatch hc
      · exact ih hrest hoccurs

/-- A comment ends behind a text that does not end it. -/
theorem find?_closing {text : List Char} (h : StaysOpen text) (rest : List Char) :
    find? closing.toList (text ++ (closing.toList ++ rest)) = some text.length := by
  rw [← List.append_assoc]
  apply find?_append
  intro n hn hclosing
  have hoccurs : ¬ closing.toList <+: text.drop n := fun hpre =>
    h (hpre.isInfix.trans (List.drop_suffix n text).isInfix)
  obtain ⟨v, hv⟩ := hclosing
  match hdrop : text.drop n with
  | [] =>
      have := congrArg List.length hdrop
      simp only [List.length_drop, List.length_nil] at this
      omega
  | [c] =>
      rw [hdrop] at hv
      simp [closing] at hv
  | c :: d :: tail =>
      rw [hdrop] at hv hoccurs
      simp only [closing] at hv hoccurs
      simp at hv hoccurs
      exact hoccurs hv.1 hv.2.1

/-- **Texts.**  The text of a comment is read up to its end, without the white space before it. -/
theorem readBody_eq {r : Reading} {text rest : List Char} (htext : StaysOpen text)
    (hrest : r.cursor.rest = text ++ (closing.toList ++ rest)) :
    ∃ (line : Nat) (c : Cursor), c.rest = rest ∧
      readBody r = ((line, String.ofList (trimLeft text)), { r with cursor := c }) := by
  have hfind : find? closing.toList r.line.2.cursor.rest = some text.length := by
    change find? closing.toList r.cursor.rest = _
    rw [hrest, find?_closing htext]
  have hcut : r.line.2.cursor.textUntil closing =
      (text, r.line.2.cursor.skip (text.length + closing.toList.length)) := by
    have htake : r.line.2.cursor.rest.take text.length = text := by
      change r.cursor.rest.take text.length = _
      rw [hrest, List.take_left]
    simp only [Cursor.textUntil, Cursor.cutAt, hfind, htake]
  refine ⟨r.line.1, r.line.2.cursor.skip (text.length + closing.toList.length), ?_, ?_⟩
  · change r.cursor.rest.drop (text.length + closing.toList.length) = rest
    rw [hrest, ← List.drop_drop, List.drop_left, List.drop_left]
  · simp only [readBody, hcut]
    rfl

/-! ## The two ways to document a function -/

/-- The word `const` behind a gap, if it is written. -/
def constText (isConst : Bool) (gap : List Char) : List Char :=
  if isConst then gap ++ "const".toList else []

/-- The comment at the head of a source text documents the function of a signature by `text`: a
directive has the signature in the comment, and otherwise a definition follows the comment.  What
follows the signature is `behind`. -/
inductive Documents (signature : List Char) (isConst : Bool) (text : List Char) :
    (behind : List Char) → List Char → Prop
  | directive {indent gap separator rest : List Char} (hindent : indent.all isBlank = true)
      (hgap : gap.all isBlank = true) (hseparator : separator.all isBlank = true)
      (hapart : isConst = true → separator ≠ []) :
      Documents signature isConst text
        (constText isConst gap ++ (separator ++ (text ++ (closing.toList ++ rest))))
        ("\\fn ".toList ++ (indent ++ (signature ++
          (constText isConst gap ++ (separator ++ (text ++ (closing.toList ++ rest)))))))
  | definition {indent behind : List Char} (hindent : indent.all isBlank = true)
      (hconst : writtenConst behind = isConst) :
      Documents signature isConst text behind
        (text ++ (closing.toList ++ (indent ++ (signature ++ behind))))

/-- A directive is read from behind its space. -/
theorem past_space {r : Reading} {w s : List Char} (hw : ' ' ∉ w)
    (hrest : r.cursor.rest = w ++ ' ' :: s) :
    ∃ c : Cursor, c.rest = s ∧ r.past " " = { r with cursor := c } := by
  have hfind : find? " ".toList r.cursor.rest = some w.length := by
    rw [hrest, ← List.singleton_append, ← List.append_assoc]
    refine find?_append s fun n hn hspace => hw ?_
    obtain ⟨c, rest, hdrop⟩ := List.exists_cons_of_ne_nil (mt List.drop_eq_nil_iff.mp (Nat.not_le_of_lt hn))
    rw [hdrop] at hspace
    obtain rfl : ' ' = c := by
      obtain ⟨t, ht⟩ := hspace
      exact (List.cons.inj ht).1
    exact List.mem_of_mem_drop (hdrop ▸ List.mem_cons_self)
  refine ⟨r.cursor.skip (w.length + 1), ?_, ?_⟩
  · rw [Cursor.skip, hrest]
    simp
  · simp only [Reading.past, Reading.move, Cursor.past, Cursor.cutAt, hfind]
    rfl

/-- The character begins a text: it is no white space, and begins no directive, no comment and no
`const`. -/
def beginsText (c : Char) : Bool :=
  !isSpace c && c != '\\' && c != '/' && c != 'c'

section Begun

variable {text : List Char} (hbegins : text.head?.any beginsText = true)

include hbegins

/-- There is a text, and its first character is not confused with anything else. -/
theorem exists_cons_of_beginsText :
    ∃ c rest, text = c :: rest ∧ isSpace c = false ∧ c ≠ '\\' ∧ c ≠ '/' ∧ c ≠ 'c' := by
  cases text with
  | nil => exact nomatch hbegins
  | cons c rest =>
      simp only [List.head?_cons, Option.any_some, beginsText, Bool.and_eq_true, Bool.not_eq_true',
        bne_iff_ne] at hbegins
      exact ⟨c, rest, rfl, hbegins.1.1.1, hbegins.1.1.2, hbegins.1.2, hbegins.2⟩

/-- A text is not taken for a gap or for `const`. -/
theorem plain_of_beginsText (t : List Char) :
    gap (text ++ t) = 0 ∧ ¬ "const".toList <+: text ++ t := by
  obtain ⟨c, rest, rfl, hspace, -, hslash, hc⟩ := exists_cons_of_beginsText hbegins
  have hblank := isBlank_eq_false_of_isSpace hspace
  refine ⟨gap_cons_eq_zero_iff.mpr ⟨hblank, fun h => absurd h hslash⟩, ?_⟩
  rintro ⟨v, hv⟩
  exact hc (List.cons.inj hv).1.symm

/-- A text is not taken for a directive. -/
theorem not_directive_of_beginsText {w : List Char} (hw : w.head? = some '\\') (t : List Char) :
    ¬ w <+: text ++ t := by
  obtain ⟨c, rest, rfl, -, hdirective, -, -⟩ := exists_cons_of_beginsText hbegins
  obtain ⟨tail, rfl⟩ := List.head?_eq_some_iff.mp hw
  rintro ⟨v, hv⟩
  exact hdirective (List.cons.inj hv).1.symm

/-- White space is dropped in front of a text, and only there. -/
theorem trimLeft_of_beginsText {blanks : List Char} (hblanks : blanks.all isBlank = true) :
    trimLeft (blanks ++ text) = text := by
  obtain ⟨c, rest, rfl, hspace, -, -, -⟩ := exists_cons_of_beginsText hbegins
  unfold trimLeft
  rw [List.dropWhile_append_of_pos fun c hc => isSpace_of_isBlank (List.all_eq_true.mp hblanks c hc)]
  simp [hspace]

end Begun

/-- Between the parameters and a text, `const` is read if it is written there. -/
theorem afterConst_constText {isConst : Bool} {gap separator text : List Char}
    (hgap : gap.all isBlank = true) (hseparator : separator.all isBlank = true)
    (hapart : isConst = true → separator ≠ []) (hbegins : text.head?.any beginsText = true)
    (rest : List Char) :
    writtenConst (constText isConst gap ++ (separator ++ (text ++ rest))) = isConst ∧
      ∃ blanks, blanks.all isBlank = true ∧
        afterConst (constText isConst gap ++ (separator ++ (text ++ rest))) =
          blanks ++ (text ++ rest) := by
  cases isConst with
  | true =>
      have hhead : (separator ++ (text ++ rest)).head?.any isSpace = true := by
        obtain ⟨c, tail, rfl⟩ := List.exists_cons_of_ne_nil (hapart rfl)
        exact isSpace_of_isBlank (List.all_eq_true.mp hseparator c List.mem_cons_self)
      have hread := afterConst_of_const hgap hhead
      simp only [constText, if_true, List.append_assoc]
      exact ⟨hread.1, separator, hseparator, hread.2⟩
  | false =>
      obtain ⟨hgap', hno⟩ := plain_of_beginsText hbegins rest
      have hread := afterConst_of_not_const hseparator hgap' hno
      exact ⟨hread.1, [], rfl, hread.2⟩

/-- **Directives.**  A directive with a signature is about the function that the signature declares,
and its text is what is left behind the signature. -/
theorem readComment_directive {signature behind : List Char} {name parameters : String}
    (h : IsSignature signature behind name parameters) {indent : List Char}
    (hindent : indent.all isBlank = true) {r : Reading}
    (hrest : r.cursor.rest = "\\fn ".toList ++ (indent ++ (signature ++ behind))) (tree : FileTree)
    (line : Nat) :
    ∃ (returnType : String) (origin : Location) (f : FunctionId) (reg : Registry) (c : Cursor),
      r.registry.declare returnType name parameters (writtenConst behind) origin = (some f, reg) ∧
      c.rest = afterConst behind ∧
      readComment tree line r =
        .ok (withBody (.about (.function f), { r with registry := reg, cursor := c })) := by
  obtain ⟨c, hc, hpast⟩ := past_space (w := "\\fn".toList) (by decide) hrest
  obtain ⟨returnType, origin, f, reg, c', hdeclared, hc', hscan⟩ :=
    scanFunction_of_isSignature h (r := { r with cursor := c }) hindent hc
  have hlooking : r.lookingAt "\\fn " = true := by
    simp only [Reading.lookingAt, Cursor.lookingAt, hrest, List.isPrefixOf_iff_prefix]
    exact List.prefix_append _ _
  refine ⟨returnType, origin, f, reg, c', hdeclared, hc', ?_⟩
  rw [readComment, if_pos hlooking, hpast, hscan]

/-- **Reading.**  A comment that documents a function is about the one that the signature
declares. -/
theorem readComment_documents {signature behind text : List Char} {name parameters : String}
    (h : IsSignature signature behind name parameters) {isConst : Bool} (hopen : StaysOpen text)
    (hbegins : text.head?.any beginsText = true) {r : Reading}
    (hdocuments : Documents signature isConst text behind r.cursor.rest) (tree : FileTree)
    (line : Nat) :
    ∃ (returnType : String) (origin : Location) (f : FunctionId) (reg : Registry) (textLine : Nat)
        (c : Cursor),
      r.registry.declare returnType name parameters isConst origin = (some f, reg) ∧
      readComment tree line r = .ok
        ({ binding := .about (.function f), textLine, text := String.ofList text },
          { r with registry := reg, cursor := c }) := by
  generalize hrest : r.cursor.rest = s at hdocuments
  cases hdocuments with
  | @directive indent gap separator rest hindent hgap hseparator hapart =>
      obtain ⟨hconst, blanks, hblanks, hafter⟩ :=
        afterConst_constText hgap hseparator hapart hbegins (closing.toList ++ rest)
      obtain ⟨returnType, origin, f, reg, c, hdeclared, hc, hread⟩ :=
        readComment_directive h hindent hrest tree line
      rw [hconst] at hdeclared
      rw [hafter, ← List.append_assoc] at hc
      obtain ⟨textLine, c', -, hbody⟩ :=
        readBody_eq (r := { r with registry := reg, cursor := c })
          (hopen.indent (all_isSpace hblanks)) hc
      rw [trimLeft_of_beginsText hbegins hblanks] at hbody
      refine ⟨returnType, origin, f, reg, textLine, c', hdeclared, ?_⟩
      rw [hread]
      simp only [withBody, hbody]
  | @definition indent _ hindent hconst =>
      have hdirective (w : String) (hw : w.toList.head? = some '\\') : ¬ r.lookingAt w = true := by
        simp only [Reading.lookingAt, Cursor.lookingAt, hrest, List.isPrefixOf_iff_prefix]
        exact not_directive_of_beginsText hbegins hw _
      obtain ⟨textLine, c, hc, hbody⟩ := readBody_eq (r := r) hopen hrest
      have htrim : trimLeft text = text := trimLeft_of_beginsText hbegins List.all_nil
      rw [htrim] at hbody
      obtain ⟨returnType, origin, f, reg, c', hdeclared, -, hscan⟩ :=
        scanFunction_of_isSignature h (r := { r with cursor := c }) hindent hc
      rw [hconst] at hdeclared
      refine ⟨returnType, origin, f, reg, textLine, c', hdeclared, ?_⟩
      rw [readComment, if_neg (hdirective _ rfl), if_neg (hdirective _ rfl),
        if_neg (hdirective _ rfl), if_neg (hdirective _ rfl)]
      simp only [hbody, hscan]

/-! ## Attaching the text -/

/-- From `reg` to `reg'` a text becomes the documentation of `f`. -/
structure Attaches (reg reg' : Registry) (f : FunctionId) (text : String) : Prop where
  block : ∃ block : DocBlock, reg'.docs = reg.docs ++ [block] ∧ block.subject = .function f ∧
    block.text = text
  doc : ∃ g, reg'.functions[f.index]? = some g ∧ g.doc = some ⟨reg.docs.length⟩

/-- The text that was read is attached. -/
theorem attaches_attachDoc {reg : Registry} {f : FunctionId} (hf : reg.HasFunction f)
    {block : DocBlock} (hsubject : block.subject = .function f) :
    Attaches reg (reg.attachDoc block).2 f block.text := by
  obtain ⟨g, hg⟩ : ∃ g, reg.functions[f.index]? = some g := ⟨_, getElem?_function hf⟩
  constructor
  · refine ⟨block, ?_, hsubject, rfl⟩
    simp only [attachDoc, hsubject]
    rfl
  · refine ⟨{ g with doc := some ⟨reg.docs.length⟩ }, ?_, rfl⟩
    simp only [attachDoc, hsubject, editFunction]
    simp [hg]

/-- The text of a block is attached to the function that a declaration is about. -/
theorem attaches_of_declare {reg : Registry} {returnType name parameters : String} {isConst : Bool}
    {origin : Location} {f : FunctionId}
    (h : (reg.declare returnType name parameters isConst origin).1 = some f) {block : DocBlock}
    (hsubject : block.subject = .function f) :
    Attaches reg ((reg.declare returnType name parameters isConst origin).2.attachDoc block).2 f
      block.text := by
  have hattached := attaches_attachDoc (hasFunction_declare reg h) hsubject
  have hdocs := docs_declare reg returnType name parameters isConst origin
  exact ⟨hdocs ▸ hattached.block, hdocs ▸ hattached.doc⟩

theorem length_functions_attachDoc (reg : Registry) (block : DocBlock) :
    (reg.attachDoc block).2.functions.length = reg.functions.length := by
  unfold attachDoc
  cases block.subject <;> simp [editFunction, editClass, editChapter]

/-- Nothing else is changed by a comment than what it declares and that its text is attached. -/
theorem scanComment_of_readComment {tree : FileTree} {s : State} {f : FunctionId} {text : String}
    {textLine : Nat} {r : Reading} (htext : text ≠ "")
    (h : readComment tree s.reading.skipGap.line.1 s.reading.skipGap.line.2 =
      .ok ({ binding := .about (.function f), textLine, text }, r)) :
    ∃ block : DocBlock, block.subject = .function f ∧ block.text = text ∧
      (scanComment tree s).2.reading.registry = (r.registry.attachDoc block).2 := by
  have hsome : text.isEmpty = false := by rwa [String.isEmpty_eq_false_iff]
  refine ⟨{ origin := ⟨r.file, s.reading.skipGap.line.1⟩, textLine, text, subject := .function f },
    rfl, rfl, ?_⟩
  simp only [scanComment, h, settle, hsome]
  rfl

/-- **Documenting.**  A comment that documents a function declares it and attaches the text to it.
-/
theorem scanComment_documents {signature behind text : List Char} {name parameters : String}
    (h : IsSignature signature behind name parameters) {isConst : Bool} (hopen : StaysOpen text)
    (hbegins : text.head?.any beginsText = true) {s : State}
    (hdocuments : Documents signature isConst text behind s.reading.skipGap.cursor.rest)
    (tree : FileTree) :
    ∃ (returnType : String) (origin : Location) (f : FunctionId) (block : DocBlock),
      (s.reading.registry.declare returnType name parameters isConst origin).1 = some f ∧
      block.subject = .function f ∧ block.text = String.ofList text ∧
      (scanComment tree s).2.reading.registry =
        ((s.reading.registry.declare returnType name parameters isConst origin).2.attachDoc
          block).2 := by
  obtain ⟨returnType, origin, f, reg, textLine, c, hdeclared, hread⟩ :=
    readComment_documents h hopen hbegins (r := s.reading.skipGap.line.2) hdocuments tree
      s.reading.skipGap.line.1
  change s.reading.registry.declare _ _ _ _ _ = _ at hdeclared
  have htext : String.ofList text ≠ "" := by
    intro hempty
    obtain rfl : text = [] := String.ofList_injective hempty
    exact nomatch hbegins
  obtain ⟨block, hsubject, hblock, hregistry⟩ := scanComment_of_readComment htext hread
  refine ⟨returnType, origin, f, block, ?_, hsubject, hblock, ?_⟩
  · rw [hdeclared]
  · rw [hdeclared, hregistry]

/-! ## Declared and documented -/

/-- What a comment has entered stays to the end of the source. -/
theorem persists_scanComment {tree : FileTree} {reg : Registry} {source : FileId} {s : State}
    (hsound : (Reading.begin reg source).Sound) (hcomment : Reaches tree reg source s) :
    Persists (scanComment tree s).2.reading.registry (scan tree reg source).1 := by
  obtain ⟨r, hend, hwhole⟩ := hcomment.leads_after
  have hcommented := hcomment.leads_before.trans (leads_scanComment tree s)
  exact hwhole ▸ (hend.edits (hcommented.sound hsound)).persists

section Declared

variable {reg : Registry} (hreg : reg.WellFormed) {header : FileId} (hheader : reg.HasFile header)
  {className : String} {r : Reading} (hmember : Header.Reaches reg header className r)
  {reg' : Registry} (hedits : Edits (Header.scan reg header) reg') {source : FileId}
  (hsource : reg'.HasFile source) {tree : FileTree} {s : State}
  (hcomment : Reaches tree reg' source s)

include hreg hheader hedits

/-- A source is scanned in a sound state behind the header. -/
theorem sound_of_edits (hsource : reg'.HasFile source) : (Reading.begin reg' source).Sound :=
  ⟨hedits.wellFormed ((Header.leads_scan reg hheader hreg).wellFormed hreg), hsource⟩

include hmember hsource hcomment

/-- What a member enters is found at every comment of a source that is scanned later. -/
theorem findOverload?_later {name parameters returnType : String} {isConst : Bool}
    {origin : Location} {owner : String} (howner : ownerPart? name = some owner)
    (hentered : (scanMember className r).2.registry =
      (r.registry.declare returnType name parameters isConst origin).2) :
    ∃ f, r.registry.declare returnType name parameters isConst origin =
        (some f, (scanMember className r).2.registry) ∧
      s.reading.registry.findOverload? name parameters isConst = some f := by
  obtain ⟨f, hf, hfound⟩ := findOverload?_declare howner r.registry returnType parameters isConst origin
  rw [← hentered] at hfound
  -- From the member on, everything is entered by edits, which keep what is found.
  have hbegun : (Reading.begin reg header).Sound := ⟨hreg, hheader⟩
  have hstep := hmember.leads_before.trans (.of_steps (steps_scanMember (fun _ => hmember.tidy) r))
  obtain ⟨r', hafter, hscanned⟩ := hmember.leads_after
  have hrest : Edits (scanMember className r).2.registry (Header.scan reg header) :=
    hscanned ▸ hafter.edits (hstep.sound hbegun)
  have hsound := sound_of_edits hreg hheader hedits hsource
  have hlater := (hrest.trans hedits).trans (hcomment.leads_before.edits hsound)
  exact ⟨f, Prod.ext hf hentered.symm, findOverload?_of_persists hlater.persists hfound⟩

/-- **One function.**  A comment with the signature of a member that a header declares finds the
function of the header. -/
theorem documents_entered {signature behind text : List Char} {name parameters returnType : String}
    {isConst : Bool} {origin : Location} (hsignature : IsSignature signature behind name parameters)
    (hentered : (scanMember className r).2.registry =
      (r.registry.declare returnType name parameters isConst origin).2)
    (hdocuments : Documents signature isConst text behind s.reading.skipGap.cursor.rest)
    (hopen : StaysOpen text) (hbegins : text.head?.any beginsText = true) :
    ∃ f, r.registry.declare returnType name parameters isConst origin =
        (some f, (scanMember className r).2.registry) ∧
      Attaches s.reading.registry (scanComment tree s).2.reading.registry f (String.ofList text) ∧
      (scanComment tree s).2.reading.registry.functions.length =
        s.reading.registry.functions.length ∧
      Persists (scanComment tree s).2.reading.registry (scan tree reg' source).1 := by
  obtain ⟨owner, howner⟩ := hsignature.hasOwner
  obtain ⟨f, hdeclared, hthere⟩ :=
    findOverload?_later hreg hheader hmember hedits hsource hcomment howner hentered
  obtain ⟨returnType', origin', f', block, hf', hsubject, htext, hregistry⟩ :=
    scanComment_documents hsignature hopen hbegins hdocuments tree
  have hattached := attaches_of_declare hf' hsubject
  rw [← hregistry, htext] at hattached
  rw [declare_of_found hthere] at hf' hregistry
  obtain rfl : f = f' := Option.some.inj hf'
  have hsound := sound_of_edits hreg hheader hedits hsource
  refine ⟨f, hdeclared, hattached, ?_, persists_scanComment hsound hcomment⟩
  rw [hregistry, length_functions_attachDoc]
  simp [editFunction]

end Declared

/-- **One function.**  A member that a header declares is documented in a source that is scanned
later: the comment finds the function of the header, attaches its text to it, and adds no function.
-/
theorem documents_declared {p : ScopePath} {d : Declaration} (h : IsMember p d)
    {reg : Registry} (hreg : reg.WellFormed) {header : FileId} (hheader : reg.HasFile header)
    {r : Reading} (hmember : Header.Reaches reg header (String.ofList p.text) r) {t : List Char}
    (hdeclared : (skipToMember r).cursor.rest = d.inClass ++ t)
    {reg' : Registry} (hedits : Edits (Header.scan reg header) reg') {source : FileId}
    (hsource : reg'.HasFile source) {tree : FileTree} {s : State}
    (hcomment : Reaches tree reg' source s) {text behind : List Char}
    (hdocuments : Documents (d.outOfClass p) (writtenConst t) text behind
      s.reading.skipGap.cursor.rest)
    (hopen : StaysOpen text) (hbegins : text.head?.any beginsText = true) :
    ∃ (returnType : String) (origin : Location) (f : FunctionId),
      r.registry.declare returnType (d.qualifiedName p) d.parameters (writtenConst t) origin =
        (some f, (scanMember (String.ofList p.text) r).2.registry) ∧
      Attaches s.reading.registry (scanComment tree s).2.reading.registry f (String.ofList text) ∧
      (scanComment tree s).2.reading.registry.functions.length =
        s.reading.registry.functions.length ∧
      Persists (scanComment tree s).2.reading.registry (scan tree reg' source).1 := by
  obtain ⟨returnType, origin, hentered⟩ := scanMember_inClass h hdeclared
  have hsignature := isSignature_outOfClass h.isReadable h.colon_not_mem behind
  exact ⟨returnType, origin, documents_entered hreg hheader hmember hedits hsource hcomment
    hsignature hentered hdocuments hopen hbegins⟩

private def barHeader : Registry :=
  (empty.addFile
    { path := "foo.h", kind := .header, text := "class Foo \x7b\n  int bar() const;\n\x7d;\n" }).2

private def barBody : Reading :=
  (openClass (firstClass barHeader ⟨0⟩)).2

private def barSource : Registry :=
  ((Header.scan barHeader ⟨0⟩).addFile
    { path := "foo.cpp", kind := .source,
      text := "/*! Counts.*/\nint Foo::bar() const \x7b\x7d\n" }).2

private def barComment : State :=
  { reading := (Reading.begin barSource ⟨1⟩).past opening, failure := none }

theorem identifiers_foo : ∀ c ∈ ["Foo".toList], Identifier c := by
  intro c hc
  obtain rfl := List.mem_singleton.mp hc
  exact ⟨rfl, rfl, by decide⟩

private def fooPath : ScopePath where
  first := "Foo".toList
  inner := []
  identifiers := identifiers_foo

private def barDeclaration : Declaration :=
  ⟨"int ".toList, "bar".toList, []⟩

private theorem isMember_bar : IsMember fooPath barDeclaration :=
  .ordinary ⟨rfl, rfl, by decide⟩
    ⟨by decide, .of_not_mem (by decide) (by decide), rfl, by decide +kernel⟩ (by decide)
    ⟨.of_not_mem (by decide) (by decide), by decide +kernel, by decide +kernel⟩

/-- A function of a header that is documented in front of its definition. -/
theorem documents_bar :
    ∃ f, Attaches barComment.reading.registry (scanComment .empty barComment).2.reading.registry f
        "Counts." ∧
      (scanComment .empty barComment).2.reading.registry.functions.length = 1 := by
  have hreg : barHeader.WellFormed := (Edits.single (.addFile _)).wellFormed wellFormed_empty
  have hheader : barHeader.HasFile ⟨0⟩ := Nat.zero_lt_one
  have hmember : Header.Reaches barHeader ⟨0⟩ (String.ofList fooPath.text) barBody :=
    ⟨by decide +kernel, _, barBody, .start _, Prod.ext (by decide +kernel) rfl, .start _⟩
  have hdeclared : (skipToMember barBody).cursor.rest =
      barDeclaration.inClass ++ " const;\n\x7d;\n".toList := by decide +kernel
  have hsource : 1 < barSource.files.length := by decide +kernel
  have hcomment : Reaches .empty barSource ⟨1⟩ barComment := ⟨by decide +kernel, .start _⟩
  have hrest : barComment.reading.skipGap.cursor.rest =
      "Counts.".toList ++ (closing.toList ++
        ("\n".toList ++ (barDeclaration.outOfClass fooPath ++ " const \x7b\x7d\n".toList))) := by
    decide +kernel
  have hdocuments : Documents (barDeclaration.outOfClass fooPath)
      (writtenConst " const;\n\x7d;\n".toList) "Counts.".toList " const \x7b\x7d\n".toList
      barComment.reading.skipGap.cursor.rest := by
    rw [hrest]
    exact .definition rfl (by decide +kernel)
  obtain ⟨_, _, f, -, hattached, hlength, -⟩ :=
    documents_declared isMember_bar hreg hheader hmember hdeclared (.single (.addFile _)) hsource
      hcomment hdocuments (.of_not_mem (by decide)) rfl
  refine ⟨f, hattached, ?_⟩
  rw [hlength]
  decide +kernel

/-- The registries after a header, and after a source file that is read behind it. -/
def scanPair (header source : String) : Registry × Registry :=
  let reg := Header.scan (empty.addFile { path := "foo.h", kind := .header, text := header }).2 ⟨0⟩
  (reg, (scan .empty (reg.addFile { path := "foo.cpp", kind := .source, text := source }).2 ⟨1⟩).1)

/-- **Exceptions.**  A class with arguments cannot be named in front of a member.  In a header, an
operator with a colon in its symbol is refused, and so is a constructor that bears only the last
name of the path of its class. -/
theorem not_documented :
    (scanPair "class List<Foo> \x7b\n  void bar();\n\x7d;\n"
        "/*! Clears.*/\nvoid List<Foo>::bar() \x7b\x7d\n").2.functions.map (fun f => (f.name, f.doc)) =
      [("List<Foo>::bar", none)] ∧
    (scanPair "class Foo \x7b\n  int operator:();\n\x7d;\n"
        "/*! Splits.*/\nint Foo::operator:() \x7b\x7d\n").1.functions = [] ∧
    (scanPair "class A::B \x7b\n  B();\n\x7d;\n"
        "/*! Makes.*/\nA::B::B() \x7b\x7d\n").1.functions = [] := by
  refine ⟨?_, ?_, ?_⟩ <;> decide +kernel

end CppDoc.Comment
