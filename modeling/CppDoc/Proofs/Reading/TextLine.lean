import CppDoc.Proofs.Reading.Directive

/-!
# Where the texts of comments stand

The text of a block is a piece of its file, up to the end of the comment.  It begins behind white
space; the line that is kept with it is that of the first character that is no blank.  Some white
space is no blank, such as a form feed: if there is any before the text, and a line feed behind it,
the text begins on a later line than the one that is kept.

* `Placed`: a text between what stands before it in the file and what stands behind it;
* `placed_readBody`: the text that is read of a comment; `Read` and `read_readComment`: whatever
  directive stands before it;
* `Scanned`: what a scan has attached by the time it stands somewhere in the file;
* `textLine_scan`: the blocks of a file, their texts and their lines.
-/

namespace CppDoc.Comment

open CppDoc.Syntax CppDoc.Text Reading

/-- In the file, `before` is followed by the white space `odd`, that by `text`, and that by `after`.
The comment ends behind the text, or the file does.  The white space begins with no blank, and the
line that is kept is the one on which it begins. -/
structure Placed (file : List Char) (textLine : Nat) (text : String)
    (before odd after : List Char) : Prop where
  file : file = before ++ (odd ++ (text.toList ++ after))
  ends : after = [] ∨ closing.toList <+: after
  space : ∀ c ∈ odd, isSpace c = true
  visible : ∀ c, odd.head? = some c → isBlank c = false
  line : textLine = lineBehind before

/-- The text has a place in the file. -/
def HasPlace (file : List Char) (textLine : Nat) (text : String) : Prop :=
  ∃ before odd after, Placed file textLine text before odd after

/-! ## One text -/

/-- The text up to the end of a comment. -/
theorem exists_textUntil (c : Cursor) :
    ∃ after, c.rest = (c.textUntil closing).1 ++ after ∧
      (after = [] ∨ closing.toList <+: after) := by
  unfold Cursor.textUntil Cursor.cutAt
  cases hfound : find? closing.toList c.rest with
  | none => exact ⟨[], (List.append_nil _).symm, .inl rfl⟩
  | some n =>
      refine ⟨closing.toList ++ c.rest.drop (n + closing.toList.length), ?_,
        .inr (List.prefix_append _ _)⟩
      rw [← List.append_assoc]
      exact eq_of_find? hfound

/-- The white space before a text: blanks, and more white space from the first character on that is no
blank. -/
theorem exists_odd {body : List Char} (hne : trimLeft body ≠ []) (after : List Char) :
    ∃ odd, body = body.takeWhile isBlank ++ (odd ++ trimLeft body) ∧
      (body ++ after).takeWhile isBlank = body.takeWhile isBlank ∧
      (∀ c ∈ odd, isSpace c = true) ∧ ∀ c, odd.head? = some c → isBlank c = false := by
  have htrim : trimLeft (body.dropWhile isBlank) = trimLeft body := trimLeft_dropWhile_isBlank body
  have hsplit : body.takeWhile isBlank ++ body.dropWhile isBlank = body :=
    List.takeWhile_append_dropWhile
  cases hvisible : body.dropWhile isBlank with
  | nil =>
      rw [hvisible] at htrim
      exact absurd htrim.symm hne
  | cons c rest =>
      have hc : isBlank c = false := by
        have hhead := List.head?_dropWhile_not isBlank body
        rw [hvisible] at hhead
        simpa using hhead
      rw [hvisible] at htrim hsplit
      refine ⟨(c :: rest).takeWhile isSpace, ?_, ?_, List.all_eq_true.mp List.all_takeWhile, ?_⟩
      · rw [← htrim, trimLeft, List.takeWhile_append_dropWhile, hsplit]
      · conv => lhs; rw [← hsplit]
        rw [List.append_assoc, List.takeWhile_append_of_pos (List.all_eq_true.mp List.all_takeWhile),
          List.cons_append, List.takeWhile_cons_of_neg (by simp [hc]), List.append_nil]
      · intro e he
        rw [List.takeWhile_cons] at he
        split at he
        · exact Option.some.inj he ▸ hc
        · cases he

/-- **The text of a comment**, and the line that is kept with it. -/
theorem placed_readBody {r : Reading} {before after : List Char}
    (h : r.cursor.Between before after) (hne : (readBody r).1.2 ≠ "") :
    HasPlace (before ++ after) (readBody r).1.1 (readBody r).1.2 := by
  obtain ⟨mark, hline, -⟩ := h.line_eq
  have hrest : r.cursor.line.2.rest = after := by
    rw [hline]
    exact h.rest
  obtain ⟨back, hback, hends⟩ := exists_textUntil r.cursor.line.2
  have hbody : trimLeft (r.cursor.line.2.textUntil closing).1 ≠ [] := fun hnil =>
    hne (congrArg String.ofList hnil)
  obtain ⟨odd, hsplit, hblanks, hspace, hvisible⟩ := exists_odd hbody back
  rw [hrest] at hback
  refine ⟨before ++ after.takeWhile isBlank, odd, back, ?_, hends, hspace, hvisible, ?_⟩
  · have htext : (readBody r).1.2.toList = trimLeft (r.cursor.line.2.textUntil closing).1 :=
      String.toList_ofList
    rw [htext, hback, hblanks, List.append_assoc, List.append_right_inj]
    conv => lhs; rw [hsplit]
    simp only [List.append_assoc]
  · exact congrArg Prod.fst hline

/-! ## One comment -/

/-- A comment has been read: reading has gone on, and the text that was found has a place in the
file. -/
structure Read (r : Reading) (found : Finding × Reading) : Prop where
  onward : Onward r found.2
  placed : ∀ before after, r.cursor.Between before after → found.1.text ≠ "" →
    HasPlace (before ++ after) found.1.textLine found.1.text

/-- A place in what is left of a file is one in the file. -/
theorem Read.of_onward {r r' : Reading} {found : Finding × Reading} (h : Onward r r')
    (hread : Read r' found) : Read r found := by
  refine ⟨h.trans hread.onward, fun before after hbetween hne => ?_⟩
  obtain ⟨passed, left, rfl, hthere⟩ := h.cursor.within hbetween
  rw [← List.append_assoc]
  exact hread.placed _ left hthere hne

theorem read_readBody (r : Reading) {p : Binding × Reading} (h : Onward (readBody r).2 p.2) :
    Read r ({ binding := p.1, textLine := (readBody r).1.1, text := (readBody r).1.2 }, p.2) :=
  ⟨(steps_readBody r).onward.trans h, fun _ _ hbetween hne => placed_readBody hbetween hne⟩

/-- The text behind a directive. -/
theorem read_withBody {r : Reading} {found : Binding × Reading} (h : Onward r found.2) :
    Read r (withBody found) :=
  .of_onward h (read_readBody found.2 (p := (found.1, (readBody found.2).2)) (.refl _))

/-- **A comment.**  With any directive or none, its text is read from where it stands. -/
theorem read_readComment (tree : FileTree) (line : Nat) (r : Reading) :
    (∀ found, readComment tree line r = .ok found → Read r found) ∧
      ∀ e r', readComment tree line r = .error (e, r') → Onward r r' := by
  have hpast : Onward r (r.past " ") := .of_steps (r.steps_past " ")
  unfold readComment
  split
  · refine ⟨fun found h => ?_, fun _ _ h => nomatch h⟩
    obtain rfl := Except.ok.inj h
    exact read_withBody (hpast.trans (finds_scanFunction _).steps.onward)
  split
  · refine ⟨fun found h => ?_, fun _ _ h => nomatch h⟩
    obtain rfl := Except.ok.inj h
    exact read_withBody (hpast.trans (finds_scanChapterDirective _).steps.onward)
  split
  · obtain ⟨hok, herror⟩ := finds_scanClassDirective tree line (r.past " ")
    cases hscan : scanClassDirective tree line (r.past " ") with
    | error e =>
        refine ⟨fun _ h => (nomatch h), fun e' r' h => ?_⟩
        obtain rfl := Except.error.inj h
        exact hpast.trans (herror e' r' hscan).onward
    | ok p =>
        refine ⟨fun found h => ?_, fun _ _ h => nomatch h⟩
        obtain rfl := Except.ok.inj h
        exact read_withBody (hpast.trans (hok p hscan).steps.onward)
  split
  · refine ⟨fun found h => ?_, fun _ _ h => nomatch h⟩
    obtain rfl := Except.ok.inj h
    exact ⟨.refl r, fun _ _ _ hne => absurd rfl hne⟩
  · refine ⟨fun found h => ?_, fun _ _ h => nomatch h⟩
    have hread (p : Binding × Reading) := read_readBody r (p := p)
    rcases hbody : readBody r with ⟨⟨textLine, text⟩, behind⟩
    have hscan := (finds_scanFunction behind).steps.onward
    rcases hfound : scanFunction behind with ⟨binding, last⟩
    simp only [hbody, hfound] at h hread hscan
    obtain rfl := Except.ok.inj h
    exact hread (binding, last) hscan

/-! ## A file -/

/-- While the file with the text `text` is scanned: the reading stands somewhere in it, and what has
been attached are blocks with texts of this file. -/
structure Scanned (reg : Registry) (file : FileId) (text : List Char) (r : Reading) : Prop where
  stays : r.file = file
  place : ∃ before after, text = before ++ after ∧ r.cursor.Between before after
  docs : ∃ added, r.registry.docs = reg.docs ++ added ∧
    ∀ block ∈ added, block.origin.file = file ∧ block.text ≠ "" ∧
      HasPlace text block.textLine block.text

section Scan

variable {reg : Registry} {file : FileId} {text : List Char} {r r' : Reading}

theorem Scanned.onward (h : Scanned reg file text r) (hon : Onward r r') :
    Scanned reg file text r' := by
  obtain ⟨before, after, htext, hbetween⟩ := h.place
  obtain ⟨passed, left, rfl, hthere⟩ := hon.cursor.within hbetween
  refine ⟨hon.file.trans h.stays, ⟨_, left, ?_, hthere⟩, ?_⟩
  · rw [htext, List.append_assoc]
  · rw [hon.docs]
    exact h.docs

theorem scanned_begin (reg : Registry) (file : FileId) :
    Scanned reg file (reg.file file).text.toList (Reading.begin reg file) where
  stays := rfl
  place := ⟨[], _, rfl, Cursor.between_ofText _⟩
  docs := ⟨[], (List.append_nil _).symm, fun _ h => absurd h List.not_mem_nil⟩

theorem docs_attachDoc (reg : Registry) (block : DocBlock) :
    (reg.attachDoc block).2.docs = reg.docs ++ [block] := by
  unfold Registry.attachDoc
  dsimp only
  split <;> rfl

/-- What is attached is what was found. -/
theorem Scanned.settle (h : Scanned reg file text r) (line : Nat) (found : Finding)
    (hfound : found.text ≠ "" → HasPlace text found.textLine found.text) :
    Scanned reg file text (settle line found r) := by
  unfold Comment.settle
  split
  · exact h
  split
  · exact h.onward (.of_steps (r.steps_report line rfl))
  rename_i hne
  split
  · rename_i subject _
    have htext : found.text ≠ "" := by simpa using hne
    obtain ⟨added, hadded, hblocks⟩ := h.docs
    have hattached := docs_attachDoc r.registry
      { origin := ⟨r.file, line⟩, textLine := found.textLine, text := found.text, subject }
    rw [hadded, List.append_assoc] at hattached
    refine ⟨h.stays, h.place, _, hattached, fun block hblock => ?_⟩
    rcases List.mem_append.mp hblock with hblock | hblock
    · exact hblocks block hblock
    · obtain rfl := List.mem_singleton.mp hblock
      exact ⟨h.stays, htext, hfound htext⟩
  · exact h

/-- **A step.**  One comment. -/
theorem Scanned.scanComment {s : State} (h : Scanned reg file text s.reading) (tree : FileTree) :
    Scanned reg file text (scanComment tree s).2.reading := by
  have hstart : Onward s.reading s.reading.skipGap.line.2 :=
    .of_steps ((steps_skipGap _).trans (steps_line _))
  obtain ⟨before, after, htext, hbetween⟩ := (h.onward hstart).place
  obtain ⟨hok, herror⟩ :=
    read_readComment tree s.reading.skipGap.line.1 s.reading.skipGap.line.2
  simp only [Comment.scanComment]
  split
  · rename_i e r' hread
    exact h.onward (hstart.trans (herror e r' hread))
  · rename_i found r' hread
    have hfound := hok _ hread
    have hsettled := ((h.onward hstart).onward hfound.onward).settle s.reading.skipGap.line.1 found
      fun hne => htext ▸ hfound.placed before after hbetween hne
    exact hsettled.onward (.of_steps (steps_past _ opening))

/-- **A run.**  All comments of a file. -/
theorem scanned_scan (tree : FileTree) (reg : Registry) (file : FileId) :
    ∃ r, (scan tree reg file).1 = r.registry ∧
      Scanned reg file (reg.file file).text.toList r := by
  have hbegun := scanned_begin reg file
  have hpast := hbegun.onward (.of_steps (steps_past _ opening))
  simp only [scan]
  split
  · exact ⟨_, rfl, hbegun.onward (steps_reportUndocumented _).onward⟩
  · exact ⟨_, rfl, iterate_induction
      (P := fun s : State => Scanned reg file (reg.file file).text.toList s.reading)
      (fun s hs => hs.scanComment tree) hpast⟩

end Scan

/-- **Texts and their lines.**  Every block that a scan attaches has a text that is not empty: a piece of
the file, right before the end of a comment or at the end of the file.  The line that is kept with it is
that of the first character of the white space before it that is no blank, or its own if there is none.
So it is the line on which the text begins unless a line feed stands between the two, and it always is
in a file in which all white space is blank. -/
theorem textLine_scan (tree : FileTree) (reg : Registry) (file : FileId) :
    ∃ added, (scan tree reg file).1.docs = reg.docs ++ added ∧
      ∀ block ∈ added, block.origin.file = file ∧ block.text ≠ "" ∧
        ∃ before odd after,
          Placed (reg.file file).text.toList block.textLine block.text before odd after ∧
          (block.textLine = lineBehind (before ++ odd) ↔ '\n' ∉ odd) ∧
          ((∀ c ∈ (reg.file file).text.toList, isSpace c = true → isBlank c = true) → odd = []) := by
  obtain ⟨r, hr, hscanned⟩ := scanned_scan tree reg file
  obtain ⟨added, hadded, hblocks⟩ := hscanned.docs
  refine ⟨added, by rw [hr, hadded], fun block hblock => ?_⟩
  obtain ⟨hfile, hne, before, odd, after, hplaced⟩ := hblocks block hblock
  refine ⟨hfile, hne, before, odd, after, hplaced, ?_, fun hblank => ?_⟩
  · rw [hplaced.line, lineBehind, lineBehind, List.count_append, ← List.count_eq_zero]
    omega
  · cases odd with
    | nil => rfl
    | cons c odd =>
        have hmem : c ∈ (reg.file file).text.toList := by
          rw [hplaced.file]
          simp
        have hspace := hblank c hmem (hplaced.space c List.mem_cons_self)
        exact absurd hspace (by rw [hplaced.visible c rfl]; decide)

/-- A form feed before the text. -/
example :
    (scan ⟨[]⟩ (Registry.empty.addFile
      { path := "foo.cpp", kind := .source
        text := "/*! \\fn void Foo::bar()\n\x0c\n  Bars.\n*/\n" }).2 ⟨0⟩).1.docs =
      [{ origin := ⟨⟨0⟩, 1⟩, textLine := 2, text := "Bars.\n", subject := .function ⟨0⟩ }] := by
  decide +kernel

end CppDoc.Comment
