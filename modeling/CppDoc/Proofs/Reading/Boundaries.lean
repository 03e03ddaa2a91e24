import CppDoc.Proofs.Markup.OffsetTexts
import CppDoc.Proofs.Reading.Enclosed
import CppDoc.Proofs.Reading.TextLine

/-!
# Cursors stand on boundaries

Cursors move by bytes here and by characters there, and a text is cut between the offsets of two cursors.
A cursor in the middle of a character would not be noticed: nothing would follow it, and what is cut
would be empty.  There is no such cursor: whatever is read of a text, from its start on, each cursor
stands on a boundary, and each cut gives all of the text between two cursors.

* `Cursor.Exact`: what holds of such a cursor; `exact_after`: it holds behind any scans;
* `onward_scanComment`: the scans of a source file; `Header.Stage` and `Comment.Stage`: what the scans of
  files come to;
* `cut?_wordEnd`: the one cut that is made at an offset without a cursor;
* `cursors_exact`: headers, source files and documentation.
-/

namespace CppDoc

open CppDoc.Syntax CppDoc.Text

namespace Cursor

/-- The cursor stands on a boundary of the text `s`.  The rest of the text is what follows there, each
scan cuts what the characters say, and what is cut out between here and the cursor behind any scans is
all of the text between them. -/
structure Exact (s : List Char) (c : Cursor) : Prop where
  text : c.text = s
  boundary : IsBoundary s c.pos
  rest : dropBytes? s c.pos = some c.rest
  scan : ∀ scan : Scan, scan.runAt? c = some (scan.run c)
  slice : ∀ scans, ∃ passed, c.rest = passed ++ (c.after scans).rest ∧
    cut? s c.pos (c.after scans).pos = some passed ∧ Text.slice s c.pos (c.after scans).pos = passed

theorem Between.exact {c : Cursor} {before after : List Char} (h : c.Between before after) :
    c.Exact (before ++ after) := by
  refine ⟨h.text, ⟨before, List.prefix_append _ _, h.pos.symm⟩, ?_, runAt?_eq h.stands, ?_⟩
  · rw [h.pos, h.rest, dropBytes?_append]
  · intro scans
    obtain ⟨passed, left, rfl, hthere⟩ := h.within_after scans
    have hcut : cut? (before ++ (passed ++ left)) c.pos (c.after scans).pos = some passed := by
      refine cut?_eq_some_iff.mpr ⟨before, left, rfl, h.pos.symm, ?_⟩
      rw [h.pos, hthere.pos, byteLength_append]
    refine ⟨passed, ?_, hcut, slice_of_cut? hcut⟩
    rw [h.rest, hthere.rest]

theorem exact_after (s : List Char) (scans : List Scan) : ((ofText s).after scans).Exact s := by
  obtain ⟨passed, left, rfl, hthere⟩ := (between_ofText s).within_after scans
  exact hthere.exact

end Cursor

/-- The word behind a gap is cut out whole at any offset, unless nothing is found there. -/
theorem Syntax.cut?_wordEnd (s : List Char) (offset : Nat) :
    wordEnd s offset = offset ∨
      cut? s offset (wordEnd s offset) = some (slice s offset (wordEnd s offset)) := by
  have hword : wordEnd s offset = _ := marks_word s offset
  rw [hword]
  by_cases hnil : fromOffset s offset = []
  · exact .inl (offsetBehind_of_nil hnil)
  · obtain ⟨before, hs, hbefore⟩ := exists_before_of_fromOffset hnil
    have hcut := cut?_offsetBehind before (fromOffset s offset) 0 (wordLength (fromOffset s offset))
    rw [Nat.zero_add, List.take_zero, byteLength, Nat.add_zero, List.drop_zero, hbefore, ← hs] at hcut
    exact .inr (by rw [slice_offsetBehind]; exact hcut)

namespace Comment

/-- A comment is read, or it fails; behind one that has been read the next opening is looked for. -/
theorem scanComment_cases (tree : FileTree) (s : State) :
    (∃ e r, s.reading.cursor.Onward r.cursor ∧
      scanComment tree s = (false, { reading := r, failure := some e })) ∨
    ∃ r : Reading, s.reading.cursor.Onward r.cursor ∧
      scanComment tree s =
        (!(r.past opening).atEnd, { reading := r.past opening, failure := none }) := by
  have hstart : s.reading.Onward s.reading.skipGap.line.2 :=
    .of_steps ((Reading.steps_skipGap _).trans (Reading.steps_line _))
  obtain ⟨hok, herror⟩ :=
    read_readComment tree s.reading.skipGap.line.1 s.reading.skipGap.line.2
  simp only [scanComment]
  split
  · rename_i e r hread
    exact .inl ⟨e, r, (hstart.trans (herror e r hread)).cursor, rfl⟩
  · rename_i found r hread
    refine .inr ⟨settle s.reading.skipGap.line.1 found r, ?_, rfl⟩
    rw [cursor_settle]
    exact (hstart.trans (hok _ hread).onward).cursor

theorem onward_scanComment (tree : FileTree) (s : State) :
    s.reading.cursor.Onward (scanComment tree s).2.reading.cursor := by
  obtain ⟨e, r, honward, hscan⟩ | ⟨r, honward, hscan⟩ := scanComment_cases tree s
  · rw [hscan]
    exact honward
  · rw [hscan]
    exact honward.trans (r.cursor.onward_run (.scanTo opening))

end Comment

/-! ## Files that are read -/

/-- What the scan of a header comes to: where it begins, and wherever its functions lead from there. -/
inductive Header.Stage (reg : Registry) (file : FileId) : Reading → Prop
  | first : Stage reg file (firstClass reg file)
  | statement {r : Reading} (h : Stage reg file r) : Stage reg file (scanStatement r).2
  | opened {r : Reading} (h : Stage reg file r) : Stage reg file (openClass r).2
  | begun {r : Reading} (h : Stage reg file r) : Stage reg file (skipToMember r).line.2
  | named {r : Reading} (h : Stage reg file r) (className : String) :
      Stage reg file (readMemberName className r).2.2
  | declared {r : Reading} (h : Stage reg file r) (className returnType name : String) (line : Nat) :
      Stage reg file (scanDeclarator className returnType name line r).2
  | enumeration {r : Reading} (h : Stage reg file r) (className : String) (line : Nat) :
      Stage reg file (scanEnum className line r).2
  | enumerator {r : Reading} (h : Stage reg file r) : Stage reg file (scanEnumerator r).2
  | finished {r : Reading} (h : Stage reg file r) : Stage reg file (skipMemberTail r)
  | member {r : Reading} (h : Stage reg file r) (className : String) :
      Stage reg file (scanMember className r).2

theorem Header.Stage.onward {reg : Registry} {file : FileId} {r : Reading} (h : Stage reg file r) :
    (Reading.begin reg file).Onward r := by
  induction h with
  | first => exact .of_steps (steps_firstClass reg file)
  | statement _ ih => exact ih.trans (.of_steps (steps_scanStatement _))
  | opened _ ih => exact ih.trans (.of_steps (steps_openClass _))
  | begun _ ih => exact ih.trans (.of_steps ((steps_skipToMember _).trans (Reading.steps_line _)))
  | named _ className ih => exact ih.trans (.of_steps (steps_readMemberName className _))
  | declared _ className returnType name line ih =>
      exact ih.trans (.of_steps (steps_scanDeclarator nofun nofun nofun line _))
  | enumeration _ className line ih => exact ih.trans (.of_steps (steps_scanEnum className line _))
  | enumerator _ ih => exact ih.trans (.of_steps (steps_scanEnumerator _))
  | finished _ ih => exact ih.trans (.of_steps (steps_skipMemberTail _))
  | member _ className ih => exact ih.trans (.of_steps (steps_scanMember nofun _))

/-- What the scan of a source file comes to: where it begins, and wherever its functions lead from
there.  A directive that fails ends the scan where it stands. -/
inductive Comment.Stage (tree : FileTree) (reg : Registry) (file : FileId) : Reading → Prop
  | first : Stage tree reg file ((Reading.begin reg file).past opening)
  | undocumented : Stage tree reg file (reportUndocumented (Reading.begin reg file))
  | comment {s : State} (h : Stage tree reg file s.reading) :
      Stage tree reg file (scanComment tree s).2.reading
  | begun {r : Reading} (h : Stage tree reg file r) : Stage tree reg file r.skipGap.line.2
  | directive {r : Reading} (h : Stage tree reg file r) : Stage tree reg file (r.past " ")
  | function {r : Reading} (h : Stage tree reg file r) : Stage tree reg file (scanFunction r).2
  | chapter {r : Reading} (h : Stage tree reg file r) : Stage tree reg file (scanChapterDirective r).2
  | headerName {r : Reading} (h : Stage tree reg file r) : Stage tree reg file (readHeaderName r).2
  | found {r r' : Reading} {binding : Binding} {line : Nat} (h : Stage tree reg file r)
      (hread : scanClassDirective tree line r = .ok (binding, r')) : Stage tree reg file r'
  | failed {r r' : Reading} {e : Failure} {line : Nat} (h : Stage tree reg file r)
      (hread : scanClassDirective tree line r = .error (e, r')) : Stage tree reg file r'
  | body {r : Reading} (h : Stage tree reg file r) : Stage tree reg file (readBody r).2

theorem Comment.Stage.onward {tree : FileTree} {reg : Registry} {file : FileId} {r : Reading}
    (h : Stage tree reg file r) : (Reading.begin reg file).cursor.Onward r.cursor := by
  induction h with
  | first => exact Cursor.onward_run _ (.scanTo opening)
  | undocumented => exact (steps_reportUndocumented _).onward.cursor
  | comment _ ih => exact ih.trans (onward_scanComment tree _)
  | begun _ ih => exact (ih.trans (Cursor.onward_run _ .skipGap)).trans (Cursor.onward_run _ .line)
  | directive _ ih => exact ih.trans (Cursor.onward_run _ (.scanTo " "))
  | function _ ih => exact ih.trans (finds_scanFunction _).steps.onward.cursor
  | chapter _ ih => exact ih.trans (finds_scanChapterDirective _).steps.onward.cursor
  | headerName _ ih => exact ih.trans (steps_readHeaderName _).onward.cursor
  | found _ hread ih =>
      exact ih.trans ((finds_scanClassDirective tree _ _).1 _ hread).steps.onward.cursor
  | failed _ hread ih =>
      exact ih.trans ((finds_scanClassDirective tree _ _).2 _ _ hread).onward.cursor
  | body _ ih => exact ih.trans (steps_readBody _).onward.cursor

/-- **Boundaries.**  Behind any scans of a text, a cursor stands on a boundary of it, and cuts give all
of what stands between two such cursors.  Headers and source files are read by such scans.  The text of
a documentation is read to its end, turn by turn, without a word that is empty and without a cut or a
first byte that is not there; and so are the signatures in its headlines. -/
theorem cursors_exact :
    (∀ s scans, ((Cursor.ofText s).after scans).Exact s) ∧
    (∀ s offset, wordEnd s offset = offset ∨
      cut? s offset (wordEnd s offset) = some (slice s offset (wordEnd s offset))) ∧
    (∀ reg file r, Header.Stage reg file r →
      ∃ scans, r.cursor = (Cursor.ofText (reg.file file).text.toList).after scans) ∧
    (∀ tree reg file r, Comment.Stage tree reg file r →
      ∃ scans, r.cursor = (Cursor.ofText (reg.file file).text.toList).after scans) ∧
    (∀ d s st, Markup.readWordsAt? d d.textLine 0 st (Cursor.ofText s) =
      some (Markup.readWords d s d.textLine d.textLine 0 st)) ∧
    (∀ reg within piece, Markup.signaturePieceAt? reg within piece =
      some (Markup.signaturePiece reg within piece)) := by
  refine ⟨Cursor.exact_after, cut?_wordEnd, fun reg file r h => h.onward.cursor,
    fun tree reg file r h => h.onward, fun d s st => ?_, Markup.signaturePieceAt?_eq⟩
  exact Markup.readWordsAt?_eq (d := d)
    (p := { line := d.textLine, last := d.textLine, count := 0, state := st })
    (Cursor.between_ofText s) rfl

private def umlautHeader : Registry :=
  (Registry.empty.addFile
    { path := "foo.h", kind := .header,
      text := "// für\nclass Foo \x7b\n  int bar(); // größer\n  // Ende\n\x7d;\n" }).2

/-- A header with letters of two bytes in its remarks.  Behind the first member of the class the cursor
stands on the byte behind the semicolon. -/
theorem cursors_exact_umlaut :
    let r := (Header.scanMember "Foo" (Header.openClass (Header.firstClass umlautHeader ⟨0⟩)).2).2
    r.cursor.pos = 32 ∧
      ∃ scans, r.cursor = (Cursor.ofText (umlautHeader.file ⟨0⟩).text.toList).after scans :=
  ⟨by decide +kernel, cursors_exact.2.2.1 umlautHeader ⟨0⟩ _ (.member (.opened .first) "Foo")⟩

end CppDoc
