import CppDoc.Proofs.Reading.Steps
import CppDoc.Proofs.Text.Search

/-!
# Places in a file

A reading that moves over whole characters stands between the text that it has read and the text that
is left, and the lines that it has counted are those of the text that it has read.  `Stands` says so,
together with the registry that has been entered by then, so that a run of a reader is described by
one step after the other.

* `lineBehind`: the line on which a text goes on;
* `stands_begin` and the lemmas behind it: what the moves of a reading do to its place;
* `Stands.line`: the line of what comes next.
-/

namespace CppDoc

open CppDoc.Text

/-- The line on which a file goes on behind the text `s`. -/
def lineBehind (s : List Char) : Nat :=
  s.count '\n' + 1

/-! ## Counting lines -/

namespace LineMark

/-- What has been counted up to the mark is right. -/
def Counts (m : LineMark) (text : List Char) : Prop :=
  ∃ before, text = before ++ m.ahead ∧ m.pos = byteLength before ∧ m.line = lineBehind before

theorem counts_start (text : List Char) : (start text).Counts text :=
  ⟨[], rfl, rfl, rfl⟩

theorem lineBehind_concat (s : List Char) (c : Char) :
    lineBehind (s ++ [c]) = if c = '\n' then lineBehind s + 1 else lineBehind s := by
  unfold lineBehind
  rw [List.count_append]
  by_cases hc : c = '\n' <;> simp [hc]

theorem byteLength_concat (s : List Char) (c : Char) :
    byteLength (s ++ [c]) = byteLength s + c.utf8Size := by
  simp [byteLength_append, byteLength]

/-- Behind the place up to which it counts, the mark is moved over blanks. -/
theorem countTo_of_le {target : Nat} {before : List Char} (hle : target ≤ byteLength before)
    (after : List Char) :
    countTo target (lineBehind before) (byteLength before) after =
      ⟨lineBehind (before ++ after.takeWhile isBlank), byteLength (before ++ after.takeWhile isBlank),
        after.dropWhile isBlank⟩ := by
  induction after generalizing before with
  | nil => simp [countTo]
  | cons c after ih =>
      have hpos := Char.utf8Size_pos c
      have hhere : target < byteLength before + c.utf8Size := by omega
      by_cases hc : isBlank c = true
      · have hle' : target ≤ byteLength (before ++ [c]) := by
          rw [byteLength_concat]
          omega
        have hnext := ih hle'
        rw [lineBehind_concat, byteLength_concat, List.append_assoc, List.singleton_append] at hnext
        simp only [countTo, hhere, hc, decide_true, Bool.not_true, Bool.and_false, Bool.false_eq_true,
          if_false, List.takeWhile_cons, List.dropWhile_cons, if_true]
        exact hnext
      · simp [countTo, hhere, hc]

/-- Inside a character, the mark stays before it. -/
theorem countTo_within {target : Nat} {before after : List Char}
    (hunder : ∀ c ∈ after.head?, target < byteLength before + c.utf8Size) :
    countTo target (lineBehind before) (byteLength before) after =
      ⟨lineBehind (before ++ after.takeWhile isBlank), byteLength (before ++ after.takeWhile isBlank),
        after.dropWhile isBlank⟩ := by
  cases after with
  | nil => simp [countTo]
  | cons c after =>
      have hhere : target < byteLength before + c.utf8Size := hunder c rfl
      by_cases hc : isBlank c = true
      · have hsize : c.utf8Size = 1 := by
          simp only [isBlank, Bool.or_eq_true, beq_iff_eq] at hc
          rcases hc with ((rfl | rfl) | rfl) | rfl <;> rfl
        exact countTo_of_le (by omega) (c :: after)
      · simp [countTo, hhere, hc]

/-- Counting up to a place, the mark is put at the first character from there on that is no blank. -/
theorem countTo_eq {target : Nat} (before between : List Char) {after : List Char}
    (hle : byteLength (before ++ between) ≤ target)
    (hunder : ∀ c ∈ after.head?, target < byteLength (before ++ between) + c.utf8Size) :
    countTo target (lineBehind before) (byteLength before) (between ++ after) =
        ⟨lineBehind (before ++ between ++ after.takeWhile isBlank),
          byteLength (before ++ between ++ after.takeWhile isBlank), after.dropWhile isBlank⟩ := by
  induction between generalizing before with
  | nil =>
      rw [List.append_nil] at hunder ⊢
      exact countTo_within hunder
  | cons d between ih =>
      have hfar : ¬ target < byteLength before + d.utf8Size := by
        rw [byteLength_append, byteLength] at hle
        omega
      have hsplit : before ++ d :: between = before ++ [d] ++ between := by simp
      rw [hsplit] at hle hunder ⊢
      have hnext := ih (before ++ [d]) hle hunder
      rw [lineBehind_concat, byteLength_concat] at hnext
      simp only [List.cons_append, countTo, hfar, decide_false, Bool.false_and, Bool.false_eq_true,
        if_false]
      exact hnext

/-- What has been counted up to an offset covers no more than what ends before it. -/
theorem exists_counted {before after counted ahead : List Char} {n : Nat}
    (htext : before ++ after = counted ++ ahead)
    (hunder : ∀ c ∈ after.head?, n < byteLength before + c.utf8Size)
    (hle : byteLength counted ≤ n) : ∃ between, before = counted ++ between ∧ ahead = between ++ after := by
  rcases List.append_eq_append_iff.mp htext with ⟨excess, hcounted, hafter⟩ | ⟨between, hbefore, hahead⟩
  · cases excess with
    | nil => exact ⟨[], by simpa using hcounted.symm, hafter.symm⟩
    | cons c excess =>
        have hhere := hunder c (by rw [hafter]; rfl)
        rw [hcounted, byteLength_append, byteLength] at hle
        omega
  · exact ⟨between, hbefore, hahead⟩

end LineMark

/-- **The line of a cursor** is that on which the text goes on behind the blanks from the character
under the cursor on. -/
theorem Cursor.line_eq {c : Cursor} {before after : List Char} (htext : c.text = before ++ after)
    (hpos : byteLength before ≤ c.pos)
    (hunder : ∀ d ∈ after.head?, c.pos < byteLength before + d.utf8Size)
    (hmark : c.mark.Counts c.text) :
    ∃ mark, c.line = (lineBehind (before ++ after.takeWhile isBlank), { c with mark }) ∧
      mark.Counts c.text := by
  rw [Cursor.line]
  generalize horigin : (if c.pos < c.mark.pos then LineMark.start c.text else c.mark) = origin
  have hcounts : origin.Counts c.text ∧ origin.pos ≤ c.pos := by
    rw [← horigin]
    split
    · exact ⟨LineMark.counts_start _, Nat.zero_le _⟩
    · exact ⟨hmark, by omega⟩
  obtain ⟨⟨counted, hcounted, horiginPos, hline⟩, hle⟩ := hcounts
  rw [horiginPos] at hle
  obtain ⟨between, hbefore, hahead⟩ :=
    LineMark.exists_counted (htext.symm.trans hcounted) hunder hle
  have hadvance : origin.advance c.pos =
      ⟨lineBehind (before ++ after.takeWhile isBlank),
        byteLength (before ++ after.takeWhile isBlank), after.dropWhile isBlank⟩ := by
    rw [hbefore] at hpos hunder ⊢
    rw [LineMark.advance, hahead, hline, horiginPos]
    exact LineMark.countTo_eq counted between hpos hunder
  simp only [hadvance]
  refine ⟨_, rfl, before ++ after.takeWhile isBlank, ?_, rfl, rfl⟩
  rw [List.append_assoc, List.takeWhile_append_dropWhile]
  exact htext

/-! ## Places -/

namespace Reading

/-- The reading stands between `before` and `after` in the file, and `reg` has been entered. -/
structure Stands (r : Reading) (reg : Registry) (file : FileId) (before after : List Char) :
    Prop where
  registry : r.registry = reg
  file : r.file = file
  text : r.cursor.text = before ++ after
  pos : r.cursor.pos = byteLength before
  rest : r.cursor.rest = after
  mark : r.cursor.mark.Counts r.cursor.text

theorem stands_begin (reg : Registry) (file : FileId) :
    (begin reg file).Stands reg file [] (reg.file file).text.toList :=
  ⟨rfl, rfl, rfl, rfl, rfl, LineMark.counts_start _⟩

variable {r : Reading} {reg : Registry} {file : FileId} {before after a t : List Char}

theorem Stands.left (h : r.Stands reg file before after) : r.left = after.length :=
  congrArg List.length h.rest

theorem Stands.atEnd_eq (h : r.Stands reg file before after) : r.atEnd = after.isEmpty := by
  rw [Reading.atEnd, Cursor.atEnd, h.rest, h.text, h.pos, byteLength_append]
  cases after with
  | nil => simp [byteLength]
  | cons => rfl

theorem Stands.atEnd (h : r.Stands reg file before after) (hne : after ≠ []) :
    r.atEnd = false := by
  rw [h.atEnd_eq]
  exact List.isEmpty_eq_false_iff.mpr hne

theorem Stands.lookingAt (h : r.Stands reg file before after) (pat : String) :
    r.lookingAt pat = pat.toList.isPrefixOf after := by
  rw [Reading.lookingAt, Cursor.lookingAt, h.rest]

/-- Moving over some characters, or to the end. -/
theorem Stands.skip_any (h : r.Stands reg file before after) (n : Nat) :
    (r.move (·.skip n)).Stands reg file (before ++ after.take n) (after.drop n) := by
  refine ⟨h.registry, h.file, ?_, ?_, ?_, h.mark⟩
  · rw [List.append_assoc, List.take_append_drop]
    exact h.text
  · change r.cursor.pos + byteLength (r.cursor.rest.take n) = _
    rw [h.pos, h.rest, byteLength_append]
  · change r.cursor.rest.drop n = _
    rw [h.rest]

/-- Moving over what comes next. -/
theorem Stands.skip (h : r.Stands reg file before (a ++ t)) {n : Nat} (hn : n = a.length) :
    (r.move (·.skip n)).Stands reg file (before ++ a) t := by
  have hmoved := h.skip_any n
  rwa [hn, List.take_left, List.drop_left, ← hn] at hmoved

theorem Stands.skipGap_any (h : r.Stands reg file before after) :
    r.skipGap.Stands reg file (before ++ after.take (Syntax.gap after))
      (after.drop (Syntax.gap after)) := by
  have hmove : r.skipGap = r.move (·.skip (Syntax.gap after)) := by
    rw [Reading.skipGap, Reading.move, Cursor.skipGap, h.rest]
    rfl
  rw [hmove]
  exact h.skip_any _

theorem Stands.skipGap (h : r.Stands reg file before (a ++ t))
    (hgap : Syntax.gap (a ++ t) = a.length) : r.skipGap.Stands reg file (before ++ a) t := by
  have hmoved := h.skipGap_any
  rwa [hgap, List.take_left, List.drop_left] at hmoved

/-- One step leads over one character, if there is one. -/
theorem Stands.step_any (h : r.Stands reg file before after) :
    r.step.Stands reg file (before ++ after.take 1) (after.drop 1) := by
  cases after with
  | nil =>
      have hend : r.step = r.move Cursor.toEnd := by
        rw [Reading.step, Reading.move, Cursor.step, h.rest]
        rfl
      rw [hend, List.take_nil, List.append_nil]
      refine ⟨h.registry, h.file, h.text, ?_, rfl, h.mark⟩
      rw [← List.append_nil before, ← h.text]
      rfl
  | cons c rest =>
      have hmove : r.step = r.move (·.skip 1) := by
        rw [Reading.step, Reading.move, Cursor.step, h.rest]
        rfl
      rw [hmove]
      exact h.skip_any 1

theorem Stands.step {c : Char} (h : r.Stands reg file before (c :: t)) :
    r.step.Stands reg file (before ++ [c]) t :=
  h.step_any

/-- What a reader recognises is moved over. -/
theorem Stands.read {α : Type} {reader : List Char → α × Nat} {value : α}
    (h : r.Stands reg file before (a ++ t)) (hread : reader (a ++ t) = (value, a.length)) :
    ∃ r', r.read reader = (value, r') ∧ r'.Stands reg file (before ++ a) t := by
  refine ⟨r.move (·.skip a.length), ?_, h.skip rfl⟩
  rw [Reading.read, Cursor.read, h.rest, hread]
  rfl

/-- Moving behind a text where it occurs first. -/
theorem Stands.past {p : String} {w : List Char} (h : r.Stands reg file before (a ++ (w ++ t)))
    (hp : p.toList = w) (hfirst : find? w (a ++ (w ++ t)) = some a.length) :
    (r.past p).Stands reg file (before ++ (a ++ w)) t := by
  have hmove : r.past p = r.move (·.skip (a.length + w.length)) := by
    rw [Reading.past, Reading.move, Cursor.past, Cursor.cutAt, h.rest, hp, hfirst]
    rfl
  rw [hmove]
  rw [← List.append_assoc] at h
  exact h.skip (by rw [List.length_append])

/-- The line of what comes next is that on which the file goes on behind the blanks there. -/
theorem Stands.line_eq (h : r.Stands reg file before after) :
    ∃ r', r.line = (lineBehind (before ++ after.takeWhile isBlank), r') ∧
      r'.Stands reg file before after := by
  have hunder : ∀ c ∈ after.head?, r.cursor.pos < byteLength before + c.utf8Size := by
    intro c _
    have hsize := Char.utf8Size_pos c
    rw [h.pos]
    omega
  obtain ⟨mark, hline, hmark⟩ := Cursor.line_eq h.text (Nat.le_of_eq h.pos.symm) hunder h.mark
  rw [Reading.line, hline]
  exact ⟨_, rfl, h.registry, h.file, h.text, h.pos, h.rest, hmark⟩

/-- **Lines.**  The line of what comes next is that on which the file goes on behind what has been
read. -/
theorem Stands.line {c : Char} (h : r.Stands reg file before (c :: t)) (hc : isBlank c = false) :
    ∃ r', r.line = (lineBehind before, r') ∧ r'.Stands reg file before (c :: t) := by
  obtain ⟨r', hline, hstands⟩ := h.line_eq
  simp only [List.takeWhile_cons, hc, Bool.false_eq_true, if_false, List.append_nil] at hline
  exact ⟨r', hline, hstands⟩

/-- What is declared is entered. -/
theorem Stands.declare (h : r.Stands reg file before after) (returnType name parameters : String)
    (isConst : Bool) (line : Nat) :
    (r.declare returnType name parameters isConst line).2.Stands
      (reg.declare returnType name parameters isConst ⟨file, line⟩).2 file before after := by
  have hregistry : (r.declare returnType name parameters isConst line).2.registry =
      (r.registry.declare returnType name parameters isConst ⟨r.file, line⟩).2 := rfl
  refine ⟨?_, h.file, h.text, h.pos, h.rest, h.mark⟩
  rw [hregistry, h.registry, h.file]

end Reading

end CppDoc
