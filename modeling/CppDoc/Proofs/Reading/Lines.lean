import CppDoc.Proofs.Reading.Place
import CppDoc.Proofs.Text.Bytes

/-!
# Counting lines

A cursor counts the lines of its text as it goes, from the mark that it has left where it last
counted.  Here is what the count is whatever has been done with the cursor: that of the line feeds
before the first byte from its offset on that is no blank, counted from the start of the text.

* `lineFrom`: the count from the start;
* `Move`, `run`: what can be done with a cursor;
* `Counted.apply`, `counted_run`: every move leaves the mark where the lines have been counted;
* `line_run`: the two counts agree, and to count moves nothing.
-/

namespace CppDoc

open CppDoc.Text

/-! ## Counting from the start -/

/-- The first offset from `pos` on whose byte is no blank, or the end of the text. -/
def nextVisible (bytes : List UInt8) (pos : Nat) : Nat :=
  pos + (bytes.drop pos).findIdx (!isBlankByte ·)

/-- The line of the first byte from `pos` on that is no blank. -/
def lineFrom (bytes : List UInt8) (pos : Nat) : Nat :=
  1 + (bytes.take (nextVisible bytes pos)).count lineFeed

/-- The bytes up to the next one that is no blank: those before the offset, and the blanks there. -/
theorem take_nextVisible (bytes : List UInt8) (pos : Nat) :
    bytes.take (nextVisible bytes pos) =
      bytes.take pos ++ (bytes.drop pos).takeWhile isBlankByte := by
  rw [nextVisible, List.take_add, List.takeWhile_eq_take_findIdx_not]

/-- Counted from the start, the line of an offset is that on which the text goes on behind the blanks
from the character under the offset on. -/
theorem lineFrom_utf8 {before after : List Char} {pos : Nat} (hle : byteLength before ≤ pos)
    (hunder : ∀ c ∈ after.head?, pos < byteLength before + c.utf8Size) :
    lineFrom (utf8 (before ++ after)) pos = lineBehind (before ++ after.takeWhile isBlank) := by
  obtain ⟨k, rfl⟩ := Nat.exists_eq_add_of_le hle
  have htake : (utf8 (before ++ after)).take (byteLength before + k) =
      utf8 before ++ (utf8 after).take k := by
    rw [utf8_append, ← length_utf8, List.take_length_add_append]
  have hdrop : (utf8 (before ++ after)).drop (byteLength before + k) = (utf8 after).drop k := by
    rw [utf8_append, ← length_utf8, List.drop_length_add_append]
  have hinside : ((utf8 after).take k).count lineFeed +
      (((utf8 after).drop k).takeWhile isBlankByte).count lineFeed =
        (after.takeWhile isBlank).count '\n' := by
    cases after with
    | nil => simp
    | cons c after =>
        have hk : k < c.utf8Size := by
          have := hunder c rfl
          omega
        by_cases hzero : k = 0
        · rw [hzero, List.take_zero, List.drop_zero, takeWhile_utf8, count_utf8, List.count_nil,
            Nat.zero_add]
        · -- The offset points into a character, which is no blank.
          have hc : isBlank c = false := not_isBlank_of_size (by omega)
          have hlength : k < (String.utf8EncodeChar c).length := by
            rwa [String.length_utf8EncodeChar]
          have hbehind : ((utf8 (c :: after)).drop k).takeWhile isBlankByte = [] := by
            rw [utf8_cons, List.drop_append_of_le_length hlength.le, List.drop_eq_getElem_cons hlength,
              List.cons_append, List.takeWhile_cons_of_neg]
            rw [not_blank_of_mem hc (List.getElem_mem hlength)]
            decide
          rw [hbehind, utf8_cons, List.take_append_of_le_length hlength.le, count_take_encode hc,
            List.takeWhile_cons_of_neg (by simp [hc])]
          rfl
  rw [lineFrom, take_nextVisible, htake, hdrop, List.append_assoc, List.count_append,
    List.count_append, hinside, count_utf8, lineBehind, List.count_append, Nat.add_comm]

namespace Cursor

/-! ## What can be done with a cursor -/

/-- A move of a cursor: to an offset, over a character, behind a text, over blanks and comments, or
over what a reader recognises (a name, a type, a list of parameters, a word, a value).  To ask for
the line is a move as well, since it moves the mark. -/
inductive Move where
  | moveTo (offset : Nat)
  | step
  | scanTo (pat : String)
  | textUntil (pat : String)
  | skipGap
  | read (reader : List Char → String × Nat)
  | line

/-- The cursor behind a move. -/
def Move.apply (c : Cursor) : Move → Cursor
  | .moveTo offset => c.moveTo offset
  | .step => c.step
  | .scanTo pat => (c.scanTo pat).2
  | .textUntil pat => (c.textUntil pat).2
  | .skipGap => c.skipGap
  | .read reader => (c.read reader).2
  | .line => c.line.2

/-- The cursor behind some moves. -/
def run (moves : List Move) (c : Cursor) : Cursor :=
  moves.foldl Move.apply c

/-- What a move does to the place of a cursor. -/
theorem cutAt_eq (c : Cursor) (pat : String) :
    (∃ n, (c.cutAt pat).2.2 = c.skip n) ∨ (c.cutAt pat).2.2 = c.toEnd := by
  unfold cutAt
  split
  · exact .inl ⟨_, rfl⟩
  · exact .inr rfl

/-- Every move but asking for the line leaves the text and the mark as they are. -/
theorem apply_frame (m : Move) (c : Cursor) :
    m.apply c = c.line.2 ∨ ((m.apply c).text = c.text ∧ (m.apply c).mark = c.mark) := by
  have hcut (pat : String) : (c.cutAt pat).2.2.text = c.text ∧ (c.cutAt pat).2.2.mark = c.mark := by
    obtain ⟨n, hn⟩ | hend := c.cutAt_eq pat
    · rw [hn]
      exact ⟨rfl, rfl⟩
    · rw [hend]
      exact ⟨rfl, rfl⟩
  cases m with
  | moveTo offset => exact .inr ⟨rfl, rfl⟩
  | step =>
      right
      simp only [Move.apply, step]
      split <;> exact ⟨rfl, rfl⟩
  | scanTo pat => exact .inr (hcut pat)
  | textUntil pat => exact .inr (hcut pat)
  | skipGap => exact .inr ⟨rfl, rfl⟩
  | read reader => exact .inr ⟨rfl, rfl⟩
  | line => exact .inl rfl

/-! ## The mark -/

/-- The cursor is one of the text `s`, and its mark stands where the lines have been counted. -/
structure Counted (c : Cursor) (s : List Char) : Prop where
  text : c.text = s
  mark : c.mark.Counts s

theorem counted_ofText (s : List Char) : (ofText s).Counted s :=
  ⟨rfl, LineMark.counts_start s⟩

variable {c c' : Cursor} {s : List Char}

/-- **The line of a cursor** is the one counted from the start, and nothing but the mark is moved. -/
theorem Counted.line (h : c.Counted s) :
    ∃ mark, c.line = (lineFrom (utf8 s) c.pos, { c with mark }) ∧ mark.Counts s := by
  obtain ⟨before, after, hsplit, hle, hunder⟩ := exists_split s c.pos
  obtain ⟨mark, hline, hmark⟩ :=
    line_eq (h.text.trans hsplit) hle hunder (h.text.symm ▸ h.mark)
  rw [hsplit, lineFrom_utf8 hle hunder]
  exact ⟨mark, hline, hsplit ▸ h.text ▸ hmark⟩

/-- One move. -/
theorem Counted.apply (h : c.Counted s) (m : Move) : (m.apply c).Counted s := by
  obtain hline | ⟨htext, hmark⟩ := apply_frame m c
  · obtain ⟨mark, hcount, hcounts⟩ := h.line
    rw [hline, hcount]
    exact ⟨h.text, hcounts⟩
  · exact ⟨htext.trans h.text, hmark.symm ▸ h.mark⟩

/-- A run of moves. -/
theorem Counted.run (h : c.Counted s) (moves : List Move) : (c.run moves).Counted s := by
  induction moves generalizing c with
  | nil => exact h
  | cons m moves ih => exact ih (h.apply m)

/-! ## The place -/

/-- Two cursors at one place, with their marks anywhere. -/
structure SamePlace (c c' : Cursor) : Prop where
  text : c'.text = c.text
  pos : c'.pos = c.pos
  rest : c'.rest = c.rest

/-- Asking for the line moves nothing but the mark. -/
theorem samePlace_line (c : Cursor) : c.SamePlace c.line.2 :=
  ⟨rfl, rfl, rfl⟩

/-- Where a move leads does not depend on the mark. -/
theorem SamePlace.apply (h : c.SamePlace c') (m : Move) : (m.apply c).SamePlace (m.apply c') := by
  have hskip (n : Nat) : (c.skip n).SamePlace (c'.skip n) :=
    ⟨h.text, by simp only [skip, h.pos, h.rest], by simp only [skip, h.rest]⟩
  have hend : c.toEnd.SamePlace c'.toEnd := ⟨h.text, by simp only [toEnd, h.text], rfl⟩
  have hcut (pat : String) : (c.cutAt pat).2.2.SamePlace (c'.cutAt pat).2.2 := by
    unfold cutAt
    rw [h.rest]
    cases find? pat.toList c.rest with
    | none => exact hend
    | some n => exact hskip _
  cases m with
  | moveTo offset => exact ⟨h.text, by simp only [Move.apply, moveTo, h.text], by
      simp only [Move.apply, moveTo, h.text]⟩
  | step =>
      simp only [Move.apply, step, h.rest]
      split
      · exact hend
      · exact hskip 1
  | scanTo pat => exact hcut pat
  | textUntil pat => exact hcut pat
  | skipGap =>
      simp only [Move.apply, skipGap, h.rest]
      exact hskip _
  | read reader =>
      simp only [Move.apply, read, h.rest]
      exact hskip _
  | line => exact ⟨h.text, h.pos, h.rest⟩

theorem SamePlace.run (h : c.SamePlace c') (moves : List Move) :
    (c.run moves).SamePlace (c'.run moves) := by
  induction moves generalizing c c' with
  | nil => exact h
  | cons m moves ih => exact ih (h.apply m)

/-- **Lines.**  Whatever has been done with a cursor, and however often the line has been asked for on
the way, the line that it gives is the one counted from the start of the text; and the cursor stays
where it is, so that whatever is done next ends where it would have ended. -/
theorem line_run (s : List Char) (moves : List Move) :
    let c := (ofText s).run moves
    c.line.1 = lineFrom (utf8 s) c.pos ∧ c.line.2.pos = c.pos ∧
      ∀ next, (c.run next).SamePlace (c.line.2.run next) := by
  intro c
  obtain ⟨mark, hline, -⟩ := ((counted_ofText s).run moves).line
  exact ⟨congrArg Prod.fst hline, rfl, fun next => (samePlace_line c).run next⟩

end Cursor

end CppDoc
