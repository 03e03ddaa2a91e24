import CppDoc.Proofs.Markup.Tokens
import CppDoc.Proofs.Reading.Onward

/-!
# Texts of documentation read at offsets

The text of a block is read by offsets as it is read by characters: turn by turn, a turn taking the
blanks at the cursor and the word behind them.  No word that is read is empty, and on each turn that
reads a word the cursor counts the line that the word stands on.

* `turnAt?_blank` and `turnAt?_word`: one turn;
* `readWordsAt?_eq`: a text.
-/

namespace CppDoc.Markup

open CppDoc.Syntax CppDoc.Text

section Texts

variable {d : DocBlock} {c : Cursor} {before s b w rest : List Char} (p : Progress)

/-- A run of characters at the cursor is cut out, and the cursor is put behind it. -/
theorem run_eq {p : Char → Bool} (h : c.Between before (w ++ rest)) (hw : (w ++ rest).takeWhile p = w)
    (hskip : c.stepWhile p = c.skip (c.rest.takeWhile p).length) :
    (c.stepWhile p).Between (before ++ w) rest ∧
      cut? c.text c.pos (c.stepWhile p).pos = some w := by
  rw [h.rest, hw] at hskip
  have hbehind := h.skip w.length
  rw [List.take_left, List.drop_left] at hbehind
  rw [hskip, ← h.stands.offsetBehind_eq, h.stands.cut?_behind, h.rest, List.take_left]
  exact ⟨hbehind, rfl⟩

/-- A turn over a blank text ends the paragraph. -/
theorem turnAt?_blank (h : c.Between before s) (hs : s.all isBlank = true) :
    turnAt? d p.last p.count p.state c =
      some ((readRest d p s).1, (readRest d p s).2, none) := by
  have hbetween : c.Between before (s ++ []) := (List.append_nil s).symm ▸ h
  obtain ⟨hend, hcut⟩ := run_eq hbetween (by rw [List.append_nil, takeWhile_blank hs])
    (Cursor.stepWhile_ascii ascii_isBlank h.stands)
  have hatEnd : (c.stepWhile isBlank).atEnd = true := hend.atEnd_eq
  rw [turnAt?, readRest_blank d p hs]
  dsimp only
  rw [hcut, Option.bind_some, if_pos hatEnd]

/-- A turn over a word reads its token. -/
theorem turnAt?_word (h : c.Between before (b ++ (w ++ rest))) (hb : b.all isBlank = true)
    (hw : IsWord w) (hrest : EndsWord rest) (hline : p.line = d.textLine + lineFeeds before) :
    ∃ next, next.Between (before ++ b ++ w ++ rest.take (takenLength w rest))
        (Token.rest ⟨b, w, rest⟩) ∧
      turnAt? d p.last p.count p.state c =
        some ((readToken d p ⟨b, w, rest⟩).1.state, (readToken d p ⟨b, w, rest⟩).2,
          some ((readToken d p ⟨b, w, rest⟩).1.last, next)) := by
  obtain ⟨hstart, hblanks⟩ := run_eq h (takeWhile_word hb hw rest)
    (Cursor.stepWhile_ascii ascii_isBlank h.stands)
  have hmore : ¬ (c.stepWhile isBlank).atEnd = true := by
    rw [hstart.atEnd_eq, List.isEmpty_iff, List.append_eq_nil_iff]
    exact fun hnil => hw.ne_nil hnil.1
  obtain ⟨mark, hcount, hmark⟩ := hstart.line_eq
  have hnone : (w ++ rest).takeWhile isBlank = [] := takeWhile_word (b := []) rfl hw rest
  have hplace : d.textLine + lineBehind (before ++ b ++ []) - 1 = p.line + lineFeeds b := by
    rw [List.append_nil, lineBehind, List.count_append, hline, lineFeeds, lineFeeds]
    omega
  have hmarked : Cursor.Between { c.stepWhile isBlank with mark } (before ++ b) (w ++ rest) :=
    ⟨hstart.text, hstart.pos, hstart.rest, hmark⟩
  obtain ⟨hstop, hword⟩ := run_eq hmarked (cut_word hw.solid hrest).1
    (Cursor.stepWhile_not ascii_isBlank hmarked.stands)
  have hread : readWordAt? d w (p.line + lineFeeds b) (p.count + 1)
      (readBlanks d b p.last p.state).1 _ = _ := readWordAt?_eq hstop.stands hw.ne_nil
  refine ⟨_, hstop.skip _, ?_⟩
  rw [turnAt?]
  dsimp only
  rw [hblanks, Option.bind_some, if_neg hmore, hcount, hnone]
  dsimp only
  rw [hword, Option.bind_some, if_neg (by simpa using hw.ne_nil), hplace, hread, taken_readWord,
    hstop.rest]
  rfl

/-- Without a word the text has been read. -/
theorem readWordsAt?_end {last n : Nat} {st st' : State} {drafts : List Draft}
    (h : turnAt? d last n st c = some (st', drafts, none)) :
    readWordsAt? d last n st c = some (st', drafts) := by
  rw [readWordsAt?]
  split <;> simp_all

/-- With a word the text is read on behind it. -/
theorem readWordsAt?_more {last n line : Nat} {st st' : State} {drafts : List Draft} {next : Cursor}
    (h : turnAt? d last n st c = some (st', drafts, some (line, next))) :
    readWordsAt? d last n st c =
      (readWordsAt? d line (n + 1) st' next).map fun (st, after) => (st, drafts ++ after) := by
  rw [readWordsAt?]
  split <;> simp_all

/-- **A text** is read to its end. -/
theorem readWordsAt?_eq (h : c.Between before s) (hline : p.line = d.textLine + lineFeeds before) :
    readWordsAt? d p.last p.count p.state c = some (readRest d p s) := by
  induction s using text_induction generalizing c before p with
  | blank s hs => exact readWordsAt?_end (turnAt?_blank p h hs)
  | word b w rest hb hw hrest ih =>
      obtain ⟨next, hnext, hturn⟩ := turnAt?_word p h hb hw hrest hline
      have hfeeds : lineFeeds w = 0 :=
        List.count_eq_zero.mpr fun hmem => absurd (hw.solid _ hmem) (by decide)
      have hlater := ih (readToken d p ⟨b, w, rest⟩).1 hnext (by
        simp only [readToken, lineFeeds, List.count_append] at hfeeds hline ⊢
        omega)
      rw [readWordsAt?_more hturn, readRest_word d p hb hw hrest]
      exact congrArg _ hlater

end Texts

end CppDoc.Markup
