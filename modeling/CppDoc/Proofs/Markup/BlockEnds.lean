import CppDoc.Proofs.Markup.Paragraphs
import CppDoc.Proofs.Markup.Sites
import CppDoc.Proofs.Text.Runs

/-!
# Blocks end where paragraphs end

Warnings, notes and headings take a block of the text behind them, up to a blank line.  What a blank
line is has two readings.  Whoever takes a block looks ahead, from a line feed over other blanks to the
next line feed; whoever reads the words counts the line feeds among the blanks before a word.  Behind a
block the second reading finds what the first one has stopped at, and inside a block it finds nothing.

* `words_eq_runsOf`: the words that a block is shown by are the runs of what is no white space;
* `drop_blockLength` and `lineFeeds_lt_of_taken`: the two readings, behind a block and inside it;
* `Progress.close` and `readRest_close`: a paragraph ends before anything else is read;
* `block_endsParagraph`: every block of a documentation.
-/

namespace CppDoc

open CppDoc.Text

/-- The words of a text are its runs of characters that are no white space. -/
theorem Text.words_eq_runsOf (s : List Char) : words s = runsOf (!isSpace ·) s := by
  induction s with
  | nil => rw [runsOf_nil, words]
  | cons c rest ih =>
      rw [words, ih]
      by_cases hc : isSpace c = true
      · rw [if_pos hc, runsOf_cons_of_neg (by simp [hc])]
      · rw [if_neg hc, runsOf_cons_of_pos (by simpa using hc)]
        cases rest with
        | nil => rfl
        | cons d tail =>
            rw [List.head?_cons, Option.all_some]
            by_cases hd : isSpace d = true
            · rw [if_pos hd, List.takeWhile_cons_of_neg (by simp [hd]),
                List.dropWhile_cons_of_neg (by simp [hd])]
            · have hsolid : (!isSpace d) = true := by simpa using hd
              rw [if_neg hd, List.takeWhile_cons_of_pos (p := (!isSpace ·)) hsolid,
                List.dropWhile_cons_of_pos (p := (!isSpace ·)) hsolid, runsOf_cons_of_pos hsolid]

namespace Markup

/-! ## Blank lines -/

section BlankLines

variable {front run tail rest : List Char}

/-- A blank line that is found by looking ahead is there to be counted. -/
theorem feed_of_blankLineFollows (h : blankLineFollows rest = true) :
    '\n' ∈ rest.takeWhile isBlank := by
  induction rest with
  | nil => cases h
  | cons c rest ih =>
      unfold blankLineFollows at h ih
      by_cases hfeed : c = '\n'
      · subst hfeed
        exact List.mem_cons_self
      · by_cases hc : isBlank c = true
        · rw [List.dropWhile_cons_of_pos (by simp [hc, hfeed])] at h
          rw [List.takeWhile_cons_of_pos hc]
          exact List.mem_cons_of_mem c (ih h)
        · rw [List.dropWhile_cons_of_neg (by simp [hc])] at h
          exact absurd (by simpa using h) hfeed

/-- **Behind a block** there is nothing, or the blanks that stand there have a blank line. -/
theorem drop_blockLength (s : List Char) :
    s.drop (blockLength s) = [] ∨ 2 ≤ lineFeeds ((s.drop (blockLength s)).takeWhile isBlank) := by
  induction s with
  | nil => exact .inl rfl
  | cons c rest ih =>
      rw [blockLength]
      split
      · rename_i hstop
        obtain ⟨rfl, hfollows⟩ : c = '\n' ∧ blankLineFollows rest = true := by simpa using hstop
        have hmore : 0 < lineFeeds (rest.takeWhile isBlank) :=
          List.count_pos_iff.mpr (feed_of_blankLineFollows hfollows)
        have hfeeds : lineFeeds ('\n' :: rest.takeWhile isBlank) =
            lineFeeds (rest.takeWhile isBlank) + 1 := List.count_cons_self
        right
        rw [List.drop_zero, List.takeWhile_cons_of_pos (by decide), hfeeds]
        omega
      · exact ih

/-- A block goes no further than a line feed with a blank line behind it. -/
theorem blockLength_le_of_feed (h : blankLineFollows rest = true) (front : List Char) :
    blockLength (front ++ '\n' :: rest) ≤ front.length := by
  induction front with
  | nil => simp [blockLength, h]
  | cons c front ih =>
      rw [List.cons_append, blockLength, List.length_cons]
      split <;> omega

/-- **Inside a block** no blanks have a blank line. -/
theorem lineFeeds_lt_of_taken {s : List Char} (htaken : s.take (blockLength s) = front ++ (run ++ tail))
    (hrun : run.all isBlank = true) : lineFeeds run < 2 := by
  by_contra hbreak
  have hfeed : '\n' ∈ run := List.count_pos_iff.mp (by unfold lineFeeds at hbreak; omega)
  -- The run is cut at its first line feed; behind that one there is another.
  obtain ⟨lead, more, rfl, hlead⟩ := List.eq_append_cons_of_mem hfeed
  have hmore : '\n' ∈ more := by
    have hcount : lineFeeds (lead ++ '\n' :: more) = lineFeeds more + 1 := by
      rw [lineFeeds, List.count_append, List.count_eq_zero.mpr hlead, List.count_cons_self,
        Nat.zero_add, lineFeeds]
    exact List.count_pos_iff.mp (by unfold lineFeeds at hcount hbreak; omega)
  have hblank : more.all isBlank = true := by
    rw [List.all_append, List.all_cons, Bool.and_eq_true, Bool.and_eq_true] at hrun
    exact hrun.2.2
  have hs : s = (front ++ lead) ++ '\n' :: (more ++ (tail ++ s.drop (blockLength s))) := by
    conv_lhs => rw [← List.take_append_drop (blockLength s) s, htaken]
    simp only [List.append_assoc, List.cons_append]
  have hstops := blockLength_le_of_feed
    (blankLineFollows_blanks hblank hmore (tail ++ s.drop (blockLength s))) (front ++ lead)
  rw [← hs] at hstops
  have hlength := congrArg List.length htaken
  rw [List.length_take_of_le (blockLength_le s)] at hlength
  simp only [List.length_append, List.length_cons] at hlength hstops
  omega

end BlankLines

/-! ## Blocks -/

/-- The content that a directive makes of the block behind it. -/
def blockContent? (w : List Char) : Option (String → Content) :=
  match String.ofList w with
  | "\\warning" => some .warning
  | "\\note" => some .note
  | "\\section1" => some (.heading 1)
  | "\\section2" => some (.heading 2)
  | "\\section3" => some (.heading 3)
  | _ => none

/-- The text that the word of a token takes. -/
def Token.taken (t : Token) : List Char :=
  t.behind.take (takenLength t.word t.behind)

theorem Token.taken_append_rest (t : Token) : t.taken ++ t.rest = t.behind :=
  List.take_append_drop _ _

/-- How far a block has been read when its paragraph has ended at some blanks. -/
def Progress.close (d : DocBlock) (p : Progress) (blanks : List Char) : Progress :=
  { p with line := p.line + lineFeeds blanks, state := (endParagraph d p.last p.state).1 }

section Blocks

variable {d : DocBlock} {w rest s : List Char} {content : String → Content} {p : Progress}

/-- Directives with a block are directives like others. -/
theorem readWord_block (hcontent : blockContent? w = some content) (line n : Nat) (st : State) :
    w ∈ blockDirectives ∧
      readWord d w rest line n st = .block st (takeBlock rest) content := by
  have hword {name : String} (h : String.ofList w = name) : w = name.toList := by
    rw [← h, String.toList_ofList]
  unfold blockContent? at hcontent
  split at hcontent
  case h_6 => cases hcontent
  all_goals
    rename_i hname
    obtain rfl := hword hname
    cases hcontent
    exact ⟨by decide, rfl⟩

/-- At the end of a text the paragraph ends. -/
theorem readRest_end (d : DocBlock) (p : Progress) :
    readRest d p [] = ((p.close d []).state, [.close]) :=
  readRest_blank d p rfl

/-- The blanks before a token may end the paragraph before it. -/
theorem readToken_close {b : List Char} (hbreak : 2 ≤ lineFeeds b) :
    readToken d p ⟨b, w, rest⟩ =
      ((readToken d (p.close d b) ⟨[], w, rest⟩).1,
        .close :: (readToken d (p.close d b) ⟨[], w, rest⟩).2) := by
  have hopen : readBlanks d b p.last p.state = endParagraph d p.last p.state := if_pos hbreak
  have hsame (st : State) : readBlanks d [] p.last st = (st, []) := rfl
  simp only [readToken, hopen, Progress.close, hsame]
  rfl

/-- **At a blank line** the paragraph ends before anything else is read. -/
theorem readRest_break (hbreak : 2 ≤ lineFeeds (s.takeWhile isBlank)) :
    readRest d p s =
      ((readRest d (p.close d (s.takeWhile isBlank)) (s.dropWhile isBlank)).1,
        .close :: (readRest d (p.close d (s.takeWhile isBlank)) (s.dropWhile isBlank)).2) := by
  induction s using text_induction with
  | blank s hs =>
      rw [takeWhile_blank hs] at hbreak ⊢
      have hopen : readBlanks d s p.last p.state = endParagraph d p.last p.state := if_pos hbreak
      rw [dropWhile_blank hs, readRest_end, readRest_blank d p hs, hopen]
      rfl
  | word b w rest hb hw hrest _ =>
      rw [takeWhile_word hb hw rest] at hbreak ⊢
      have hnext := readRest_word d (p.close d b) (b := []) rfl hw hrest
      rw [List.nil_append] at hnext
      rw [dropWhile_word hb hw rest, hnext, readRest_word d p hb hw hrest, readToken_close hbreak]
      rfl

/-- The words before a visit are read first, then the word of the visit, and then what it leaves. -/
theorem readRest_visit {before after : List Visit} {v : Visit}
    (hv : visits d p (tokens s) = before ++ v :: after) :
    ∃ earlier, readRest d p s =
      ((readRest d (v.after d) v.token.rest).1,
        earlier ++ ((readToken d v.start v.token).2 ++ (readRest d (v.after d) v.token.rest).2)) := by
  induction s using text_induction generalizing p before with
  | blank s hs => simp [tokens_blank hs, visits] at hv
  | word b w rest hb hw hrest ih =>
      rw [tokens_word hb hw hrest, visits] at hv
      rw [readRest_word d p hb hw hrest]
      cases before with
      | nil =>
          obtain ⟨rfl, -⟩ := List.cons.inj hv
          exact ⟨[], rfl⟩
      | cons u before =>
          obtain ⟨-, hmore⟩ := List.cons.inj hv
          obtain ⟨earlier, hread⟩ := ih hmore
          refine ⟨(readToken d p ⟨b, w, rest⟩).2 ++ earlier, ?_⟩
          rw [hread, List.append_assoc]

end Blocks

/-- **Blocks and paragraphs.**  A warning, a note or a heading is made of the words that stand behind its
directive up to a certain place, with one space between two of them.

* Up to that place, no blanks have two line feeds.
* At that place the text ends, or it goes on with blanks that have two line feeds; and the first thing
  that the reader of words does there is to end the paragraph, with all that belongs to that.  What is
  read behind those blanks comes after it. -/
theorem block_endsParagraph {d : DocBlock} {reg : Registry} {v : Visit}
    {content : String → Content} (hv : v ∈ wordsOf d reg)
    (hcontent : blockContent? v.token.word = some content) :
    let left := v.token.rest
    let shown := List.intercalate [' '] (runsOf (!isSpace ·) v.token.taken)
    v.token.before d.text.toList ++ (v.token.word ++ (v.token.taken ++ left)) = d.text.toList ∧
      (v.after d).state = v.opened d ∧
      (∃ earlier, readRest d (.start d reg) d.text.toList =
        ((readRest d (v.after d) left).1,
          earlier ++ .content (content (String.ofList shown)) :: (readRest d (v.after d) left).2)) ∧
      (∀ front run tail, v.token.taken = front ++ (run ++ tail) → run.all isBlank = true →
        lineFeeds run < 2) ∧
      (left = [] ∧ readRest d (v.after d) left = (((v.after d).close d []).state, [.close]) ∨
        2 ≤ lineFeeds (left.takeWhile isBlank) ∧
          readRest d (v.after d) left =
            ((readRest d ((v.after d).close d (left.takeWhile isBlank)) (left.dropWhile isBlank)).1,
              .close ::
                (readRest d ((v.after d).close d (left.takeWhile isBlank))
                  (left.dropWhile isBlank)).2)) := by
  intro left shown
  have hword (line n : Nat) (st : State) : v.token.word ∈ blockDirectives ∧
      readWord d v.token.word v.token.behind line n st =
        .block st (takeBlock v.token.behind) content :=
    readWord_block hcontent line n st
  have hblock : v.token.word ∈ blockDirectives := (hword 0 0 v.start.state).1
  have hlength : takenLength v.token.word v.token.behind = blockLength v.token.behind :=
    takenLength_block hblock _
  have htaken : v.token.taken = v.token.behind.take (blockLength v.token.behind) := by
    rw [Token.taken, hlength]
  have hleft : left = v.token.behind.drop (blockLength v.token.behind) := by
    rw [← hlength]
    rfl
  have hshown : (takeBlock v.token.behind).1 = String.ofList shown := by
    rw [takeBlock, simplify, words_eq_runsOf, ← htaken]
  have hread := (hword (v.start.line + lineFeeds v.token.blanks) (v.start.count + 1) (v.opened d)).2
  refine ⟨?_, ?_, ?_, fun front run tail h hrun => ?_, ?_⟩
  · rw [Token.taken_append_rest]
    exact Token.before_append (line_of_mem_wordsOf hv).1
  · exact congrArg Outcome.state hread
  · obtain ⟨before, after, hsplit⟩ := List.append_of_mem hv
    obtain ⟨earlier, hearlier⟩ := readRest_visit hsplit
    have hdrafts : (readToken d v.start v.token).2 =
        (readBlanks d v.token.blanks v.start.last v.start.state).2 ++
          [.content (content (String.ofList shown))] := by
      rw [← hshown]
      exact congrArg (_ ++ ·) (congrArg Outcome.drafts hread)
    refine ⟨earlier ++ (readBlanks d v.token.blanks v.start.last v.start.state).2, ?_⟩
    rw [hearlier, hdrafts]
    simp only [List.append_assoc, List.singleton_append]
    rfl
  · exact lineFeeds_lt_of_taken (htaken.symm.trans h) hrun
  · have hends := drop_blockLength v.token.behind
    rw [← hleft] at hends
    refine hends.imp (fun hend => ⟨hend, ?_⟩) fun hbreak => ⟨hbreak, readRest_break hbreak⟩
    rw [hend]
    exact readRest_end d (v.after d)

theorem block_endsParagraph_warning :
    let d : DocBlock :=
      { origin := ⟨⟨0⟩, 1⟩, textLine := 1, subject := .function ⟨0⟩
        text := "Runs.\n\\warning Not\r\n  safe.\t\n \r\nMore." }
    let reg := Registry.empty
    ∃ v ∈ wordsOf d reg, blockContent? v.token.word = some .warning ∧
      v.token.taken = " Not\r\n  safe.\t".toList ∧ v.token.rest = "\n \r\nMore.".toList ∧
      readRest d (v.after d) v.token.rest =
        ((readRest d ((v.after d).close d "\n \r\n".toList) "More.".toList).1,
          .close :: (readRest d ((v.after d).close d "\n \r\n".toList) "More.".toList).2) := by
  intro d reg
  have htokens : tokens d.text.toList =
      [⟨[], "Runs.".toList, "\n\\warning Not\r\n  safe.\t\n \r\nMore.".toList⟩,
        ⟨"\n".toList, "\\warning".toList, " Not\r\n  safe.\t\n \r\nMore.".toList⟩,
        ⟨"\n \r\n".toList, "More.".toList, []⟩] := by decide +kernel
  obtain ⟨v, hv, htoken⟩ : ∃ v ∈ wordsOf d reg,
      v.token = ⟨"\n".toList, "\\warning".toList, " Not\r\n  safe.\t\n \r\nMore.".toList⟩ := by
    rw [wordsOf, htokens]
    exact ⟨_, List.mem_cons_of_mem _ List.mem_cons_self, rfl⟩
  have hcontent : blockContent? v.token.word = some .warning := by
    rw [htoken]
    rfl
  have hrest : v.token.rest = "\n \r\nMore.".toList := by
    rw [htoken]
    decide +kernel
  obtain ⟨-, -, -, -, hend⟩ := block_endsParagraph hv hcontent
  refine ⟨v, hv, hcontent, by rw [htoken]; decide +kernel, hrest, ?_⟩
  rw [hrest] at hend ⊢
  exact (hend.resolve_left fun h => absurd h.1 (by decide)).2

end Markup

end CppDoc
