import CppDoc.Proofs.Markup.Prose
import CppDoc.Proofs.Syntax.TypeSpec
import Mathlib.Data.List.TakeWhile

/-!
# Where paragraphs end

A **gap** is a run of blanks with a blank line in it, between two words of a text.  The words before a
gap take nothing of what stands behind it, and at the gap the paragraph ends.  The exception is the
number that is announced by the last word before the gap: it is also found behind blank lines.

* `rfcNumber?_append`, `takeCode_append` and `blockLength_append`: what is taken of a longer text;
* `IsGap`, `Crosses`: gaps, and those that a number is read across;
* `readRest_gap`: the paragraph ends at a gap;
* `readRest_crossed`: what is read at the others;
* `gap_endsParagraph`: both, with the events.
-/

namespace CppDoc

open CppDoc.Text

/-- White space behind a text adds no words. -/
theorem Text.words_append_blanks (s : List Char) {b : List Char} (hb : b.all isBlank = true) :
    words (s ++ b) = words s := by
  have hnone : words b = [] := by
    have hindent := Syntax.words_indent hb []
    rwa [List.append_nil] at hindent
  have hhead : b.head?.all isSpace = true := by
    cases b with
    | nil => rfl
    | cons c rest =>
        simp only [List.all_cons, Bool.and_eq_true] at hb
        exact isSpace_of_isBlank hb.1
  induction s with
  | nil => exact hnone
  | cons c rest ih =>
      cases rest with
      | nil => simp [words, hnone, hhead]
      | cons d tail =>
          rw [List.cons_append, words, ih]
          rfl

namespace Markup

/-- The text is empty, or it ends with a character that is no blank. -/
def EndsSolid (s : List Char) : Prop :=
  ∀ c, s.getLast? = some c → isBlank c = false

/-- The text begins with a character that is no blank. -/
def BeginsSolid (s : List Char) : Prop :=
  ∃ c, s.head? = some c ∧ isBlank c = false

section Append

variable {w rest tail run after : List Char} {d : DocBlock} {line n : Nat} {st : State}

theorem EndsSolid.of_cons {c : Char} (h : EndsSolid (c :: rest)) : EndsSolid rest := by
  intro e he
  apply h
  rw [List.getLast?_cons, he]
  rfl

theorem EndsSolid.of_append {a : List Char} (h : EndsSolid (a ++ rest)) : EndsSolid rest := by
  intro c hc
  apply h
  rw [List.getLast?_append, hc]
  rfl

theorem EndsSolid.drop (h : EndsSolid rest) (k : Nat) : EndsSolid (rest.drop k) := by
  induction k generalizing rest with
  | zero => exact h
  | succ k ih =>
      cases rest with
      | nil => exact h
      | cons c rest => exact ih h.of_cons

/-- In a text that ends with no blank, something is left behind the blanks it begins with. -/
theorem EndsSolid.exists_solid (h : EndsSolid rest) (hne : rest ≠ []) :
    ∃ c ∈ rest, isBlank c = false := by
  obtain ⟨c, hc⟩ := Option.isSome_iff_exists.mp (List.getLast?_isSome.mpr hne)
  exact ⟨c, List.mem_of_getLast? hc, h c hc⟩

theorem EndsSolid.eq_nil_of_blank (h : EndsSolid rest) (hblank : rest.all isBlank = true) :
    rest = [] := by
  by_contra hne
  obtain ⟨c, hmem, hc⟩ := h.exists_solid hne
  rw [List.all_eq_true.mp hblank c hmem] at hc
  cases hc

/-! ## What is taken of a longer text -/

/-- A number ends before a blank. -/
theorem rfcNumber?_append (hrest : EndsSolid rest) (hne : rest ≠ []) (htail : EndsWord tail) :
    rfcNumber? (rest ++ tail) = rfcNumber? rest := by
  have hspace : (rest ++ tail).takeWhile (fun c => c == ' ' || c == '\n') =
      rest.takeWhile fun c => c == ' ' || c == '\n' := by
    apply Syntax.takeWhile_append_of_boundary
    intro hall
    obtain ⟨c, hmem, hsolid⟩ := hrest.exists_solid hne
    have hc := List.all_eq_true.mp hall c hmem
    simp only [Bool.or_eq_true, beq_iff_eq] at hc
    obtain rfl | rfl := hc <;> cases hsolid
  have hdigits (digits : List Char) :
      (digits ++ tail).takeWhile Char.isDigit = digits.takeWhile Char.isDigit := by
    apply Syntax.takeWhile_append_of_boundary
    intro _
    cases tail with
    | nil => rfl
    | cons c more =>
        have hc := htail c rfl
        simp only [isBlank, Bool.or_eq_true, beq_iff_eq] at hc
        obtain ((rfl | rfl) | rfl) | rfl := hc <;> rfl
  have hle := (List.takeWhile_sublist (l := rest) fun c => c == ' ' || c == '\n').length_le
  unfold rfcNumber?
  simp only [hspace, List.drop_append_of_le_length hle, hdigits]

/-- What is found in a text is found in a longer one. -/
theorem find?_append_of_some {pat s : List Char} {k : Nat} (h : find? pat s = some k)
    (t : List Char) : find? pat (s ++ t) = some k ∧ k + pat.length ≤ s.length := by
  induction s generalizing k with
  | nil =>
      cases pat with
      | nil =>
          obtain rfl : 0 = k := Option.some.inj h
          cases t <;> exact ⟨rfl, Nat.le_refl 0⟩
      | cons _ _ => cases h
  | cons c rest ih =>
      simp only [find?] at h
      split at h
      · rename_i hpat
        obtain rfl : 0 = k := Option.some.inj h
        have hstart := List.isPrefixOf_iff_prefix.mp hpat
        have hlonger := List.isPrefixOf_iff_prefix.mpr (hstart.trans (List.prefix_append _ t))
        rw [List.cons_append] at hlonger
        rw [List.cons_append, find?, if_pos hlonger, Nat.zero_add]
        exact ⟨rfl, hstart.length_le⟩
      · rename_i hpat
        obtain ⟨j, hj, rfl⟩ := Option.map_eq_some_iff.mp h
        obtain ⟨hlonger, hle⟩ := ih hj
        -- The pattern is no longer than the text, so it does not begin the longer text either.
        have hno : ¬ pat.isPrefixOf (c :: (rest ++ t)) = true := by
          intro hbegins
          apply hpat
          rw [List.isPrefixOf_iff_prefix] at hbegins ⊢
          exact List.prefix_of_prefix_length_le hbegins (List.prefix_append (c :: rest) t)
            (by rw [List.length_cons]; omega)
        rw [List.cons_append, find?, if_neg hno, hlonger, List.length_cons]
        exact ⟨rfl, by omega⟩

/-- Code that is closed ends there. -/
theorem takeCode_append (hcode : occurs codeEnd rest = true) (tail : List Char) :
    takeCode (rest ++ tail) = takeCode rest ∧ (takeCode rest).2 ≤ rest.length := by
  obtain ⟨k, hk⟩ := Option.isSome_iff_exists.mp hcode
  obtain ⟨hlonger, hle⟩ := find?_append_of_some hk tail
  unfold takeCode
  rw [hk, hlonger]
  dsimp only
  rw [List.take_append_of_le_length (by omega)]
  exact ⟨rfl, hle⟩

/-- A line feed among blanks makes a blank line. -/
theorem blankLineFollows_blanks (hrun : run.all isBlank = true) (hfeed : '\n' ∈ run)
    (after : List Char) : blankLineFollows (run ++ after) = true := by
  unfold blankLineFollows
  induction run with
  | nil => cases hfeed
  | cons c more ih =>
      simp only [List.all_cons, Bool.and_eq_true] at hrun
      by_cases hc : c = '\n'
      · rw [hc]
        rfl
      · have hmore : '\n' ∈ more := List.mem_of_ne_of_mem (Ne.symm hc) hfeed
        rw [List.cons_append, List.dropWhile_cons_of_pos (by simp [hrun.1, hc])]
        exact ih hrun.2 hmore

/-- Whether a line is blank is settled by the first character of it that is not. -/
theorem blankLineFollows_append {c : Char} (hmem : c ∈ rest) (hc : isBlank c = false)
    (t : List Char) : blankLineFollows (rest ++ t) = blankLineFollows rest := by
  unfold blankLineFollows
  rw [List.dropWhile_append]
  split
  · rename_i hempty
    have hall := List.dropWhile_eq_nil_iff.mp (List.isEmpty_iff.mp hempty) c hmem
    rw [hc] at hall
    cases hall
  · rename_i hne
    rw [List.head?_append_of_ne_nil _ (by simpa using hne)]

/-- At a gap, a block ends with the line before the blank one. -/
theorem blockLength_gap (hrun : run.all isBlank = true) (hbreak : isBreak run = true)
    (after : List Char) :
    blockLength (run ++ after) = (run.takeWhile (· != '\n')).length := by
  simp only [isBreak, decide_eq_true_eq] at hbreak
  induction run with
  | nil => cases hbreak
  | cons c more ih =>
      simp only [List.all_cons, Bool.and_eq_true] at hrun
      rw [List.cons_append, blockLength]
      by_cases hc : c = '\n'
      · have hfeed : '\n' ∈ more := by
          rw [hc, List.count_cons_self] at hbreak
          exact List.count_pos_iff.mp (by omega)
        rw [hc, blankLineFollows_blanks hrun.2 hfeed]
        rfl
      · rw [List.count_cons_of_ne hc] at hbreak
        rw [if_neg (by simp [hc]), ih hrun.2 hbreak, List.takeWhile_cons_of_pos (by simpa using hc)]
        rfl

/-- A block that ends at a blank line, or with the line before a gap. -/
theorem blockLength_append (hrest : EndsSolid rest) (hrun : run.all isBlank = true)
    (hbreak : isBreak run = true) (after : List Char) :
    blockLength (rest ++ (run ++ after)) =
      if blockLength rest < rest.length then blockLength rest
      else rest.length + (run.takeWhile (· != '\n')).length := by
  induction rest with
  | nil => simpa [blockLength] using blockLength_gap hrun hbreak after
  | cons c rest ih =>
      have hsame : c = '\n' → blankLineFollows (rest ++ (run ++ after)) = blankLineFollows rest := by
        rintro rfl
        have hne : rest ≠ [] := by
          rintro rfl
          cases hrest '\n' rfl
        obtain ⟨e, hmem, he⟩ := hrest.of_cons.exists_solid hne
        exact blankLineFollows_append hmem he _
      rw [List.cons_append, blockLength, blockLength, ih hrest.of_cons, List.length_cons]
      by_cases hc : c = '\n'
      · rw [hsame hc]
        split
        · rw [if_pos (Nat.succ_pos _)]
        · split <;> split <;> omega
      · simp only [hc, decide_false, Bool.false_and, Bool.false_eq_true, if_false]
        split <;> split <;> omega

/-! ## What is read of a longer text -/

/-- A word is read as before behind it where it takes the same. -/
theorem readWord_congr {t u : List Char} (line n : Nat) (st : State)
    (hrfc : w = "RFC".toList → rfcNumber? t = rfcNumber? u)
    (hcode : w = "\\code".toList → (takeCode t).1 = (takeCode u).1)
    (hblock : w ∈ blockDirectives → (takeBlock t).1 = (takeBlock u).1) :
    (readWord d w t line n st).state = (readWord d w u line n st).state ∧
      (readWord d w t line n st).drafts = (readWord d w u line n st).drafts := by
  have hdirective : (readDirective d w t line n st).state = (readDirective d w u line n st).state ∧
      (readDirective d w t line n st).drafts = (readDirective d w u line n st).drafts := by
    have hword {name : String} (h : String.ofList w = name) : w = name.toList := by
      rw [← h, String.toList_ofList]
    unfold readDirective
    split
    case h_4 h =>
      simp only [Outcome.block, hcode (hword h), and_self]
    case h_1 | h_2 | h_3 | h_10 => exact ⟨rfl, rfl⟩
    -- The other directives take a block.
    all_goals
      rename_i h
      simp only [Outcome.block, hblock (by rw [hword h]; decide), and_self]
  unfold readWord
  split
  · rename_i hw
    rw [hrfc hw]
    split <;> exact ⟨rfl, rfl⟩
  split
  · exact ⟨rfl, rfl⟩
  split
  · exact hdirective
  · exact ⟨rfl, rfl⟩

/-- A token that takes the same of a longer text is read as before, and leaves the rest of it. -/
theorem readToken_append {p : Progress} {b t : List Char}
    (hrfc : w = "RFC".toList → rfcNumber? (rest ++ t) = rfcNumber? rest)
    (hcode : w = "\\code".toList → (takeCode (rest ++ t)).1 = (takeCode rest).1)
    (hblock : w ∈ blockDirectives → (takeBlock (rest ++ t)).1 = (takeBlock rest).1)
    (hlength : takenLength w (rest ++ t) = takenLength w rest)
    (hle : takenLength w rest ≤ rest.length) :
    readToken d p ⟨b, w, rest ++ t⟩ = readToken d p ⟨b, w, rest⟩ ∧
      Token.rest ⟨b, w, rest ++ t⟩ = Token.rest ⟨b, w, rest⟩ ++ t := by
  obtain ⟨hstate, hdrafts⟩ := readWord_congr (d := d) (p.line + lineFeeds b) (p.count + 1)
    (readBlanks d b p.last p.state).1 hrfc hcode hblock
  simp only [readToken, Token.rest, hlength, hstate, hdrafts, List.take_append_of_le_length hle,
    List.drop_append_of_le_length hle, and_self]

/-- A number is taken within the text. -/
theorem rfcNumber?_le (s : List Char) : (rfcNumber? s).elim 0 Prod.snd ≤ s.length := by
  have hspace := (List.takeWhile_sublist (l := s) fun c => c == ' ' || c == '\n').length_le
  have hdigits := (List.takeWhile_sublist
    (l := s.drop (s.takeWhile fun c => c == ' ' || c == '\n').length) Char.isDigit).length_le
  rw [List.length_drop] at hdigits
  unfold rfcNumber?
  dsimp only
  split
  · exact Nat.zero_le _
  · simp only [Option.elim_some]
    omega

/-- A block is taken within the text. -/
theorem blockLength_le (s : List Char) : blockLength s ≤ s.length := by
  induction s with
  | nil => exact Nat.le_refl 0
  | cons c rest ih =>
      rw [blockLength, List.length_cons]
      split <;> omega

theorem takenLength_block (hw : w ∈ blockDirectives) (t : List Char) :
    takenLength w t = blockLength t := by
  have hrfc : w ≠ "RFC".toList := by
    rintro rfl
    exact absurd hw (by decide)
  have hcode : w ≠ "\\code".toList := by
    rintro rfl
    exact absurd hw (by decide)
  rw [takenLength, if_neg hrfc, if_neg hcode, if_pos hw]
  rfl

/-- A block that ends before a gap is the same without the blanks behind it, and leaves the gap from
its first line feed on. -/
theorem readToken_block {p : Progress} {b lead left : List Char} (hw : w ∈ blockDirectives)
    (hlead : lead.all isBlank = true) (hfeeds : lineFeeds lead = 0)
    (hrest : blockLength rest = rest.length)
    (hlonger : blockLength (rest ++ (lead ++ left)) = rest.length + lead.length) :
    readToken d p ⟨b, w, rest ++ (lead ++ left)⟩ = readToken d p ⟨b, w, rest⟩ ∧
      Token.rest ⟨b, w, rest ++ (lead ++ left)⟩ = left ∧ Token.rest ⟨b, w, rest⟩ = [] := by
  rw [← List.append_assoc, ← List.length_append] at hlonger
  have hbehind : takenLength w ((rest ++ lead) ++ left) = (rest ++ lead).length :=
    (takenLength_block hw _).trans hlonger
  have hwhole : takenLength w rest = rest.length := (takenLength_block hw rest).trans hrest
  have hblock : (takeBlock ((rest ++ lead) ++ left)).1 = (takeBlock rest).1 := by
    simp only [takeBlock, hlonger, hrest, List.take_left, List.take_length, simplify,
      words_append_blanks rest hlead]
  have hnumber : w = "RFC".toList → rfcNumber? ((rest ++ lead) ++ left) = rfcNumber? rest := by
    rintro rfl
    exact absurd hw (by decide)
  have hcode : w = "\\code".toList →
      (takeCode ((rest ++ lead) ++ left)).1 = (takeCode rest).1 := by
    rintro rfl
    exact absurd hw (by decide)
  obtain ⟨hstate, hdrafts⟩ := readWord_congr (d := d) (p.line + lineFeeds b) (p.count + 1)
    (readBlanks d b p.last p.state).1 hnumber hcode fun _ => hblock
  have hpassed : lineFeeds (rest ++ lead) = lineFeeds rest := by
    unfold lineFeeds at hfeeds ⊢
    rw [List.count_append, hfeeds, Nat.add_zero]
  rw [← List.append_assoc]
  simp only [readToken, Token.rest, hbehind, hwhole, hstate, hdrafts, List.take_left,
    List.drop_left, List.take_length, List.drop_length, hpassed, and_self]

/-- A word ends at a gap. -/
theorem endsWord_gap (hrun : run.all isBlank = true) (hbreak : isBreak run = true)
    (after : List Char) : EndsWord (run ++ after) := by
  have hne : run ≠ [] := by
    rintro rfl
    exact absurd hbreak (by decide)
  intro c hc
  rw [List.head?_append_of_ne_nil _ hne] at hc
  exact List.all_eq_true.mp hrun c (List.mem_of_head? hc)

theorem EndsWord.append {t : List Char} (hrest : EndsWord rest) (ht : EndsWord t) :
    EndsWord (rest ++ t) := by
  cases rest with
  | nil => exact ht
  | cons c more => exact fun e he => hrest e he

/-- A number, with the word that announces it. -/
theorem readToken_number {p : Progress} {b t : List Char} {number taken : Nat}
    (h : rfcNumber? t = some (number, taken)) :
    (readToken d p ⟨b, "RFC".toList, t⟩).2 =
        (readBlanks d b p.last p.state).2 ++ [rfcLink number] ∧
      (readToken d p ⟨b, "RFC".toList, t⟩).1.state = (readBlanks d b p.last p.state).1 ∧
      Token.rest ⟨b, "RFC".toList, t⟩ = t.drop taken := by
  have htaken : takenLength "RFC".toList t = taken := by
    rw [takenLength, if_pos rfl, h]
    rfl
  simp only [readToken, readWord, if_true, h, Token.rest, htaken, and_self]

/-- **A token before a gap.**  It is read as if the text ended there, and leaves the gap, perhaps
without the blanks before its first line feed. -/
theorem readToken_gap {p : Progress} {b : List Char} (after : List Char) (hrest : EndsSolid rest)
    (hrun : run.all isBlank = true) (hbreak : isBreak run = true)
    (hnumber : w = "RFC".toList → rest = [] → rfcNumber? (run ++ after) = none)
    (hcode : w = "\\code".toList → occurs codeEnd rest = true) :
    ∃ left, left.all isBlank = true ∧ lineFeeds left = lineFeeds run ∧
      readToken d p ⟨b, w, rest ++ (run ++ after)⟩ = readToken d p ⟨b, w, rest⟩ ∧
      Token.rest ⟨b, w, rest ++ (run ++ after)⟩ = Token.rest ⟨b, w, rest⟩ ++ (left ++ after) ∧
      (left = run ∨ Token.rest ⟨b, w, rest⟩ = []) := by
  have hend := endsWord_gap hrun hbreak after
  have hrfc (hw : w = "RFC".toList) : rfcNumber? (rest ++ (run ++ after)) = rfcNumber? rest := by
    rcases eq_or_ne rest [] with rfl | hne
    · exact hnumber hw rfl
    · exact rfcNumber?_append hrest hne hend
  have hclosed (hw : w = "\\code".toList) := takeCode_append (hcode hw) (run ++ after)
  have hlonger := blockLength_append hrest hrun hbreak after
  by_cases hblock : w ∈ blockDirectives ∧ ¬ blockLength rest < rest.length
  · have hwhole : blockLength rest = rest.length := by
      have hle := blockLength_le rest
      omega
    rw [if_neg hblock.2] at hlonger
    obtain ⟨lead, left, hsplit, hlead⟩ : ∃ lead left, run = lead ++ left ∧
        lead = run.takeWhile (· != '\n') :=
      ⟨_, _, List.takeWhile_append_dropWhile.symm, rfl⟩
    rw [← hlead] at hlonger
    have hnone : lineFeeds lead = 0 := by
      refine List.count_eq_zero.mpr fun h => ?_
      rw [hlead] at h
      simpa using List.mem_takeWhile_imp h
    rw [hsplit, List.append_assoc] at hlonger
    rw [hsplit, List.all_append, Bool.and_eq_true] at hrun
    obtain ⟨hread, hleft, hnothing⟩ := readToken_block (d := d) (p := p) (b := b) hblock.1 hrun.1
      hnone hwhole hlonger
    refine ⟨left, hrun.2, ?_, ?_, ?_, .inr hnothing⟩
    · unfold lineFeeds at hnone ⊢
      rw [hsplit, List.count_append, hnone, Nat.zero_add]
    · rw [hsplit, List.append_assoc, hread]
    · rw [hsplit, List.append_assoc, hleft, hnothing, List.nil_append]
  · -- All other tokens take the same as before.
    have hstop (hw : w ∈ blockDirectives) : blockLength rest < rest.length := by
      by_contra hreach
      exact hblock ⟨hw, hreach⟩
    have htaken : takenLength w (rest ++ (run ++ after)) = takenLength w rest ∧
        takenLength w rest ≤ rest.length := by
      by_cases hw : w ∈ blockDirectives
      · rw [takenLength_block hw, takenLength_block hw, hlonger, if_pos (hstop hw)]
        exact ⟨rfl, (hstop hw).le⟩
      · unfold takenLength
        split
        · rename_i hw
          rw [hrfc hw]
          exact ⟨rfl, rfcNumber?_le rest⟩
        split
        · rename_i hw
          rw [(hclosed hw).1]
          exact ⟨rfl, (hclosed hw).2⟩
        · exact ⟨rfl, Nat.zero_le _⟩
    have hread := readToken_append (d := d) (p := p) (b := b) hrfc
      (fun hw => congrArg Prod.fst (hclosed hw).1) ?_ htaken.1 htaken.2
    · exact ⟨run, hrun, rfl, hread.1, hread.2, .inl rfl⟩
    · intro hw
      rw [if_pos (hstop hw)] at hlonger
      simp only [takeBlock, hlonger, List.take_append_of_le_length (hstop hw).le]

end Append

/-! ## Gaps -/

/-- A run of blanks with a blank line in it, between the words of a text. -/
structure IsGap (before run after : List Char) : Prop where
  before_solid : ∃ c, before.getLast? = some c ∧ isBlank c = false
  blank : run.all isBlank = true
  breaks : isBreak run = true
  after_solid : BeginsSolid after

/-- The last word before the gap announces a number, and it stands behind the gap. -/
def Crosses (before run after : List Char) : Prop :=
  ∃ t ∈ (tokens before).getLast?, t.word = "RFC".toList ∧ t.behind = [] ∧
    (rfcNumber? (run ++ after)).isSome = true

/-- Every block of code in the text is closed there. -/
def ClosesCode (s : List Char) : Prop :=
  ∀ t ∈ tokens s, t.word = "\\code".toList → occurs codeEnd t.behind = true

/-- **A number behind a gap.**  The word before the gap and all up to the last digit of the number
give one link; no paragraph ends, and what is expected behind the link is what was expected before
it. -/
def ReadsAcross (d : DocBlock) (p : Progress) (before run after : List Char) : Prop :=
  ∃ first blanks number taken r,
    tokens before = first ++ [⟨blanks, "RFC".toList, []⟩] ∧
    rfcNumber? (run ++ after) = some (number, taken) ∧
    r.state = (readBlanks d blanks (readTokens d p first).1.last (readTokens d p first).1.state).1 ∧
    readRest d p (before ++ (run ++ after)) =
      ((readRest d r ((run ++ after).drop taken)).1,
        (readTokens d p first).2 ++
          (readBlanks d blanks (readTokens d p first).1.last (readTokens d p first).1.state).2 ++
            rfcLink number :: (readRest d r ((run ++ after).drop taken)).2)

section Gap

variable (d : DocBlock) {before run after b : List Char}

/-- The progress behind a gap: the paragraph has ended. -/
def Progress.behindGap (p : Progress) (run : List Char) : Progress :=
  { p with line := p.line + lineFeeds run, state := (endParagraph d p.last p.state).1 }

/-- What begins with no blank begins with a word. -/
theorem BeginsSolid.exists_word {s : List Char} (h : BeginsSolid s) :
    ∃ w rest, s = w ++ rest ∧ IsWord w ∧ EndsWord rest := by
  obtain ⟨c, hc, hsolid⟩ := h
  refine ⟨s.takeWhile (!isBlank ·), s.dropWhile (!isBlank ·), ?_, ⟨?_, ?_⟩, endsWord_dropWhile s⟩
  · exact List.takeWhile_append_dropWhile.symm
  · obtain ⟨tail, rfl⟩ := List.head?_eq_some_iff.mp hc
    simp [hsolid]
  · intro e he
    simpa using List.mem_takeWhile_imp he

/-- Blanks before a word are read first. -/
theorem readRest_blanks (p : Progress) (hb : b.all isBlank = true) (hafter : BeginsSolid after) :
    readRest d p (b ++ after) =
      ((readRest d { p with
          line := p.line + lineFeeds b, state := (readBlanks d b p.last p.state).1 } after).1,
        (readBlanks d b p.last p.state).2 ++ (readRest d { p with
          line := p.line + lineFeeds b, state := (readBlanks d b p.last p.state).1 } after).2) := by
  obtain ⟨w, rest, rfl, hw, hrest⟩ := hafter.exists_word
  have hafter := readRest_word d { p with
    line := p.line + lineFeeds b, state := (readBlanks d b p.last p.state).1 }
    (b := []) rfl hw hrest
  have hnone (last : Nat) (st : State) : readBlanks d [] last st = (st, []) := rfl
  rw [List.nil_append] at hafter
  rw [readRest_word d p hb hw hrest, hafter]
  simp only [readToken, Token.rest, hnone, List.nil_append, List.append_assoc]
  rfl

/-- **From word to word.**  Up to a gap, a text is read as if it ended there, except that a number may
stand behind the gap. -/
theorem readRest_gap (p : Progress) (hbefore : EndsSolid before) (hcode : ClosesCode before)
    (hcross : ¬ Crosses before run after) (hrun : run.all isBlank = true)
    (hbreak : isBreak run = true) (hafter : BeginsSolid after) :
    readRest d p (before ++ (run ++ after)) =
      ((readRest d ((readTokens d p (tokens before)).1.behindGap d run) after).1,
        (readTokens d p (tokens before)).2 ++ .close ::
          (readRest d ((readTokens d p (tokens before)).1.behindGap d run) after).2) := by
  induction before using text_induction generalizing p run with
  | blank s hs =>
      obtain rfl : s = [] := hbefore.eq_nil_of_blank hs
      have hbreak' : 2 ≤ lineFeeds run := of_decide_eq_true hbreak
      have hclose : readBlanks d run p.last p.state = endParagraph d p.last p.state := if_pos hbreak'
      rw [tokens_blank rfl, List.nil_append, readRest_blanks d p hrun hafter, hclose]
      rfl
  | word b w rest hb hw hrest ih =>
      have htokens := tokens_word hb hw hrest
      have hsolid : EndsSolid rest := hbefore.of_append.of_append
      have hnumber (hrfc : w = "RFC".toList) (hnil : rest = []) :
          rfcNumber? (run ++ after) = none := by
        by_contra hsome
        refine hcross ⟨⟨b, w, rest⟩, ?_, hrfc, hnil, Option.isSome_iff_ne_none.mpr hsome⟩
        rw [htokens, Token.rest, hnil, List.drop_nil, tokens_blank rfl]
        rfl
      obtain ⟨left, hblank, hfeeds, hread, hleft, hwhich⟩ :=
        readToken_gap (d := d) (p := p) (b := b) after hsolid hrun hbreak hnumber
          (hcode ⟨b, w, rest⟩ (htokens ▸ List.mem_cons_self))
      have hrest' : EndsWord (rest ++ (run ++ after)) := hrest.append (endsWord_gap hrun hbreak after)
      have hbreak' : isBreak left = true := by
        have hcount : 2 ≤ lineFeeds left := hfeeds.symm ▸ of_decide_eq_true hbreak
        exact decide_eq_true hcount
      have hlater := ih (readToken d p ⟨b, w, rest⟩).1 (hsolid.drop _)
        (fun t ht => hcode t (htokens ▸ List.mem_cons_of_mem _ ht)) ?_ hblank hbreak'
      · rw [List.append_assoc, List.append_assoc, readRest_word d p hb hw hrest', hread, hleft, hlater,
          htokens]
        simp only [readTokens, Progress.behindGap, hfeeds, List.append_assoc]
      · rintro ⟨t, ht, hcrossed⟩
        rcases hwhich with rfl | hnothing
        · refine hcross ⟨t, ?_, hcrossed⟩
          rw [htokens, List.getLast?_cons, Option.mem_def.mp ht]
          rfl
        · rw [hnothing, tokens_blank rfl] at ht
          cases ht

/-- At a gap that a number is read across, reading goes on in the same paragraph. -/
theorem readRest_crossed (p : Progress) (hbefore : EndsSolid before) (hcode : ClosesCode before)
    (hcross : Crosses before run after) (hrun : run.all isBlank = true)
    (hbreak : isBreak run = true) : ReadsAcross d p before run after := by
  obtain ⟨last, hlast, hword, hbehind, hnumber⟩ := hcross
  obtain ⟨⟨number, taken⟩, htaken⟩ := Option.isSome_iff_exists.mp hnumber
  induction before using text_induction generalizing p with
  | blank s hs =>
      rw [tokens_blank hs] at hlast
      cases hlast
  | word b w rest hb hw hrest ih =>
      have htokens := tokens_word hb hw hrest
      have hsolid : EndsSolid rest := hbefore.of_append.of_append
      have hrest' : EndsWord (rest ++ (run ++ after)) := hrest.append (endsWord_gap hrun hbreak after)
      rw [htokens, List.getLast?_cons] at hlast
      cases hlater : (tokens (Token.rest ⟨b, w, rest⟩)).getLast? with
      | none =>
          -- This is the word itself.
          rw [hlater] at hlast
          obtain rfl : ⟨b, w, rest⟩ = last := Option.some.inj hlast
          obtain rfl : rest = [] := hbehind
          obtain rfl : w = "RFC".toList := hword
          rw [List.getLast?_eq_none_iff.mp hlater] at htokens
          obtain ⟨hdrafts, hstate, hleft⟩ := readToken_number (d := d) (p := p) (b := b) htaken
          refine ⟨[], b, number, taken, _, htokens, htaken, hstate, ?_⟩
          rw [List.append_assoc, List.append_assoc, readRest_word d p hb hw hrest', List.nil_append,
            hdrafts, hleft, List.append_assoc]
          rfl
      | some t =>
          rw [hlater] at hlast
          obtain rfl : t = last := Option.some.inj hlast
          have hne : Token.rest ⟨b, w, rest⟩ ≠ [] := by
            intro hnil
            rw [hnil, tokens_blank rfl] at hlater
            cases hlater
          have hwhole : rest ≠ [] := by
            rintro rfl
            exact hne List.drop_nil
          obtain ⟨left, -, -, hread, hleft, hwhich⟩ :=
            readToken_gap (d := d) (p := p) (b := b) after hsolid hrun hbreak
              (fun _ hnil => absurd hnil hwhole) (hcode ⟨b, w, rest⟩ (htokens ▸ List.mem_cons_self))
          obtain rfl : left = run := hwhich.resolve_right hne
          obtain ⟨first, blanks, n, k, r, hfirst, hk, hstate, hall⟩ :=
            ih (readToken d p ⟨b, w, rest⟩).1 (hsolid.drop _)
              (fun t ht => hcode t (htokens ▸ List.mem_cons_of_mem _ ht)) hlater
          refine ⟨⟨b, w, rest⟩ :: first, blanks, n, k, r, ?_, hk, hstate, ?_⟩
          · rw [htokens, hfirst]
            rfl
          · rw [List.append_assoc, List.append_assoc, readRest_word d p hb hw hrest', hread, hleft, hall]
            simp only [readTokens, List.append_assoc]

end Gap

/-- Where a draft ends a paragraph, nothing is open, and what has been added ends with the end of a
paragraph. -/
theorem settle_close (sp : Spacing) (drafts : List Draft) :
    (sp.settle (drafts ++ [.close])).1 = .closed ∧
      ∀ e, (sp.settle (drafts ++ [.close])).2.getLast? = some e → e = .close := by
  have hclosed : (sp.settle (drafts ++ [.close])).1 = .closed := by
    rw [Spacing.settle_append]
    rfl
  refine ⟨hclosed, fun e he => ?_⟩
  -- Something is open if there has been a text before.
  obtain ⟨earlier, hearlier⟩ : ∃ earlier, Balanced sp.opened earlier := by
    cases sp.opened with
    | false => exact ⟨[], .empty⟩
    | true => exact ⟨[] ++ [.content (.text "")], .content _ .empty⟩
  have hbalanced := hearlier.settle (drafts ++ [.close])
  rw [hclosed] at hbalanced
  by_contra hopen
  have hleft : LeftOpen (earlier ++ (sp.settle (drafts ++ [.close])).2) :=
    ⟨e, by rw [List.getLast?_append, he]; rfl, hopen⟩
  exact Bool.noConfusion (hbalanced.leftOpen_iff.mp hleft)

/-- **The end of a paragraph** at a gap.  The words before it are read as if the text ended there, and
those behind it as plain text; a directive that still waits for an argument is reported, and nothing
else; the events on the two sides are settled apart, and those before the gap, if there are any, end
with the end of a paragraph. -/
structure EndsParagraph (d : DocBlock) (p : Progress) (before run after : List Char) : Prop where
  read :
    readRest d p (before ++ (run ++ after)) =
      ((readRest d ((readTokens d p (tokens before)).1.behindGap d run) after).1,
        (readTokens d p (tokens before)).2 ++ .close ::
          (readRest d ((readTokens d p (tokens before)).1.behindGap d run) after).2)
  text : ((readTokens d p (tokens before)).1.behindGap d run).state.expecting = .text
  hanging :
    ((readTokens d p (tokens before)).1.behindGap d run).state.registry.diagnostics =
      (readTokens d p (tokens before)).1.state.registry.diagnostics ++
        if (readTokens d p (tokens before)).1.state.expecting = .argument then
          [⟨⟨d.origin.file, (readTokens d p (tokens before)).1.last⟩, .directiveHanging⟩]
        else []
  events (sp : Spacing) :
    (sp.settle (readRest d p (before ++ (run ++ after))).2).2 =
      (sp.settle ((readTokens d p (tokens before)).2 ++ [.close])).2 ++
        (Spacing.closed.settle
          (readRest d ((readTokens d p (tokens before)).1.behindGap d run) after).2).2
  separated (sp : Spacing) (e : Event) :
    (sp.settle ((readTokens d p (tokens before)).2 ++ [.close])).2.getLast? = some e → e = .close

/-- **Blank lines.**  A blank line outside of code ends the paragraph between the words before and
after it, unless the number that the last word before it announces stands behind it. -/
theorem gap_endsParagraph (d : DocBlock) (p : Progress) {before run after : List Char}
    (hgap : IsGap before run after) (hcode : ClosesCode before) :
    (¬ Crosses before run after → EndsParagraph d p before run after) ∧
      (Crosses before run after → ReadsAcross d p before run after) := by
  have hbefore : EndsSolid before := by
    obtain ⟨c, hlast, hc⟩ := hgap.before_solid
    intro e he
    obtain rfl : c = e := Option.some.inj (hlast.symm.trans he)
    exact hc
  constructor
  · intro hcross
    have hread := readRest_gap d p hbefore hcode hcross hgap.blank hgap.breaks
      hgap.after_solid
    refine ⟨hread, rfl, ?_, fun sp => ?_, fun sp => (settle_close sp _).2⟩
    · unfold Progress.behindGap endParagraph
      dsimp only
      split
      · rfl
      · exact (List.append_nil _).symm
    · rw [hread, ← List.singleton_append, ← List.append_assoc, Spacing.settle_append,
        (settle_close sp _).1]
  · intro hcross
    exact readRest_crossed d p hbefore hcode hcross hgap.blank hgap.breaks

/-- A blank line behind a directive that waits for an argument, and one before a number. -/
theorem gap_endsParagraph_number :
    EndsParagraph { (default : DocBlock) with subject := .function ⟨0⟩ }
        { line := 1, last := 1, count := 0, state := .start .empty }
        "\\a".toList "\n \n".toList "bar".toList ∧
      ReadsAcross default { line := 1, last := 1, count := 0, state := .start .empty }
        "RFC".toList "\n\n".toList "822".toList := by
  have hdirective := tokens_single (w := "\\a".toList) (isWord_of_all (by decide) (by decide))
  have hnumber := tokens_single (w := "RFC".toList) (isWord_of_all (by decide) (by decide))
  have hbar : IsGap "\\a".toList "\n \n".toList "bar".toList :=
    ⟨⟨'a', rfl, by decide⟩, by decide, by decide, 'b', rfl, by decide⟩
  have hrfc : IsGap "RFC".toList "\n\n".toList "822".toList :=
    ⟨⟨'C', rfl, by decide⟩, by decide, by decide, '8', rfl, by decide⟩
  constructor
  · refine (gap_endsParagraph _ _ hbar ?_).1 ?_
    · intro t ht hcode
      rw [hdirective, List.mem_singleton] at ht
      subst ht
      exact absurd hcode (by decide)
    · rintro ⟨t, ht, hword, -⟩
      rw [hdirective] at ht
      obtain rfl : ⟨[], "\\a".toList, []⟩ = t := Option.some.inj ht
      exact absurd hword (by decide)
  · refine (gap_endsParagraph _ _ hrfc ?_).2 ?_
    · intro t ht hcode
      rw [hnumber, List.mem_singleton] at ht
      subst ht
      exact absurd hcode (by decide)
    · exact ⟨_, by rw [hnumber]; rfl, rfl, rfl, by decide⟩

end Markup

end CppDoc
