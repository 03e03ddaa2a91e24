import CppDoc.Proofs.Manual.Notes

/-!
# The words of a block

Which words are read of a text does not depend on what they mean.  A word ends at the next blank, and
what it takes from the text behind it is decided by that text alone.  The **tokens** of a text are the
words that are read of it, each with the blanks before it and with what it takes.

* `tokens`: the tokens of a text, with `tokens_blank`, `tokens_word` and `tokens_last`;
* `text_induction`: a text is blank, or it begins with a token;
* `readToken` and `readTokens`: how they are read;
* `readRest_blank`, `readRest_word` and `readRest_tokens`: a block is read token by token, and then
  its last paragraph ends.
-/

namespace CppDoc.Markup

open CppDoc.Text

/-! ## What words take -/

/-- The directives that take the text up to the next blank line. -/
def blockDirectives : List (List Char) :=
  ["\\warning", "\\note", "\\section1", "\\section2", "\\section3"].map String.toList

/-- The number of characters that the word `w` takes from the text `rest` behind it: those of a number
or of code, or all up to a blank line. -/
def takenLength (w rest : List Char) : Nat :=
  if w = "RFC".toList then (rfcNumber? rest).elim 0 Prod.snd
  else if w = "\\code".toList then (takeCode rest).2
  else if w ∈ blockDirectives then (takeBlock rest).2
  else 0

section Taken

variable {d : DocBlock} {w rest : List Char} {line n : Nat} {st : State}

/-- Only directives take something, and references to standards documents. -/
theorem takenLength_eq_zero (hrfc : w ≠ "RFC".toList) (hw : w.head? ≠ some '\\') :
    takenLength w rest = 0 := by
  have hcode : w ≠ "\\code".toList := fun h => hw (by rw [h]; rfl)
  have hblock : w ∉ blockDirectives := by
    have hall : ∀ v ∈ blockDirectives, v.head? = some '\\' := by decide
    exact fun h => hw (hall w h)
  rw [takenLength, if_neg hrfc, if_neg hcode, if_neg hblock]

theorem head?_of_isUrl (h : isUrl w = true) : w.head? ≠ some '\\' := by
  intro hw
  obtain ⟨tail, rfl⟩ := List.head?_eq_some_iff.mp hw
  simp [isUrl] at h

/-- What a directive takes. -/
theorem taken_readDirective (hrfc : w ≠ "RFC".toList) :
    (readDirective d w rest line n st).taken = takenLength w rest := by
  unfold readDirective
  split
  case h_10 hcode hwarning hnote h1 h2 h3 =>
      have hno {t : String} (h : ¬ String.ofList w = t) : w ≠ t.toList :=
        fun heq => h (by rw [heq, String.ofList_toList])
      have hblock : w ∉ blockDirectives := by
        simp only [blockDirectives, List.map_cons, List.map_nil, List.mem_cons, List.not_mem_nil,
          or_false, not_or]
        exact ⟨hno hwarning, hno hnote, hno h1, hno h2, hno h3⟩
      rw [takenLength, if_neg hrfc, if_neg (hno hcode), if_neg hblock]
      rfl
  all_goals
    rename_i h
    obtain rfl := String.toList_ofList (l := w) ▸ congrArg String.toList h
    rfl

/-- **What a word takes** does not depend on the state in which it is read. -/
theorem taken_readWord (d : DocBlock) (w rest : List Char) (line n : Nat) (st : State) :
    (readWord d w rest line n st).taken = takenLength w rest := by
  unfold readWord
  split
  · rename_i hw
    rw [takenLength, if_pos hw]
    cases rfcNumber? rest <;> rfl
  rename_i hrfc
  split
  · rename_i hurl
    exact (takenLength_eq_zero hrfc (head?_of_isUrl hurl)).symm
  split
  · exact taken_readDirective hrfc
  · rename_i hw
    exact (takenLength_eq_zero hrfc (by simpa using hw)).symm

end Taken

/-! ## Tokens -/

/-- A word that is read of a text, with the blanks before it and all the text behind it. -/
structure Token where
  blanks : List Char
  word : List Char
  behind : List Char
  deriving DecidableEq, Repr

/-- What is left of the text behind the word when the word has taken its part. -/
def Token.rest (t : Token) : List Char :=
  t.behind.drop (takenLength t.word t.behind)

/-- The words that are read of a text. -/
def tokens (s : List Char) : List Token :=
  match _h : s.dropWhile isBlank with
  | [] => []
  | c :: behind =>
    let t : Token :=
      { blanks := s.takeWhile isBlank
        word := c :: behind.takeWhile (!isBlank ·)
        behind := behind.dropWhile (!isBlank ·) }
    t :: tokens t.rest
termination_by s.length
decreasing_by exact length_behind_word _h _

/-- A word is not empty, and there is no blank in it. -/
structure IsWord (w : List Char) : Prop where
  ne_nil : w ≠ []
  solid : ∀ c ∈ w, isBlank c = false

/-- Given words are looked through. -/
theorem isWord_of_all {w : List Char} (hne : w ≠ []) (h : w.all (!isBlank ·) = true) : IsWord w :=
  ⟨hne, by simpa using h⟩

/-- A word before this text ends there. -/
def EndsWord (s : List Char) : Prop :=
  ∀ c, s.head? = some c → isBlank c = true

section Tokens

variable {s b w rest : List Char}

theorem endsWord_dropWhile (s : List Char) : EndsWord (s.dropWhile (!isBlank ·)) := by
  intro c hc
  have hhead := List.head?_dropWhile_not (!isBlank ·) s
  rw [hc] at hhead
  simpa using hhead

/-- **Induction on the words of a text.**  A text is blank, or it begins with a word and goes on with
what that word leaves. -/
theorem text_induction {P : List Char → Prop} (blank : ∀ s, s.all isBlank = true → P s)
    (word : ∀ b w rest, b.all isBlank = true → IsWord w → EndsWord rest →
      P (Token.rest ⟨b, w, rest⟩) → P (b ++ (w ++ rest))) (s : List Char) : P s := by
  induction hlen : s.length using Nat.strongRecOn generalizing s with
  | ind k ih =>
      have hsplit : s.takeWhile isBlank ++ s.dropWhile isBlank = s :=
        List.takeWhile_append_dropWhile
      have hblanks : (s.takeWhile isBlank).all isBlank = true := List.all_takeWhile
      cases hs : s.dropWhile isBlank with
      | nil =>
          rw [hs, List.append_nil] at hsplit
          exact blank s (hsplit ▸ hblanks)
      | cons c behind =>
          have hc : isBlank c = false := by
            have hhead := List.head?_dropWhile_not isBlank s
            rw [hs] at hhead
            simpa using hhead
          have hword : IsWord (c :: behind.takeWhile (!isBlank ·)) := by
            refine ⟨List.cons_ne_nil _ _, fun e he => ?_⟩
            rcases List.mem_cons.mp he with rfl | he
            · exact hc
            · simpa using List.all_eq_true.mp List.all_takeWhile e he
          have hrest := ih _ (hlen ▸ length_behind_word hs
            (takenLength (c :: behind.takeWhile (!isBlank ·)) (behind.dropWhile (!isBlank ·)))) _ rfl
          have hwhole := word _ _ _ hblanks hword (endsWord_dropWhile behind) hrest
          rwa [List.cons_append, List.takeWhile_append_dropWhile, ← hs, hsplit] at hwhole

theorem dropWhile_blank (hs : s.all isBlank = true) : s.dropWhile isBlank = [] := by
  have happend : (s ++ []).dropWhile isBlank = [] :=
    List.dropWhile_append_of_pos (List.all_eq_true.mp hs)
  rwa [List.append_nil] at happend

theorem takeWhile_blank (hs : s.all isBlank = true) : s.takeWhile isBlank = s := by
  have happend : (s ++ []).takeWhile isBlank = s ++ [] :=
    List.takeWhile_append_of_pos (List.all_eq_true.mp hs)
  rwa [List.append_nil] at happend

/-- The blanks before a word. -/
theorem takeWhile_word (hb : b.all isBlank = true) (hw : IsWord w) (rest : List Char) :
    (b ++ (w ++ rest)).takeWhile isBlank = b := by
  obtain ⟨c, tail, rfl⟩ := List.exists_cons_of_ne_nil hw.ne_nil
  rw [List.takeWhile_append_of_pos (List.all_eq_true.mp hb), List.cons_append,
    List.takeWhile_cons_of_neg (by simp [hw.solid]), List.append_nil]

theorem dropWhile_word (hb : b.all isBlank = true) (hw : IsWord w) (rest : List Char) :
    (b ++ (w ++ rest)).dropWhile isBlank = w ++ rest := by
  obtain ⟨c, tail, rfl⟩ := List.exists_cons_of_ne_nil hw.ne_nil
  rw [List.dropWhile_append_of_pos (List.all_eq_true.mp hb), List.cons_append,
    List.dropWhile_cons_of_neg (by simp [hw.solid])]

/-- A word is cut off where it ends. -/
theorem cut_word (hw : ∀ c ∈ w, isBlank c = false) (hrest : EndsWord rest) :
    (w ++ rest).takeWhile (!isBlank ·) = w ∧ (w ++ rest).dropWhile (!isBlank ·) = rest := by
  have hall : ∀ c ∈ w, (!isBlank c) = true := fun c hc => by rw [hw c hc]; rfl
  rw [List.takeWhile_append_of_pos hall, List.dropWhile_append_of_pos hall]
  cases rest with
  | nil => simp
  | cons c tail => simp [hrest c rfl]

/-- There is no word in a blank text. -/
theorem tokens_blank (hs : s.all isBlank = true) : tokens s = [] := by
  unfold tokens
  split
  · rfl
  · rename_i h
    rw [dropWhile_blank hs] at h
    exact nomatch h

/-- The first word of a text, and those of what it leaves. -/
theorem tokens_word (hb : b.all isBlank = true) (hw : IsWord w) (hrest : EndsWord rest) :
    tokens (b ++ (w ++ rest)) = ⟨b, w, rest⟩ :: tokens (Token.rest ⟨b, w, rest⟩) := by
  have hdrop := dropWhile_word hb hw rest
  have htake := takeWhile_word hb hw rest
  obtain ⟨c, tail, rfl⟩ := List.exists_cons_of_ne_nil hw.ne_nil
  obtain ⟨hword, hbehind⟩ := cut_word (fun e he => hw.solid e (List.mem_cons_of_mem c he)) hrest
  rw [tokens]
  split
  · rename_i h
    rw [hdrop] at h
    exact nomatch h
  · rename_i e behind h
    rw [hdrop] at h
    obtain ⟨rfl, rfl⟩ : c = e ∧ tail ++ rest = behind := List.cons.inj h
    rw [htake, hword, hbehind]

/-- The last word of a text. -/
theorem tokens_last (hb : b.all isBlank = true) (hw : IsWord w) (hs : s.all isBlank = true) :
    tokens (b ++ (w ++ s)) = [⟨b, w, s⟩] := by
  have hend : EndsWord s := fun c hc => List.all_eq_true.mp hs c (List.mem_of_head? hc)
  have hrest : (Token.rest ⟨b, w, s⟩).all isBlank = true :=
    List.all_eq_true.mpr fun c hc => List.all_eq_true.mp hs c (List.mem_of_mem_drop hc)
  rw [tokens_word hb hw hend, tokens_blank hrest]

/-- The token of a text that is a word. -/
theorem tokens_single (hw : IsWord w) : tokens w = [⟨[], w, []⟩] := by
  have hlast := tokens_last (b := []) (s := []) rfl hw rfl
  rwa [List.nil_append, List.append_nil] at hlast

end Tokens

/-! ## Reading tokens -/

/-- How far a block has been read: the line on which the rest of it begins, the line of the last word,
the number of words so far, and the state. -/
structure Progress where
  line : Nat
  last : Nat
  count : Nat
  state : State

/-- Reads a token: the blanks, and the word with what it takes. -/
def readToken (d : DocBlock) (p : Progress) (t : Token) : Progress × List Draft :=
  let (st, before) := readBlanks d t.blanks p.last p.state
  let line := p.line + lineFeeds t.blanks
  let out := readWord d t.word t.behind line (p.count + 1) st
  let passed := lineFeeds (t.behind.take (takenLength t.word t.behind))
  ({ line := line + passed, last := line, count := p.count + 1, state := out.state },
    before ++ out.drafts)

/-- Reads one token after another. -/
def readTokens (d : DocBlock) (p : Progress) : List Token → Progress × List Draft
  | [] => (p, [])
  | t :: rest =>
    let (p, now) := readToken d p t
    let (p, later) := readTokens d p rest
    (p, now ++ later)

section Reading

variable (d : DocBlock) {s b w rest : List Char} (p : Progress)

/-- Reads the rest of a text. -/
def readRest (s : List Char) : State × List Draft :=
  readWords d s p.line p.last p.count p.state

/-- A blank text ends the last paragraph. -/
theorem readRest_blank (hs : s.all isBlank = true) :
    readRest d p s =
      ((endParagraph d p.last (readBlanks d s p.last p.state).1).1,
        (readBlanks d s p.last p.state).2 ++
          (endParagraph d p.last (readBlanks d s p.last p.state).1).2) := by
  unfold readRest
  rw [readWords, takeWhile_blank hs]
  dsimp only
  split
  · rfl
  · rename_i h
    rw [dropWhile_blank hs] at h
    cases h

/-- **A word.**  It is read, and then what it leaves. -/
theorem readRest_word (hb : b.all isBlank = true) (hw : IsWord w) (hrest : EndsWord rest) :
    readRest d p (b ++ (w ++ rest)) =
      ((readRest d (readToken d p ⟨b, w, rest⟩).1 (Token.rest ⟨b, w, rest⟩)).1,
        (readToken d p ⟨b, w, rest⟩).2 ++
          (readRest d (readToken d p ⟨b, w, rest⟩).1 (Token.rest ⟨b, w, rest⟩)).2) := by
  have hdrop := dropWhile_word hb hw rest
  have htake := takeWhile_word hb hw rest
  obtain ⟨c, tail, rfl⟩ := List.exists_cons_of_ne_nil hw.ne_nil
  obtain ⟨hword, hbehind⟩ := cut_word (fun e he => hw.solid e (List.mem_cons_of_mem c he)) hrest
  simp only [readRest, readToken, Token.rest]
  rw [readWords, htake]
  dsimp only
  split
  · rename_i h
    rw [hdrop] at h
    cases h
  · rename_i e behind h
    rw [hdrop] at h
    obtain ⟨rfl, rfl⟩ : c = e ∧ tail ++ rest = behind := List.cons.inj h
    simp only [hword, hbehind, taken_readWord]

/-- **A text.**  Its tokens are read, and then the blanks behind the last one. -/
theorem readRest_tokens (s : List Char) :
    ∃ blanks, blanks.all isBlank = true ∧
      readRest d p s =
        ((readRest d (readTokens d p (tokens s)).1 blanks).1,
          (readTokens d p (tokens s)).2 ++ (readRest d (readTokens d p (tokens s)).1 blanks).2) := by
  induction s using text_induction generalizing p with
  | blank s hs =>
      refine ⟨s, hs, ?_⟩
      rw [tokens_blank hs]
      rfl
  | word b w rest hb hw hrest ih =>
      obtain ⟨blanks, hblanks, hread⟩ := ih (readToken d p ⟨b, w, rest⟩).1
      refine ⟨blanks, hblanks, ?_⟩
      rw [readRest_word d p hb hw hrest, tokens_word hb hw hrest]
      simp only [readTokens]
      rw [hread, List.append_assoc]

end Reading

end CppDoc.Markup
