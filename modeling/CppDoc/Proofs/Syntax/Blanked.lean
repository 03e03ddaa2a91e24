import CppDoc.Proofs.Syntax.Closing

/-!
# Line comments and spaces

`Blanked s t` says that `t` is `s` with some of its line comments overwritten by spaces.  A comment is
part of a gap, and so are the spaces that stand for it.  The scanners of the pieces of a name measure
the same in both texts, and behind a piece the two are again such a pair.

* `Blanked.behind`, `Blanked.before`: what has no slash and no space in it stands in both texts;
* `Blanked.gap`, `Blanked.run`: gaps, and runs of characters of one class;
* `Blanked.count_take`: a comment that is part of what is taken takes slashes with it.
-/

namespace CppDoc.Syntax

open CppDoc.Text

/-- `t` is `s` with some of its line comments overwritten by spaces.  A comment begins with the first
of its slashes, and the end of its line is no part of it. -/
inductive Blanked : List Char → List Char → Prop
  | nil : Blanked [] []
  | char {c : Char} {s t : List Char} (hc : c = '/' → t.head? = s.head?) (h : Blanked s t) :
      Blanked (c :: s) (c :: t)
  | comment {w s t : List Char} (hw : '\n' ∉ w) (hs : s.head?.all (· == '\n') = true)
      (h : Blanked s t) : Blanked ('/' :: '/' :: (w ++ s)) (List.replicate (w.length + 2) ' ' ++ t)

section Pairs

variable {s t : List Char}

/-- A text is such a pair with itself: no comment has to be overwritten. -/
theorem Blanked.refl (s : List Char) : Blanked s s := by
  induction s with
  | nil => exact .nil
  | cons c s ih => exact .char (fun _ => rfl) ih

/-! ## What stands in both texts -/

theorem Blanked.behind_char {c : Char} (hc : c ≠ '/') (h : Blanked (c :: s) t) :
    ∃ v, t = c :: v ∧ Blanked s v := by
  cases h with
  | char _ h => exact ⟨_, rfl, h⟩
  | comment => exact absurd rfl hc

theorem Blanked.before_char {c : Char} (hspace : c ≠ ' ') (h : Blanked s (c :: t)) :
    ∃ u, s = c :: u ∧ Blanked u t := by
  generalize ht : c :: t = t' at h
  cases h with
  | nil => cases ht
  | char _ h =>
      obtain ⟨rfl, rfl⟩ := List.cons.inj ht
      exact ⟨_, rfl, h⟩
  | comment => exact absurd (List.cons.inj ht).1 hspace

/-- What has no slash in it is not overwritten. -/
theorem Blanked.behind {w : List Char} (hw : '/' ∉ w) (h : Blanked (w ++ s) t) :
    ∃ v, t = w ++ v ∧ Blanked s v := by
  induction w generalizing t with
  | nil => exact ⟨t, rfl, h⟩
  | cons c w ih =>
      rw [List.mem_cons, not_or] at hw
      obtain ⟨t, rfl, ht⟩ := Blanked.behind_char (Ne.symm hw.1) h
      obtain ⟨v, rfl, hv⟩ := ih hw.2 ht
      exact ⟨v, rfl, hv⟩

/-- What has no space in it has not been written over a comment. -/
theorem Blanked.before {w : List Char} (hw : ' ' ∉ w) (h : Blanked s (w ++ t)) :
    ∃ u, s = w ++ u ∧ Blanked u t := by
  induction w generalizing s with
  | nil => exact ⟨s, rfl, h⟩
  | cons c w ih =>
      rw [List.mem_cons, not_or] at hw
      obtain ⟨s, rfl, hs⟩ := Blanked.before_char (Ne.symm hw.1) h
      obtain ⟨u, rfl, hu⟩ := ih hw.2 hs
      exact ⟨u, rfl, hu⟩

/-- A word begins both texts or none. -/
theorem Blanked.prefix_iff (h : Blanked s t) {w : List Char} (hslash : '/' ∉ w) (hspace : ' ' ∉ w) :
    w <+: t ↔ w <+: s := by
  constructor
  · rintro ⟨v, rfl⟩
    obtain ⟨u, rfl, -⟩ := h.before hspace
    exact ⟨u, rfl⟩
  · rintro ⟨u, rfl⟩
    obtain ⟨v, rfl, -⟩ := h.behind hslash
    exact ⟨v, rfl⟩

theorem Blanked.head?_iff (h : Blanked s t) {c : Char} (hslash : c ≠ '/') (hspace : c ≠ ' ') :
    t.head? = some c ↔ s.head? = some c := by
  simp only [List.head?_eq_some_iff]
  constructor
  · rintro ⟨v, rfl⟩
    obtain ⟨u, rfl, -⟩ := h.before_char hspace
    exact ⟨u, rfl⟩
  · rintro ⟨u, rfl⟩
    obtain ⟨v, rfl, -⟩ := h.behind_char hslash
    exact ⟨v, rfl⟩

/-- The texts are a pair again behind what has no slash in it. -/
theorem Blanked.drop_prefix (h : Blanked s t) {w : List Char} (hw : w <+: s) (hslash : '/' ∉ w) :
    Blanked (s.drop w.length) (t.drop w.length) := by
  obtain ⟨u, rfl⟩ := hw
  obtain ⟨v, rfl, hv⟩ := h.behind hslash
  rwa [List.drop_left, List.drop_left]

/-! ## Gaps and runs -/

/-- A comment goes on to the end of the line. -/
theorem gapFrom_line {w : List Char} (hw : '\n' ∉ w) (s : List Char) :
    gapFrom true (w ++ s) = w.length + gapFrom true s := by
  induction w with
  | nil => rw [List.nil_append, List.length_nil, Nat.zero_add]
  | cons c w ih =>
      rw [List.mem_cons, not_or] at hw
      have hc : (c != '\n') = true := bne_iff_ne.mpr (Ne.symm hw.1)
      rw [List.cons_append, gapFrom, if_pos rfl, hc, ih hw.2, List.length_cons]
      omega

/-- Spaces belong to a gap, in a comment and outside. -/
theorem gapFrom_spaces (inComment : Bool) (n : Nat) (t : List Char) :
    gapFrom inComment (List.replicate n ' ' ++ t) = n + gapFrom inComment t := by
  induction n with
  | zero => rw [List.replicate_zero, List.nil_append, Nat.zero_add]
  | succ n ih =>
      rw [List.replicate_succ, List.cons_append]
      have hspace : gapFrom inComment (' ' :: (List.replicate n ' ' ++ t)) =
          gapFrom inComment (List.replicate n ' ' ++ t) + 1 := by
        cases inComment <;> rfl
      rw [hspace, ih]
      omega

/-- At the end of its line a comment is over. -/
theorem gapFrom_lineEnd (hs : s.head?.all (· == '\n') = true) : gapFrom true s = gapFrom false s := by
  cases s with
  | nil => rfl
  | cons c s =>
      obtain rfl : c = '\n' := by simpa using hs
      rfl

/-- A comment is passed over whole. -/
theorem gapFrom_comment {w : List Char} (hw : '\n' ∉ w) (hs : s.head?.all (· == '\n') = true)
    (inComment : Bool) :
    gapFrom inComment ('/' :: '/' :: (w ++ s)) = w.length + 2 + gapFrom inComment s := by
  have hopen : gapFrom inComment ('/' :: '/' :: (w ++ s)) = gapFrom true (w ++ s) + 2 := by
    cases inComment <;> rfl
  have hover : gapFrom true s = gapFrom inComment s := by
    cases inComment with
    | true => rfl
    | false => exact gapFrom_lineEnd hs
  rw [hopen, gapFrom_line hw, hover]
  omega

/-- A gap that has begun, in a comment or not, ends at the same place. -/
theorem Blanked.gapFrom (h : Blanked s t) (inComment : Bool) :
    gapFrom inComment t = gapFrom inComment s ∧
      Blanked (s.drop (gapFrom inComment s)) (t.drop (gapFrom inComment s)) := by
  induction h generalizing inComment with
  | nil => exact ⟨rfl, .nil⟩
  | @char c s t hc h ih =>
      have hslash : (c = '/' && t.head? == some '/') = (c = '/' && s.head? == some '/') := by
        by_cases hslash : c = '/'
        · rw [hc hslash]
        · simp [hslash]
      simp only [Syntax.gapFrom, hslash]
      split
      · exact ⟨congrArg (· + 1) (ih _).1, (ih _).2⟩
      · split
        · exact ⟨congrArg (· + 1) (ih _).1, (ih _).2⟩
        · split
          · exact ⟨congrArg (· + 1) (ih _).1, (ih _).2⟩
          · exact ⟨rfl, .char hc h⟩
  | @comment w s t hw hs h ih =>
      have hdrop : ('/' :: '/' :: (w ++ s)).drop (w.length + 2) = s := by
        rw [List.drop_succ_cons, List.drop_succ_cons, List.drop_left]
      have hspaces : (List.replicate (w.length + 2) ' ' ++ t).drop (w.length + 2) = t :=
        List.drop_left' List.length_replicate
      rw [gapFrom_comment hw hs, gapFrom_spaces, (ih inComment).1]
      refine ⟨rfl, ?_⟩
      rw [← List.drop_drop (j := w.length + 2), ← List.drop_drop (j := w.length + 2), hdrop, hspaces]
      exact (ih inComment).2

/-- **Gaps.**  The spaces that stand for a comment take up as much room. -/
theorem Blanked.gap (h : Blanked s t) :
    gap t = gap s ∧ Blanked (s.drop (gap s)) (t.drop (gap s)) :=
  h.gapFrom false

/-- The texts are a pair again behind a run of characters none of which is a slash. -/
theorem Blanked.drop_run (h : Blanked s t) {p : Char → Bool} (hslash : p '/' = false) :
    Blanked (s.drop (s.takeWhile p).length) (t.drop (s.takeWhile p).length) :=
  h.drop_prefix (List.takeWhile_prefix p) fun hmem => by
    have hp := List.all_eq_true.mp (List.all_takeWhile (l := s) (p := p)) _ hmem
    rw [hslash] at hp
    cases hp

/-- **Runs.**  Neither slashes nor spaces belong to the run. -/
theorem Blanked.takeWhile_eq (h : Blanked s t) {p : Char → Bool} (hslash : p '/' = false)
    (hspace : p ' ' = false) : t.takeWhile p = s.takeWhile p := by
  induction h with
  | nil => rfl
  | char _ _ ih => rw [List.takeWhile_cons, List.takeWhile_cons, ih]
  | comment =>
      rw [List.replicate_succ, List.cons_append, List.takeWhile_cons, List.takeWhile_cons, hslash,
        hspace]
      rfl

/-- Behind a run to which slashes and spaces belong the texts are a pair if it ends at the same place,
for then it does not end in a comment. -/
theorem Blanked.drop_run_of_eq (h : Blanked s t) {p : Char → Bool} (hslash : p '/' = true)
    (hspace : p ' ' = true) (hlength : (t.takeWhile p).length = (s.takeWhile p).length) :
    Blanked (s.drop (s.takeWhile p).length) (t.drop (s.takeWhile p).length) := by
  induction h with
  | nil => exact .nil
  | @char c s t hc h ih =>
      by_cases hp : p c = true
      · rw [List.takeWhile_cons_of_pos hp, List.takeWhile_cons_of_pos hp] at hlength
        rw [List.takeWhile_cons_of_pos hp]
        exact ih (Nat.succ.inj hlength)
      · rw [List.takeWhile_cons_of_neg hp]
        exact .char hc h
  | @comment w s t hw hs h ih =>
      have hspaces : ((List.replicate (w.length + 2) ' ' ++ t).takeWhile p).length =
          w.length + 2 + (t.takeWhile p).length := by
        rw [List.takeWhile_append_of_pos fun c hc => (List.eq_of_mem_replicate hc) ▸ hspace,
          List.length_append, List.length_replicate]
      have hcomment : (('/' :: '/' :: (w ++ s)).takeWhile p).length =
          2 + ((w ++ s).takeWhile p).length := by
        rw [List.takeWhile_cons_of_pos hslash, List.takeWhile_cons_of_pos hslash, Nat.add_comm]
        rfl
      have hle := (List.takeWhile_sublist (l := w) p).length_le
      rw [hspaces, hcomment, List.takeWhile_append] at hlength
      rw [hcomment, List.takeWhile_append]
      split at hlength
      · rename_i hall
        rw [List.length_append] at hlength
        rw [if_pos hall, List.length_append]
        have hbehind (u : List Char) {x : List Char} (hx : x.length = w.length + 2) :
            (x ++ u).drop (2 + (w.length + (s.takeWhile p).length)) = u.drop (s.takeWhile p).length := by
          rw [← Nat.add_assoc, Nat.add_comm 2, ← hx, ← List.drop_drop, List.drop_left]
        rw [hbehind t List.length_replicate, ← List.cons_append, ← List.cons_append, hbehind s rfl]
        exact ih (by omega)
      · omega

/-! ## Pieces of names and types -/

theorem Blanked.identifierLength (h : Blanked s t) :
    identifierLength t = identifierLength s ∧
      Blanked (s.drop (identifierLength s)) (t.drop (identifierLength s)) := by
  cases h with
  | nil => exact ⟨rfl, .nil⟩
  | char hc h =>
      have hslash : isNameChar '/' = false := by decide
      rw [Syntax.identifierLength, Syntax.identifierLength, h.takeWhile_eq hslash (by decide)]
      split
      · exact ⟨rfl, h.drop_run hslash⟩
      · exact ⟨rfl, .char hc h⟩
  | comment hw hs h => exact ⟨rfl, .comment hw hs h⟩

theorem Blanked.indirectionLength (h : Blanked s t) :
    indirectionLength t = indirectionLength s ∧
      Blanked (s.drop (indirectionLength s)) (t.drop (indirectionLength s)) := by
  cases h with
  | nil => exact ⟨rfl, .nil⟩
  | @char c s t hc h =>
      by_cases hreference : c = '&'
      · subst hreference
        exact ⟨congrArg (· + 1) h.gap.1, h.gap.2⟩
      · by_cases hpointer : c = '*'
        · subst hpointer
          exact ⟨congrArg (· + 1) h.gap.1, h.gap.2⟩
        · have hnone (u : List Char) : Syntax.indirectionLength (c :: u) = 0 := by
            simp [Syntax.indirectionLength, hreference, hpointer]
          rw [hnone, hnone]
          exact ⟨rfl, .char hc h⟩
  | comment hw hs h => exact ⟨rfl, .comment hw hs h⟩

/-- There is no comment in a modifier and before it. -/
theorem Blanked.drop_modifier (h : Blanked s t) :
    Blanked (s.drop (modifierLength s)) (t.drop (modifierLength s)) := by
  unfold modifierLength
  dsimp only
  split
  · rw [← List.drop_drop, ← List.drop_drop]
    exact (h.drop_run rfl).drop_run rfl
  · exact h

theorem Blanked.drop_modifiers (h : Blanked s t) :
    Blanked (s.drop (modifiersLength s)) (t.drop (modifiersLength s)) := by
  induction hlen : s.length using Nat.strongRecOn generalizing s t with
  | ind n ih =>
      have hle := modifierLength_le s
      rw [modifiersLength_eq]
      split
      · exact h
      · rw [← List.drop_drop, ← List.drop_drop]
        exact ih _ (by rw [List.length_drop]; omega) h.drop_modifier rfl

theorem symbolLength_space (c : Char) (t : List Char) :
    symbolLength (c :: ' ' :: t) = if isOperatorChar c then 1 else 0 := by
  have hspace : isOperatorChar ' ' = false := by decide
  by_cases hc : c = '(' <;> simp [symbolLength, hc, hspace]

/-- The symbol of an operator name ends before a comment, if it is the same symbol without the
comment. -/
theorem Blanked.drop_symbol (h : Blanked s t) (hgap : Syntax.gap s = 0)
    (hsymbol : symbolLength t = symbolLength s) :
    Blanked (s.drop (symbolLength s)) (t.drop (symbolLength s)) := by
  cases h with
  | nil => exact .nil
  | comment => exact absurd hgap (Nat.succ_ne_zero _)
  | @char c s t hc h =>
      have hle := symbolLength_le (c :: s)
      obtain hn | hn | hn : symbolLength (c :: s) = 0 ∨ symbolLength (c :: s) = 1 ∨
          symbolLength (c :: s) = 2 := by omega
      · rw [hn]
        exact .char hc h
      · rw [hn]
        exact h
      · rw [hn]
        cases h with
        | nil => exact .nil
        | char _ h => exact h
        | comment =>
            -- The first slash of the comment is part of the symbol only as long as it stands there.
            rw [hn, List.replicate_succ, List.cons_append, symbolLength_space] at hsymbol
            split at hsymbol <;> cases hsymbol

/-! ## Taken parts -/

/-- **Taken parts.**  A comment in the first `n` characters takes at least a slash with it, and so the
two texts begin with the same characters if they have as many slashes there. -/
theorem Blanked.count_take (h : Blanked s t) (n : Nat) :
    (t.take n).count '/' ≤ (s.take n).count '/' ∧
      ((t.take n).count '/' = (s.take n).count '/' → t.take n = s.take n) := by
  induction h generalizing n with
  | nil => simp
  | @char c s t _ _ ih =>
      cases n with
      | zero => simp
      | succ n =>
          obtain ⟨hle, heq⟩ := ih n
          simp only [List.take_succ_cons, List.count_cons]
          refine ⟨by omega, fun hcount => ?_⟩
          rw [heq (by omega)]
  | @comment w s t _ _ _ ih =>
      cases n with
      | zero => simp
      | succ n =>
          have hspaces : ((List.replicate (w.length + 2) ' ' ++ t).take (n + 1)).count '/' =
              (t.take (n + 1 - (w.length + 2))).count '/' := by
            rw [List.take_append, List.count_append, List.take_replicate, List.count_replicate,
              List.length_replicate]
            exact Nat.zero_add _
          have hslash : ((['/', '/'] ++ w ++ s).take (n + 1)).count '/' =
              ((['/'] ++ w).take n).count '/' + 1 + (s.take (n + 1 - (w.length + 2))).count '/' := by
            rw [List.take_append, List.count_append]
            simp
          obtain ⟨hle, -⟩ := ih (n + 1 - (w.length + 2))
          have hlt : ((List.replicate (w.length + 2) ' ' ++ t).take (n + 1)).count '/' <
              (('/' :: '/' :: (w ++ s)).take (n + 1)).count '/' := by
            rw [hspaces]
            exact Nat.lt_of_lt_of_eq (by omega) hslash.symm
          exact ⟨Nat.le_of_lt hlt, fun heq => absurd heq (Nat.ne_of_lt hlt)⟩

end Pairs

end CppDoc.Syntax
