import CppDoc.Syntax.Name

/-!
# Where tokens end

Scanners look at a text from its front, and where a token ends depends on what follows it.  `Follows`
says that a text `x` does not go on with what `a` ends in: there is a token boundary between them.
Then the gaps and identifiers in `a` are measured without regard to `x`.

Two things could make a scanner run over the boundary all the same, and `Plain` excludes them: a line
comment that does not end in `a`, and the keyword of operator names, behind which almost anything is
part of the name.
-/

namespace CppDoc.Syntax

open CppDoc.Text

/-! ## Boundaries -/

/-- May a name or a type that has been read go on with `c`, or a gap begin with it? -/
def goesOn (c : Char) : Bool :=
  isBlank c || c == '/' || c == ':' || c == '<' || c == '>' || c == '&' || c == '*' || c == '~'

/-- There is a token boundary between `a` and `x`. -/
structure Follows (a x : List Char) : Prop where
  fresh : x.head?.any goesOn = false
  apart : x.head?.any isNameChar = true → a.getLast?.any isNameChar = false

/-- The end of `a` is that of each text that `a` ends in. -/
theorem Follows.drop {a x : List Char} (h : Follows a x) (n : Nat) : Follows (a.drop n) x where
  fresh := h.fresh
  apart := by
    intro hx
    have ha := h.apart hx
    rw [List.getLast?_drop]
    split
    · rfl
    · exact ha

/-- A boundary is no part of a gap. -/
theorem Follows.gap_eq {a x : List Char} (h : Follows a x) : gap x = 0 := by
  cases x with
  | nil => rfl
  | cons c rest =>
      have hc : goesOn c = false := h.fresh
      simp only [goesOn, Bool.or_eq_false_iff, beq_eq_false_iff_ne] at hc
      simp [gap, gapFrom, hc]

/-! ## Plain texts -/

/-- No identifier in `s` begins with `w`: a part of another identifier stands before `w` wherever it
occurs. -/
def Avoids (w s : List Char) : Prop :=
  ∀ u v, s = u ++ w ++ v → u.getLast?.any isNameChar = true

/-- Every line comment in `s` ends in `s`. -/
def ClosesComments (s : List Char) : Prop :=
  ∀ u v, s = u ++ '/' :: '/' :: v → '\n' ∈ v

/-- A text without operator names and open comments. -/
structure Plain (s : List Char) : Prop where
  operators : Avoids operatorKeyword s
  comments : ClosesComments s

/-- Without an `o` there is no operator name, and without a slash no comment. -/
theorem Plain.of_not_mem {s : List Char} (ho : 'o' ∉ s) (hslash : '/' ∉ s) : Plain s where
  operators := by
    rintro u v rfl
    exact absurd (List.mem_append_left v (List.mem_append_right u (by decide))) ho
  comments := by
    rintro u v rfl
    exact absurd (List.mem_append_right u List.mem_cons_self) hslash

theorem Avoids.not_begins {w s : List Char} (h : Avoids w s) : ¬ w <+: s := by
  rintro ⟨v, rfl⟩
  exact nomatch h [] v rfl

/-- Behind anything but a letter, a digit or an underscore, `w` does not stand. -/
theorem Avoids.not_prefix_drop {w s : List Char} {n : Nat} (h : Avoids w s)
    (hprev : (s.take n).getLast?.any isNameChar = false) : ¬ w <+: s.drop n := by
  rintro ⟨v, hv⟩
  have hsplit : s = s.take n ++ w ++ v := by rw [List.append_assoc, hv, List.take_append_drop]
  have hname := h (s.take n) v hsplit
  rw [hprev] at hname
  exact nomatch hname

theorem Avoids.drop {w s : List Char} {n : Nat} (h : Avoids w s) (hstart : ¬ w <+: s.drop n) :
    Avoids w (s.drop n) := by
  intro u v huv
  cases u with
  | nil => exact absurd ⟨v, huv.symm⟩ hstart
  | cons c u =>
      have hsplit : s = (s.take n ++ c :: u) ++ w ++ v := by
        rw [List.append_assoc, List.append_assoc, ← List.append_assoc (c :: u), ← huv,
          List.take_append_drop]
      have hlast := h _ v hsplit
      rwa [List.getLast?_append, List.getLast?_cons, Option.some_or, ← List.getLast?_cons] at hlast

theorem ClosesComments.drop {s : List Char} (h : ClosesComments s) (n : Nat) :
    ClosesComments (s.drop n) := by
  intro u v huv
  apply h (s.take n ++ u) v
  rw [List.append_assoc, ← huv, List.take_append_drop]

theorem Plain.drop {s : List Char} {n : Nat} (h : Plain s)
    (hstart : ¬ operatorKeyword <+: s.drop n) : Plain (s.drop n) :=
  ⟨h.operators.drop hstart, h.comments.drop n⟩

/-- A plain text stays plain behind punctuation. -/
theorem Plain.behind {s b : List Char} {n : Nat} {c : Char} (h : Plain s)
    (hb : s.drop n = c :: b) (hc : isNameChar c = false) : Plain b := by
  have hdrop : s.drop (n + 1) = b := by rw [← List.drop_drop, hb, List.drop_one, List.tail_cons]
  have hlast : (s.take (n + 1)).getLast? = some c := by
    have hlt : n < s.length := by
      have := congrArg List.length hb
      simp only [List.length_drop, List.length_cons] at this
      omega
    have hget : s[n] = c := by
      have := List.drop_eq_getElem_cons hlt
      exact (List.cons.inj (this.symm.trans hb)).1
    rw [List.take_succ_eq_append_getElem hlt, List.getLast?_append, hget]
    rfl
  rw [← hdrop]
  apply h.drop
  apply h.operators.not_prefix_drop
  rw [hlast]
  exact hc

/-- Punctuation behind a plain text leaves it plain. -/
theorem Plain.concat {s : List Char} (h : Plain s) {c : Char} (hname : isNameChar c = false)
    (hslash : c ≠ '/') : Plain (s ++ [c]) where
  operators := by
    intro u v huv
    rcases List.eq_nil_or_concat v with rfl | ⟨v, d, rfl⟩
    · -- The keyword would end in `c`.
      have hlast := congrArg List.getLast? huv
      have hkeyword : operatorKeyword.getLast? = some 'r' := by decide
      rw [List.append_nil, List.getLast?_append, List.getLast?_append, hkeyword] at hlast
      obtain rfl : c = 'r' := by simpa using hlast
      exact nomatch hname
    · rw [List.concat_eq_append, ← List.append_assoc] at huv
      exact h.operators u v (List.append_inj' huv rfl).1
  comments := by
    intro u v huv
    rcases List.eq_nil_or_concat v with rfl | ⟨v, d, rfl⟩
    · have hlast := congrArg List.getLast? huv
      rw [List.getLast?_append, List.getLast?_append] at hlast
      exact absurd (by simpa using hlast) hslash
    · have huv' : s ++ [c] = (u ++ '/' :: '/' :: v) ++ [d] := by rw [huv]; simp
      have hmem := h.comments u v (List.append_inj' huv' rfl).1
      rw [List.concat_eq_append]
      exact List.mem_append_left [d] hmem

/-! ## Gaps -/

private theorem gapFrom_append {a x : List Char} (inComment : Bool)
    (hopen : inComment = true → '\n' ∈ a) (ha : ClosesComments a) (hgap : gap x = 0)
    (hnoSlash : x.head? ≠ some '/') :
    gapFrom inComment (a ++ x) = gapFrom inComment a := by
  induction a generalizing inComment with
  | nil =>
      cases inComment with
      | true => exact absurd (hopen rfl) List.not_mem_nil
      | false => exact hgap
  | cons c rest ih =>
      have hrest : ClosesComments rest := ha.drop 1
      cases inComment with
      | true =>
          have hnext : (c != '\n') = true → '\n' ∈ rest := by
            intro hc
            have hmem := hopen rfl
            simp only [List.mem_cons] at hmem
            rcases hmem with rfl | hmem
            · simp at hc
            · exact hmem
          simp [gapFrom, ih _ hnext hrest]
      | false =>
          have hclosed : c = '/' → rest.head? = some '/' → '\n' ∈ rest := by
            rintro rfl hslash
            obtain ⟨tail, rfl⟩ := List.head?_eq_some_iff.mp hslash
            exact List.mem_cons_of_mem _ (ha [] tail rfl)
          have hhead : c = '/' → (rest ++ x).head? = some '/' → rest.head? = some '/' := by
            intro _ hslash
            cases rest with
            | nil => exact absurd hslash hnoSlash
            | cons => simpa using hslash
          simp only [List.cons_append, gapFrom, Bool.false_eq_true, if_false]
          split
          · rw [ih false (fun h => absurd h Bool.false_ne_true) hrest]
          · split
            · rename_i hcomment
              simp only [Bool.and_eq_true, decide_eq_true_eq, beq_iff_eq] at hcomment
              have hslash := hhead hcomment.1 hcomment.2
              rw [ih true (fun _ => hclosed hcomment.1 hslash) hrest]
              simp [hcomment.1, hslash]
            · rename_i hcomment
              have hno : ¬ (c = '/' ∧ rest.head? = some '/') := by
                rintro ⟨hc, hslash⟩
                obtain ⟨tail, rfl⟩ := List.head?_eq_some_iff.mp hslash
                simp [hc] at hcomment
              simp [hno]

/-- The gap at the head of `a` ends in `a`, if neither a blank nor a slash follows. -/
theorem gap_append_of_gap {a x : List Char} (ha : ClosesComments a) (hgap : gap x = 0)
    (hnoSlash : x.head? ≠ some '/') : gap (a ++ x) = gap a :=
  gapFrom_append false (fun h => absurd h Bool.false_ne_true) ha hgap hnoSlash

/-- The gap at the head of `a` ends in `a`. -/
theorem gap_append {a x : List Char} (ha : ClosesComments a) (hx : Follows a x) :
    gap (a ++ x) = gap a := by
  refine gap_append_of_gap ha hx.gap_eq fun hslash => ?_
  have hfresh := hx.fresh
  rw [hslash] at hfresh
  exact nomatch hfresh

/-- A comment that is not over has a character more. -/
private theorem take_gapFrom_ne_nil {s : List Char} (hs : '\n' ∈ s) :
    s.take (gapFrom true s) ≠ [] := by
  cases s with
  | nil => exact absurd hs List.not_mem_nil
  | cons c rest => simp [gapFrom]

/-- A gap ends in a blank. -/
private theorem isBlank_of_getLast?_gapFrom {s : List Char} (inComment : Bool)
    (hopen : inComment = true → '\n' ∈ s) (hs : ClosesComments s) {d : Char}
    (hlast : (s.take (gapFrom inComment s)).getLast? = some d) : isBlank d = true := by
  induction s generalizing inComment with
  | nil => simp at hlast
  | cons c rest ih =>
      have hrest : ClosesComments rest := hs.drop 1
      have hstep (b : Bool) (hb : b = true → '\n' ∈ rest) (hc : b = false → isBlank c = true)
          (hlast : (c :: rest.take (gapFrom b rest)).getLast? = some d) : isBlank d = true := by
        rw [List.getLast?_cons] at hlast
        cases htail : (rest.take (gapFrom b rest)).getLast? with
        | some e =>
            obtain rfl : e = d := by simpa [htail] using hlast
            exact ih b hb hrest htail
        | none =>
            obtain rfl : c = d := by simpa [htail] using hlast
            cases b with
            | false => exact hc rfl
            | true =>
                have hnil := List.getLast?_eq_none_iff.mp htail
                exact absurd hnil (take_gapFrom_ne_nil (hb rfl))
      cases inComment with
      | true =>
          have hmem := hopen rfl
          simp only [List.mem_cons] at hmem
          refine hstep (c != '\n') (fun hc => ?_) (fun hc => ?_) (by simpa [gapFrom] using hlast)
          · rcases hmem with rfl | hmem
            · simp at hc
            · exact hmem
          · obtain rfl : c = '\n' := by simpa using hc
            rfl
      | false =>
          simp only [gapFrom, Bool.false_eq_true, if_false] at hlast
          split at hlast
          · rename_i hblank
            exact hstep false (fun h => absurd h Bool.false_ne_true) (fun _ => hblank)
              (by simpa using hlast)
          · split at hlast
            · rename_i hcomment
              simp only [Bool.and_eq_true, decide_eq_true_eq, beq_iff_eq] at hcomment
              obtain ⟨rfl, hslash⟩ := hcomment
              obtain ⟨tail, rfl⟩ := List.head?_eq_some_iff.mp hslash
              refine hstep true (fun _ => ?_) (fun h => absurd h.symm Bool.false_ne_true)
                (by simpa using hlast)
              exact List.mem_cons_of_mem _ (hs [] tail rfl)
            · simp at hlast

/-- No identifier goes on behind a gap. -/
theorem getLast?_take_gap {s : List Char} (hs : ClosesComments s) :
    (s.take (gap s)).getLast?.any isNameChar = false := by
  cases hlast : (s.take (gap s)).getLast? with
  | none => rfl
  | some d =>
      have hblank := isBlank_of_getLast?_gapFrom false (fun h => absurd h Bool.false_ne_true) hs hlast
      simp only [isBlank, Bool.or_eq_true, beq_iff_eq] at hblank
      rcases hblank with ((rfl | rfl) | rfl) | rfl <;> rfl

/-- What begins neither with a blank nor with a comment has no gap in front. -/
theorem gap_cons_eq_zero_iff {c : Char} {s : List Char} :
    gap (c :: s) = 0 ↔ isBlank c = false ∧ (c = '/' → s.head? ≠ some '/') := by
  unfold gap
  rw [gapFrom, if_neg Bool.false_ne_true]
  by_cases hblank : isBlank c = true
  · simp [hblank]
  · rw [if_neg hblank]
    by_cases hcomment : c = '/' ∧ s.head? = some '/'
    · simp [hcomment]
    · have hno : c = '/' → s.head? ≠ some '/' := not_and.mp hcomment
      simp [hblank, hcomment]
      exact hno

/-- Punctuation that begins no comment begins no gap. -/
theorem gap_punctuation {c : Char} (hc : isBlank c = false ∧ c ≠ '/') (s : List Char) :
    gap (c :: s) = 0 :=
  gap_cons_eq_zero_iff.mpr ⟨hc.1, fun hslash => absurd hslash hc.2⟩

theorem gap_parenthesis (s : List Char) : gap ('(' :: s) = 0 :=
  gap_punctuation (by decide) s

/-- Blanks are part of a gap. -/
theorem gap_blanks_append {a : List Char} (ha : a.all isBlank = true) (x : List Char) :
    gap (a ++ x) = a.length + gap x := by
  induction a with
  | nil => simp
  | cons c rest ih =>
      simp only [List.all_cons, Bool.and_eq_true] at ha
      have hrest := ih ha.2
      unfold gap at hrest ⊢
      simp only [List.cons_append, gapFrom, ha.1, hrest, List.length_cons]
      simp only [Bool.false_eq_true, if_false, if_true]
      omega

/-! ## Identifiers and keywords -/

/-- A run of characters ends at a boundary of runs. -/
theorem takeWhile_append_of_boundary {p : Char → Bool} {a x : List Char}
    (h : a.all p = true → x.head?.any p = false) :
    (a ++ x).takeWhile p = a.takeWhile p := by
  induction a with
  | nil =>
      cases x with
      | nil => rfl
      | cons c rest =>
          have hc : p c = false := h rfl
          simp [hc]
  | cons c rest ih =>
      by_cases hc : p c = true
      · simp only [List.cons_append, List.takeWhile_cons, hc, if_true]
        rw [ih fun hrest => h (by simp [hc, hrest])]
      · simp [hc]

theorem drop_length_takeWhile (p : Char → Bool) (v : List Char) :
    v.drop (v.takeWhile p).length = v.dropWhile p := by
  have hcut : (v.takeWhile p ++ v.dropWhile p).drop (v.takeWhile p).length = v.dropWhile p :=
    List.drop_left
  rwa [List.takeWhile_append_dropWhile] at hcut

theorem takeWhile_eq_self {p : Char → Bool} {a : List Char} (h : a.all p = true) :
    a.takeWhile p = a := by
  induction a with
  | nil => rfl
  | cons c rest ih =>
      simp only [List.all_cons, Bool.and_eq_true] at h
      simp [h.1, ih h.2]

theorem length_takeWhile_lt {p : Char → Bool} {a : List Char} (h : a.all p = false) :
    (a.takeWhile p).length < a.length := by
  induction a with
  | nil => exact nomatch h
  | cons c rest ih =>
      by_cases hc : p c = true
      · have hrest : rest.all p = false := by simpa [hc] using h
        simpa [hc] using ih hrest
      · simp [hc]

/-- What is an identifier as a whole does not go on. -/
theorem Follows.not_nameChar {a x : List Char} (h : Follows a x) (hne : a ≠ [])
    (hall : a.all isNameChar = true) : x.head?.any isNameChar = false := by
  have hlast : a.getLast?.any isNameChar = true := by
    rw [List.getLast?_eq_some_getLast hne]
    exact List.all_eq_true.mp hall _ (List.getLast_mem hne)
  cases hx : x.head?.any isNameChar with
  | false => rfl
  | true => exact absurd (h.apart hx) (by simp [hlast])

theorem isNameChar_of_isNameStart {c : Char} (h : isNameStart c = true) : isNameChar c = true := by
  simp only [isNameStart, isNameChar, Char.isAlphanum, Bool.or_eq_true] at h ⊢
  rcases h with h | h
  · exact .inl (.inl h)
  · exact .inr h

theorem identifierLength_append {a x : List Char} (hne : a ≠ []) (hx : Follows a x) :
    identifierLength (a ++ x) = identifierLength a := by
  cases a with
  | nil => exact absurd rfl hne
  | cons c rest =>
      simp only [List.cons_append, identifierLength]
      by_cases hc : isNameStart c = true
      · have hrest : (rest ++ x).takeWhile isNameChar = rest.takeWhile isNameChar := by
          apply takeWhile_append_of_boundary
          intro hall
          apply hx.not_nameChar hne
          simp [isNameChar_of_isNameStart hc, hall]
        rw [hrest]
      · simp [hc]

/-- A keyword does not run over a boundary of words. -/
theorem not_prefix_append {w a x : List Char} (hw : w.all isNameChar = true) (ha : ¬ w <+: a)
    (hx : a.all isNameChar = true → x.head?.any isNameChar = false) : ¬ w <+: a ++ x := by
  rintro ⟨v, hv⟩
  rcases List.append_eq_append_iff.mp hv with ⟨tail, rfl, -⟩ | ⟨tail, rfl, rfl⟩
  · exact ha ⟨tail, rfl⟩
  · rw [List.all_append, Bool.and_eq_true] at hw
    cases tail with
    | nil => exact ha (by simp)
    | cons c tail =>
        have hc : isNameChar c = true := by simpa using List.all_eq_true.mp hw.2 c (by simp)
        have hno : isNameChar c = false := hx hw.1
        rw [hc] at hno
        exact nomatch hno

/-! ## Modifiers -/

private theorem isBlank_eq_false_of_fresh {c : Char} (h : goesOn c = false) :
    isBlank c = false := by
  simp only [goesOn, Bool.or_eq_false_iff] at h
  exact h.1.1.1.1.1.1.1

theorem isNameChar_of_isLower {c : Char} (h : c.isLower = true) : isNameChar c = true := by
  unfold isNameChar Char.isAlphanum Char.isAlpha
  simp [h]

theorem isAlphanum_of_isUpper {c : Char} (h : c.isUpper = true) : c.isAlphanum = true := by
  unfold Char.isAlphanum Char.isAlpha
  rw [h, Bool.true_or, Bool.true_or]

theorem isNameChar_of_isAlphanum {c : Char} (h : c.isAlphanum = true) : isNameChar c = true := by
  simp [isNameChar, h]

/-- The blanks before a modifier end at a boundary. -/
private theorem takeWhile_isBlank_append {a x : List Char} (hx : Follows a x) :
    (a ++ x).takeWhile isBlank = a.takeWhile isBlank := by
  apply takeWhile_append_of_boundary
  intro _
  cases x with
  | nil => rfl
  | cons c rest => exact isBlank_eq_false_of_fresh hx.fresh

theorem modifierLength_append {a x : List Char} (hblank : a.all isBlank = false)
    (hx : Follows a x) : modifierLength (a ++ x) = modifierLength a := by
  have hlen := length_takeWhile_lt hblank
  have hword : ((a ++ x).drop (a.takeWhile isBlank).length).takeWhile Char.isLower =
      (a.drop (a.takeWhile isBlank).length).takeWhile Char.isLower := by
    rw [List.drop_append_of_le_length (Nat.le_of_lt hlen)]
    apply takeWhile_append_of_boundary
    intro hall
    have hne : a.drop (a.takeWhile isBlank).length ≠ [] := by
      intro hnil
      have := List.drop_eq_nil_iff.mp hnil
      omega
    have hno := (hx.drop (a.takeWhile isBlank).length).not_nameChar hne
      (List.all_eq_true.mpr fun c hc => isNameChar_of_isLower (List.all_eq_true.mp hall c hc))
    cases x with
    | nil => rfl
    | cons c rest =>
        cases hc : c.isLower with
        | false => exact hc
        | true =>
            have hname : isNameChar c = false := hno
            rw [isNameChar_of_isLower hc] at hname
            exact nomatch hname
  simp only [modifierLength, takeWhile_isBlank_append hx, hword]

/-- Among blanks there is no modifier. -/
theorem modifierLength_of_all_isBlank {a : List Char} (h : a.all isBlank = true) :
    modifierLength a = 0 := by
  simp only [modifierLength, takeWhile_eq_self h, List.drop_length, List.takeWhile_nil]
  rfl

/-- A modifier that is found behind blanks reaches over them. -/
theorem lt_modifierLength_append {a x : List Char} (h : a.all isBlank = true) (hx : Follows a x)
    (hpos : modifierLength (a ++ x) ≠ 0) : a.length < modifierLength (a ++ x) := by
  simp only [modifierLength, takeWhile_isBlank_append hx, takeWhile_eq_self h] at hpos ⊢
  split at hpos
  · rename_i hword
    rw [if_pos hword]
    cases hw : (List.drop a.length (a ++ x)).takeWhile Char.isLower with
    | nil => exact absurd (hw ▸ hword) (by decide)
    | cons c rest => simp
  · exact absurd rfl hpos

/-- A modifier is part of the text. -/
theorem modifierLength_le (s : List Char) : modifierLength s ≤ s.length := by
  have hblanks := (List.takeWhile_sublist (l := s) isBlank).length_le
  have hword := (List.takeWhile_sublist
    (l := s.drop (s.takeWhile isBlank).length) Char.isLower).length_le
  rw [List.length_drop] at hword
  simp only [modifierLength]
  split <;> omega

theorem modifiersLength_eq (s : List Char) :
    modifiersLength s =
      if modifierLength s = 0 then 0
      else modifierLength s + modifiersLength (s.drop (modifierLength s)) := by
  cases s with
  | nil => rw [modifiersLength]; rfl
  | cons c rest =>
      rw [modifiersLength]
      split
      · rfl
      · rename_i hne
        obtain ⟨n, hn⟩ := Nat.exists_eq_succ_of_ne_zero hne
        simp [hn]

/-- The modifiers that `a` begins with end before `x`, unless only blanks are left of `a` behind
them and they go on in `x`. -/
theorem modifiersLength_append {a x : List Char} (hx : Follows a x) :
    modifiersLength (a ++ x) = modifiersLength a ∨
      (a.length < modifiersLength (a ++ x) ∧ (a.drop (modifiersLength a)).all isBlank = true) := by
  induction hlen : a.length using Nat.strongRecOn generalizing a with
  | ind n ih =>
      rw [modifiersLength_eq (a ++ x), modifiersLength_eq a]
      by_cases hblank : a.all isBlank = true
      · rw [modifierLength_of_all_isBlank hblank]
        by_cases hmod : modifierLength (a ++ x) = 0
        · simp [hmod]
        · have := lt_modifierLength_append hblank hx hmod
          rw [if_neg hmod]
          refine .inr ⟨by omega, ?_⟩
          simpa using hblank
      · rw [modifierLength_append (by simpa using hblank) hx]
        by_cases hmod : modifierLength a = 0
        · simp [hmod]
        · have hle := modifierLength_le a
          rw [if_neg hmod, if_neg hmod, List.drop_append_of_le_length hle]
          have hshort : (a.drop (modifierLength a)).length < n := by
            rw [List.length_drop]
            omega
          rcases ih _ hshort (hx.drop _) rfl with heq | ⟨hlt, hrest⟩
          · exact .inl (by rw [heq])
          · rw [List.length_drop] at hlt
            rw [List.drop_drop] at hrest
            exact .inr ⟨by omega, hrest⟩

/-- The modifiers are part of the text. -/
theorem modifiersLength_le (s : List Char) : modifiersLength s ≤ s.length := by
  induction hlen : s.length using Nat.strongRecOn generalizing s with
  | ind n ih =>
      have hle := modifierLength_le s
      rw [modifiersLength_eq]
      split
      · omega
      · have hrest := ih (s.drop (modifierLength s)).length (by rw [List.length_drop]; omega) _ rfl
        rw [List.length_drop] at hrest
        omega

/-- Behind a run of small letters there is none. -/
private theorem not_prefix_drop_word (s : List Char) :
    ¬ operatorKeyword <+: s.drop (s.takeWhile Char.isLower).length := by
  induction s with
  | nil => rintro ⟨v, hv⟩; exact nomatch hv
  | cons c rest ih =>
      by_cases hc : c.isLower = true
      · simpa [hc] using ih
      · rintro ⟨v, hv⟩
        simp only [List.takeWhile_cons, hc] at hv
        obtain rfl : 'o' = c := (List.cons.inj hv).1
        exact hc (by decide)

/-- No operator name begins right behind a modifier. -/
theorem not_prefix_drop_modifiers {s : List Char} (hs : Avoids operatorKeyword s) :
    ¬ operatorKeyword <+: s.drop (modifiersLength s) := by
  induction hlen : s.length using Nat.strongRecOn generalizing s with
  | ind n ih =>
      have hle := modifierLength_le s
      rw [modifiersLength_eq]
      split
      · exact hs.not_begins
      · rename_i hne
        have hword : ¬ operatorKeyword <+: s.drop (modifierLength s) := by
          simp only [modifierLength] at hne ⊢
          split at hne
          · rename_i hmod
            simp only [hmod, if_true]
            rw [← List.drop_drop]
            exact not_prefix_drop_word _
          · exact absurd rfl hne
        rw [← List.drop_drop]
        exact ih _ (by rw [List.length_drop]; omega) (hs.drop hword) rfl

end CppDoc.Syntax
