import CppDoc.Proofs.Syntax.Lookahead
import CppDoc.Proofs.Syntax.Parameters
import CppDoc.Syntax.Word

/-!
# Scanners before the end of a comment

The scanners know nothing of the comment that they work in: to them its end is a star and a slash like
any other.  Whether they run over it can be told from the comment alone, apart from line comments and
operator names, which may find what they look for behind the end.  `ClosedOff` excludes those two.

* `held_simpleName`, `held_scopeChain`, `held_qualifiedName`: no name runs over the end;
* `steady_typeLength`: a type that ends in the comment does so whatever stands behind it;
* `steady_readParameters`: a parameter list likewise.
-/

namespace CppDoc.Syntax

open CppDoc.Text

/-- The end of a comment, and the text behind it. -/
abbrev ending (x : List Char) : List Char :=
  '*' :: '/' :: x

/-! ## Pieces of names -/

section Pieces

variable {v : List Char} (x : List Char)

theorem drop_ending {n : Nat} (hn : n ≤ v.length) : (v ++ ending x).drop n = v.drop n ++ ending x :=
  List.drop_append_of_le_length hn

theorem gap_ending (hv : ClosesComments v) : gap (v ++ ending x) = gap v :=
  gap_append_of_gap hv rfl (by simp)

theorem takeWhile_ending {p : Char → Bool} (hp : p '*' = false) :
    (v ++ ending x).takeWhile p = v.takeWhile p :=
  takeWhile_append_of_boundary fun _ => hp

theorem identifierLength_ending : identifierLength (v ++ ending x) = identifierLength v := by
  cases v with
  | nil => rfl
  | cons c rest =>
      simp only [List.cons_append, identifierLength, takeWhile_ending x (p := isNameChar) rfl]

theorem modifierLength_ending : modifierLength (v ++ ending x) = modifierLength v := by
  have hle : (v.takeWhile isBlank).length ≤ v.length := (List.takeWhile_sublist isBlank).length_le
  simp only [modifierLength, takeWhile_ending x (p := isBlank) rfl, drop_ending x hle,
    takeWhile_ending x (p := Char.isLower) rfl]

theorem modifiersLength_ending : modifiersLength (v ++ ending x) = modifiersLength v := by
  induction hlen : v.length using Nat.strongRecOn generalizing v with
  | ind n ih =>
      have hle := modifierLength_le v
      rw [modifiersLength_eq (v ++ ending x), modifiersLength_eq v, modifierLength_ending]
      split
      · rfl
      · rw [drop_ending x hle, ih _ (by rw [List.length_drop]; omega) rfl]

/-- A word without a star is not begun in the comment and ended by its end. -/
theorem prefix_ending_iff {w : List Char} (hw : '*' ∉ w) : w <+: v ++ ending x ↔ w <+: v := by
  refine ⟨fun h => ?_, fun h => h.trans (List.prefix_append _ _)⟩
  rcases List.prefix_or_prefix_of_prefix h (List.prefix_append v _) with hin | ⟨u, rfl⟩
  · exact hin
  · cases u with
    | nil => simp
    | cons c u =>
        obtain ⟨t, ht⟩ := (List.prefix_append_right_inj v).mp h
        obtain rfl : c = '*' := (List.cons.inj ht).1
        exact absurd (List.mem_append_right v List.mem_cons_self) hw

theorem isPrefixOf_ending {w : List Char} (hw : '*' ∉ w) :
    w.isPrefixOf (v ++ ending x) = w.isPrefixOf v := by
  rw [Bool.eq_iff_iff, List.isPrefixOf_iff_prefix, List.isPrefixOf_iff_prefix, prefix_ending_iff x hw]

theorem head?_ending : (v ++ ending x).head? = (v ++ ending []).head? := by
  cases v <;> rfl

/-- The symbol of an operator has two characters at most. -/
theorem symbolLength_ending : symbolLength (v ++ ending x) = symbolLength (v ++ ending []) := by
  match v with
  | [] => rfl
  | [c] => by_cases hc : c = '(' <;> simp [symbolLength, hc]
  | c :: d :: rest =>
      by_cases hc : c = '('
      · by_cases hd : d = ')' <;> simp [symbolLength, hc, hd]
      · simp [symbolLength, hc]

end Pieces

/-! ## Operator names -/

/-- The length of the symbol or the type behind the keyword of an operator name and the gap there. -/
def operatorPart (s : List Char) : Nat :=
  let name := s.drop (gap s)
  if symbolLength name = 0 then typeLength name else symbolLength name

theorem operatorTail_eq (s : List Char) :
    operatorTail s =
      if operatorPart s = 0 then 0
      else
        let l := gap s + operatorPart s
        let l := l + gap (s.drop l)
        if (s.drop l).head? = some '(' then l else 0 := by
  rw [operatorTail]
  simp only [operatorPart, beq_iff_eq]
  rfl

/-- Nothing in the comment reaches over its end in search of something else: line comments end in it,
and so do the symbols and types behind the keyword of operator names. -/
structure ClosedOff (v : List Char) : Prop where
  comments : ClosesComments v
  operators : ∀ u w, v = u ++ (operatorKeyword ++ w) →
    gap w + operatorPart (w ++ ending []) ≤ w.length

/-- Without line comments and operator names there is nothing that could reach over the end. -/
theorem ClosedOff.of_no_occurrence {v : List Char} (hcomment : ¬ ['/', '/'] <:+: v)
    (hoperator : ¬ operatorKeyword <:+: v) : ClosedOff v where
  comments := by
    rintro u w rfl
    exact absurd ⟨u, w, by simp⟩ hcomment
  operators := by
    rintro u w rfl
    exact absurd ⟨u, w, by simp⟩ hoperator

theorem ClosedOff.drop {v : List Char} (h : ClosedOff v) (n : Nat) : ClosedOff (v.drop n) where
  comments := h.comments.drop n
  operators := by
    intro u w huw
    apply h.operators (v.take n ++ u) w
    rw [List.append_assoc, ← huw, List.take_append_drop]

theorem ClosedOff.tail {v : List Char} (h : ClosedOff v) : ClosedOff v.tail :=
  List.drop_one ▸ h.drop 1

/-- The scanner stays in the comment, and measures the same whatever stands behind it. -/
def Held (f : List Char → Nat) (v : List Char) : Prop :=
  f (v ++ ending []) ≤ v.length ∧ ∀ x, f (v ++ ending x) = f (v ++ ending [])

/-- If the scanner stays in the comment, it measures the same whatever stands behind it. -/
def Steady (f : List Char → Nat) (v : List Char) : Prop :=
  f (v ++ ending []) ≤ v.length → ∀ x, f (v ++ ending x) = f (v ++ ending [])

section Names

variable {v : List Char}

/-- An operator name ends in the comment, where the symbol or the type does. -/
theorem held_operatorTail (hv : ClosesComments v)
    (hpart : gap v + operatorPart (v ++ ending []) ≤ v.length)
    (htype : Steady typeLength (v.drop (gap v))) : Held operatorTail v := by
  have hgap := gap_le v
  have hname (x : List Char) : (v ++ ending x).drop (gap (v ++ ending x)) =
      v.drop (gap v) ++ ending x := by
    rw [gap_ending x hv, drop_ending x hgap]
  have hsame (x : List Char) : operatorPart (v ++ ending x) = operatorPart (v ++ ending []) := by
    simp only [operatorPart, hname, symbolLength_ending x] at hpart ⊢
    split
    · rename_i hzero
      rw [if_pos hzero] at hpart
      exact htype (by rw [List.length_drop]; omega) x
    · rfl
  have hbehind (x : List Char) {l : Nat} (hl : l ≤ v.length) :
      gap ((v ++ ending x).drop l) = gap (v.drop l) := by
    rw [drop_ending x hl, gap_ending x (hv.drop l)]
  have hend := gap_le (v.drop (gap v + operatorPart (v ++ ending [])))
  rw [List.length_drop] at hend
  refine ⟨?_, fun x => ?_⟩
  · rw [operatorTail_eq]
    dsimp only
    rw [gap_ending [] hv, hbehind [] hpart]
    split
    · exact Nat.zero_le _
    · split
      · omega
      · exact Nat.zero_le _
  · rw [operatorTail_eq, operatorTail_eq]
    dsimp only
    rw [hsame x, gap_ending x hv, gap_ending [] hv, hbehind x hpart, hbehind [] hpart,
      drop_ending x (by omega), drop_ending [] (by omega), head?_ending x]

theorem symbolLength_le (s : List Char) : symbolLength s ≤ 2 := by
  unfold symbolLength
  split
  · exact Nat.le_refl 2
  · split
    · split <;> decide
    · decide
  · split <;> decide
  · decide

theorem identifierLength_le (s : List Char) : identifierLength s ≤ s.length := by
  cases s with
  | nil => exact Nat.le_refl 0
  | cons c rest =>
      have hrun := (List.takeWhile_sublist (l := rest) isNameChar).length_le
      simp only [identifierLength, List.length_cons]
      split <;> omega

/-- The length of an operator name. -/
def operatorLength (s : List Char) : Nat :=
  if operatorKeyword.isPrefixOf s then
    if operatorTail (s.drop operatorKeyword.length) = 0 then 0
    else operatorKeyword.length + operatorTail (s.drop operatorKeyword.length)
  else 0

theorem simpleName_eq_operatorLength (s : List Char) :
    simpleName s =
      let name := s.drop (gap s)
      let n := if operatorLength name = 0 then identifierLength name else operatorLength name
      if n = 0 then 0 else gap s + n := by
  rw [simpleName]
  simp only [operatorLength, dite_eq_ite]
  rfl

theorem scopeMember_eq (s : List Char) :
    scopeMember s =
      if operatorKeyword.isPrefixOf s then operatorLength s
      else if s.head? = some '~' then simpleName s.tail + 1
      else simpleName s := by
  simp only [scopeMember, operatorLength, beq_iff_eq]
  split <;> simp_all

theorem operatorTail_nil : operatorTail [] = 0 := by
  with_unfolding_all rfl

theorem operatorPart_nil : operatorPart [] = 0 := by
  with_unfolding_all rfl

theorem simpleName_nil : simpleName [] = 0 := by
  with_unfolding_all rfl

theorem scopeMember_nil : scopeMember [] = 0 := by
  with_unfolding_all rfl

theorem qualifiedName_nil : qualifiedName [] = 0 := by
  with_unfolding_all rfl

/-- Types in the part of a text behind an operator keyword. -/
def SteadyTypes (n : Nat) : Prop :=
  ∀ w : List Char, w.length < n → ClosedOff w → Steady typeLength w

theorem SteadyTypes.mono {m n : Nat} (h : SteadyTypes n) (hle : m ≤ n) : SteadyTypes m :=
  fun w hw => h w (Nat.lt_of_lt_of_le hw hle)

theorem held_operatorLength (hv : ClosedOff v) (htypes : SteadyTypes v.length) :
    Held operatorLength v := by
  have hprefix (x : List Char) := isPrefixOf_ending (v := v) x (w := operatorKeyword) (by decide)
  by_cases hkeyword : operatorKeyword.isPrefixOf v = true
  · obtain ⟨w, rfl⟩ := List.isPrefixOf_iff_prefix.mp hkeyword
    have hlen : (operatorKeyword ++ w).length = operatorKeyword.length + w.length := List.length_append
    have hpos : 0 < operatorKeyword.length := by decide
    have hw : ClosedOff w := by
      have hdrop := hv.drop operatorKeyword.length
      rwa [List.drop_left] at hdrop
    have hdrop (x : List Char) : (operatorKeyword ++ w ++ ending x).drop operatorKeyword.length =
        w ++ ending x := by
      rw [List.append_assoc, List.drop_left]
    obtain ⟨hle, hsame⟩ := held_operatorTail hw.comments (hv.operators [] w rfl)
      (htypes _ (by rw [List.length_drop]; omega) (hw.drop _))
    refine ⟨?_, fun x => ?_⟩
    · simp only [operatorLength, hprefix, hkeyword, if_true, hdrop]
      split <;> omega
    · simp only [operatorLength, hprefix, hkeyword, if_true, hdrop, hsame x]
  · refine ⟨?_, fun x => ?_⟩
    · simp [operatorLength, hprefix, hkeyword]
    · simp [operatorLength, hprefix, hkeyword]

theorem held_simpleName_of_types (hv : ClosedOff v) (htypes : SteadyTypes v.length) :
    Held simpleName v := by
  have hgap := gap_le v
  have hlen : (v.drop (gap v)).length = v.length - gap v := List.length_drop
  obtain ⟨hle, hsame⟩ := held_operatorLength (hv.drop (gap v)) (htypes.mono (by omega))
  have hidentifier := identifierLength_le (v.drop (gap v))
  have heq (x : List Char) : simpleName (v ++ ending x) =
      let n := if operatorLength (v.drop (gap v) ++ ending []) = 0 then identifierLength (v.drop (gap v))
        else operatorLength (v.drop (gap v) ++ ending [])
      if n = 0 then 0 else gap v + n := by
    simp only [simpleName_eq_operatorLength, gap_ending x hv.comments, drop_ending x hgap,
      identifierLength_ending, hsame x]
  refine ⟨?_, fun x => by rw [heq, heq]⟩
  rw [heq]
  generalize operatorLength (v.drop (gap v) ++ ending []) = n at hle
  split <;> dsimp only <;> split <;> omega

theorem held_scopeMember (hv : ClosedOff v) (htypes : SteadyTypes v.length) : Held scopeMember v := by
  have htailLength : v.tail.length ≤ v.length := by simp
  obtain ⟨hle, hsame⟩ := held_operatorLength hv htypes
  obtain ⟨hnamed, hname⟩ := held_simpleName_of_types hv htypes
  obtain ⟨htailed, htail⟩ := held_simpleName_of_types (hv.tail) (htypes.mono htailLength)
  have heq (x : List Char) : scopeMember (v ++ ending x) =
      if operatorKeyword.isPrefixOf v then operatorLength (v ++ ending [])
      else if v.head? = some '~' then simpleName (v.tail ++ ending []) + 1
      else simpleName (v ++ ending []) := by
    rw [scopeMember_eq, isPrefixOf_ending x (by decide), hsame x, hname x]
    cases v with
    | nil => rfl
    | cons c rest =>
        have htail := htail x
        simp only [List.tail_cons] at htail
        simp only [List.cons_append, List.head?_cons, List.tail_cons, htail]
        rfl
  refine ⟨?_, fun x => by rw [heq, heq]⟩
  rw [heq]
  split
  · exact hle
  · split
    · rename_i htilde
      obtain ⟨rest, rfl⟩ := List.head?_eq_some_iff.mp htilde
      exact Nat.succ_le_succ htailed
    · exact hnamed

theorem held_scopeChain_of_types (hv : ClosedOff v) (htypes : SteadyTypes v.length) :
    Held scopeChain v := by
  induction hlen : v.length using Nat.strongRecOn generalizing v with
  | ind n ih =>
      by_cases hscope : [':', ':'] <+: v
      · obtain ⟨b, rfl⟩ := hscope
        have hb : ClosedOff b := hv.drop 2
        have hblen : b.length + 2 = n := by simpa using hlen
        obtain ⟨hle, hsame⟩ := held_scopeMember hb (htypes.mono (by omega))
        obtain ⟨hrest, hmore⟩ := ih (b.drop (scopeMember (b ++ ending []))).length
          (by rw [List.length_drop]; omega) (hb.drop _)
          (htypes.mono (by rw [List.length_drop, hlen]; omega)) rfl
        rw [List.length_drop] at hrest
        have hchain (x : List Char) : scopeChain ([':', ':'] ++ b ++ ending x) =
            if scopeMember (b ++ ending x) = 0 then 0
            else scopeMember (b ++ ending x) + 2 +
              scopeChain ((b ++ ending x).drop (scopeMember (b ++ ending x))) :=
          scopeChain_cons _
        refine ⟨?_, fun x => ?_⟩
        · rw [hchain, drop_ending [] hle]
          split
          · exact Nat.zero_le _
          · simp only [List.cons_append, List.nil_append, List.length_cons]
            omega
        · rw [hchain, hchain, hsame x, drop_ending x hle, drop_ending [] hle, hmore x]
      · have hno (x : List Char) : scopeChain (v ++ ending x) = 0 :=
          scopeChain_eq_zero (by rwa [prefix_ending_iff x (by decide)])
        exact ⟨by rw [hno]; exact Nat.zero_le _, fun x => by rw [hno, hno]⟩

/-- The gap at the head of a name, with a `::` in it, ends in the comment. -/
theorem leadingScope_ending (hv : ClosesComments v) (x : List Char) :
    leadingScope (v ++ ending x) = leadingScope v ∧ leadingScope v ≤ v.length := by
  have hgap := gap_le v
  by_cases hscope : [':', ':'] <+: v.drop (gap v)
  · obtain ⟨b, hb'⟩ := hscope
    have hb : v.drop (gap v) = ':' :: ':' :: b := hb'.symm
    have hlen := congrArg List.length hb
    simp only [List.length_cons, List.length_drop] at hlen
    have hclosed : ClosesComments b := by
      have hdrop := hv.drop (gap v + 2)
      rwa [← List.drop_drop, hb] at hdrop
    have hdrop : (v ++ ending x).drop (gap (v ++ ending x)) = ':' :: ':' :: (b ++ ending x) := by
      rw [gap_ending x hv, drop_ending x hgap, hb]
      rfl
    rw [leadingScope_of_scope hdrop, leadingScope_of_scope hb, gap_ending x hv,
      gap_ending x hclosed]
    have hinner := gap_le b
    exact ⟨rfl, by omega⟩
  · have hno : ¬ [':', ':'] <+: (v ++ ending x).drop (gap (v ++ ending x)) := by
      rwa [gap_ending x hv, drop_ending x hgap, prefix_ending_iff x (by decide)]
    rw [leadingScope_of_not_scope hno, leadingScope_of_not_scope hscope, gap_ending x hv]
    exact ⟨rfl, hgap⟩

/-- A template argument ends in the comment, if names do. -/
theorem held_templateEnd {l : Nat} (hl : l ≤ v.length) (hv : ClosedOff v)
    (ih : ∀ w : List Char, w.length < v.length → ClosedOff w → Held qualifiedName w) :
    Held (templateEnd · l) v := by
  have hdrop (x : List Char) := drop_ending x hl
  by_cases hopen : (v.drop l).head? = some '<'
  · obtain ⟨b, hb⟩ := List.head?_eq_some_iff.mp hopen
    have hlen := congrArg List.length hb
    simp only [List.length_drop, List.length_cons] at hlen
    have hclosed : ClosedOff b := by
      have hbehind := (hv.drop l).tail
      rwa [hb] at hbehind
    obtain ⟨hle, hsame⟩ := ih b (by omega) hclosed
    have heq (x : List Char) : templateEnd (v ++ ending x) l =
        if 0 < qualifiedName (b ++ ending []) &&
            ((b.drop (qualifiedName (b ++ ending [])) ++ ending []).head? == some '>') then
          l + qualifiedName (b ++ ending []) + 2
        else l := by
      rw [templateEnd_append hb, hsame x, drop_ending x hle, head?_ending x]
    refine ⟨?_, fun x => by dsimp only; rw [heq, heq]⟩
    dsimp only
    rw [heq]
    split
    · rename_i hclose
      simp only [Bool.and_eq_true, decide_eq_true_eq, beq_iff_eq] at hclose
      -- The `>` stands in the comment, since its end begins with a star.
      have hlt : qualifiedName (b ++ ending []) < b.length := by
        rcases Nat.lt_or_eq_of_le hle with hlt | heq
        · exact hlt
        · rw [heq, List.drop_length] at hclose
          exact absurd hclose.2 (by simp)
      omega
    · exact hl
  · have heq (x : List Char) : templateEnd (v ++ ending x) l = l := by
      rw [templateEnd, if_neg]
      rw [hdrop x]
      cases hrest : v.drop l with
      | nil => simp
      | cons c rest => simpa [hrest] using hopen
    exact ⟨by dsimp only; rw [heq]; exact hl, fun x => by dsimp only; rw [heq, heq]⟩

theorem held_qualifiedName_of_types (hv : ClosedOff v) (htypes : SteadyTypes v.length)
    (ih : ∀ w : List Char, w.length < v.length → ClosedOff w → Held qualifiedName w) :
    Held qualifiedName v := by
  obtain ⟨hlead, hk⟩ := leadingScope_ending hv.comments []
  have hleads (x : List Char) := (leadingScope_ending hv.comments x).1
  have hklen : (v.drop (leadingScope v)).length = v.length - leadingScope v := List.length_drop
  obtain ⟨hn, hname⟩ := held_simpleName_of_types (hv.drop (leadingScope v)) (htypes.mono (by omega))
  generalize hsize : simpleName (v.drop (leadingScope v) ++ ending []) = n at hn hname
  have hl : leadingScope v + n ≤ v.length := by omega
  have hgap := gap_le (v.drop (leadingScope v + n))
  rw [List.length_drop] at hgap
  have hbehind (x : List Char) :
      gap ((v ++ ending x).drop (leadingScope v + n)) = gap (v.drop (leadingScope v + n)) := by
    rw [drop_ending x hl, gap_ending x (hv.comments.drop _)]
  generalize hstart : leadingScope v + n + gap (v.drop (leadingScope v + n)) = l at *
  have hllen : (v.drop l).length = v.length - l := List.length_drop
  obtain ⟨hm, hchain⟩ := held_scopeChain_of_types (hv.drop l) (htypes.mono (by omega))
  generalize scopeChain (v.drop l ++ ending []) = m at hm hchain
  have hclose := gap_le (v.drop (l + m))
  rw [List.length_drop] at hclose
  obtain ⟨hend, hends⟩ := held_templateEnd (v := v) (l := l + m + gap (v.drop (l + m))) (by omega) hv ih
  have heq (x : List Char) : qualifiedName (v ++ ending x) =
      if n = 0 then 0 else templateEnd (v ++ ending []) (l + m + gap (v.drop (l + m))) := by
    rw [qualifiedName_eq]
    dsimp only
    rw [hleads x, drop_ending x hk, hname x, hbehind x, hstart, drop_ending x (by omega), hchain x,
      nameEnd, drop_ending x (by omega), gap_ending x (hv.comments.drop _)]
    split
    · rfl
    · exact hends x
  refine ⟨?_, fun x => by rw [heq, heq]⟩
  rw [heq]
  split
  · exact Nat.zero_le _
  · exact hend

/-- A `&` or a `*` that is not the star of the end. -/
theorem steady_indirectionLength (hv : ClosesComments v) : Steady indirectionLength v := by
  intro hle x
  cases v with
  | nil => exact absurd hle (by simp [indirectionLength])
  | cons c rest =>
      have hgap (y : List Char) : gap (rest ++ ending y) = gap rest := gap_ending y (hv.drop 1)
      by_cases hreference : c = '&'
      · simp [indirectionLength, hreference, hgap]
      · by_cases hpointer : c = '*'
        · simp [indirectionLength, hpointer, hgap]
        · simp [indirectionLength, hreference, hpointer]

theorem steady_typeEnd {l : Nat} (hl : l ≤ v.length) (hv : ClosedOff v) (htypes : SteadyTypes v.length) :
    Steady (typeEnd · l) v := by
  intro hle x
  dsimp only at hle ⊢
  have hmark {l : Nat} (hl : l ≤ v.length)
      (hle : l + indirectionLength (v.drop l ++ ending []) ≤ v.length) :
      indirectionLength (v.drop l ++ ending x) = indirectionLength (v.drop l ++ ending []) :=
    steady_indirectionLength (hv.comments.drop l) (by rw [List.length_drop]; omega) x
  by_cases hscope : [':', ':'] <+: v.drop l
  · obtain ⟨b, hb'⟩ := hscope
    have hb : v.drop l = ':' :: ':' :: b := hb'.symm
    have hlen := congrArg List.length hb
    simp only [List.length_drop, List.length_cons] at hlen
    have hclosed : ClosedOff b := by
      have hdrop := hv.drop (l + 2)
      rwa [← List.drop_drop, hb] at hdrop
    have hdrop (y : List Char) : (v ++ ending y).drop l = ':' :: ':' :: (b ++ ending y) := by
      rw [drop_ending y hl, hb]
      rfl
    obtain ⟨hn, hname⟩ := held_simpleName_of_types hclosed (htypes.mono (by omega))
    rw [typeEnd_of_scope (hdrop [])] at hle ⊢
    rw [typeEnd_of_scope (hdrop x), hname x]
    generalize simpleName (b ++ ending []) = n at *
    have hend : l + 2 + n ≤ v.length := by omega
    have hgap := gap_le (v.drop (l + 2 + n))
    rw [List.length_drop] at hgap
    have hl' : l + 2 + n + gap (v.drop (l + 2 + n)) ≤ v.length := by omega
    simp only [drop_ending _ hend, gap_ending _ (hv.comments.drop _), drop_ending _ hl'] at hle ⊢
    split
    · rfl
    · rename_i hzero
      rw [if_neg hzero] at hle
      rw [hmark hl' hle]
  · have hno (y : List Char) : ¬ [':', ':'] <+: (v ++ ending y).drop l := by
      rwa [drop_ending y hl, prefix_ending_iff y (by decide)]
    rw [typeEnd_of_not_scope (hno []), drop_ending [] hl] at hle ⊢
    rw [typeEnd_of_not_scope (hno x), drop_ending x hl, hmark hl hle]

/-- A type that does not take the star of the end ends in the comment, whatever stands behind it. -/
theorem steady_typeLength_of_names (hv : ClosedOff v) (htypes : SteadyTypes v.length)
    (ih : ∀ w : List Char, w.length ≤ v.length → ClosedOff w → Held qualifiedName w) :
    Steady typeLength v := by
  intro hle x
  have hk := modifiersLength_le v
  have hklen : (v.drop (modifiersLength v)).length = v.length - modifiersLength v := List.length_drop
  obtain ⟨hn, hname⟩ := ih (v.drop (modifiersLength v)) (by omega) (hv.drop _)
  have hl : modifiersLength v + qualifiedName (v.drop (modifiersLength v) ++ ending []) ≤ v.length := by
    omega
  have hgap := gap_le (v.drop
    (modifiersLength v + qualifiedName (v.drop (modifiersLength v) ++ ending [])))
  rw [List.length_drop] at hgap
  have heq (y : List Char) : typeLength (v ++ ending y) =
      let l := modifiersLength v + qualifiedName (v.drop (modifiersLength v) ++ ending [])
      if qualifiedName (v.drop (modifiersLength v) ++ ending []) = 0 then 0
      else typeEnd (v ++ ending y) (l + gap (v.drop l)) := by
    rw [typeLength_eq]
    simp only [modifiersLength_ending, drop_ending y hk, hname y, drop_ending y hl,
      gap_ending y (hv.comments.drop _)]
  rw [heq] at hle
  rw [heq, heq]
  dsimp only at hle ⊢
  split
  · rfl
  · rename_i hzero
    rw [if_neg hzero] at hle
    exact steady_typeEnd (by omega) hv htypes hle x

end Names

/-! ## The circle of names and types -/

/-- **Names and types.**  In a comment that is closed off, no name runs over the end, and neither does
a type that does not take the star of the end. -/
theorem held_names {v : List Char} (hv : ClosedOff v) :
    Held simpleName v ∧ Held qualifiedName v ∧ Steady typeLength v := by
  induction hlen : v.length using Nat.strongRecOn generalizing v with
  | ind n ih =>
      have htypes : SteadyTypes v.length := fun w hw hclosed =>
        (ih w.length (hlen ▸ hw) hclosed rfl).2.2
      have hshorter (w : List Char) (hw : w.length < v.length) (hclosed : ClosedOff w) :
          Held qualifiedName w := (ih w.length (hlen ▸ hw) hclosed rfl).2.1
      have hname : Held qualifiedName v := held_qualifiedName_of_types hv htypes hshorter
      refine ⟨held_simpleName_of_types hv htypes, hname, steady_typeLength_of_names hv htypes ?_⟩
      intro w hw hclosed
      rcases Nat.lt_or_eq_of_le hw with hlt | heq
      · exact hshorter w hlt hclosed
      · exact held_qualifiedName_of_types hclosed (heq ▸ htypes) (heq ▸ hshorter)

theorem held_simpleName {v : List Char} (hv : ClosedOff v) : Held simpleName v :=
  (held_names hv).1

theorem held_qualifiedName {v : List Char} (hv : ClosedOff v) : Held qualifiedName v :=
  (held_names hv).2.1

theorem steady_typeLength {v : List Char} (hv : ClosedOff v) : Steady typeLength v :=
  (held_names hv).2.2

/-! ## Readers -/

/-- If the reader stays in the comment, it reads the same whatever stands behind the end. -/
def Settles {α : Type} (reader : List Char → α × Nat) (v : List Char) : Prop :=
  (reader (v ++ ending [])).2 ≤ v.length → ∀ x, reader (v ++ ending x) = reader (v ++ ending [])

section Readers

variable {v : List Char}

theorem take_ending (x : List Char) {n : Nat} (hn : n ≤ v.length) :
    (v ++ ending x).take n = (v ++ ending []).take n := by
  rw [List.take_append_of_le_length hn, List.take_append_of_le_length hn]

/-- What a reader keeps of the characters that a scanner measures. -/
theorem settles_of_steady {α : Type} {f : List Char → Nat} (hf : Steady f v) (value : List Char → α) :
    Settles (fun s => (value (s.take (f s)), f s)) v := by
  intro hle x
  dsimp only at hle ⊢
  rw [hf hle x, take_ending x hle]

theorem Held.steady {f : List Char → Nat} (hf : Held f v) : Steady f v :=
  fun _ => hf.2

theorem settles_readType (hv : ClosedOff v) : Settles readType v :=
  settles_of_steady (steady_typeLength hv) fun s => String.ofList (cleanType s)

theorem settles_readName (hv : ClosedOff v) :
    (readName (v ++ ending [])).2 ≤ v.length ∧ Settles readName v :=
  ⟨(held_qualifiedName hv).1,
    settles_of_steady (held_qualifiedName hv).steady fun s => String.ofList (spaceless s)⟩

/-- The names behind hyphens. -/
theorem held_hyphenated (hv : ClosedOff v) : Held hyphenated v := by
  induction hlen : v.length using Nat.strongRecOn generalizing v with
  | ind n ih =>
      cases v with
      | nil => exact ⟨by simp [hyphenated], fun x => by simp [hyphenated]⟩
      | cons c b =>
          by_cases hc : c = '-'
          · subst hc
            have hb : ClosedOff b := hv.tail
            have hblen : b.length + 1 = n := hlen
            obtain ⟨hm, hname⟩ := held_simpleName hb
            obtain ⟨hrest, hmore⟩ := ih (b.drop (simpleName (b ++ ending []))).length
              (by rw [List.length_drop]; omega) (hb.drop _) rfl
            rw [List.length_drop] at hrest
            have heq (x : List Char) : hyphenated ('-' :: b ++ ending x) =
                if simpleName (b ++ ending []) = 0 then 0
                else simpleName (b ++ ending []) + 1 +
                  hyphenated (b.drop (simpleName (b ++ ending [])) ++ ending []) := by
              rw [List.cons_append, hyphenated, hname x, drop_ending x hm, hmore x]
            refine ⟨?_, fun x => by rw [heq, heq]⟩
            rw [heq, List.length_cons]
            split <;> omega
          · have heq (x : List Char) : hyphenated (c :: b ++ ending x) = 0 := by
              rw [List.cons_append, hyphenated]
              rintro rest hrest
              exact hc (List.cons.inj hrest).1
            exact ⟨by rw [heq]; exact Nat.zero_le _, fun x => by rw [heq, heq]⟩

theorem settles_readWord (hv : ClosedOff v) :
    (readWord (v ++ ending [])).2 ≤ v.length ∧ Settles readWord v := by
  obtain ⟨hn, hname⟩ := held_simpleName hv
  obtain ⟨hm, hmore⟩ := held_hyphenated (hv.drop (simpleName (v ++ ending [])))
  rw [List.length_drop] at hm
  have heq (x : List Char) : readWord (v ++ ending x) =
      let n := simpleName (v ++ ending []) +
        hyphenated (v.drop (simpleName (v ++ ending [])) ++ ending [])
      let word := simplify ((v ++ ending []).take n)
      if word.isEmpty then ("", 0) else (String.ofList word, n) := by
    simp only [readWord, hname x, drop_ending x hn, hmore x]
    rw [take_ending x (by omega)]
  refine ⟨?_, fun _ x => by rw [heq, heq]⟩
  rw [heq]
  dsimp only
  split <;> dsimp only <;> omega

/-- What may follow a parameter: a default value has to end in the comment. -/
theorem settles_readParameterEnd (hv : ClosesComments v) (text : List Char) {n : Nat}
    (hn : n ≤ v.length) : Settles (readParameterEnd · text n) v := by
  intro hle x
  dsimp only at hle ⊢
  simp only [readParameterEnd, drop_ending _ hn] at hle ⊢
  have hclosed := hv.drop n
  have hlen : (v.drop n).length = v.length - n := List.length_drop
  cases hrest : v.drop n with
  | nil => rfl
  | cons c value =>
      rw [hrest] at hle hclosed hlen
      have hvalue : ClosesComments value := hclosed.drop 1
      by_cases hdefault : c = '='
      · subst hdefault
        have hk := (List.takeWhile_sublist (l := value) fun c => !endsDefault c).length_le
        by_cases hall : (value.takeWhile fun c => !endsDefault c).length = value.length
        · -- The value would take the end of the comment for a part of it.
          simp only [List.cons_append, List.takeWhile_append, hall, if_true, List.length_append,
            List.length_cons] at hle hlen
          have hstar : (List.takeWhile (fun c => !endsDefault c) (ending [])).length = 2 := by decide
          omega
        · simp only [List.cons_append, List.takeWhile_append, hall, if_false, drop_ending _ hk,
            gap_ending _ (hvalue.drop _)]
      · by_cases hopen : c = '['
        · subst hopen
          cases value with
          | nil => rfl
          | cons d rest =>
              by_cases hclose : d = ']'
              · subst hclose
                have hrest : ClosesComments rest := hvalue.drop 1
                simp only [List.cons_append, gap_ending _ hrest]
              · simp [hclose]
        · simp [hdefault, hopen]

/-- The name of a parameter and what may follow it. -/
theorem settles_readParameterName (hv : ClosedOff v) (type : List Char) {n : Nat} (hn : n ≤ v.length) :
    Settles (readParameterName · type n) v := by
  obtain ⟨hm, hname⟩ := held_simpleName (hv.drop n)
  rw [List.length_drop] at hm
  generalize hsize : simpleName (v.drop n ++ ending []) = m at hm hname
  have hend : n + m ≤ v.length := by omega
  have hgap := gap_le (v.drop (n + m))
  rw [List.length_drop] at hgap
  have heq (x : List Char) : readParameterName (v ++ ending x) type n =
      readParameterEnd (v ++ ending x)
        (type ++ if m = 0 then [] else ' ' :: simplify ((v.drop n ++ ending []).take m))
        (n + m + gap (v.drop (n + m))) := by
    simp only [readParameterName, drop_ending x hn, hname x, drop_ending x hend,
      gap_ending x (hv.comments.drop _)]
    rw [take_ending x (by rw [List.length_drop]; omega)]
  intro hle x
  dsimp only at hle ⊢
  rw [heq] at hle ⊢
  rw [heq]
  exact settles_readParameterEnd hv.comments _ (by omega) hle x

/-- **One parameter.**  A parameter that ends in the comment is read the same whatever stands behind. -/
theorem settles_readParameter (hv : ClosedOff v) : Settles readParameter v := by
  intro hle x
  by_cases hzero : typeLength (v ++ ending []) = 0
  · have hsame := steady_typeLength hv (by omega) x
    rw [readParameter_eq, readParameter_eq, hsame]
    dsimp only
    rw [if_pos hzero, if_pos hzero]
  · have hend : typeLength (v ++ ending []) +
        gap ((v ++ ending []).drop (typeLength (v ++ ending []))) ≤ v.length := by
      rw [readParameter_eq] at hle
      dsimp only at hle
      rw [if_neg hzero] at hle
      exact Nat.le_trans (le_readParameterName _ _ _) hle
    have hn : typeLength (v ++ ending []) ≤ v.length := by omega
    have hsame := steady_typeLength hv hn x
    rw [readParameter_eq] at hle ⊢
    rw [readParameter_eq, hsame]
    dsimp only at hle ⊢
    generalize typeLength (v ++ ending []) = n at *
    rw [if_neg hzero] at hle
    rw [if_neg hzero, if_neg hzero, take_ending x hn]
    simp only [drop_ending _ hn, gap_ending _ (hv.comments.drop n)] at hend hle ⊢
    exact settles_readParameterName hv _ hend hle x

theorem le_readParameterTail (s : List Char) : (readParameter s).2 ≤ (readParameterTail s).2 := by
  rw [readParameterTail_eq]
  dsimp only
  split
  · omega
  · split
    · exact Nat.le_trans (Nat.le_add_right _ 1) (Nat.le_add_right _ _)
    · split
      · exact Nat.le_add_right _ 1
      · exact Nat.le_refl _

/-- What is left of a parameter list. -/
theorem settles_readParameterTail (hv : ClosedOff v) : Settles readParameterTail v := by
  induction hlen : v.length using Nat.strongRecOn generalizing v with
  | ind n ih =>
      intro hle x
      have hp := Nat.le_trans (le_readParameterTail _) hle
      have hparameter := settles_readParameter hv hp x
      rw [readParameterTail_eq] at hle ⊢
      rw [readParameterTail_eq, hparameter]
      dsimp only at hle ⊢
      generalize readParameter (v ++ ending []) = p at *
      rw [drop_ending x hp]
      rw [drop_ending [] hp] at hle ⊢
      rw [head?_ending x]
      by_cases hzero : p.2 = 0
      · rw [if_pos hzero, if_pos hzero]
      rw [if_neg hzero] at hle ⊢
      rw [if_neg hzero]
      by_cases hcomma : (v.drop p.2 ++ ending []).head? = some ','
      · rw [if_pos hcomma] at hle ⊢
        rw [if_pos hcomma]
        cases hb : v.drop p.2 with
        | nil => rw [hb] at hcomma; exact absurd hcomma (by simp)
        | cons c b =>
            have hblen := congrArg List.length hb
            simp only [List.length_drop, List.length_cons] at hblen
            have hclosed : ClosedOff b := by
              have hbehind := (hv.drop p.2).tail
              rwa [hb] at hbehind
            rw [hb] at hle
            simp only [List.cons_append, List.tail_cons] at hle ⊢
            rw [ih b.length (by omega) hclosed rfl (by omega) x]
      · rw [if_neg hcomma, if_neg hcomma]

/-- **Parameter lists.**  A list that is read up to a place in the comment is read the same whatever
stands behind the end. -/
theorem settles_readParameters (hv : ClosedOff v) : Settles readParameters v := by
  intro hle x
  have hgap := gap_le v
  have hdrop (x : List Char) : (v ++ ending x).drop (gap (v ++ ending x)) =
      v.drop (gap v) ++ ending x := by
    rw [gap_ending x hv.comments, drop_ending x hgap]
  by_cases hopen : (v.drop (gap v)).head? = some '('
  · obtain ⟨b, hb⟩ := List.head?_eq_some_iff.mp hopen
    have hlen := congrArg List.length hb
    simp only [List.length_drop, List.length_cons] at hlen
    have hclosed : ClosedOff b := by
      have hbehind := (hv.drop (gap v)).tail
      rwa [hb] at hbehind
    have hinner := gap_le b
    have hlist (x : List Char) : (b ++ ending x).drop (gap (b ++ ending x)) =
        b.drop (gap b) ++ ending x := by
      rw [gap_ending x hclosed.comments, drop_ending x hinner]
    have heq (x : List Char) : readParameters (v ++ ending x) =
        if (b.drop (gap b) ++ ending x).head? = some ')' then ("()", gap v + (gap b + 2))
        else
          (((readParameterTail (b.drop (gap b) ++ ending x)).1.map fun t => String.ofList ('(' :: t)).getD
              "",
            gap v + (1 + gap b + (readParameterTail (b.drop (gap b) ++ ending x)).2)) := by
      rw [readParameters_of_open (b := b ++ ending x) (by rw [hdrop, hb]; rfl),
        readParameters_eq (hlist x), gap_ending x hv.comments, gap_ending x hclosed.comments]
      split <;> rfl
    rw [heq] at hle ⊢
    rw [heq, head?_ending x]
    split
    · rfl
    · rename_i hclose
      rw [if_neg hclose] at hle
      rw [settles_readParameterTail (hclosed.drop _) (by rw [List.length_drop]; dsimp only at hle; omega) x]
  · have hno (x : List Char) : readParameters (v ++ ending x) = ("", 0) := by
      apply readParameters_of_not_open
      rw [hdrop]
      cases hrest : v.drop (gap v) with
      | nil => simp
      | cons c rest => simpa [hrest] using hopen
    rw [hno, hno]

end Readers

end CppDoc.Syntax
