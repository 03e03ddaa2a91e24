import CppDoc.Proofs.Syntax.Lookahead
import CppDoc.Syntax.Type

/-!
# Blanks in front of a type

A type may be indented: blanks in front of it are measured with it and leave its written form as it
is.

* `typeLength_indent`: the length of an indented type;
* `cleanType_indent`: its written form.
-/

namespace CppDoc.Syntax

open CppDoc.Text

variable {b : List Char} (hb : b.all isBlank = true) (s : List Char)

include hb

theorem modifierLength_indent :
    modifierLength (b ++ s) = if modifierLength s = 0 then 0 else b.length + modifierLength s := by
  have hblanks : (b ++ s).takeWhile isBlank = b ++ s.takeWhile isBlank :=
    List.takeWhile_append_of_pos (List.all_eq_true.mp hb)
  simp only [modifierLength, hblanks, List.length_append, List.drop_length_add_append]
  by_cases hword : typeModifiers.contains
      ((s.drop (s.takeWhile isBlank).length).takeWhile Char.isLower) = true
  · have hpos : ((s.drop (s.takeWhile isBlank).length).takeWhile Char.isLower).length ≠ 0 := by
      intro hzero
      rw [List.length_eq_zero_iff.mp hzero] at hword
      exact absurd hword (by decide)
    simp only [hword, if_true]
    split <;> omega
  · rw [Bool.not_eq_true] at hword
    simp only [hword, Bool.false_eq_true, if_false, if_true]

/-- Blanks are taken with the modifiers, if there are any. -/
theorem modifiersLength_indent :
    modifiersLength (b ++ s) = if modifierLength s = 0 then 0 else b.length + modifiersLength s := by
  rw [modifiersLength_eq, modifierLength_indent hb]
  by_cases hzero : modifierLength s = 0
  · rw [if_pos hzero, if_pos hzero, if_pos rfl]
  · rw [if_neg hzero, if_neg hzero, if_neg (by omega), List.drop_length_add_append,
      modifiersLength_eq s, if_neg hzero]
    omega

theorem leadingScope_indent : leadingScope (b ++ s) = b.length + leadingScope s := by
  unfold leadingScope
  rw [gap_blanks_append hb, List.drop_length_add_append]
  split
  · omega
  · rfl

omit hb in
theorem nameEnd_indent (l : Nat) : nameEnd (b ++ s) (b.length + l) = b.length + nameEnd s l := by
  unfold nameEnd templateEnd
  rw [List.drop_length_add_append, Nat.add_assoc, List.drop_length_add_append]
  split
  · dsimp only
    split <;> omega
  · rfl

omit hb in
/-- What only moves the beginning of a name moves its end as far. -/
theorem qualifiedName_shift (hlead : leadingScope (b ++ s) = b.length + leadingScope s)
    (h : qualifiedName s ≠ 0) : qualifiedName (b ++ s) = b.length + qualifiedName s := by
  have hname : simpleName (s.drop (leadingScope s)) ≠ 0 := by
    intro hzero
    rw [qualifiedName_eq] at h
    exact h (if_pos hzero)
  rw [qualifiedName_eq (b ++ s), qualifiedName_eq s]
  dsimp only
  rw [hlead, List.drop_length_add_append, if_neg hname, if_neg hname,
    Nat.add_assoc b.length, List.drop_length_add_append, Nat.add_assoc b.length,
    List.drop_length_add_append, Nat.add_assoc b.length, nameEnd_indent]

theorem qualifiedName_indent (h : qualifiedName s ≠ 0) :
    qualifiedName (b ++ s) = b.length + qualifiedName s :=
  qualifiedName_shift s (leadingScope_indent hb s) h

omit hb in
theorem typeEnd_indent {l : Nat} (h : typeEnd s l ≠ 0) :
    typeEnd (b ++ s) (b.length + l) = b.length + typeEnd s l := by
  by_cases hscope : [':', ':'] <+: s.drop l
  · obtain ⟨rest, hrest'⟩ := hscope
    have hrest : s.drop l = ':' :: ':' :: rest := hrest'.symm
    have hdrop : (b ++ s).drop (b.length + l) = ':' :: ':' :: rest := by
      rw [List.drop_length_add_append, hrest]
    rw [typeEnd_of_scope hrest] at h
    have hname : simpleName rest ≠ 0 := fun hzero => h (if_pos hzero)
    rw [typeEnd_of_scope hdrop, typeEnd_of_scope hrest, if_neg hname, if_neg hname]
    dsimp only
    rw [Nat.add_assoc b.length, Nat.add_assoc b.length, List.drop_length_add_append,
      Nat.add_assoc b.length, List.drop_length_add_append, Nat.add_assoc b.length]
  · have hdrop : ¬ [':', ':'] <+: (b ++ s).drop (b.length + l) := by
      rwa [List.drop_length_add_append]
    rw [typeEnd_of_not_scope hdrop, typeEnd_of_not_scope hscope, List.drop_length_add_append,
      Nat.add_assoc]

omit hb in
/-- What only moves the end of the name of a type moves the end of the type as far. -/
theorem typeLength_of_name (h : typeLength s ≠ 0)
    (hpos : qualifiedName ((b ++ s).drop (modifiersLength (b ++ s))) ≠ 0)
    (hwhole : modifiersLength (b ++ s) + qualifiedName ((b ++ s).drop (modifiersLength (b ++ s))) =
      b.length + (modifiersLength s + qualifiedName (s.drop (modifiersLength s)))) :
    typeLength (b ++ s) = b.length + typeLength s := by
  rw [typeLength_eq] at h
  have hname : qualifiedName (s.drop (modifiersLength s)) ≠ 0 := fun hzero => h (if_pos hzero)
  dsimp only at h
  rw [if_neg hname] at h
  rw [typeLength_eq, typeLength_eq]
  dsimp only
  rw [if_neg hname, if_neg hpos, hwhole, List.drop_length_add_append, Nat.add_assoc,
    typeEnd_indent s h]

omit hb in
/-- A type has a name behind its modifiers. -/
theorem qualifiedName_ne_zero (h : typeLength s ≠ 0) :
    qualifiedName (s.drop (modifiersLength s)) ≠ 0 := by
  intro hzero
  rw [typeLength_eq] at h
  exact h (if_pos hzero)

omit hb in
/-- More modifiers in front of a type. -/
theorem typeLength_of_modifiersLength (h : typeLength s ≠ 0)
    (hmodifiers : modifiersLength (b ++ s) = b.length + modifiersLength s) :
    typeLength (b ++ s) = b.length + typeLength s := by
  have hname := qualifiedName_ne_zero s h
  apply typeLength_of_name s h
  · rwa [hmodifiers, List.drop_length_add_append]
  · rw [hmodifiers, List.drop_length_add_append, Nat.add_assoc]

/-- **An indented type** is as much longer as it is indented. -/
theorem typeLength_indent (h : typeLength s ≠ 0) :
    typeLength (b ++ s) = b.length + typeLength s := by
  by_cases hzero : modifierLength s = 0
  · -- The blanks are taken with the name.
    have hname := qualifiedName_ne_zero s h
    have hmodifiers : modifiersLength (b ++ s) = 0 := by
      rw [modifiersLength_indent hb, if_pos hzero]
    have hnone : modifiersLength s = 0 := by rw [modifiersLength_eq, if_pos hzero]
    rw [hnone, List.drop_zero] at hname
    have hshift := qualifiedName_indent hb s hname
    apply typeLength_of_name s h
    · rw [hmodifiers, List.drop_zero, hshift]
      omega
    · rw [hmodifiers, hnone, List.drop_zero, List.drop_zero, hshift]
      omega
  · apply typeLength_of_modifiersLength s h
    rw [modifiersLength_indent hb, if_neg hzero]

/-! ## The written form -/

theorem words_indent : words (b ++ s) = words s := by
  induction b with
  | nil => rfl
  | cons c rest ih =>
      simp only [List.all_cons, Bool.and_eq_true] at hb
      rw [List.cons_append, words, if_pos (isSpace_of_isBlank hb.1)]
      exact ih hb.2

theorem cleanType_indent : cleanType (b ++ s) = cleanType s := by
  simp only [cleanType, simplify, words_indent hb]

end CppDoc.Syntax
