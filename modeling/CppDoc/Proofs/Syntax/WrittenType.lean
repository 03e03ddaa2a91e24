import CppDoc.Proofs.Syntax.Respaced

/-!
# Types in their written form

What is kept of a type is a type, and reading it again changes nothing.  A text from which signatures
and names are read lists such types, each with what stands behind it up to the next comma.

* `writtenType` and `cleanType_orderly`: the written form of an orderly type;
* `cleanType_writtenType`: it is its own written form;
* `Entry.typeList` and `Entry.nameList`: a type at the front of a text, and the rest behind a comma.
-/

namespace CppDoc.Syntax

open CppDoc.Text

variable {E : Prop} {i x k b s t y w : List Char} {ws : List (List Char)}

/-- The type `x` with its mark `k` in its written form. -/
def writtenType (x k : List Char) : List Char :=
  joined (unkeyed (words x)) ++ spaceless k

/-- Behind modifiers, a type is left. -/
theorem SpelledType.behind_modifiers (h : SpelledType E x) {I : List (List Char)}
    (hI : ∀ m ∈ I, m ∈ typeModifiers) (hwords : words x = I ++ ws) :
    ∃ s, SpelledType E s ∧ words s = ws := by
  induction I generalizing x with
  | nil => exact ⟨x, h, hwords⟩
  | cons i I ih =>
      obtain ⟨s, hs, hrest⟩ := h.behind_modifier (hI i List.mem_cons_self) hwords
      exact ih hs (fun m hm => hI m (List.mem_cons_of_mem i hm)) hrest

theorem SpelledType.words_ne_nil (h : SpelledType E x) : words x ≠ [] := by
  obtain ⟨c, hc, hsolid, -⟩ := h.exists_getLast?
  exact CppDoc.Text.words_ne_nil (List.mem_of_getLast? hc) hsolid

/-- The last word of an orderly type is no keyword. -/
theorem SpelledType.last_word (h : SpelledType E x) (ho : Orderly (words x)) :
    ∀ l, (words x).getLast? = some l → isRecord l = false := by
  intro l hl
  rcases ho.cases with hfree | ⟨I, k, J, hwords, hI, hfree⟩
  · exact hfree l (List.mem_of_getLast? hl)
  have hkey : k.text ∈ typeModifiers := by cases k <;> decide
  have hfront : ∀ m ∈ I ++ [k.text], m ∈ typeModifiers := by
    simpa [or_imp, forall_and] using ⟨hI, hkey⟩
  obtain ⟨s, hs, hrest⟩ := h.behind_modifiers hfront (by simpa using hwords)
  have hne : J ≠ [] := hrest ▸ hs.words_ne_nil
  rw [hwords, List.append_cons, List.getLast?_append_of_ne_nil _ hne] at hl
  exact hfree l (List.mem_append_right I (List.mem_of_getLast? hl))

/-- **The written form** of an orderly type. -/
theorem cleanType_orderly (hi : i.all isBlank = true) (hx : SpelledType E x) (ho : Orderly (words x))
    (hk : SpelledMark k) (hb : b.all isBlank = true) :
    cleanType (i ++ (x ++ (k ++ b))) = writtenType x k := by
  have hlast := hx.last_word ho
  rw [cleanType_marked hi hx hk hb fun _ => hlast, cleanWords_orderly ho hlast]
  rfl

/-- A mark without blanks. -/
theorem SpelledMark.kept (hk : SpelledMark k) :
    SpelledMark (spaceless k) ∧ spaceless (spaceless k) = spaceless k := by
  cases hk with
  | none => exact ⟨.none, rfl⟩
  | mark hg hc =>
      have hsingle := spaceless_mark (g := []) rfl hc
      rw [spaceless_mark hg hc]
      exact ⟨.mark (g := []) rfl hc, hsingle⟩

theorem words_unkeyed (x : List Char) :
    words (joined (unkeyed (words x))) = unkeyed (words x) :=
  words_joined fun _ hw => solid_of_mem_words (List.mem_filter.mp hw).1

/-- **Reading again** what is kept of a type changes nothing. -/
theorem cleanType_writtenType (hi : i.all isBlank = true) (hx : SpelledType E x)
    (ho : Orderly (words x)) (hk : SpelledMark k) (hb : b.all isBlank = true) :
    cleanType (i ++ (writtenType x k ++ b)) = writtenType x k := by
  have hfree : ∀ w ∈ unkeyed (words x), isRecord w = false := fun w hw => isRecord_of_mem_unkeyed hw
  have hagain := cleanType_orderly hi (hx.kept ho) (by rw [words_unkeyed]; exact .of_free hfree)
    hk.kept.1 hb
  rw [writtenType, List.append_assoc, hagain, writtenType, words_unkeyed, unkeyed_eq_self hfree,
    hk.kept.2]

/-! ## Entries of a list -/

/-- A type stands at the front of `s`, of which `t` is kept, and `y` is left behind it. -/
inductive Entry (E : Prop) : List Char → List Char → List Char → Prop
  | spelled {i x k b y : List Char} (hi : i.all isBlank = true) (hx : SpelledType E x)
      (hk : SpelledMark k) (hy : EndsSpelled x k b y) :
      Entry E (i ++ (x ++ (k ++ (b ++ y)))) (cleanType (i ++ (x ++ (k ++ b)))) y

/-- The type is read, unless the scanner meets an operator name. -/
theorem Entry.read (h : Entry E s t y) (hs : E → '(' ∉ s) :
    typeLength s ≠ 0 ∧ cleanType (s.take (typeLength s)) = t ∧ s.drop (typeLength s) = y := by
  cases h with
  | @spelled i x k b y hi hx hk hy =>
      rcases typeLength_spelled hi hx hk hy with hlength | hstuck
      · have hpos := List.length_pos_iff.mpr hx.ne_nil
        have htext : i ++ (x ++ (k ++ (b ++ y))) = (i ++ (x ++ (k ++ b))) ++ y := by simp
        have hsum : i.length + (x.length + (k.length + b.length)) =
            (i ++ (x ++ (k ++ b))).length := by simp
        rw [hlength, hsum, htext, List.take_left, List.drop_left]
        exact ⟨by omega, rfl, rfl⟩
      · exact absurd hstuck.opens (hs hstuck.operator)

theorem Entry.typeList (h : Entry E s t y) (hs : E → '(' ∉ s) :
    typeList s = t :: ((after? ',' y).map CppDoc.Syntax.typeList).getD [] := by
  obtain ⟨hne, htype, hrest⟩ := h.read hs
  rw [typeList_eq, if_neg hne, htype, hrest]

theorem nameList_eq (s : List Char) :
    nameList s =
      if typeLength s = 0 then []
      else
        let y := s.drop (typeLength s)
        let rest := ((after? ',' y).map nameList).getD []
        if simpleName y = 0 then rest else simplify (y.take (simpleName y)) :: rest := by
  rw [nameList]
  dsimp only
  split
  · rfl
  · split <;> split <;> rename_i h <;> simp [h]

theorem Entry.nameList (h : Entry E s t y) (hs : E → '(' ∉ s) :
    nameList s =
      let rest := ((after? ',' y).map CppDoc.Syntax.nameList).getD []
      if simpleName y = 0 then rest else simplify (y.take (simpleName y)) :: rest := by
  obtain ⟨hne, -, hrest⟩ := h.read hs
  rw [nameList_eq, if_neg hne, hrest]

/-- A kept type is an entry again. -/
theorem Entry.kept (hi : i.all isBlank = true) (hx : SpelledType E x) (ho : Orderly (words x))
    (hk : SpelledMark k)
    (hy : EndsSpelled (joined (unkeyed (words x))) (spaceless k) b y) :
    Entry E (i ++ (writtenType x k ++ (b ++ y))) (writtenType x k) y := by
  have hentry := Entry.spelled hi (hx.kept ho) hk.kept.1 hy
  have hagain := cleanType_writtenType hi hx ho hk hy.blank
  simp only [writtenType, List.append_assoc] at hagain ⊢
  rwa [hagain] at hentry

/-- What ends a parameter ends its type. -/
theorem endsSpelled_of_fresh (hb : b.all isBlank = true) (hy : y.head?.any goesOn = false)
    (hname : y.head?.any isNameChar = false) : EndsSpelled s k b y where
  blank := hb
  follows := ⟨hy, fun h => nomatch hname.symm.trans h⟩
  tilde := fun _ _ => hname

end CppDoc.Syntax
