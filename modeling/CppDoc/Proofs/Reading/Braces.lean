import CppDoc.Header
import CppDoc.Proofs.Syntax.OffsetReaders

/-!
# Blocks in braces

Behind the name of a member there may be a body, which is passed over without being read: only its braces
are counted.  What passes over it looks at one character after the other, and each time goes over the gap
behind it as well, so that braces in comments do not count unless they come first.

* `Visits`: the characters that are looked at, with the braces that are open before each; one that
  closes a brace is only looked at while one is open;
* `visits_skipBlock`: passing over blocks is such a run; `Visits.eq_skip`: what it comes to;
* `IsBlock`, `Closes`: from an opening brace to the one that closes it, and the rest of a block;
* `skipBlock_blocks`: what is passed over before the text ends are whole blocks.
-/

namespace CppDoc.Header

open CppDoc.Syntax CppDoc.Text

/-! ## What is looked at -/

/-- With `level` braces open, the cursor goes from `c` to `c'` and looks at some characters on its way,
each of which is passed over together with the gap behind it. -/
inductive Visits : Nat → Cursor → List (Char × List Char) → Cursor → Prop
  | atEnd {level : Nat} {c : Cursor} (hrest : c.rest = []) : Visits level c [] c
  | outside {c : Cursor} {x : Char} {t : List Char} (hrest : c.rest = x :: t) (hx : x ≠ '{') :
      Visits 0 c [] c
  | opening {level : Nat} {c c' : Cursor} {t : List Char} {turns : List (Char × List Char)}
      (hrest : c.rest = '{' :: t) (hnext : Visits (level + 1) (c.skip 1).skipGap turns c') :
      Visits level c (('{', t.take (gap t)) :: turns) c'
  | closing {level : Nat} {c c' : Cursor} {t : List Char} {turns : List (Char × List Char)}
      (hrest : c.rest = '}' :: t) (hnext : Visits level (c.skip 1).skipGap turns c') :
      Visits (level + 1) c (('}', t.take (gap t)) :: turns) c'
  | inside {level : Nat} {c c' : Cursor} {x : Char} {t : List Char} {turns : List (Char × List Char)}
      (hrest : c.rest = x :: t) (hopen : x ≠ '{') (hclose : x ≠ '}')
      (hnext : Visits (level + 1) (c.skip 1).skipGap turns c') :
      Visits (level + 1) c ((x, t.take (gap t)) :: turns) c'

/-- The text that is passed over when some characters are looked at. -/
def passedText (turns : List (Char × List Char)) : List Char :=
  turns.flatMap fun turn => turn.1 :: turn.2

/-- **A run.**  Blocks are passed over without closing a brace that is not open. -/
theorem visits_skipBlock (level : Nat) (c : Cursor) :
    ∃ turns, Visits level c turns (skipBlock level c) := by
  fun_induction skipBlock level c with
  | case1 level c hrest => exact ⟨[], .atEnd hrest⟩
  | case2 level c x t hrest hstop =>
      obtain ⟨rfl, hx⟩ : level = 0 ∧ x ≠ '{' := by simpa using hstop
      exact ⟨[], .outside hrest hx⟩
  | case3 level c x t hrest hgo next ih =>
      obtain ⟨turns, hturns⟩ := ih
      by_cases hopen : x = '{'
      · subst hopen
        exact ⟨_, .opening hrest hturns⟩
      -- Any other character is only looked at inside a block.
      obtain ⟨outer, rfl⟩ : ∃ outer, level = outer + 1 := by
        refine ⟨level - 1, ?_⟩
        have : level ≠ 0 := by
          rintro rfl
          exact hgo (by simp [hopen])
        omega
      by_cases hclose : x = '}'
      · subst hclose
        exact ⟨_, .closing hrest hturns⟩
      · have hnext : next = outer + 1 := by simp [next, hopen, hclose]
        rw [hnext] at hturns ⊢
        exact ⟨_, .inside hrest hopen hclose hturns⟩

section Visits

variable {level : Nat} {c c' : Cursor} {turns : List (Char × List Char)}

/-- What is left behind a character and its gap. -/
private theorem rest_skipGap {x : Char} {t : List Char} (hrest : c.rest = x :: t) :
    t.take (gap t) ++ (c.skip 1).skipGap.rest = t := by
  simp only [Cursor.skipGap, Cursor.skip, hrest, List.drop_succ_cons, List.drop_zero]
  exact List.take_append_drop _ _

/-- The text is what is passed over and what is left. -/
theorem Visits.rest_eq (h : Visits level c turns c') : c.rest = passedText turns ++ c'.rest := by
  have hturn (x : Char) (gap : List Char) (more : List (Char × List Char)) :
      passedText ((x, gap) :: more) = x :: (gap ++ passedText more) := rfl
  induction h with
  | atEnd | outside => rfl
  | opening hrest _ ih | closing hrest _ ih | inside hrest _ _ _ ih =>
      rw [hturn, List.cons_append, List.append_assoc, ← ih, rest_skipGap hrest, hrest]

/-- The cursor is put behind what is passed over. -/
theorem Visits.eq_skip (h : Visits level c turns c') : c' = c.skip (passedText turns).length := by
  have hturn (x : Char) (t : List Char) (more : List (Char × List Char)) :
      (passedText ((x, t.take (gap t)) :: more)).length = 1 + gap t + (passedText more).length := by
    rw [passedText, List.flatMap_cons, List.length_append, List.length_cons,
      List.length_take_of_le (gap_le t), passedText, Nat.add_comm (gap t) 1]
  induction h with
  | atEnd | outside => rfl
  | @opening _ c _ t _ hrest _ ih | @closing _ c _ t _ hrest _ ih | @inside _ c _ _ t _ hrest _ _ _ ih =>
      have hgap : (c.skip 1).skipGap = c.skip (1 + gap t) := by
        rw [Cursor.skipGap, Cursor.rest_skip, hrest, List.drop_one, List.tail_cons, Cursor.skip_skip]
      rw [ih, hgap, Cursor.skip_skip, hturn]

/-- A run that ends before the text does ends on no opening brace. -/
theorem Visits.not_opening (h : Visits level c turns c') : c'.rest.head? ≠ some '{' := by
  induction h with
  | atEnd hrest =>
      rw [hrest]
      exact nofun
  | outside hrest hx =>
      rw [hrest]
      exact fun hhead => hx (Option.some.inj hhead)
  | opening _ _ ih | closing _ _ ih | inside _ _ _ _ ih => exact ih

end Visits

/-! ## Blocks -/

/-- The braces that are open close with the characters `u`, the first of them with the last one. -/
structure Closes (level : Nat) (u : List Char) : Prop where
  closed : u.count '}' = u.count '{' + level
  within : ∀ p, p <+: u → p ≠ u → p.count '}' < p.count '{' + level

/-- A block begins with a brace and ends with the one that closes it. -/
structure IsBlock (b : List Char) : Prop where
  opens : b.head? = some '{'
  closes : b.getLast? = some '}'
  balanced : b.count '{' = b.count '}'
  within : ∀ p, p <+: b → p ≠ [] → p ≠ b → p.count '}' < p.count '{'

section Blocks

variable {level : Nat} {x : Char} {u : List Char}

theorem closes_nil : Closes 0 [] where
  closed := rfl
  within := fun _ hp hne => absurd (List.prefix_nil.mp hp) hne

/-- One more character of a block. -/
theorem Closes.cons {outer : Nat} (h : Closes level u) (houter : 0 < outer)
    (hcount : (if x = '}' then 1 else 0) + level = (if x = '{' then 1 else 0) + outer) :
    Closes outer (x :: u) where
  closed := by
    have := h.closed
    simp only [List.count_cons, beq_iff_eq]
    omega
  within := fun p hp hne => by
    cases p with
    | nil => simpa using houter
    | cons y p =>
        obtain ⟨rfl, htail⟩ := List.cons_prefix_cons.mp hp
        have := h.within p htail fun heq => hne (by rw [heq])
        simp only [List.count_cons, beq_iff_eq]
        omega

theorem Closes.getLast? (h : Closes (level + 1) u) : u.getLast? = some '}' := by
  rcases List.eq_nil_or_concat u with rfl | ⟨front, x, rfl⟩
  · exact absurd h.closed (by simp)
  · rw [List.concat_eq_append] at h ⊢
    have hclosed := h.closed
    have hfront := h.within front (List.prefix_append _ _) (by simp)
    simp only [List.count_append, List.count_singleton, beq_iff_eq] at hclosed
    -- Before its last character the block has not been closed.
    have hx : x = '}' := by
      by_contra hne
      rw [if_neg hne] at hclosed
      omega
    rw [List.getLast?_append, hx]
    rfl

/-- A brace, and what closes it. -/
theorem Closes.isBlock (h : Closes 1 u) : IsBlock ('{' :: u) where
  opens := rfl
  closes := by rw [List.getLast?_cons, h.getLast?]; rfl
  balanced := by
    have := h.closed
    simp only [List.count_cons, beq_iff_eq, Char.reduceEq, if_true, if_false]
    omega
  within := fun p hp hne hproper => by
    cases p with
    | nil => exact absurd rfl hne
    | cons y p =>
        obtain ⟨rfl, htail⟩ := List.cons_prefix_cons.mp hp
        have := h.within p htail fun heq => hproper (by rw [heq])
        simp only [List.count_cons, beq_iff_eq, Char.reduceEq, if_true, if_false]
        omega

end Blocks

/-- A run that ends before the text does closes the braces that are open, and goes over whole blocks
from there. -/
theorem Visits.closes {level : Nat} {c c' : Cursor} {turns : List (Char × List Char)}
    (h : Visits level c turns c') (hleft : c'.rest ≠ []) :
    ∃ (u : List Char) (blocks : List (List Char)), turns.map Prod.fst = u ++ blocks.flatten ∧
      Closes level u ∧ ∀ b ∈ blocks, IsBlock b := by
  induction h with
  | atEnd hrest => exact absurd hrest hleft
  | outside => exact ⟨[], [], rfl, closes_nil, by simp⟩
  | @opening level _ _ _ _ _ _ ih =>
      obtain ⟨u, blocks, hturns, hu, hblocks⟩ := ih hleft
      rw [List.map_cons, hturns]
      cases level with
      | zero =>
          refine ⟨[], ('{' :: u) :: blocks, rfl, closes_nil, ?_⟩
          exact List.forall_mem_cons.mpr ⟨hu.isBlock, hblocks⟩
      | succ outer =>
          exact ⟨'{' :: u, blocks, rfl, hu.cons (Nat.succ_pos _) (by simp; omega), hblocks⟩
  | closing _ _ ih =>
      obtain ⟨u, blocks, hturns, hu, hblocks⟩ := ih hleft
      rw [List.map_cons, hturns]
      exact ⟨'}' :: u, blocks, rfl, hu.cons (Nat.succ_pos _) (by simp; omega), hblocks⟩
  | @inside _ _ _ x _ _ _ hopen hclose _ ih =>
      obtain ⟨u, blocks, hturns, hu, hblocks⟩ := ih hleft
      rw [List.map_cons, hturns]
      exact ⟨x :: u, blocks, rfl, hu.cons (Nat.succ_pos _) (by simp [hopen, hclose]), hblocks⟩

/-- **Blocks in braces.**  From an opening brace, the cursor passes over blocks in a run that never closes
a brace that is not open.  Unless it comes to the end of the text, what it has looked at are whole blocks,
one behind the other, and it stands on a character that opens no other. -/
theorem skipBlock_blocks {c : Cursor} {t : List Char} (hc : c.Stands) (hrest : c.rest = '{' :: t) :
    ∃ turns, Visits 0 c turns (skipBlock 0 c) ∧
      skipBlock 0 c = c.skip (passedText turns).length ∧
      c.rest = passedText turns ++ (skipBlock 0 c).rest ∧
      ((skipBlock 0 c).atEnd = false →
        (∃ blocks, blocks ≠ [] ∧ (∀ b ∈ blocks, IsBlock b) ∧
          turns.map Prod.fst = blocks.flatten) ∧
        ∃ x left, (skipBlock 0 c).rest = x :: left ∧ x ≠ '{') := by
  obtain ⟨turns, hturns⟩ := visits_skipBlock 0 c
  have hskip := hturns.eq_skip
  refine ⟨turns, hturns, hskip, hturns.rest_eq, fun hend => ?_⟩
  have hthere : (skipBlock 0 c).Stands := hskip ▸ hc.skip _
  rw [hthere.atEnd_eq] at hend
  have hleft : (skipBlock 0 c).rest ≠ [] := by simpa using hend
  obtain ⟨x, left, hx⟩ := List.exists_cons_of_ne_nil hleft
  refine ⟨?_, x, left, hx, fun hopen => hturns.not_opening (by rw [hx, hopen]; rfl)⟩
  obtain ⟨u, blocks, hvisited, hu, hblocks⟩ := hturns.closes hleft
  obtain rfl : u = [] := by
    by_contra hne
    exact absurd (hu.within [] List.nil_prefix (Ne.symm hne)) (Nat.lt_irrefl 0)
  refine ⟨blocks, ?_, hblocks, hvisited⟩
  rintro rfl
  -- Something is looked at: the cursor does not end where it began.
  obtain rfl : turns = [] := List.map_eq_nil_iff.mp hvisited
  have hstays : skipBlock 0 c = c := hskip
  exact hturns.not_opening (by rw [hstays, hrest]; rfl)

theorem skipBlock_blocks_two :
    let c := Cursor.ofText "\x7b run(); \x7d // \x7d\n\x7b\x7d;".toList
    c.Stands ∧ c.lookingAt "\x7b" = true ∧
      (skipBlock 0 c).rest = ";".toList ∧ (skipBlock 0 c).atEnd = false ∧
      ∃ turns blocks, Visits 0 c turns (skipBlock 0 c) ∧ blocks ≠ [] ∧
        (∀ b ∈ blocks, IsBlock b) ∧ turns.map Prod.fst = blocks.flatten := by
  intro c
  have hc : c.Stands := Cursor.stands_ofText _
  have hend : (skipBlock 0 c).atEnd = false := by decide +kernel
  obtain ⟨turns, hturns, -, -, hblocks⟩ := skipBlock_blocks hc rfl
  obtain ⟨⟨blocks, hne, hall, hvisited⟩, -⟩ := hblocks hend
  exact ⟨hc, by decide, by decide +kernel, hend, turns, blocks, hturns, hne, hall, hvisited⟩

end CppDoc.Header
