import CppDoc.Proofs.Syntax.Spelling

/-!
# Types as they may be spelled

A type is a name with modifiers before it, perhaps one more member behind it, and perhaps a mark, with
blanks wherever the scanner of types passes over them.

* `SpelledBody` and `SpelledType`: types as they may be spelled, without their mark, and `TypeChars`:
  the characters they are written with;
* `typeLength_spelled`: a type is recognised as a whole with its mark and the blanks around it, or the
  scanner meets an operator name.
-/

namespace CppDoc.Syntax

open CppDoc.Text

/-- The name of a type, with one more member where the scanner of names leaves one: behind template
arguments, behind a gap that ends a chain, and where the member is no name right behind its `::`. -/
inductive SpelledBody (E : Prop) : List Char → Prop
  | name {k : Shape} {q : List Char} (hq : SpelledName E k q) : SpelledBody E q
  | member {k : Shape} {q g b w : List Char} (hq : SpelledName E k q) (hg : g.all isBlank = true)
      (hb : b.all isBlank = true) (hw : Word E w)
      (hk : k = .closed ∨ (k = .path ∧ g ≠ []) ∨ (b = [] ∧ operatorKeyword <+: w)) :
      SpelledBody E (q ++ (g ++ ':' :: ':' :: (b ++ w)))

/-- A type as it may be spelled, without its mark.  A modifier ends where the small letters end. -/
inductive SpelledType (E : Prop) : List Char → Prop
  | body {s : List Char} (hs : SpelledBody E s) (hfree : Unmodified s) : SpelledType E s
  | modifier {m g s : List Char} (hm : m ∈ typeModifiers) (hg : g.all isBlank = true)
      (hs : SpelledType E s) (hnext : g = [] → s.head?.any Char.isLower = false) :
      SpelledType E (m ++ (g ++ s))

/-- The mark of a type with the blanks before it. -/
inductive SpelledMark : List Char → Prop
  | none : SpelledMark []
  | mark {g : List Char} {c : Char} (hg : g.all isBlank = true) (hc : c = '&' ∨ c = '*') :
      SpelledMark (g ++ [c])

/-- The name `s` of a type does not go on with `z`. -/
structure EndsBody (s z : List Char) : Prop where
  apart : s.getLast? ≠ some '>' → z.head?.any isNameChar = false
  tilde : s.getLast? = some '~' → simpleName z = 0
  scope : ¬ [':', ':'] <+: z.drop (gap z)
  argument : (z.drop (gap z)).head? ≠ some '<'

/-- The type `s` with its mark `k` and the blanks `b` does not go on with `y`. -/
structure EndsSpelled (s k b y : List Char) : Prop where
  blank : b.all isBlank = true
  follows : Follows (s ++ (k ++ b)) y
  tilde : k = [] → s.getLast? = some '~' → y.head?.any isNameChar = false

section Types

variable {E : Prop} {s z : List Char}

theorem Word.getLast? {w : List Char} (hw : Word E w) : w.getLast?.any isNameChar = true := by
  rw [List.getLast?_eq_some_getLast hw.ne_nil]
  exact List.all_eq_true.mp hw.chars _ (List.getLast_mem hw.ne_nil)

/-- A member of a chain ends in a word or is the mark of a destructor. -/
theorem ChainMember.getLast? {c : List Char} (hc : ChainMember E c) :
    c.getLast? = some '~' ∨ c.getLast?.any isNameChar = true := by
  cases hc with
  | @name b w hb hw =>
      right
      rw [getLast?_append_right hw.ne_nil]
      exact hw.getLast?
  | @destructor b w hb hw =>
      right
      rw [← List.cons_append, getLast?_append_right hw.ne_nil]
      exact hw.getLast?
  | tilde => exact .inl rfl

/-- A chain of members ends in a word or the mark of a destructor. -/
theorem getLast?_chain {cs : List (List Char)} (hne : cs ≠ []) (hcs : ∀ c ∈ cs, ChainMember E c) :
    (chain cs).getLast? = some '~' ∨ (chain cs).getLast?.any isNameChar = true := by
  obtain ⟨ds, c, rfl⟩ := List.eq_nil_or_concat cs |>.resolve_left hne
  have hc := hcs c (by simp)
  have htext : chain (ds.concat c) = (chain ds ++ [':', ':']) ++ c := by simp [chain]
  rw [htext, getLast?_append_right hc.ne_nil]
  exact hc.getLast?

/-- A name ends in a word, in the mark of a destructor, or in its template arguments. -/
theorem SpelledName.getLast? {k : Shape} (h : SpelledName E k s) :
    (k = .closed ∧ s.getLast? = some '>') ∨
      (k ≠ .closed ∧ (s.getLast? = some '~' ∨ s.getLast?.any isNameChar = true)) := by
  cases h with
  | word hl hw =>
      rw [getLast?_append_right hw.ne_nil]
      exact .inr ⟨by decide, .inr hw.getLast?⟩
  | @path l w g cs hl hw hg hne hcs =>
      rw [← List.append_assoc, ← List.append_assoc, getLast?_append_right (chain_ne_nil hne)]
      exact .inr ⟨by decide, getLast?_chain hne hcs⟩
  | @closed k i q g h a g' =>
      have htext : q ++ (g ++ '<' :: (h ++ (a ++ (g' ++ ['>'])))) =
          (q ++ (g ++ '<' :: (h ++ (a ++ g')))) ++ ['>'] := by simp
      rw [htext, getLast?_append_right (List.cons_ne_nil _ _)]
      exact .inl ⟨rfl, rfl⟩

/-- Only template arguments end in `>`. -/
theorem SpelledName.getLast?_ne {k : Shape} (h : SpelledName E k s) (hk : k ≠ .closed) :
    s.getLast? ≠ some '>' := by
  intro hclose
  obtain ⟨hclosed, -⟩ | ⟨-, hlast | hlast⟩ := h.getLast?
  · exact hk hclosed
  · rw [hclose] at hlast
    exact absurd hlast (by decide)
  · rw [hclose] at hlast
    exact nomatch hlast

theorem getLast?_member {q g b w : List Char} (hw : Word E w) :
    (q ++ (g ++ ':' :: ':' :: (b ++ w))).getLast?.any isNameChar = true := by
  have htext : q ++ (g ++ ':' :: ':' :: (b ++ w)) = (q ++ (g ++ ':' :: ':' :: b)) ++ w := by simp
  rw [htext, getLast?_append_right hw.ne_nil]
  exact hw.getLast?

/-- The first character of a name. -/
theorem SpelledName.beginsType {k : Shape} (h : SpelledName E k s) :
    s.head?.any beginsType = true := by
  have hlead {l w t : List Char} (hl : Lead l) (hw : Word E w) :
      (l ++ (w ++ t)).head?.any CppDoc.Syntax.beginsType = true := by
    cases hl with
    | none =>
        obtain ⟨d, rest, rfl⟩ := List.exists_cons_of_ne_nil hw.ne_nil
        exact Bool.or_eq_true_iff.mpr (.inl hw.start)
    | outermost => rfl
  induction h with
  | @word l w hl hw =>
      have h := hlead (t := []) hl hw
      rwa [List.append_nil] at h
  | path hl hw => exact hlead hl hw
  | @closed k i q g h a g' hq _ _ _ _ _ _ ih _ =>
      obtain ⟨d, rest, rfl⟩ := List.exists_cons_of_ne_nil hq.ne_nil
      exact ih

theorem SpelledBody.ne_nil (h : SpelledBody E s) : s ≠ [] := by
  cases h with
  | name hq => exact hq.ne_nil
  | member hq => simp [hq.ne_nil]

theorem SpelledBody.beginsType (h : SpelledBody E s) : s.head?.any beginsType = true := by
  cases h with
  | name hq => exact hq.beginsType
  | @member k q g b w hq =>
      obtain ⟨d, rest, rfl⟩ := List.exists_cons_of_ne_nil hq.ne_nil
      exact hq.beginsType

/-- The name of a type begins with no modifier, if the small letters at its front are none. -/
theorem SpelledBody.modifiersLength_append (h : SpelledBody E s) (hfree : Unmodified s)
    (hz : s.getLast? ≠ some '>' → z.head?.any isNameChar = false) :
    modifiersLength (s ++ z) = 0 := by
  have hstart := h.beginsType
  obtain ⟨d, rest, rfl⟩ := List.exists_cons_of_ne_nil h.ne_nil
  have hblank : isBlank d = false := (gap_cons_eq_zero_iff.mp
    (gap_eq_zero_of_beginsType hstart rest)).1
  have hblanks : (d :: rest ++ z).takeWhile isBlank = [] := by simp [hblank]
  have hword : (d :: rest ++ z).takeWhile Char.isLower = (d :: rest).takeWhile Char.isLower := by
    apply takeWhile_append_of_boundary
    intro hall
    apply head?_not_isLower
    apply hz
    intro hlast
    have hmem := List.mem_of_getLast? hlast
    exact absurd (List.all_eq_true.mp hall _ hmem) (by decide)
  rw [modifiersLength_eq, if_pos]
  simp only [modifierLength, hblanks, List.length_nil, List.drop_zero, hword]
  rw [if_neg fun hmem => hfree (List.contains_iff_mem.mp hmem)]

/-- A type ends with its name, if parameters or template arguments follow. -/
theorem typeLength_eq_of_stop (hmodifiers : modifiersLength s = 0) (hname : qualifiedName s ≠ 0)
    (hstop : (s.drop (qualifiedName s)).head? = some '(' ∨
      (s.drop (qualifiedName s)).head? = some '<') : typeLength s = qualifiedName s := by
  have hend (c : Char) (hc : gap (c :: (s.drop (qualifiedName s)).tail) = 0) (hcolon : c ≠ ':')
      (hmark : c ≠ '&' ∧ c ≠ '*') (hhead : (s.drop (qualifiedName s)).head? = some c) :
      typeLength s = qualifiedName s := by
    obtain ⟨rest, hrest⟩ := List.head?_eq_some_iff.mp hhead
    rw [hrest, List.tail_cons] at hc
    rw [typeLength_eq]
    dsimp only
    rw [hmodifiers, List.drop_zero, if_neg hname, Nat.zero_add, hrest, hc, Nat.add_zero,
      typeEnd_of_not_scope, hrest]
    · simp [indirectionLength, hmark]
    · rw [hrest]
      rintro ⟨v, hv⟩
      exact hcolon (List.cons.inj hv).1.symm
  rcases hstop with hstop | hstop
  · exact hend _ (gap_punctuation (by decide) _) (by decide) (by decide) hstop
  · exact hend _ (gap_punctuation (by decide) _) (by decide) (by decide) hstop

/-- A type of which the name is stuck is stuck. -/
theorem typeLength_of_stuck (hmodifiers : modifiersLength s = 0)
    (h : Stuck E s (qualifiedName s)) : Stuck E s (typeLength s) := by
  rwa [typeLength_eq_of_stop hmodifiers h.pos h.stop]

/-- Right behind a `::`, the keyword of operator names begins an operator name or none at all. -/
theorem scopeMember_keyword {w : List Char} (hw : Word E w) (hkey : operatorKeyword <+: w)
    (x : List Char) :
    scopeMember (w ++ x) = 0 ∨ Halted E (w ++ x) (scopeMember (w ++ x)) := by
  have hprefix : operatorKeyword.isPrefixOf (w ++ x) = true :=
    List.isPrefixOf_iff_prefix.mpr (hkey.trans (List.prefix_append _ _))
  rw [scopeMember_eq, if_pos hprefix]
  by_cases hzero : operatorLength (w ++ x) = 0
  · exact .inl hzero
  · exact .inr ⟨hw.keyword hkey, hzero, (operatorLength_opens hzero).2⟩

/-- The member that the scanner of names leaves is none of its chain. -/
theorem endsStem_member {k : Shape} {q g b w : List Char} (hg : g.all isBlank = true)
    (hw : Word E w) (hk : (k = .path ∧ g ≠ []) ∨ (b = [] ∧ operatorKeyword <+: w)) :
    EndsStem E k q (g ++ ':' :: ':' :: (b ++ (w ++ z))) := by
  have hcolons : gap (':' :: ':' :: (b ++ (w ++ z))) = 0 := gap_punctuation (by decide) _
  have hgap : gap (g ++ ':' :: ':' :: (b ++ (w ++ z))) = g.length := by
    rw [gap_blanks_append hg, hcolons, Nat.add_zero]
  have hkeyword (hb : b = []) (hkey : operatorKeyword <+: w) :
      let y := ':' :: ':' :: (b ++ (w ++ z))
      scopeChain y = 0 ∨ Halted E y (scopeChain y) := by
    dsimp only
    rw [hb, List.nil_append, scopeChain_cons]
    rcases scopeMember_keyword hw hkey z with hzero | hhalted
    · exact .inl (by rw [if_pos hzero])
    · right
      obtain ⟨rest, hrest⟩ := List.head?_eq_some_iff.mp hhalted.opens
      have hwhole := hhalted.append [':', ':']
      rwa [if_neg hhalted.pos, hrest, scopeChain_parenthesis, Nat.add_zero, Nat.add_comm]
  refine ⟨head?_blanks_append hg rfl, fun _ => ?_, ?_⟩
  · apply simpleName_eq_zero
    rw [hgap, List.drop_left]
    rfl
  · by_cases hnil : g = []
    · subst hnil
      obtain ⟨-, hne⟩ | ⟨hb, hkey⟩ := hk
      · exact absurd rfl hne
      · dsimp only
        rw [List.nil_append, hcolons, List.drop_zero, ite_self]
        exact hkeyword hb hkey
    · cases hshape : decide (k = .word) with
      | true =>
          obtain rfl := of_decide_eq_true hshape
          obtain ⟨hpath, -⟩ | ⟨hb, hkey⟩ := hk
          · exact nomatch hpath
          · dsimp only
            rw [if_pos rfl, hgap, List.drop_left]
            exact hkeyword hb hkey
      | false =>
          left
          rw [if_neg (of_decide_eq_false hshape)]
          exact scopeChain_eq_zero (not_prefix_blanks_append hg hnil (c := ':') rfl rfl _)

/-- Without modifiers, a type ends where its name and the gap behind it allow. -/
theorem typeLength_eq_typeEnd {l : Nat} (hmodifiers : modifiersLength s = 0)
    (hname : qualifiedName s ≠ 0) (hl : qualifiedName s + gap (s.drop (qualifiedName s)) = l) :
    typeLength s = typeEnd s l := by
  rw [typeLength_eq]
  dsimp only
  rw [hmodifiers, List.drop_zero, if_neg hname, Nat.zero_add, hl]

/-- The gap behind a name, whether it is measured with the name or not. -/
theorem add_gap_drop (k : Shape) (q y : List Char) :
    q.length + (if k = .closed then 0 else gap y) +
      gap ((q ++ y).drop (q.length + if k = .closed then 0 else gap y)) = q.length + gap y := by
  rw [List.drop_length_add_append]
  split
  · rw [List.drop_zero, Nat.add_zero]
  · rw [gap_drop_gap, Nat.add_zero]

/-- A type ends with one more member, if that is an operator name. -/
theorem typeEnd_eq_of_opens {t : List Char} {l : Nat} (ht : s.drop l = ':' :: ':' :: t)
    (hname : simpleName t ≠ 0) (hopens : (s.drop (l + 2 + simpleName t)).head? = some '(') :
    typeEnd s l = l + 2 + simpleName t := by
  obtain ⟨rest, hrest⟩ := List.head?_eq_some_iff.mp hopens
  have hnone : indirectionLength ('(' :: rest) = 0 := rfl
  rw [typeEnd_of_scope ht, if_neg hname]
  dsimp only
  rw [hrest, gap_parenthesis, Nat.add_zero, hrest, hnone, Nat.add_zero]

/-- One more member is recognised with the mark behind it. -/
theorem typeEnd_member {b w : List Char} (hb : b.all isBlank = true) (hw : Word E w)
    (hz : z.head?.any isNameChar = false) (p : List Char) :
    let s := p ++ ':' :: ':' :: (b ++ (w ++ z))
    typeEnd s p.length = (p ++ ':' :: ':' :: (b ++ w)).length +
        (gap z + indirectionLength (z.drop (gap z))) ∨
      Halted E s (typeEnd s p.length) := by
  have hdrop : (p ++ ':' :: ':' :: (b ++ (w ++ z))).drop p.length =
      ':' :: ':' :: (b ++ (w ++ z)) := List.drop_left
  have hbehind (n : Nat) : (p ++ ':' :: ':' :: (b ++ (w ++ z))).drop (p.length + 2 + n) =
      (b ++ (w ++ z)).drop n := by
    rw [← List.drop_drop, ← List.drop_drop, hdrop]
    rfl
  dsimp only
  rcases simpleName_blanks_word hb hw hz with hmember | hhalted
  · left
    rw [typeEnd_of_scope hdrop]
    dsimp only
    have hpos := List.length_pos_iff.mpr hw.ne_nil
    have hword : (b ++ (w ++ z)).drop (b.length + w.length) = z := by
      rw [List.drop_length_add_append, List.drop_left]
    have hend : (b ++ (w ++ z)).drop (b.length + w.length + gap z) = z.drop (gap z) := by
      rw [← List.drop_drop, hword]
    rw [hmember, if_neg (by omega), hbehind, hword, Nat.add_assoc _ _ (gap z), hbehind, hend]
    simp only [List.length_append, List.length_cons]
    omega
  · right
    have hwhole := (hhalted.append [':', ':']).append p
    have hopens := hwhole.opens
    rw [← Nat.add_assoc] at hwhole hopens
    rw [typeEnd_eq_of_opens hdrop hhalted.pos hopens]
    exact hwhole


/-- **The name of a type** is recognised with the mark behind it. -/
theorem typeLength_body (h : SpelledBody E s) (hfree : Unmodified s) (hz : EndsBody s z) :
    typeLength (s ++ z) = s.length + (gap z + indirectionLength (z.drop (gap z))) ∨
      Stuck E (s ++ z) (typeLength (s ++ z)) := by
  have hmodifiers := h.modifiersLength_append hfree hz.apart
  cases h with
  | @name k q hq =>
      have hstem : k ≠ .closed → EndsStem E k s z ∧ (z.drop (gap z)).head? ≠ some '<' := by
        intro hk
        have hapart := hz.apart (hq.getLast?_ne hk)
        refine ⟨⟨hapart, hz.tilde, .inl ?_⟩, hz.argument⟩
        apply scopeChain_eq_zero
        split
        · exact hz.scope
        · exact EndsPath.not_scope ⟨hapart, hz.scope⟩
      have hpos := List.length_pos_iff.mpr hq.ne_nil
      rcases qualifiedName_spelled hq hstem with hname | hstuck
      · left
        have hno : ¬ [':', ':'] <+: (s ++ z).drop (s.length + gap z) := by
          rw [List.drop_length_add_append]
          exact hz.scope
        rw [typeLength_eq_typeEnd hmodifiers (by omega) (hname ▸ add_gap_drop k s z),
          typeEnd_of_not_scope hno, List.drop_length_add_append, Nat.add_assoc]
      · exact .inr (typeLength_of_stuck hmodifiers hstuck)
  | @member k q g b w hq hg hb hw hk =>
      have hcolons : gap (':' :: ':' :: (b ++ (w ++ z))) = 0 := gap_punctuation (by decide) _
      have hgap : gap (g ++ ':' :: ':' :: (b ++ (w ++ z))) = g.length := by
        rw [gap_blanks_append hg, hcolons, Nat.add_zero]
      have htext : q ++ (g ++ ':' :: ':' :: (b ++ w)) ++ z =
          q ++ (g ++ ':' :: ':' :: (b ++ (w ++ z))) := by simp
      have hlast : (q ++ (g ++ ':' :: ':' :: (b ++ w))).getLast? ≠ some '>' := by
        have hname := getLast?_member (q := q) (g := g) (b := b) hw
        intro hclose
        rw [hclose] at hname
        exact nomatch hname
      have hstem : k ≠ .closed → EndsStem E k q (g ++ ':' :: ':' :: (b ++ (w ++ z))) ∧
          ((g ++ ':' :: ':' :: (b ++ (w ++ z))).drop
            (gap (g ++ ':' :: ':' :: (b ++ (w ++ z))))).head? ≠ some '<' := by
        intro hclosed
        refine ⟨endsStem_member hg hw (hk.resolve_left hclosed), ?_⟩
        rw [hgap, List.drop_left]
        simp
      have hpos := List.length_pos_iff.mpr hq.ne_nil
      rw [htext] at hmodifiers ⊢
      rcases qualifiedName_spelled hq hstem with hname | hstuck
      · have hend := typeEnd_member hb hw (hz.apart hlast) (q ++ g)
        have hl := add_gap_drop k q (g ++ ':' :: ':' :: (b ++ (w ++ z)))
        rw [← hname, hgap, ← List.length_append] at hl
        rw [typeLength_eq_typeEnd hmodifiers (by omega) hl]
        simp only [List.append_assoc] at hend
        exact hend.imp_right Halted.stuck
      · exact .inr (typeLength_of_stuck hmodifiers hstuck)

theorem SpelledBody.getLast? (h : SpelledBody E s) :
    s.getLast? = some '>' ∨ s.getLast? = some '~' ∨ s.getLast?.any isNameChar = true := by
  cases h with
  | name hq => exact hq.getLast?.imp And.right And.right
  | member _ _ _ hw => exact .inr (.inr (getLast?_member hw))

theorem SpelledType.ne_nil (h : SpelledType E s) : s ≠ [] := by
  cases h with
  | body hs => exact hs.ne_nil
  | @modifier m g s hm =>
      have hall : ∀ m ∈ typeModifiers, m ≠ [] := by decide
      simp [hall m hm]

/-- The end of a type is that of its name. -/
theorem getLast?_modifier {m g : List Char} (hs : s ≠ []) :
    (m ++ (g ++ s)).getLast? = s.getLast? := by
  rw [← List.append_assoc, getLast?_append_right hs]

theorem SpelledType.getLast? (h : SpelledType E s) :
    s.getLast? = some '>' ∨ s.getLast? = some '~' ∨ s.getLast?.any isNameChar = true := by
  induction h with
  | body hs => exact hs.getLast?
  | modifier _ _ hs _ ih => rwa [getLast?_modifier hs.ne_nil]

/-- A modifier is part of the type behind it, with the blanks between them. -/
theorem typeLength_modifier_blanks {m g x : List Char} (hm : m ∈ typeModifiers)
    (hg : g.all isBlank = true) (hnext : g = [] → x.head?.any Char.isLower = false)
    (hx : typeLength x ≠ 0) : typeLength (m ++ (g ++ x)) = m.length + (g.length + typeLength x) := by
  have hne : ∀ m ∈ typeModifiers, m.length ≠ 0 := by decide
  have hlower : (g ++ x).head?.any Char.isLower = false := by
    cases g with
    | nil => exact hnext rfl
    | cons c rest =>
        have hblank : isBlank c = true := List.all_eq_true.mp hg c List.mem_cons_self
        exact head?_not_isLower (head?_blanks_append (b := [c]) (by simpa using hblank)
          (x := []) rfl)
  have hmodifiers : modifiersLength (m ++ (g ++ x)) = m.length + modifiersLength (g ++ x) := by
    rw [modifiersLength_eq, modifierLength_of_mem hm hlower, if_neg (hne m hm), List.drop_left]
  have hindent := typeLength_indent hg x hx
  rw [typeLength_of_modifiersLength (g ++ x) (by omega) hmodifiers, hindent]

/-- **A type without its mark** is recognised with what follows it. -/
theorem typeLength_unmarked (h : SpelledType E s) (hz : EndsBody s z) :
    typeLength (s ++ z) = s.length + (gap z + indirectionLength (z.drop (gap z))) ∨
      Stuck E (s ++ z) (typeLength (s ++ z)) := by
  induction h with
  | body hs hfree => exact typeLength_body hs hfree hz
  | @modifier m g s hm hg hs hnext ih =>
      have hlast := getLast?_modifier (m := m) (g := g) hs.ne_nil
      have hrest := ih ⟨fun h => hz.apart (hlast ▸ h), fun h => hz.tilde (hlast ▸ h), hz.scope,
        hz.argument⟩
      have hlower : g = [] → (s ++ z).head?.any Char.isLower = false := by
        intro hnil
        have hhead := hnext hnil
        obtain ⟨c, rest, hc⟩ := List.exists_cons_of_ne_nil hs.ne_nil
        rw [hc] at hhead ⊢
        exact hhead
      have hpos := List.length_pos_iff.mpr hs.ne_nil
      have htext : m ++ (g ++ s) ++ z = m ++ (g ++ (s ++ z)) := by simp
      rw [htext]
      rcases hrest with hrest | hstuck
      · left
        rw [typeLength_modifier_blanks hm hg hlower (by omega), hrest]
        simp only [List.length_append]
        omega
      · right
        rw [typeLength_modifier_blanks hm hg hlower hstuck.pos]
        exact (hstuck.append g).append m

section Mark

variable {k b y : List Char}

/-- The mark of a type and the blanks behind it. -/
theorem gap_add_indirectionLength (hk : SpelledMark k) (hb : b.all isBlank = true)
    (hy : y.head?.any goesOn = false) :
    gap (k ++ (b ++ y)) + indirectionLength ((k ++ (b ++ y)).drop (gap (k ++ (b ++ y)))) =
      k.length + b.length := by
  have hgap : gap (b ++ y) = b.length := by
    rw [gap_blanks_append hb, (Follows.mk (a := []) hy fun _ => rfl).gap_eq, Nat.add_zero]
  cases hk with
  | none =>
      have hnone : indirectionLength ([] ++ y) = 0 :=
        indirectionLength_append (fun u v hv => by simp at hv) ⟨hy, fun _ => rfl⟩
      rw [List.nil_append] at hnone ⊢
      rw [hgap, List.drop_left, hnone, List.length_nil]
      omega
  | @mark g c hg hc =>
      have hmark : gap (c :: (b ++ y)) = 0 := by
        rcases hc with rfl | rfl <;> exact gap_punctuation (by decide) _
      have hlength : indirectionLength (c :: (b ++ y)) = gap (b ++ y) + 1 := by
        rcases hc with rfl | rfl <;> rfl
      rw [List.append_assoc, List.singleton_append, gap_blanks_append hg, hmark, Nat.add_zero,
        List.drop_left, hlength, hgap, List.length_append, List.length_singleton]
      omega

/-- The name of a type does not go on with its mark, and without one not with what follows. -/
theorem EndsSpelled.endsBody (hk : SpelledMark k) (hs : SpelledType E s)
    (hy : EndsSpelled s k b y) : EndsBody s (k ++ (b ++ y)) := by
  have hfresh := hy.follows.fresh
  cases hk with
  | none =>
      have hgap : gap (b ++ y) = b.length := by
        rw [gap_blanks_append hy.blank, hy.follows.gap_eq, Nat.add_zero]
      rw [List.nil_append]
      refine ⟨fun hclose => ?_, fun htilde => ?_, ?_, ?_⟩
      · by_cases hb : b = []
        · subst hb
          rw [List.nil_append]
          cases hname : y.head?.any isNameChar with
          | false => rfl
          | true =>
              have hapart := hy.follows.apart hname
              rw [List.nil_append, List.append_nil] at hapart
              rcases hs.getLast? with hlast | hlast | hlast
              · exact absurd hlast hclose
              · exact absurd hname (by rw [hy.tilde rfl hlast]; decide)
              · exact nomatch hlast.symm.trans hapart
        · obtain ⟨c, rest, rfl⟩ := List.exists_cons_of_ne_nil hb
          exact head?_blanks_append (b := [c]) (x := []) (by
            simpa using List.all_eq_true.mp hy.blank c List.mem_cons_self) rfl
      · apply simpleName_eq_zero
        rw [hgap, List.drop_left]
        exact head?_not_isNameStart (hy.tilde rfl htilde)
      · rw [hgap, List.drop_left]
        exact hy.follows.not_scope
      · rw [hgap, List.drop_left]
        intro hopen
        rw [hopen] at hfresh
        exact nomatch hfresh
  | @mark g c hg hc =>
      have hmark : gap (c :: (b ++ y)) = 0 := by
        rcases hc with rfl | rfl <;> exact gap_punctuation (by decide) _
      have hname : isNameChar c = false := by rcases hc with rfl | rfl <;> rfl
      have hgap : gap (g ++ c :: (b ++ y)) = g.length := by
        rw [gap_blanks_append hg, hmark, Nat.add_zero]
      rw [List.append_assoc, List.singleton_append]
      refine ⟨fun _ => head?_blanks_append hg hname, fun _ => ?_, ?_, ?_⟩
      · apply simpleName_eq_zero
        rw [hgap, List.drop_left]
        exact head?_not_isNameStart (x := c :: (b ++ y)) hname
      · rw [hgap, List.drop_left]
        rintro ⟨v, hv⟩
        rcases hc with rfl | rfl <;> exact absurd (List.cons.inj hv).1 (by decide)
      · rw [hgap, List.drop_left]
        rcases hc with rfl | rfl <;> simp

end Mark

/-- **Types.**  A type is recognised with its mark and the blanks around it, unless the scanner meets
an operator name. -/
theorem typeLength_spelled {i k b y : List Char} (hi : i.all isBlank = true)
    (hs : SpelledType E s) (hk : SpelledMark k) (hy : EndsSpelled s k b y) :
    typeLength (i ++ (s ++ (k ++ (b ++ y)))) =
        i.length + (s.length + (k.length + b.length)) ∨
      Stuck E (i ++ (s ++ (k ++ (b ++ y)))) (typeLength (i ++ (s ++ (k ++ (b ++ y))))) := by
  have hpos := List.length_pos_iff.mpr hs.ne_nil
  have hmark := gap_add_indirectionLength hk hy.blank hy.follows.fresh
  rcases typeLength_unmarked hs (hy.endsBody hk hs) with hwhole | hstuck
  · left
    rw [typeLength_indent hi _ (by omega), hwhole, hmark]
  · right
    rw [typeLength_indent hi _ hstuck.pos]
    exact hstuck.append i

end Types

/-! ## Paths -/

section Paths

variable {l w q y : List Char} {cs : List (List Char)}

/-- Identifiers with `::` between them are a name. -/
theorem spelledName_chain (hl : Lead l) (hw : Identifier w) (hcs : ∀ c ∈ cs, Identifier c) :
    ∃ k : Shape, k ≠ .closed ∧ SpelledName False k (l ++ (w ++ chain cs)) := by
  by_cases hnone : cs = []
  · subst hnone
    have htext : w ++ chain [] = w := List.append_nil w
    rw [htext]
    exact ⟨.word, by decide, .word hl (hw.word False)⟩
  · have hmembers : ∀ c ∈ cs, ChainMember False c := fun c hc =>
      .name (b := []) rfl ((hcs c hc).word False) fun _ => (hcs c hc).fresh
    exact ⟨.path, by decide, .path (g := []) hl (hw.word False) rfl hnone hmembers⟩

theorem ScopePath.spelledName (p : ScopePath) :
    ∃ k : Shape, k ≠ .closed ∧ SpelledName False k p.text :=
  spelledName_chain .none p.identifier_first p.identifier_inner

theorem TypePath.spelledName (p : TypePath) :
    ∃ k : Shape, k ≠ .closed ∧ SpelledName False k p.full := by
  have hlead : Lead p.scopeText := by
    unfold scopeText
    split
    · exact .outermost (b := []) rfl
    · exact .none
  exact spelledName_chain hlead p.identifier_first p.identifier_inner

/-- A path ends in a letter. -/
theorem ScopePath.getLast?_text (p : ScopePath) : p.text.getLast?.any isNameChar = true := by
  rcases List.eq_nil_or_concat p.inner with hnone | ⟨cs, c, hcs⟩
  · have htext : p.text = p.first := by simp [ScopePath.text, hnone, chain]
    rw [htext]
    exact (p.identifier_first.word False).getLast?
  · have hc := p.identifier_inner c (by simp [hcs])
    have htext : p.text = (p.first ++ (chain cs ++ [':', ':'])) ++ c := by
      simp [ScopePath.text, hcs, chain]
    rw [htext, getLast?_append_right hc.ne_nil]
    exact (hc.word False).getLast?

/-- A name that ends in a letter is recognised with the gap behind it. -/
theorem SpelledName.qualifiedName_eq {k : Shape} (h : SpelledName False k q) (hk : k ≠ .closed)
    (hlast : q.getLast?.any isNameChar = true) (hy : EndsName y) :
    CppDoc.Syntax.qualifiedName (q ++ y) = q.length + gap y := by
  have hends : EndsStem False k q y := by
    refine ⟨hy.apart, fun htilde => ?_, .inl (scopeChain_eq_zero ?_)⟩
    · rw [htilde] at hlast
      cases hlast
    · split
      · exact hy.scope
      · exact hy.not_scope
  exact (qualifiedName_open h hk hends hy.argument).resolve_right fun hstuck => hstuck.operator

theorem ScopePath.qualifiedName_text (p : ScopePath) (hy : EndsName y) :
    qualifiedName (p.text ++ y) = p.text.length + gap y := by
  obtain ⟨k, hk, hname⟩ := p.spelledName
  exact hname.qualifiedName_eq hk p.getLast?_text hy

theorem TypePath.getLast?_full (p : TypePath) : p.full.getLast?.any isNameChar = true := by
  rw [full, getLast?_append_right p.text_ne_nil]
  exact p.getLast?_text

end Paths

/-! ## The characters of types -/

section Characters

variable {E : Prop} {s t x w g : List Char}

/-- May `c` stand in the name of a type? -/
def isTypeChar (c : Char) : Bool :=
  isNameChar c || c == ':' || c == '~' || c == '<' || c == '>'

/-- Every character of `s` is a blank or may stand in the name of a type. -/
def TypeChars (s : List Char) : Prop :=
  ∀ c ∈ s, isTypeChar c = true ∨ isBlank c = true

theorem TypeChars.append (hs : TypeChars s) (ht : TypeChars t) : TypeChars (s ++ t) := by
  intro c hc
  rcases List.mem_append.mp hc with hc | hc
  · exact hs c hc
  · exact ht c hc

theorem TypeChars.cons {c : Char} (hc : isTypeChar c = true) (hs : TypeChars s) :
    TypeChars (c :: s) := by
  intro d hd
  rcases List.mem_cons.mp hd with rfl | hd
  · exact .inl hc
  · exact hs d hd

theorem TypeChars.blanks (hg : g.all isBlank = true) : TypeChars g :=
  fun c hc => .inr (List.all_eq_true.mp hg c hc)

theorem TypeChars.word (hw : w.all isNameChar = true) : TypeChars w := by
  intro c hc
  have hname := List.all_eq_true.mp hw c hc
  exact .inl (by simp [isTypeChar, hname])

theorem TypeChars.not_mem {c : Char} (h : TypeChars s) (hc : isTypeChar c = false)
    (hblank : isBlank c = false) : c ∉ s := by
  intro hmem
  rcases h c hmem with htype | hspace
  · exact nomatch hc.symm.trans htype
  · exact nomatch hblank.symm.trans hspace

/-- There is no other white space in a type than blanks. -/
theorem TypeChars.isBlank (hs : TypeChars s) : ∀ c ∈ s, isSpace c = true → isBlank c = true := by
  intro c hc hspace
  rcases hs c hc with htype | hblank
  · simp only [isTypeChar, Bool.or_eq_true, beq_iff_eq] at htype
    rcases htype with (((hname | rfl) | rfl) | rfl) | rfl
    · rw [isSpace_eq_false_of_isNameChar hname] at hspace
      cases hspace
    all_goals exact absurd hspace (by decide)
  · exact hblank

theorem ChainMember.typeChars {c : List Char} (h : ChainMember E c) : TypeChars c := by
  cases h with
  | name hb hw => exact (TypeChars.blanks hb).append (.word hw.chars)
  | destructor hb hw => exact ((TypeChars.blanks hb).append (.word hw.chars)).cons rfl
  | tilde => exact TypeChars.cons rfl nofun

theorem typeChars_chain {cs : List (List Char)} (hcs : ∀ c ∈ cs, ChainMember E c) :
    TypeChars (chain cs) := by
  induction cs with
  | nil => exact nofun
  | cons c cs ih =>
      have hrest := ih fun d hd => hcs d (List.mem_cons_of_mem c hd)
      rw [chain_cons_eq]
      exact (((hcs c List.mem_cons_self).typeChars.append hrest).cons rfl).cons rfl

theorem Lead.typeChars {l : List Char} (h : Lead l) : TypeChars l := by
  cases h with
  | none => exact nofun
  | outermost hb => exact ((TypeChars.blanks hb).cons rfl).cons rfl

theorem SpelledName.typeChars {k : Shape} {q : List Char} (h : SpelledName E k q) : TypeChars q := by
  induction h with
  | word hl hw => exact hl.typeChars.append (.word hw.chars)
  | path hl hw hg _ hcs =>
      exact hl.typeChars.append ((TypeChars.word hw.chars).append
        ((TypeChars.blanks hg).append (typeChars_chain hcs)))
  | closed _ _ hg hh _ hg' _ ihq iha =>
      have hclose : TypeChars ['>'] := TypeChars.cons rfl nofun
      exact ihq.append ((TypeChars.blanks hg).append (((TypeChars.blanks hh).append
        (iha.append ((TypeChars.blanks hg').append hclose))).cons rfl))

theorem SpelledBody.typeChars (h : SpelledBody E x) : TypeChars x := by
  cases h with
  | name hq => exact hq.typeChars
  | member hq hg hb hw =>
      exact hq.typeChars.append ((TypeChars.blanks hg).append
        ((((TypeChars.blanks hb).append (.word hw.chars)).cons rfl).cons rfl))

theorem SpelledType.typeChars (h : SpelledType E x) : TypeChars x := by
  induction h with
  | body hs => exact hs.typeChars
  | modifier hm hg _ _ ih =>
      have hall : ∀ m ∈ typeModifiers, m.all isNameChar = true := by decide
      exact (TypeChars.word (hall _ hm)).append ((TypeChars.blanks hg).append ih)

end Characters

end CppDoc.Syntax
