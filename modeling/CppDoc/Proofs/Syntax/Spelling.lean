import CppDoc.Proofs.Syntax.Closing
import CppDoc.Proofs.Syntax.Conversion
import CppDoc.Proofs.Syntax.ParameterSpec

/-!
# Names as they may be spelled

The texts that the scanner of names takes for a name, line comments apart, with blanks wherever it
passes over them.  A name is made of words, which may be joined by `::` and followed by template
arguments.

The keyword of operator names may begin a word as well, and then the scanner takes all that follows
for an operator name if there is a parenthesis in the right place.  The proposition `E` says whether
words may begin that way; if so, a scan may end in front of such a parenthesis instead.

* `Word`, `ChainMember` and `SpelledName`: names as they may be spelled;
* `qualifiedName_spelled`: a name is recognised as a whole, or the scanner meets an operator name.
-/

namespace CppDoc.Syntax

open CppDoc.Text

/-- The end of a text is that of its last part. -/
theorem getLast?_append_right {a b : List Char} (hb : b ≠ []) :
    (a ++ b).getLast? = b.getLast? := by
  rw [List.getLast?_append, List.getLast?_eq_some_getLast hb, Option.some_or]

/-! ## Words -/

/-- An identifier.  The keyword of operator names may begin it only if `E` holds. -/
structure Word (E : Prop) (w : List Char) : Prop where
  start : w.head?.any isNameStart = true
  chars : w.all isNameChar = true
  keyword : operatorKeyword <+: w → E

/-- The scan of `s` ended in front of the parenthesis behind an operator name. -/
structure Halted (E : Prop) (s : List Char) (n : Nat) : Prop where
  operator : E
  pos : n ≠ 0
  opens : (s.drop n).head? = some '('

section Word

variable {E : Prop} {w x s : List Char} {n : Nat}

theorem Identifier.word (h : Identifier w) (E : Prop) : Word E w :=
  ⟨h.start, h.chars, fun hkeyword => absurd hkeyword h.fresh⟩

theorem Word.ne_nil (h : Word E w) : w ≠ [] := by
  rintro rfl
  exact nomatch h.start

theorem Word.append_start (h : Word E w) (x : List Char) :
    (w ++ x).head?.any isNameStart = true := by
  obtain ⟨d, rest, rfl⟩ := List.exists_cons_of_ne_nil h.ne_nil
  exact h.start

theorem Word.gap_append (h : Word E w) (x : List Char) : gap (w ++ x) = 0 :=
  gap_eq_zero_of_isNameStart (h.append_start x)

theorem Word.solid (h : Word E w) : Solid w :=
  fun d hd => isSpace_eq_false_of_isNameChar (List.all_eq_true.mp h.chars d hd)

theorem Word.identifierLength_append (h : Word E w) (hx : x.head?.any isNameChar = false) :
    identifierLength (w ++ x) = w.length :=
  identifierLength_word h.start h.chars hx

theorem Halted.of_drop {k : Nat} (h : Halted E (s.drop k) n) : Halted E s (k + n) where
  operator := h.operator
  pos := by
    have := h.pos
    omega
  opens := by
    rw [← List.drop_drop]
    exact h.opens

theorem Halted.append (h : Halted E s n) (a : List Char) : Halted E (a ++ s) (a.length + n) :=
  .of_drop (by rwa [List.drop_left])

/-- A parenthesis stands behind what follows the keyword of an operator name. -/
theorem operatorTail_opens (h : operatorTail s ≠ 0) :
    (s.drop (operatorTail s)).head? = some '(' := by
  rw [operatorTail_eq] at h ⊢
  dsimp only at h ⊢
  split at h
  · exact absurd rfl h
  · rename_i hpart
    rw [if_neg hpart]
    split at h
    · rename_i hopen
      rwa [if_pos hopen]
    · exact absurd rfl h

/-- A parenthesis stands behind an operator name. -/
theorem operatorLength_opens (h : operatorLength s ≠ 0) :
    operatorKeyword <+: s ∧ (s.drop (operatorLength s)).head? = some '(' := by
  unfold operatorLength at h ⊢
  split at h
  · rename_i hprefix
    split at h
    · exact absurd rfl h
    · rename_i htail
      rw [if_pos hprefix, if_neg htail, ← List.drop_drop]
      exact ⟨List.isPrefixOf_iff_prefix.mp hprefix, operatorTail_opens htail⟩
  · exact absurd rfl h

/-- The length of a name that begins at the front of `s`. -/
def nameLength (s : List Char) : Nat :=
  if operatorLength s = 0 then identifierLength s else operatorLength s

theorem simpleName_eq_nameLength (s : List Char) :
    simpleName s =
      if nameLength (s.drop (gap s)) = 0 then 0 else gap s + nameLength (s.drop (gap s)) :=
  simpleName_eq_operatorLength s

/-- A word is recognised as a whole, if it does not begin an operator name. -/
theorem simpleName_word (hw : Word E w) (hx : x.head?.any isNameChar = false) :
    simpleName (w ++ x) = w.length ∨ Halted E (w ++ x) (simpleName (w ++ x)) := by
  have hpos := List.length_pos_iff.mpr hw.ne_nil
  rw [simpleName_eq_nameLength, hw.gap_append, List.drop_zero, nameLength]
  by_cases hoperator : operatorLength (w ++ x) = 0
  · left
    rw [if_pos hoperator, hw.identifierLength_append hx, if_neg (Nat.ne_of_gt hpos), Nat.zero_add]
  · right
    obtain ⟨hbegins, hopen⟩ := operatorLength_opens hoperator
    have hkeyword : operatorKeyword <+: w := Decidable.not_not.mp fun hno =>
      not_prefix_append (by decide) hno (fun _ => hx) hbegins
    rw [if_neg hoperator, if_neg hoperator, Nat.zero_add]
    exact ⟨hw.keyword hkeyword, hoperator, hopen⟩

/-- Blanks before a name are measured with it. -/
theorem simpleName_indent {b : List Char} (hb : b.all isBlank = true) (s : List Char) :
    simpleName (b ++ s) = if simpleName s = 0 then 0 else b.length + simpleName s := by
  rw [simpleName_eq_nameLength, simpleName_eq_nameLength, gap_blanks_append hb,
    List.drop_length_add_append]
  by_cases hzero : nameLength (s.drop (gap s)) = 0
  · rw [if_pos hzero, if_pos hzero, if_pos rfl]
  · rw [if_neg hzero, if_neg hzero, if_neg (by omega), Nat.add_assoc]

/-- A word behind blanks. -/
theorem simpleName_blanks_word {b : List Char} (hb : b.all isBlank = true) (hw : Word E w)
    (hx : x.head?.any isNameChar = false) :
    simpleName (b ++ (w ++ x)) = b.length + w.length ∨
      Halted E (b ++ (w ++ x)) (simpleName (b ++ (w ++ x))) := by
  have hpos := List.length_pos_iff.mpr hw.ne_nil
  rw [simpleName_indent hb]
  rcases simpleName_word hw hx with hname | hhalted
  · left
    rw [hname, if_neg (Nat.ne_of_gt hpos)]
  · right
    rw [if_neg hhalted.pos]
    exact hhalted.append b

theorem isNameChar_eq_false_of_isBlank {c : Char} (h : isBlank c = true) : isNameChar c = false := by
  cases hname : isNameChar c with
  | false => rfl
  | true => exact nomatch h.symm.trans (isBlank_eq_false_of_isNameChar hname)

/-- A blank begins no name. -/
theorem head?_blanks_append {b : List Char} (hb : b.all isBlank = true)
    (hx : x.head?.any isNameChar = false) : (b ++ x).head?.any isNameChar = false := by
  cases b with
  | nil => exact hx
  | cons c rest =>
      exact isNameChar_eq_false_of_isBlank (List.all_eq_true.mp hb c List.mem_cons_self)

/-- A blank begins no keyword. -/
theorem not_prefix_blanks_append {b v : List Char} (hb : b.all isBlank = true) (hne : b ≠ [])
    {c : Char} (hc : v.head? = some c) (hblank : isBlank c = false) (s : List Char) :
    ¬ v <+: b ++ s := by
  rintro ⟨u, hu⟩
  obtain ⟨d, rest, rfl⟩ := List.exists_cons_of_ne_nil hne
  obtain ⟨tail, rfl⟩ := List.head?_eq_some_iff.mp hc
  obtain rfl : c = d := (List.cons.inj hu).1
  exact nomatch hblank.symm.trans (List.all_eq_true.mp hb c List.mem_cons_self)

end Word

/-! ## Members -/

/-- What may stand behind a `::` in a chain of members: a word, or a destructor, whose mark counts
even without a word.  Right behind the `::`, the keyword of operator names begins no word. -/
inductive ChainMember (E : Prop) : List Char → Prop
  | name {b w : List Char} (hb : b.all isBlank = true) (hw : Word E w)
      (hkey : b = [] → ¬ operatorKeyword <+: w) : ChainMember E (b ++ w)
  | destructor {b w : List Char} (hb : b.all isBlank = true) (hw : Word E w) :
      ChainMember E ('~' :: (b ++ w))
  | tilde : ChainMember E ['~']

section Member

variable {E : Prop} {c x : List Char}

theorem ChainMember.ne_nil (h : ChainMember E c) : c ≠ [] := by
  cases h with
  | name hb hw => simp [hw.ne_nil]
  | destructor => exact List.cons_ne_nil _ _
  | tilde => exact List.cons_ne_nil _ _

/-- A member of a chain is recognised as a whole. -/
theorem scopeMember_chainMember (hc : ChainMember E c) (hx : x.head?.any isNameChar = false)
    (htilde : c = ['~'] → simpleName x = 0) :
    scopeMember (c ++ x) = c.length ∨ Halted E (c ++ x) (scopeMember (c ++ x)) := by
  have hmark (s : List Char) : scopeMember ('~' :: s) = simpleName s + 1 := by
    have hno : ¬ operatorKeyword.isPrefixOf ('~' :: s) = true := by
      rw [List.isPrefixOf_iff_prefix]
      rintro ⟨v, hv⟩
      exact absurd (List.cons.inj hv).1 (by decide)
    rw [scopeMember_eq, if_neg hno, List.head?_cons, if_pos rfl, List.tail_cons]
  cases hc with
  | @name b w hb hw hkey =>
      have hno : ¬ operatorKeyword.isPrefixOf (b ++ (w ++ x)) = true := by
        rw [List.isPrefixOf_iff_prefix]
        by_cases hnil : b = []
        · subst hnil
          rw [List.nil_append]
          exact not_prefix_append (by decide) (hkey rfl) fun _ => hx
        · exact not_prefix_blanks_append hb hnil (c := 'o') rfl rfl _
      have htilde : (b ++ (w ++ x)).head? ≠ some '~' := by
        cases b with
        | nil =>
            intro hhead
            have hstart := hw.append_start x
            rw [List.nil_append] at hhead
            rw [hhead] at hstart
            exact nomatch hstart
        | cons d rest =>
            have hblank : isBlank d = true := List.all_eq_true.mp hb d List.mem_cons_self
            intro hhead
            rw [Option.some.inj hhead] at hblank
            exact nomatch hblank
      rw [List.append_assoc, scopeMember_eq, if_neg hno, if_neg htilde, List.length_append]
      exact simpleName_blanks_word hb hw hx
  | @destructor b w hb hw =>
      rw [List.cons_append, hmark, List.append_assoc, List.length_cons, List.length_append]
      rcases simpleName_blanks_word hb hw hx with hname | hhalted
      · exact .inl (by rw [hname])
      · right
        have hbehind := hhalted.append ['~']
        rwa [Nat.add_comm]
  | tilde =>
      left
      rw [List.singleton_append, hmark, htilde rfl]
      rfl

/-- The members of a chain. -/
theorem chain_cons_eq (c : List Char) (cs : List (List Char)) :
    chain (c :: cs) = ':' :: ':' :: (c ++ chain cs) := by
  simp [chain]

theorem chain_ne_nil {cs : List (List Char)} (h : cs ≠ []) : chain cs ≠ [] := by
  obtain ⟨c, ds, rfl⟩ := List.exists_cons_of_ne_nil h
  rw [chain_cons_eq]
  exact List.cons_ne_nil _ _

/-- **A chain** is recognised with what goes on behind it. -/
theorem scopeChain_members {cs : List (List Char)} (hcs : ∀ c ∈ cs, ChainMember E c)
    (hx : x.head?.any isNameChar = false)
    (htilde : (chain cs).getLast? = some '~' → simpleName x = 0) :
    scopeChain (chain cs ++ x) = (chain cs).length + scopeChain x ∨
      Halted E (chain cs ++ x) (scopeChain (chain cs ++ x)) := by
  induction cs with
  | nil => exact .inl (by simp [chain])
  | cons c cs ih =>
      have hc := hcs c List.mem_cons_self
      have hbehind : (chain cs ++ x).head?.any isNameChar = false := head?_chain_append hx
      have hmark : c = ['~'] → simpleName (chain cs ++ x) = 0 := by
        rintro rfl
        cases cs with
        | nil => exact htilde rfl
        | cons d ds =>
            apply simpleName_eq_zero
            rw [chain_cons, gap_punctuation (by decide)]
            rfl
      have hlast : (chain cs).getLast? = some '~' → simpleName x = 0 := by
        intro hlast
        apply htilde
        rw [chain_cons_eq, ← List.cons_append, ← List.cons_append, List.getLast?_append, hlast]
        rfl
      have hlength : (chain (c :: cs)).length = c.length + 2 + (chain cs).length := by
        rw [chain_cons_eq, List.length_cons, List.length_cons, List.length_append]
        omega
      have htext : chain (c :: cs) ++ x = [':', ':'] ++ (c ++ (chain cs ++ x)) := by
        rw [chain_cons_eq]
        simp
      have hpos := List.length_pos_iff.mpr hc.ne_nil
      rw [hlength, htext, List.cons_append, List.singleton_append, scopeChain_cons]
      rcases scopeMember_chainMember hc hbehind hmark with hwhole | hhalted
      · rw [hwhole, if_neg (Nat.ne_of_gt hpos), List.drop_left]
        rcases ih (fun d hd => hcs d (List.mem_cons_of_mem c hd)) hlast with hrest | hhalted
        · exact .inl (by rw [hrest]; omega)
        · right
          have hwhole := (hhalted.append c).append [':', ':']
          rwa [← Nat.add_assoc, Nat.add_comm [':', ':'].length] at hwhole
      · right
        obtain ⟨rest, hrest⟩ := List.head?_eq_some_iff.mp hhalted.opens
        have hwhole := hhalted.append [':', ':']
        rwa [if_neg hhalted.pos, hrest, scopeChain_parenthesis, Nat.add_zero, Nat.add_comm]

end Member

/-! ## Names -/

/-- What may stand in front of the first word of a name. -/
inductive Lead : List Char → Prop
  | none : Lead []
  | outermost {b : List Char} (hb : b.all isBlank = true) : Lead (':' :: ':' :: b)

/-- How a name ends: with its only word, with a chain of members, or with template arguments. -/
inductive Shape where
  | word
  | path
  | closed
  deriving DecidableEq

/-- A name as it may be spelled.  The blanks behind a template argument that has arguments itself are
no part of it. -/
inductive SpelledName (E : Prop) : Shape → List Char → Prop
  | word {l w : List Char} (hl : Lead l) (hw : Word E w) : SpelledName E .word (l ++ w)
  | path {l w g : List Char} {cs : List (List Char)} (hl : Lead l) (hw : Word E w)
      (hg : g.all isBlank = true) (hne : cs ≠ []) (hcs : ∀ c ∈ cs, ChainMember E c) :
      SpelledName E .path (l ++ (w ++ (g ++ chain cs)))
  | closed {k i : Shape} {q g h a g' : List Char} (hq : SpelledName E k q) (hk : k ≠ .closed)
      (hg : g.all isBlank = true) (hh : h.all isBlank = true) (ha : SpelledName E i a)
      (hg' : g'.all isBlank = true) (hi : i = .closed → g' = []) :
      SpelledName E .closed (q ++ (g ++ '<' :: (h ++ (a ++ (g' ++ ['>'])))))

/-- The name `q` without template arguments goes on with `y` neither as a word nor as a chain. -/
structure EndsStem (E : Prop) (k : Shape) (q y : List Char) : Prop where
  apart : y.head?.any isNameChar = false
  tilde : q.getLast? = some '~' → simpleName y = 0
  scope : let z := if k = .word then y.drop (gap y) else y
    scopeChain z = 0 ∨ Halted E z (scopeChain z)

section Name

variable {E : Prop} {k : Shape} {q w l x y s : List Char}

/-- A parenthesis ends a name. -/
theorem nameEnd_parenthesis {l : Nat} (h : (s.drop l).head? = some '(') : nameEnd s l = l := by
  obtain ⟨rest, hrest⟩ := List.head?_eq_some_iff.mp h
  rw [nameEnd, hrest, gap_parenthesis, Nat.add_zero, templateEnd, if_neg (by rw [h]; decide)]

/-- A name ends with its first part, if that is an operator name. -/
theorem qualifiedName_eq_of_name {n : Nat} (hn : simpleName (s.drop (leadingScope s)) = n)
    (hpos : n ≠ 0) (hopens : (s.drop (leadingScope s + n)).head? = some '(') :
    qualifiedName s = leadingScope s + n := by
  obtain ⟨rest, hrest⟩ := List.head?_eq_some_iff.mp hopens
  rw [qualifiedName_eq]
  dsimp only
  rw [hn, if_neg hpos, hrest, gap_parenthesis, Nat.add_zero, hrest, scopeChain_parenthesis,
    Nat.add_zero, nameEnd_parenthesis hopens]

/-- The gap in front of the first word of a name. -/
theorem leadingScope_lead (hl : Lead l) (hw : Word E w) (y : List Char) :
    leadingScope (l ++ (w ++ y)) = l.length := by
  have hgap := hw.gap_append y
  cases hl with
  | none =>
      rw [List.nil_append, leadingScope_of_not_scope, hgap, List.length_nil]
      rw [hgap, List.drop_zero]
      rintro ⟨v, hv⟩
      have hstart := hw.append_start y
      rw [← hv] at hstart
      exact nomatch hstart
  | @outermost b hb =>
      have hcolons (s : List Char) : gap (':' :: ':' :: s) = 0 := gap_punctuation (by decide) _
      rw [List.cons_append, List.cons_append, leadingScope_of_scope (b := b ++ (w ++ y))
        (by rw [hcolons, List.drop_zero]), hcolons, gap_blanks_append hb, hgap]
      simp only [List.length_cons]
      omega

/-- What is left behind the first word of a name. -/
theorem drop_lead (l w x : List Char) (n : Nat) :
    (l ++ (w ++ x)).drop (l.length + w.length + n) = x.drop n := by
  rw [Nat.add_assoc, List.drop_length_add_append, List.drop_length_add_append]

/-- A name goes on behind its first word with a chain of members. -/
theorem qualifiedName_lead (hl : Lead l) (hw : Word E w) (hname : simpleName (w ++ x) = w.length) :
    qualifiedName (l ++ (w ++ x)) =
      nameEnd (l ++ (w ++ x)) (l.length + w.length + gap x + scopeChain (x.drop (gap x))) := by
  have hbehind : (l ++ (w ++ x)).drop (l.length + w.length) = x := by
    rw [List.drop_length_add_append, List.drop_left]
  rw [qualifiedName_eq]
  dsimp only
  rw [leadingScope_lead hl hw, List.drop_left, hname,
    if_neg (Nat.ne_of_gt (List.length_pos_iff.mpr hw.ne_nil)), hbehind, drop_lead]

/-- A name halts where its first word does. -/
theorem halted_first (hl : Lead l) (hw : Word E w)
    (h : Halted E (w ++ x) (simpleName (w ++ x))) :
    Halted E (l ++ (w ++ x)) (qualifiedName (l ++ (w ++ x))) := by
  have hlead := leadingScope_lead hl hw x
  have hwhole := h.append l
  rw [← hlead] at hwhole
  rwa [← qualifiedName_eq_of_name (by rw [hlead, List.drop_left]) h.pos hwhole.opens] at hwhole

/-- A name halts where its chain of members does. -/
theorem halted_members (hl : Lead l) (hw : Word E w) (hname : simpleName (w ++ x) = w.length)
    (h : Halted E (x.drop (gap x)) (scopeChain (x.drop (gap x)))) :
    Halted E (l ++ (w ++ x)) (qualifiedName (l ++ (w ++ x))) := by
  rw [← drop_lead l w x (gap x)] at h
  have hwhole := h.of_drop
  rw [drop_lead] at hwhole
  rwa [qualifiedName_lead hl hw hname, nameEnd_parenthesis hwhole.opens]

/-- The chain of members behind the first word of a name, with the blanks between them. -/
theorem gap_members {g : List Char} {cs : List (List Char)} (hg : g.all isBlank = true)
    (hne : cs ≠ []) (y : List Char) : gap (g ++ (chain cs ++ y)) = g.length := by
  obtain ⟨c, ds, rfl⟩ := List.exists_cons_of_ne_nil hne
  rw [gap_blanks_append hg, chain_cons, gap_punctuation (by decide), Nat.add_zero]

/-- **A name without template arguments** is recognised with the gap behind it. -/
theorem qualifiedName_stem (h : SpelledName E k q) (hk : k ≠ .closed) (hy : EndsStem E k q y) :
    qualifiedName (q ++ y) = templateEnd (q ++ y) (q.length + gap y) ∨
      Halted E (q ++ y) (qualifiedName (q ++ y)) := by
  cases h with
  | closed => exact absurd rfl hk
  | @word l w hl hw =>
      rw [List.append_assoc, List.length_append]
      rcases simpleName_word hw hy.apart with hname | hhalted
      · rcases hy.scope with hscope | hhalted
        · left
          rw [if_pos rfl] at hscope
          rw [qualifiedName_lead hl hw hname, hscope, Nat.add_zero, nameEnd, drop_lead, gap_drop_gap,
            Nat.add_zero]
        · exact .inr (halted_members hl hw hname hhalted)
      · exact .inr (halted_first hl hw hhalted)
  | @path l w g cs hl hw hg hne hcs =>
      have htext : l ++ (w ++ (g ++ chain cs)) ++ y = l ++ (w ++ (g ++ (chain cs ++ y))) := by
        simp
      have hlength : (l ++ (w ++ (g ++ chain cs))).length =
          l.length + w.length + (g.length + (chain cs).length) := by
        simp only [List.length_append]
        omega
      have hlast : (l ++ (w ++ (g ++ chain cs))).getLast? = (chain cs).getLast? := by
        rw [← List.append_assoc, ← List.append_assoc, getLast?_append_right (chain_ne_nil hne)]
      have hbehind : (g ++ (chain cs ++ y)).drop (gap (g ++ (chain cs ++ y))) = chain cs ++ y := by
        rw [gap_members hg hne, List.drop_left]
      rw [htext, hlength]
      rcases simpleName_word hw (head?_blanks_append hg (head?_chain_append hy.apart))
        with hname | hhalted
      · have hhalt (h : Halted E (chain cs ++ y) (scopeChain (chain cs ++ y))) :=
          halted_members hl hw hname (by rwa [hbehind])
        rcases scopeChain_members hcs hy.apart fun h => hy.tilde (hlast.trans h)
          with hmembers | hhalted
        · rcases hy.scope with hscope | hhalted
          · left
            rw [if_neg (by decide)] at hscope
            rw [qualifiedName_lead hl hw hname, hbehind, hmembers, hscope, gap_members hg hne,
              Nat.add_zero, nameEnd, Nat.add_assoc _ g.length, drop_lead, List.drop_length_add_append,
              List.drop_left]
          · rw [if_neg (by decide)] at hhalted
            exact .inr (hhalt (hmembers ▸ hhalted.append _))
        · exact .inr (hhalt hhalted)
      · exact .inr (halted_first hl hw hhalted)

/-- Punctuation behind blanks ends a name. -/
theorem endsStem_punctuation {g t : List Char} {c : Char} (hg : g.all isBlank = true)
    (hc : gap (c :: t) = 0) (hname : isNameChar c = false) (hcolon : c ≠ ':') :
    EndsStem E k q (g ++ c :: t) := by
  have hgap : gap (g ++ c :: t) = g.length := by rw [gap_blanks_append hg, hc, Nat.add_zero]
  have hno : ¬ [':', ':'] <+: c :: t := by
    rintro ⟨v, hv⟩
    exact hcolon (List.cons.inj hv).1.symm
  refine ⟨head?_blanks_append hg hname, fun _ => ?_, .inl ?_⟩
  · apply simpleName_eq_zero
    rw [hgap, List.drop_left]
    exact head?_not_isNameStart hname
  · apply scopeChain_eq_zero
    split
    · rwa [hgap, List.drop_left]
    · by_cases hnil : g = []
      · rwa [hnil]
      · exact not_prefix_blanks_append hg hnil (c := ':') rfl rfl _

/-- The scan of `s` ended in front of the parenthesis behind an operator name, or in front of the
template argument in which it met one. -/
structure Stuck (E : Prop) (s : List Char) (n : Nat) : Prop where
  operator : E
  pos : n ≠ 0
  opens : '(' ∈ s
  stop : (s.drop n).head? = some '(' ∨ (s.drop n).head? = some '<'

theorem Halted.stuck {n : Nat} (h : Halted E s n) : Stuck E s n :=
  ⟨h.operator, h.pos, List.mem_of_mem_drop (List.mem_of_head? h.opens), .inl h.opens⟩

theorem Stuck.append {n : Nat} (h : Stuck E s n) (a : List Char) :
    Stuck E (a ++ s) (a.length + n) where
  operator := h.operator
  pos := by
    have := h.pos
    omega
  opens := List.mem_append_right a h.opens
  stop := by
    rw [List.drop_length_add_append]
    exact h.stop

theorem SpelledName.ne_nil (h : SpelledName E k q) : q ≠ [] := by
  cases h with
  | word hl hw => simp [hw.ne_nil]
  | path hl hw => simp [hw.ne_nil]
  | closed => simp

/-- A name without template arguments is recognised as a whole, if none follow. -/
theorem qualifiedName_open (h : SpelledName E k q) (hk : k ≠ .closed) (hy : EndsStem E k q y)
    (hnone : (y.drop (gap y)).head? ≠ some '<') :
    qualifiedName (q ++ y) = q.length + gap y ∨ Stuck E (q ++ y) (qualifiedName (q ++ y)) := by
  rcases qualifiedName_stem h hk hy with hname | hhalted
  · left
    rw [hname, templateEnd, List.drop_length_add_append, if_neg hnone]
  · exact .inr hhalted.stuck

/-- A template argument in which the scanner is stuck does not count. -/
theorem templateEnd_of_stuck {n : Nat} {b : List Char} (hdrop : s.drop n = '<' :: b)
    (h : Stuck E b (qualifiedName b)) : templateEnd s n = n := by
  simp only [templateEnd, hdrop, List.head?_cons, if_true, List.tail_cons]
  rw [if_neg]
  rcases h.stop with hstop | hstop <;> simp [hstop]

/-- Template arguments end a name: behind them, or where the scanner is stuck in them. -/
theorem qualifiedName_closed {g b : List Char} {n : Nat} (hq : SpelledName E k q) (hk : k ≠ .closed)
    (hg : g.all isBlank = true) (hn : n ≠ 0) (hclose : (b.drop n).head? = some '>')
    (hargument : qualifiedName b = n ∨ Stuck E b (qualifiedName b)) :
    qualifiedName (q ++ (g ++ '<' :: b)) = q.length + g.length + 1 + n + 1 ∨
      Stuck E (q ++ (g ++ '<' :: b)) (qualifiedName (q ++ (g ++ '<' :: b))) := by
  have hopen : gap ('<' :: b) = 0 := gap_punctuation (by decide) _
  have hgap : gap (g ++ '<' :: b) = g.length := by rw [gap_blanks_append hg, hopen, Nat.add_zero]
  have hdrop : (q ++ (g ++ '<' :: b)).drop (q.length + gap (g ++ '<' :: b)) = '<' :: b := by
    rw [List.drop_length_add_append, hgap, List.drop_left]
  rcases qualifiedName_stem hq hk (endsStem_punctuation hg hopen rfl (by decide))
    with hname | hhalted
  · rw [hname]
    rcases hargument with rfl | hstuck
    · left
      rw [templateEnd_of_argument hdrop (Nat.pos_of_ne_zero hn) hclose, hgap]
      omega
    · right
      have hpos := List.length_pos_iff.mpr hq.ne_nil
      rw [templateEnd_of_stuck hdrop hstuck]
      refine ⟨hstuck.operator, by omega, ?_, .inr (by rw [hdrop]; rfl)⟩
      exact List.mem_append_right q
        (List.mem_append_right g (List.mem_cons_of_mem _ hstuck.opens))
  · exact .inr hhalted.stuck

/-- **A name** is recognised as a whole, if it does not go on: with the gap behind it, unless template
arguments end it. -/
theorem qualifiedName_spelled (h : SpelledName E k q)
    (hy : k ≠ .closed → EndsStem E k q y ∧ (y.drop (gap y)).head? ≠ some '<') :
    qualifiedName (q ++ y) = q.length + (if k = .closed then 0 else gap y) ∨
      Stuck E (q ++ y) (qualifiedName (q ++ y)) := by
  induction h generalizing y with
  | word hl hw =>
      obtain ⟨hends, hnone⟩ := hy (by decide)
      exact qualifiedName_open (.word hl hw) (by decide) hends hnone
  | path hl hw hg hne hcs =>
      obtain ⟨hends, hnone⟩ := hy (by decide)
      exact qualifiedName_open (.path hl hw hg hne hcs) (by decide) hends hnone
  | @closed k i q g h a g' hq hk hg hh ha hg' hi _ ih =>
      have hclose : gap ('>' :: y) = 0 := gap_punctuation (by decide) _
      have hgap : gap (g' ++ '>' :: y) = g'.length := by
        rw [gap_blanks_append hg', hclose, Nat.add_zero]
      have hinner := ih (y := g' ++ '>' :: y) fun _ =>
        ⟨endsStem_punctuation hg' hclose rfl (by decide), by rw [hgap, List.drop_left]; simp⟩
      have hblanks : (if i = .closed then 0 else gap (g' ++ '>' :: y)) = g'.length := by
        split
        · rename_i hclosed
          rw [hi hclosed]
          rfl
        · exact hgap
      rw [hblanks] at hinner
      have hpos := List.length_pos_iff.mpr ha.ne_nil
      -- The blanks in front of the argument are measured with it.
      have hargument : qualifiedName (h ++ (a ++ (g' ++ '>' :: y))) =
            h.length + (a.length + g'.length) ∨
          Stuck E (h ++ (a ++ (g' ++ '>' :: y))) (qualifiedName (h ++ (a ++ (g' ++ '>' :: y)))) := by
        rcases hinner with hinner | hstuck
        · exact .inl (by rw [qualifiedName_indent hh _ (by omega), hinner])
        · right
          rw [qualifiedName_indent hh _ hstuck.pos]
          exact hstuck.append h
      have hbehind : ((h ++ (a ++ (g' ++ '>' :: y))).drop
          (h.length + (a.length + g'.length))).head? = some '>' := by
        rw [List.drop_length_add_append, List.drop_length_add_append, List.drop_left]
        rfl
      have htext : q ++ (g ++ '<' :: (h ++ (a ++ (g' ++ ['>'])))) ++ y =
          q ++ (g ++ '<' :: (h ++ (a ++ (g' ++ '>' :: y)))) := by
        simp
      have hlength : (q ++ (g ++ '<' :: (h ++ (a ++ (g' ++ ['>']))))).length =
          q.length + g.length + 1 + (h.length + (a.length + g'.length)) + 1 := by
        simp only [List.length_append, List.length_cons, List.length_nil]
        omega
      rw [htext, hlength, if_pos rfl, Nat.add_zero]
      exact qualifiedName_closed hq hk hg (by omega) hbehind hargument

end Name

end CppDoc.Syntax
