import CppDoc.Proofs.Syntax.Boundary

/-!
# How far scanners look ahead

What a scanner recognises at the head of a text may depend on what follows it.  `Alike a x y` says
that `a` may be followed by `x` and by `y`, and that a name stands there in both cases or in neither.
Then a scanner that ends with `a` in one case does so in the other: it gives the same length, or it is
**unsettled** in both cases, which means that it runs over the boundary or gives up before it.

* `simpleName_alike` for names, `scopeChain_alike` and `qualifiedName_alike` for names with scopes;
* `typeLength_alike` for types, and `typeLength_eq_of_alike` for a type that ends at the boundary.
-/

namespace CppDoc.Syntax

open CppDoc.Text

/-- Behind `a` there may be `x` or `y`, with a name in both cases or in neither. -/
structure Alike (a x y : List Char) : Prop where
  left : Follows a x
  right : Follows a y
  starts : x.head?.any isNameStart = y.head?.any isNameStart

theorem Alike.drop {a x y : List Char} (h : Alike a x y) (n : Nat) : Alike (a.drop n) x y :=
  ⟨h.left.drop n, h.right.drop n, h.starts⟩

/-! ## Names -/

/-- Where no operator name stands, a name is an identifier. -/
theorem simpleName_eq {s : List Char} (h : ¬ operatorKeyword <+: s.drop (gap s)) :
    simpleName s =
      if identifierLength (s.drop (gap s)) = 0 then 0
      else gap s + identifierLength (s.drop (gap s)) := by
  have hno : ¬ operatorKeyword.isPrefixOf (s.drop (gap s)) = true := by
    rwa [List.isPrefixOf_iff_prefix]
  rw [simpleName]
  simp [hno]

/-- An identifier behind a gap is a name, or the beginning of one. -/
theorem lt_simpleName {s : List Char} (h : identifierLength (s.drop (gap s)) ≠ 0) :
    gap s < simpleName s := by
  rw [simpleName]
  dsimp only
  generalize dite (operatorKeyword.isPrefixOf (s.drop (gap s)) = true) _ _ = operator
  by_cases hoperator : operator = 0
  · rw [if_pos hoperator, if_neg h]
    omega
  · rw [if_neg hoperator, if_neg hoperator]
    omega

/-- A name that begins in `a` ends in `a`. -/
theorem simpleName_append {a x : List Char} (ha : Plain a) (hx : Follows a x)
    (hgap : gap a < a.length) : simpleName (a ++ x) = simpleName a := by
  have hne : a.drop (gap a) ≠ [] := by
    intro hnil
    have := List.drop_eq_nil_iff.mp hnil
    omega
  have hstart := ha.operators.not_prefix_drop (getLast?_take_gap ha.comments)
  have hdrop : (a ++ x).drop (gap a) = a.drop (gap a) ++ x :=
    List.drop_append_of_le_length (Nat.le_of_lt hgap)
  have hstart' : ¬ operatorKeyword <+: (a ++ x).drop (gap (a ++ x)) := by
    rw [gap_append ha.comments hx, hdrop]
    exact not_prefix_append (by decide) hstart ((hx.drop _).not_nameChar hne)
  rw [simpleName_eq hstart, simpleName_eq hstart', gap_append ha.comments hx, hdrop,
    identifierLength_append hne (hx.drop _)]

/-- If only a gap is left before the boundary, the name stands behind it. -/
theorem lt_simpleName_append {a x : List Char} (ha : ClosesComments a) (hx : Follows a x)
    (hgap : gap a = a.length) (hstart : x.head?.any isNameStart = true) :
    a.length < simpleName (a ++ x) := by
  have hidentifier : identifierLength x ≠ 0 := by
    cases x with
    | nil => exact nomatch hstart
    | cons c rest =>
        have hc : isNameStart c = true := hstart
        simp [identifierLength, hc]
  have hlt := lt_simpleName (s := a ++ x)
  rw [gap_append ha hx, hgap, List.drop_left] at hlt
  exact hlt hidentifier

/-- Where nothing begins a name, there is none. -/
theorem simpleName_eq_zero {s : List Char}
    (h : (s.drop (gap s)).head?.any isNameStart = false) : simpleName s = 0 := by
  have hidentifier : identifierLength (s.drop (gap s)) = 0 := by
    cases hs : s.drop (gap s) with
    | nil => rfl
    | cons c rest =>
        have hc : isNameStart c = false := by simpa [hs] using h
        simp [identifierLength, hc]
  have hno : ¬ operatorKeyword <+: s.drop (gap s) := by
    rintro ⟨v, hv⟩
    rw [← hv, List.head?_append] at h
    cases h
  rw [simpleName_eq hno, if_pos hidentifier]

theorem simpleName_append_eq_zero {a x : List Char} (ha : ClosesComments a) (hx : Follows a x)
    (hgap : gap a = a.length) (hstart : x.head?.any isNameStart = false) :
    simpleName (a ++ x) = 0 := by
  apply simpleName_eq_zero
  rwa [gap_append ha hx, hgap, List.drop_left]

/-- The same name stands before `x` and before `y`, or it runs over the boundary in both cases. -/
theorem simpleName_alike {a x y : List Char} (ha : Plain a) (h : Alike a x y) :
    simpleName (a ++ x) = simpleName (a ++ y) ∨
      (a.length < simpleName (a ++ x) ∧ a.length < simpleName (a ++ y)) := by
  rcases Nat.lt_or_eq_of_le (gap_le a) with hgap | hgap
  · exact .inl (by rw [simpleName_append ha h.left hgap, simpleName_append ha h.right hgap])
  · cases hstart : x.head?.any isNameStart with
    | true =>
        have hstart' := h.starts ▸ hstart
        exact .inr ⟨lt_simpleName_append ha.comments h.left hgap hstart,
          lt_simpleName_append ha.comments h.right hgap hstart'⟩
    | false =>
        have hstart' := h.starts ▸ hstart
        exact .inl (by rw [simpleName_append_eq_zero ha.comments h.left hgap hstart,
          simpleName_append_eq_zero ha.comments h.right hgap hstart'])

/-! ## Scopes -/

/-- The length of one member behind a `::`. -/
def scopeMember (s : List Char) : Nat :=
  if operatorKeyword.isPrefixOf s then
    let n := operatorTail (s.drop operatorKeyword.length)
    if n = 0 then 0 else operatorKeyword.length + n
  else if s.head? == some '~' then simpleName s.tail + 1
  else simpleName s

theorem scopeChain_cons (s : List Char) :
    scopeChain (':' :: ':' :: s) =
      if scopeMember s = 0 then 0 else scopeMember s + 2 + scopeChain (s.drop (scopeMember s)) := by
  rw [scopeChain]
  simp only [scopeMember, dite_eq_ite]

/-- Without a `::` there are no further members. -/
theorem scopeChain_eq_zero {s : List Char} (h : ¬ [':', ':'] <+: s) : scopeChain s = 0 := by
  rw [scopeChain]
  rintro rest rfl
  exact h ⟨rest, rfl⟩

/-- The characters of a boundary are none that names go on with. -/
theorem Follows.not_scope {a x : List Char} (h : Follows a x) : ¬ [':', ':'] <+: x := by
  rintro ⟨v, rfl⟩
  exact absurd h.fresh (by simp [goesOn])

/-- A `::` does not run over a boundary. -/
theorem Follows.scope_of_append {a x s : List Char} (h : Follows a x)
    (hs : a ++ x = ':' :: ':' :: s) : ∃ b, a = ':' :: ':' :: b ∧ s = b ++ x := by
  have hfresh := h.fresh
  match a, hs with
  | [], hs =>
      obtain rfl : x = _ := hs
      exact absurd hfresh (by simp [goesOn])
  | [c], hs =>
      obtain ⟨rfl, rfl⟩ := List.cons.inj hs
      exact absurd hfresh (by simp [goesOn])
  | c :: d :: b, hs =>
      simp only [List.cons_append, List.cons.injEq] at hs
      obtain ⟨rfl, rfl, rfl⟩ := hs
      exact ⟨b, rfl, rfl⟩

/-- A chain of members runs over the boundary, or is stopped by a `::` in front of it. -/
def Dangling (a : List Char) (n : Nat) : Prop :=
  a.length < n ∨ a.drop n = [':', ':']

/-- What is left dangling behind a member is left dangling. -/
theorem Dangling.shift {b : List Char} {m n : Nat} (h : Dangling (b.drop m) n)
    (hm : m ≤ b.length) : Dangling (':' :: ':' :: b) (m + 2 + n) := by
  rcases h with h | h
  · rw [List.length_drop] at h
    refine .inl ?_
    simp only [List.length_cons]
    omega
  · rw [List.drop_drop] at h
    refine .inr ?_
    rw [show m + 2 + n = (m + n) + 2 by omega, List.drop_succ_cons, List.drop_succ_cons]
    exact h

/-- What is left dangling in a part of a text is left dangling in the text. -/
theorem Dangling.of_drop {a : List Char} {m n : Nat} (h : Dangling (a.drop m) n)
    (hm : m ≤ a.length) : Dangling a (m + n) := by
  rcases h with h | h
  · rw [List.length_drop] at h
    exact .inl (by omega)
  · rw [List.drop_drop] at h
    exact .inr h

/-- A member behind `::` is the same before `x` and `y`, or runs over the boundary in both cases,
unless the boundary is right behind the `::`. -/
theorem scopeMember_alike {a x y : List Char} (ha : Plain a) (hne : a ≠ []) (h : Alike a x y) :
    scopeMember (a ++ x) = scopeMember (a ++ y) ∨
      (a.length < scopeMember (a ++ x) ∧ a.length < scopeMember (a ++ y)) := by
  have hno {z : List Char} (hz : Follows a z) : ¬ operatorKeyword.isPrefixOf (a ++ z) = true := by
    rw [List.isPrefixOf_iff_prefix]
    exact not_prefix_append (by decide) ha.operators.not_begins (hz.not_nameChar hne)
  unfold scopeMember
  rw [if_neg (hno h.left), if_neg (hno h.right)]
  cases a with
  | nil => exact absurd rfl hne
  | cons c rest =>
      by_cases hc : c = '~'
      · subst hc
        have hrest : Plain rest := ha.behind (n := 0) rfl (by decide)
        have halike := simpleName_alike hrest (h.drop 1)
        simp only [List.cons_append, List.head?_cons, beq_self_eq_true, if_true, List.tail_cons,
          List.length_cons]
        rcases halike with heq | ⟨hx, hy⟩
        · exact .inl (by rw [heq])
        · exact .inr ⟨by omega, by omega⟩
      · simp only [List.cons_append, List.head?_cons, beq_iff_eq, Option.some.injEq, hc, if_false]
        exact simpleName_alike ha h

/-- No operator name begins with a colon. -/
theorem not_prefix_of_scope {s : List Char} (h : [':', ':'] <+: s) : ¬ operatorKeyword <+: s := by
  obtain ⟨b, rfl⟩ := h
  rintro ⟨v, hv⟩
  exact absurd (List.cons.inj hv).1 (by decide)

/-- A chain is not begun at a boundary. -/
theorem scopeChain_append_eq_zero {a x : List Char} (hx : Follows a x)
    (ha : ¬ [':', ':'] <+: a) : scopeChain (a ++ x) = 0 := by
  apply scopeChain_eq_zero
  rintro ⟨v, hv⟩
  obtain ⟨b, rfl, -⟩ := hx.scope_of_append hv.symm
  exact ha ⟨b, rfl⟩

/-- The same chain of members stands before `x` and `y`, or it is left dangling in both cases. -/
theorem scopeChain_alike {a x y : List Char} (ha : Plain a) (h : Alike a x y) :
    scopeChain (a ++ x) = scopeChain (a ++ y) ∨
      (Dangling a (scopeChain (a ++ x)) ∧ Dangling a (scopeChain (a ++ y))) := by
  induction hlen : a.length using Nat.strongRecOn generalizing a with
  | ind n ih =>
      by_cases hscope : [':', ':'] <+: a
      · obtain ⟨b, rfl⟩ := hscope
        have hb : Plain b := ha.behind (n := 1) rfl (by decide)
        have halike : Alike b x y := h.drop 2
        have hend (z : List Char) (m : Nat) (hm : b.length < m) :
            Dangling (':' :: ':' :: b) (if m = 0 then 0 else m + 2 + scopeChain ((b ++ z).drop m)) := by
          rw [if_neg (by omega)]
          refine .inl ?_
          simp only [List.length_cons]
          omega
        have hbeyond (z : List Char) (hz : b.length < scopeMember (b ++ z)) := hend z _ hz
        simp only [List.cons_append, List.nil_append, scopeChain_cons]
        by_cases hnil : b = []
        · subst hnil
          -- Right behind the `::`, whatever comes is taken or leaves the `::` where it is.
          have hnone (z : List Char) : Dangling [':', ':'] (if scopeMember ([] ++ z) = 0 then 0
              else scopeMember ([] ++ z) + 2 + scopeChain (([] ++ z).drop (scopeMember ([] ++ z)))) := by
            by_cases hz : scopeMember ([] ++ z) = 0
            · rw [if_pos hz]
              exact .inr rfl
            · exact hbeyond z (Nat.pos_of_ne_zero hz)
          exact .inr ⟨hnone x, hnone y⟩
        rcases scopeMember_alike hb hnil halike with heq | ⟨hx, hy⟩
        · rw [heq]
          generalize scopeMember (b ++ y) = m
          by_cases hzero : m = 0
          · exact .inl (by rw [if_pos hzero, if_pos hzero])
          rcases Nat.lt_or_ge b.length m with hlt | hle
          · exact .inr ⟨hend x m hlt, hend y m hlt⟩
          rw [if_neg hzero, if_neg hzero, List.drop_append_of_le_length hle,
            List.drop_append_of_le_length hle]
          by_cases hmore : [':', ':'] <+: b.drop m
          · have hshort : (b.drop m).length < n := by
              rw [List.length_drop]
              simp only [← hlen, List.cons_append, List.nil_append, List.length_cons]
              omega
            have hrest := ih _ hshort (hb.drop (not_prefix_of_scope hmore)) (halike.drop m) rfl
            rcases hrest with hsame | ⟨hx, hy⟩
            · exact .inl (by rw [hsame])
            · exact .inr ⟨hx.shift hle, hy.shift hle⟩
          · exact .inl (by rw [scopeChain_append_eq_zero (halike.left.drop m) hmore,
              scopeChain_append_eq_zero (halike.right.drop m) hmore])
        · exact .inr ⟨hbeyond x hx, hbeyond y hy⟩
      · exact .inl (by rw [scopeChain_append_eq_zero h.left hscope,
          scopeChain_append_eq_zero h.right hscope])

/-- The chain that stands anywhere in `a`. -/
theorem scopeChain_drop_alike {a x y : List Char} (ha : Plain a) (h : Alike a x y) (l : Nat) :
    scopeChain (a.drop l ++ x) = scopeChain (a.drop l ++ y) ∨
      (Dangling (a.drop l) (scopeChain (a.drop l ++ x)) ∧
        Dangling (a.drop l) (scopeChain (a.drop l ++ y))) := by
  by_cases hscope : [':', ':'] <+: a.drop l
  · exact scopeChain_alike (ha.drop (not_prefix_of_scope hscope)) (h.drop l)
  · exact .inl (by rw [scopeChain_append_eq_zero (h.left.drop l) hscope,
      scopeChain_append_eq_zero (h.right.drop l) hscope])

/-! ## Qualified names -/

/-- The gap at the head of a name, with a `::` in it. -/
def leadingScope (s : List Char) : Nat :=
  match s.drop (gap s) with
  | ':' :: ':' :: rest => gap s + 2 + gap rest
  | _ => gap s

/-- The end of the template argument at `l`, or `l` if there is none. -/
def templateEnd (s : List Char) (l : Nat) : Nat :=
  if (s.drop l).head? = some '<' then
    let n := qualifiedName (s.drop l).tail
    if 0 < n && ((s.drop l).tail.drop n).head? == some '>' then l + n + 2 else l
  else l

/-- The end of a name of which the chain of members ends at `l`. -/
def nameEnd (s : List Char) (l : Nat) : Nat :=
  templateEnd s (l + gap (s.drop l))

theorem qualifiedName_eq (s : List Char) :
    qualifiedName s =
      let k := leadingScope s
      let n := simpleName (s.drop k)
      if n = 0 then 0
      else
        let l := k + n + gap (s.drop (k + n))
        nameEnd s (l + scopeChain (s.drop l)) := by
  rw [qualifiedName]
  simp only [leadingScope, nameEnd, templateEnd, dite_eq_ite]
  rfl

theorem le_templateEnd (s : List Char) (l : Nat) : l ≤ templateEnd s l := by
  simp only [templateEnd]
  split
  · split <;> omega
  · exact Nat.le_refl l

theorem le_nameEnd (s : List Char) (l : Nat) : l ≤ nameEnd s l :=
  Nat.le_trans (Nat.le_add_right _ _) (le_templateEnd s _)

/-- A scanner gives up in front of a `::` or a `<`, or runs over the boundary. -/
def Unsettled (a : List Char) (n : Nat) : Prop :=
  Dangling a n ∨ (a.drop n).head? = some '<'

theorem Plain.drop_gap {a : List Char} (ha : Plain a) : Plain (a.drop (gap a)) :=
  ha.drop (ha.operators.not_prefix_drop (getLast?_take_gap ha.comments))

theorem leadingScope_of_scope {s b : List Char} (h : s.drop (gap s) = ':' :: ':' :: b) :
    leadingScope s = gap s + 2 + gap b := by
  simp only [leadingScope, h]

theorem leadingScope_of_not_scope {s : List Char} (h : ¬ [':', ':'] <+: s.drop (gap s)) :
    leadingScope s = gap s := by
  unfold leadingScope
  split
  · rename_i rest heq
    exact absurd ⟨rest, heq.symm⟩ h
  · rfl

/-- The gap at the head of a name ends in `a`, and a plain text stands behind it. -/
theorem leadingScope_append {a x : List Char} (ha : Plain a) (hx : Follows a x) :
    leadingScope (a ++ x) = leadingScope a ∧ leadingScope a ≤ a.length ∧
      Plain (a.drop (leadingScope a)) := by
  have hgap := gap_append ha.comments hx
  have hdrop : (a ++ x).drop (gap (a ++ x)) = a.drop (gap a) ++ x := by
    rw [hgap, List.drop_append_of_le_length (gap_le a)]
  by_cases hscope : [':', ':'] <+: a.drop (gap a)
  · obtain ⟨b, hb'⟩ := hscope
    have hb : a.drop (gap a) = ':' :: ':' :: b := hb'.symm
    have hplain : Plain b := (hb ▸ ha.drop_gap).behind (n := 1) rfl (by decide)
    have hfollows : Follows b x := (hb ▸ hx.drop (gap a)).drop 2
    have hlen := congrArg List.length hb
    simp only [List.length_cons, List.length_drop] at hlen
    have hle := gap_le b
    rw [leadingScope_of_scope (b := b ++ x) (by rw [hdrop, hb]; rfl),
      leadingScope_of_scope hb, hgap, gap_append hplain.comments hfollows]
    refine ⟨rfl, by omega, ?_⟩
    rw [Nat.add_assoc, ← List.drop_drop, hb, ← List.drop_drop]
    exact hplain.drop_gap
  · have hscope' : ¬ [':', ':'] <+: (a ++ x).drop (gap (a ++ x)) := by
      rw [hdrop]
      rintro ⟨v, hv⟩
      obtain ⟨b, hb, -⟩ := (hx.drop (gap a)).scope_of_append hv.symm
      exact hscope ⟨b, hb.symm⟩
    rw [leadingScope_of_not_scope hscope, leadingScope_of_not_scope hscope']
    exact ⟨hgap, gap_le a, ha.drop_gap⟩

/-- Without a `<` in `a` there is no template argument. -/
theorem templateEnd_append_eq {a x : List Char} {l : Nat} (hl : l ≤ a.length) (hx : Follows a x)
    (hhead : (a.drop l).head? ≠ some '<') : templateEnd (a ++ x) l = l := by
  have hno : ((a ++ x).drop l).head? ≠ some '<' := by
    rw [List.drop_append_of_le_length hl]
    cases ha : a.drop l with
    | nil =>
        intro hx'
        have hfresh := hx.fresh
        rw [List.nil_append] at hx'
        rw [hx'] at hfresh
        exact absurd hfresh (by decide)
    | cons c rest => simpa [ha] using hhead
  rw [templateEnd, if_neg hno]

/-- The value of a template argument, which begins behind a `<` in `a`. -/
theorem templateEnd_append {a b x : List Char} {l : Nat} (hb : a.drop l = '<' :: b) :
    templateEnd (a ++ x) l =
      if 0 < qualifiedName (b ++ x) &&
          ((b ++ x).drop (qualifiedName (b ++ x))).head? == some '>' then
        l + qualifiedName (b ++ x) + 2
      else l := by
  have hl : l ≤ a.length := by
    have := congrArg List.length hb
    simp only [List.length_drop, List.length_cons] at this
    omega
  have hdrop : (a ++ x).drop l = '<' :: (b ++ x) := by
    rw [List.drop_append_of_le_length hl, hb]
    rfl
  simp only [templateEnd, hdrop, List.head?_cons, if_true, List.tail_cons]

/-- What is not settled in the template argument is not settled behind it. -/
theorem templateEnd_unsettled {a b x : List Char} {l : Nat} (hb : a.drop l = '<' :: b)
    (h : qualifiedName (b ++ x) = 0 ∨ Unsettled b (qualifiedName (b ++ x))) :
    Unsettled a (templateEnd (a ++ x) l) := by
  have hopen : Unsettled a l := .inr (by rw [hb]; rfl)
  rw [templateEnd_append hb]
  generalize qualifiedName (b ++ x) = n at h
  split
  · rename_i hclosed
    simp only [Bool.and_eq_true, decide_eq_true_eq, beq_iff_eq] at hclosed
    rcases h with rfl | (hlt | hscope) | hopen'
    · exact absurd hclosed.1 (Nat.lt_irrefl 0)
    · have hlen := congrArg List.length hb
      simp only [List.length_drop, List.length_cons] at hlen
      exact .inl (.inl (by omega))
    · -- A `::` or a `<` stands where the argument would have to be closed.
      have hle : n ≤ b.length := by
        have := congrArg List.length hscope
        simp only [List.length_drop, List.length_cons] at this
        omega
      rw [List.drop_append_of_le_length hle, hscope] at hclosed
      exact absurd hclosed.2 (by simp)
    · have hle : n ≤ b.length := by
        obtain ⟨c, hc⟩ := List.head?_eq_some_iff.mp hopen'
        have := congrArg List.length hc
        simp only [List.length_drop, List.length_cons] at this
        omega
      obtain ⟨c, hc⟩ := List.head?_eq_some_iff.mp hopen'
      rw [List.drop_append_of_le_length hle, hc] at hclosed
      exact absurd hclosed.2 (by simp)
  · exact hopen

/-- The same template argument stands before `x` and `y`, if shorter texts are read alike. -/
theorem templateEnd_alike {a x y : List Char} {l : Nat} (hl : l ≤ a.length) (h : Alike a x y)
    (ih : ∀ b, a.drop l = '<' :: b →
      qualifiedName (b ++ x) = qualifiedName (b ++ y) ∨
        ((qualifiedName (b ++ x) = 0 ∨ Unsettled b (qualifiedName (b ++ x))) ∧
          (qualifiedName (b ++ y) = 0 ∨ Unsettled b (qualifiedName (b ++ y))))) :
    templateEnd (a ++ x) l = templateEnd (a ++ y) l ∨
      (Unsettled a (templateEnd (a ++ x) l) ∧ Unsettled a (templateEnd (a ++ y) l)) := by
  by_cases hhead : (a.drop l).head? = some '<'
  · obtain ⟨b, hb⟩ := List.head?_eq_some_iff.mp hhead
    rcases ih b hb with heq | ⟨hx, hy⟩
    · by_cases hle : qualifiedName (b ++ y) ≤ b.length
      · left
        have hclosed (z : List Char) (hz : Follows b z) :
            ((b ++ z).drop (qualifiedName (b ++ y))).head? = some '>' ↔
              (b.drop (qualifiedName (b ++ y))).head? = some '>' := by
          rw [List.drop_append_of_le_length hle]
          cases b.drop (qualifiedName (b ++ y)) with
          | nil =>
              have hfresh := hz.fresh
              constructor
              · intro hz'
                rw [List.nil_append] at hz'
                rw [hz'] at hfresh
                exact absurd hfresh (by decide)
              · exact fun hnil => nomatch hnil
          | cons c rest => rfl
        have hbelow : Alike b x y := (hb ▸ h.drop l).drop 1
        have hsame : (((b ++ x).drop (qualifiedName (b ++ y))).head? == some '>') =
            (((b ++ y).drop (qualifiedName (b ++ y))).head? == some '>') := by
          rw [Bool.eq_iff_iff, beq_iff_eq, beq_iff_eq]
          exact (hclosed x hbelow.left).trans (hclosed y hbelow.right).symm
        rw [templateEnd_append hb, templateEnd_append hb, heq, hsame]
      · have hbeyond : b.length < qualifiedName (b ++ y) := Nat.lt_of_not_le hle
        exact .inr ⟨templateEnd_unsettled hb (.inr (.inl (.inl (heq ▸ hbeyond)))),
          templateEnd_unsettled hb (.inr (.inl (.inl hbeyond)))⟩
    · exact .inr ⟨templateEnd_unsettled hb hx, templateEnd_unsettled hb hy⟩
  · exact .inl (by rw [templateEnd_append_eq hl h.left hhead,
      templateEnd_append_eq hl h.right hhead])

/-- The end of a name is the same before `x` and `y`, wherever the chain of its members ends. -/
theorem nameEnd_alike {a x y : List Char} {l : Nat} (ha : Plain a) (hl : l ≤ a.length)
    (h : Alike a x y)
    (ih : ∀ b n, a.drop n = '<' :: b →
      qualifiedName (b ++ x) = qualifiedName (b ++ y) ∨
        ((qualifiedName (b ++ x) = 0 ∨ Unsettled b (qualifiedName (b ++ x))) ∧
          (qualifiedName (b ++ y) = 0 ∨ Unsettled b (qualifiedName (b ++ y))))) :
    nameEnd (a ++ x) l = nameEnd (a ++ y) l ∨
      (Unsettled a (nameEnd (a ++ x) l) ∧ Unsettled a (nameEnd (a ++ y) l)) := by
  have hclosed := ha.comments.drop l
  have hle := gap_le (a.drop l)
  rw [List.length_drop] at hle
  unfold nameEnd
  rw [List.drop_append_of_le_length hl, List.drop_append_of_le_length hl,
    gap_append hclosed (h.left.drop l), gap_append hclosed (h.right.drop l)]
  exact templateEnd_alike (by omega) h fun b hb => ih b _ hb

/-- A chain that is left dangling leaves the name unsettled. -/
theorem nameEnd_unsettled {a x : List Char} {l : Nat} (h : Dangling a l) :
    Unsettled a (nameEnd (a ++ x) l) := by
  rcases h with hlt | hscope
  · exact .inl (.inl (Nat.lt_of_lt_of_le hlt (le_nameEnd _ l)))
  · have hle : l ≤ a.length := by
      have := congrArg List.length hscope
      simp only [List.length_drop, List.length_cons] at this
      omega
    have hstop : nameEnd (a ++ x) l = l := by
      have hgap : gap (':' :: ':' :: x) = 0 := by simp [gap, gapFrom, isBlank]
      have hdrop : (a ++ x).drop l = ':' :: ':' :: x := by
        rw [List.drop_append_of_le_length hle, hscope]
        rfl
      simp [nameEnd, templateEnd, hdrop, hgap]
    rw [hstop]
    exact .inl (.inr hscope)

/-- **Names.**  The same name stands before `x` and before `y`, or it is unsettled in both cases. -/
theorem qualifiedName_alike {a x y : List Char} (ha : Plain a) (h : Alike a x y) :
    qualifiedName (a ++ x) = qualifiedName (a ++ y) ∨
      ((qualifiedName (a ++ x) = 0 ∨ Unsettled a (qualifiedName (a ++ x))) ∧
        (qualifiedName (a ++ y) = 0 ∨ Unsettled a (qualifiedName (a ++ y)))) := by
  induction hlen : a.length using Nat.strongRecOn generalizing a with
  | ind n ih =>
      obtain ⟨hleft, hk, hplain⟩ := leadingScope_append ha h.left
      obtain ⟨hright, -, -⟩ := leadingScope_append ha h.right
      have hbeyond (z : List Char) (l m : Nat) (hl : a.length < l) :
          Unsettled a (nameEnd (a ++ z) (l + m)) :=
        .inl (.inl (Nat.lt_of_lt_of_le (by omega) (le_nameEnd _ _)))
      have htemplate (b : List Char) (l : Nat) (hb : a.drop l = '<' :: b) :=
        ih b.length (by have := length_lt_of_drop_eq_cons hb; omega) (ha.behind hb (by decide))
          ((hb ▸ h.drop l).drop 1) rfl
      rw [qualifiedName_eq, qualifiedName_eq]
      dsimp only
      rw [hleft, hright, List.drop_append_of_le_length hk, List.drop_append_of_le_length hk]
      generalize leadingScope a = k at *
      rcases simpleName_alike hplain (h.drop k) with heq | ⟨hx, hy⟩
      · rw [heq]
        generalize simpleName (a.drop k ++ y) = m
        by_cases hzero : m = 0
        · exact .inl (by rw [if_pos hzero, if_pos hzero])
        rw [if_neg hzero, if_neg hzero]
        rcases Nat.lt_or_ge a.length (k + m) with hlt | hle
        · exact .inr ⟨.inr (hbeyond x _ _ (by omega)), .inr (hbeyond y _ _ (by omega))⟩
        have hgap := gap_le (a.drop (k + m))
        rw [List.length_drop] at hgap
        rw [List.drop_append_of_le_length hle, List.drop_append_of_le_length hle,
          gap_append (ha.comments.drop _) (h.left.drop _),
          gap_append (ha.comments.drop _) (h.right.drop _)]
        generalize hl : k + m + gap (a.drop (k + m)) = l
        have hl' : l ≤ a.length := by omega
        rw [List.drop_append_of_le_length hl', List.drop_append_of_le_length hl']
        rcases scopeChain_drop_alike ha h l with hsame | ⟨hx, hy⟩
        · rw [hsame]
          rcases Nat.lt_or_ge a.length (l + scopeChain (a.drop l ++ y)) with hlt | hend
          · exact .inr ⟨.inr (hbeyond x _ 0 hlt), .inr (hbeyond y _ 0 hlt)⟩
          · rcases nameEnd_alike ha hend h htemplate with heq | ⟨hx, hy⟩
            · exact .inl heq
            · exact .inr ⟨.inr hx, .inr hy⟩
        · exact .inr ⟨.inr (nameEnd_unsettled (hx.of_drop hl')),
            .inr (nameEnd_unsettled (hy.of_drop hl'))⟩
      · rw [List.length_drop] at hx hy
        rw [if_neg (by omega), if_neg (by omega)]
        exact .inr ⟨.inr (hbeyond x _ _ (by omega)), .inr (hbeyond y _ _ (by omega))⟩

/-! ## Types -/

/-- What is unsettled in a part of a text is unsettled in the text. -/
theorem Unsettled.of_drop {a : List Char} {m n : Nat} (h : Unsettled (a.drop m) n)
    (hm : m ≤ a.length) : Unsettled a (m + n) := by
  rcases h with h | h
  · exact .inl (h.of_drop hm)
  · rw [List.drop_drop] at h
    exact .inr h

/-- The end of a type of which the name and the gap behind it end at `l`. -/
def typeEnd (s : List Char) (l : Nat) : Nat :=
  match s.drop l with
  | ':' :: ':' :: rest =>
    if simpleName rest = 0 then 0
    else
      let l := l + 2 + simpleName rest
      let l := l + gap (s.drop l)
      l + indirectionLength (s.drop l)
  | tail => l + indirectionLength tail

theorem typeLength_eq (s : List Char) :
    typeLength s =
      let k := modifiersLength s
      let n := qualifiedName (s.drop k)
      if n = 0 then 0 else typeEnd s (k + n + gap (s.drop (k + n))) := by
  rw [typeLength]
  dsimp only
  generalize modifiersLength s = k
  split
  · rfl
  · unfold typeEnd
    split <;> simp_all

theorem typeEnd_of_scope {s b : List Char} {l : Nat} (h : s.drop l = ':' :: ':' :: b) :
    typeEnd s l =
      if simpleName b = 0 then 0
      else
        let l := l + 2 + simpleName b
        let l := l + gap (s.drop l)
        l + indirectionLength (s.drop l) := by
  simp only [typeEnd, h]

theorem typeEnd_of_not_scope {s : List Char} {l : Nat} (h : ¬ [':', ':'] <+: s.drop l) :
    typeEnd s l = l + indirectionLength (s.drop l) := by
  unfold typeEnd
  split
  · rename_i rest heq
    exact absurd ⟨rest, heq.symm⟩ h
  · rfl

/-- A type does not end before its name. -/
theorem typeEnd_eq_zero_or_le (s : List Char) (l : Nat) : typeEnd s l = 0 ∨ l ≤ typeEnd s l := by
  unfold typeEnd
  split
  · split
    · exact .inl rfl
    · refine .inr ?_
      dsimp only
      omega
  · exact .inr (Nat.le_add_right _ _)

theorem indirectionLength_append {a x : List Char} (ha : ClosesComments a) (hx : Follows a x) :
    indirectionLength (a ++ x) = indirectionLength a := by
  cases a with
  | nil =>
      have hfresh := hx.fresh
      cases x with
      | nil => rfl
      | cons c rest =>
          have hc : goesOn c = false := hfresh
          unfold indirectionLength
          split <;> simp_all [goesOn]
  | cons c rest =>
      have hgap : gap (rest ++ x) = gap rest := gap_append (ha.drop 1) (hx.drop 1)
      simp only [List.cons_append, indirectionLength]
      split <;> simp_all

/-- A type whose name runs over the boundary runs over it, or is none. -/
theorem typeEnd_of_lt {a s : List Char} {l : Nat} (h : a.length < l) :
    typeEnd s l = 0 ∨ Unsettled a (typeEnd s l) := by
  rcases typeEnd_eq_zero_or_le s l with hzero | hle
  · exact .inl hzero
  · exact .inr (.inl (.inl (Nat.lt_of_lt_of_le h hle)))

/-- A boundary where the name of a type gives up leaves the type unsettled. -/
theorem typeEnd_unsettled {a x : List Char} {l : Nat} (h : Unsettled a l) :
    typeEnd (a ++ x) (l + gap ((a ++ x).drop l)) = 0 ∨
      Unsettled a (typeEnd (a ++ x) (l + gap ((a ++ x).drop l))) := by
  rcases h with (hlt | hscope) | hopen
  · exact typeEnd_of_lt (by omega)
  · have hle : l ≤ a.length := by
      have := congrArg List.length hscope
      simp only [List.length_drop, List.length_cons] at this
      omega
    have hend : l + 2 = a.length := by
      have := congrArg List.length hscope
      simp only [List.length_drop, List.length_cons, List.length_nil] at this
      omega
    have hdrop : (a ++ x).drop l = ':' :: ':' :: x := by
      rw [List.drop_append_of_le_length hle, hscope]
      rfl
    have hgap : gap (':' :: ':' :: x) = 0 := by simp [gap, gapFrom, isBlank]
    rw [hdrop, hgap, Nat.add_zero, typeEnd_of_scope hdrop]
    by_cases hzero : simpleName x = 0
    · exact .inl (by rw [if_pos hzero])
    · rw [if_neg hzero]
      refine .inr (.inl (.inl ?_))
      dsimp only
      omega
  · obtain ⟨b, hb⟩ := List.head?_eq_some_iff.mp hopen
    have hle : l ≤ a.length := by
      have := congrArg List.length hb
      simp only [List.length_drop, List.length_cons] at this
      omega
    have hdrop : (a ++ x).drop l = '<' :: (b ++ x) := by
      rw [List.drop_append_of_le_length hle, hb]
      rfl
    have hgap : gap ('<' :: (b ++ x)) = 0 := by simp [gap, gapFrom, isBlank]
    have hno : ¬ [':', ':'] <+: (a ++ x).drop l := by
      rw [hdrop]
      rintro ⟨v, hv⟩
      exact absurd (List.cons.inj hv).1 (by decide)
    rw [hdrop, hgap, Nat.add_zero, typeEnd_of_not_scope hno, hdrop]
    exact .inr (.inr hopen)

/-- The end of a type is the same before `x` and `y`, wherever its name ends in `a`. -/
theorem typeEnd_alike {a x y : List Char} {l : Nat} (ha : Plain a) (hl : l ≤ a.length)
    (h : Alike a x y) :
    typeEnd (a ++ x) l = typeEnd (a ++ y) l ∨
      ((typeEnd (a ++ x) l = 0 ∨ Unsettled a (typeEnd (a ++ x) l)) ∧
        (typeEnd (a ++ y) l = 0 ∨ Unsettled a (typeEnd (a ++ y) l))) := by
  by_cases hscope : [':', ':'] <+: a.drop l
  · obtain ⟨b, hb'⟩ := hscope
    have hb : a.drop l = ':' :: ':' :: b := hb'.symm
    have hdrop (z : List Char) : (a ++ z).drop l = ':' :: ':' :: (b ++ z) := by
      rw [List.drop_append_of_le_length hl, hb]
      rfl
    have hplain : Plain b :=
      ha.behind (n := l + 1) (by rw [← List.drop_drop, hb]; rfl) (by decide)
    have hlen := congrArg List.length hb
    simp only [List.length_cons, List.length_drop] at hlen
    have hbelow : Alike b x y := (hb ▸ h.drop l).drop 2
    have hbeyond (z : List Char) (hz : b.length < simpleName (b ++ z)) :
        typeEnd (a ++ z) l = 0 ∨ Unsettled a (typeEnd (a ++ z) l) := by
      rw [typeEnd_of_scope (hdrop z), if_neg (by omega)]
      refine .inr (.inl (.inl ?_))
      dsimp only
      omega
    rcases simpleName_alike hplain hbelow with heq | ⟨hx, hy⟩
    · rcases Nat.lt_or_ge b.length (simpleName (b ++ y)) with hlt | hle
      · exact .inr ⟨hbeyond x (heq ▸ hlt), hbeyond y hlt⟩
      · left
        rw [typeEnd_of_scope (hdrop x), typeEnd_of_scope (hdrop y), heq]
        by_cases hzero : simpleName (b ++ y) = 0
        · rw [if_pos hzero, if_pos hzero]
        · have hend : l + 2 + simpleName (b ++ y) ≤ a.length := by omega
          have hclosed := ha.comments.drop (l + 2 + simpleName (b ++ y))
          rw [if_neg hzero, if_neg hzero]
          dsimp only
          rw [List.drop_append_of_le_length hend, List.drop_append_of_le_length hend,
            gap_append hclosed (h.left.drop _), gap_append hclosed (h.right.drop _)]
          have hgap := gap_le (a.drop (l + 2 + simpleName (b ++ y)))
          rw [List.length_drop] at hgap
          have hend' : l + 2 + simpleName (b ++ y) +
              gap (a.drop (l + 2 + simpleName (b ++ y))) ≤ a.length := by omega
          rw [List.drop_append_of_le_length hend', List.drop_append_of_le_length hend',
            indirectionLength_append (ha.comments.drop _) (h.left.drop _),
            indirectionLength_append (ha.comments.drop _) (h.right.drop _)]
    · exact .inr ⟨hbeyond x hx, hbeyond y hy⟩
  · left
    have hno (z : List Char) (hz : Follows a z) : ¬ [':', ':'] <+: (a ++ z).drop l := by
      rw [List.drop_append_of_le_length hl]
      rintro ⟨v, hv⟩
      obtain ⟨b, hb, -⟩ := (hz.drop l).scope_of_append hv.symm
      exact hscope ⟨b, hb.symm⟩
    rw [typeEnd_of_not_scope (hno x h.left), typeEnd_of_not_scope (hno y h.right),
      List.drop_append_of_le_length hl, List.drop_append_of_le_length hl,
      indirectionLength_append (ha.comments.drop l) (h.left.drop l),
      indirectionLength_append (ha.comments.drop l) (h.right.drop l)]

/-- Where only blanks are left before the boundary, a name runs over it or there is none. -/
theorem qualifiedName_blanks_append {a x : List Char} (ha : a.all isBlank = true)
    (hx : Follows a x) :
    qualifiedName (a ++ x) = 0 ∨ a.length < qualifiedName (a ++ x) := by
  have hgap : gap (a ++ x) = a.length := by rw [gap_blanks_append ha, hx.gap_eq, Nat.add_zero]
  have hlead : leadingScope (a ++ x) = a.length := by
    rw [leadingScope_of_not_scope, hgap]
    rw [hgap, List.drop_left]
    exact hx.not_scope
  rw [qualifiedName_eq]
  dsimp only
  rw [hlead, List.drop_left]
  by_cases hzero : simpleName x = 0
  · exact .inl (by rw [if_pos hzero])
  · rw [if_neg hzero]
    exact .inr (Nat.lt_of_lt_of_le (by omega) (le_nameEnd _ _))

/-- Behind modifiers that reach over the boundary, or blanks in front of it, there is no settled
type. -/
theorem typeLength_of_modifiers {a x : List Char} (hx : Follows a x)
    (ha : (a.drop (modifiersLength a)).all isBlank = true) :
    typeLength (a ++ x) = 0 ∨ Unsettled a (typeLength (a ++ x)) := by
  rw [typeLength_eq]
  dsimp only
  by_cases hzero : qualifiedName ((a ++ x).drop (modifiersLength (a ++ x))) = 0
  · exact .inl (by rw [if_pos hzero])
  · rw [if_neg hzero]
    apply typeEnd_of_lt
    rcases modifiersLength_append hx with heq | ⟨hlt, -⟩
    · have hle := modifiersLength_le a
      rw [heq, List.drop_append_of_le_length hle] at hzero ⊢
      have hname := (qualifiedName_blanks_append ha (hx.drop _)).resolve_left hzero
      rw [List.length_drop] at hname
      omega
    · omega

/-- **Types.**  The same type stands before `x` and before `y`, or it is unsettled in both cases. -/
theorem typeLength_alike {a x y : List Char} (ha : Plain a) (h : Alike a x y) :
    typeLength (a ++ x) = typeLength (a ++ y) ∨
      ((typeLength (a ++ x) = 0 ∨ Unsettled a (typeLength (a ++ x))) ∧
        (typeLength (a ++ y) = 0 ∨ Unsettled a (typeLength (a ++ y)))) := by
  by_cases hblank : (a.drop (modifiersLength a)).all isBlank = true
  · exact .inr ⟨typeLength_of_modifiers h.left hblank, typeLength_of_modifiers h.right hblank⟩
  have hx := (modifiersLength_append h.left).resolve_right fun hrest => hblank hrest.2
  have hy := (modifiersLength_append h.right).resolve_right fun hrest => hblank hrest.2
  have hk := modifiersLength_le a
  have hplain := ha.drop (not_prefix_drop_modifiers ha.operators)
  rw [typeLength_eq, typeLength_eq]
  dsimp only
  rw [hx, hy, List.drop_append_of_le_length hk, List.drop_append_of_le_length hk]
  generalize modifiersLength a = k at *
  have hbeyond (z : List Char) (hz : Follows a z)
      (hname : qualifiedName (a.drop k ++ z) = 0 ∨
        Unsettled (a.drop k) (qualifiedName (a.drop k ++ z))) :
      let l := k + qualifiedName (a.drop k ++ z)
      let n := if qualifiedName (a.drop k ++ z) = 0 then 0
        else typeEnd (a ++ z) (l + gap ((a ++ z).drop l))
      n = 0 ∨ Unsettled a n := by
    rcases hname with hzero | hname
    · exact .inl (by rw [if_pos hzero])
    · dsimp only
      split
      · exact .inl rfl
      · exact typeEnd_unsettled (hname.of_drop hk)
  rcases qualifiedName_alike hplain (h.drop k) with heq | ⟨hx, hy⟩
  · rw [heq]
    generalize qualifiedName (a.drop k ++ y) = n
    by_cases hzero : n = 0
    · exact .inl (by rw [if_pos hzero, if_pos hzero])
    rw [if_neg hzero, if_neg hzero]
    rcases Nat.lt_or_ge a.length (k + n) with hlt | hle
    · exact .inr ⟨typeEnd_of_lt (by omega), typeEnd_of_lt (by omega)⟩
    have hgap := gap_le (a.drop (k + n))
    rw [List.length_drop] at hgap
    rw [List.drop_append_of_le_length hle, List.drop_append_of_le_length hle,
      gap_append (ha.comments.drop _) (h.left.drop _),
      gap_append (ha.comments.drop _) (h.right.drop _)]
    exact typeEnd_alike ha (by omega) h
  · exact .inr ⟨hbeyond x h.left hx, hbeyond y h.right hy⟩

/-- **A type that ends at a boundary** ends there whatever follows the boundary. -/
theorem typeLength_eq_of_alike {a x y : List Char} (ha : Plain a) (hne : a ≠ [])
    (h : Alike a x y) (hx : typeLength (a ++ x) = a.length) : typeLength (a ++ y) = a.length := by
  rcases typeLength_alike ha h with heq | ⟨hzero | hunsettled, -⟩
  · rw [← heq, hx]
  · exact absurd (List.length_eq_zero_iff.mp (hx.symm.trans hzero)) hne
  · rw [hx] at hunsettled
    rcases hunsettled with (hlt | hscope) | hopen
    · exact absurd hlt (Nat.lt_irrefl _)
    · simp at hscope
    · simp at hopen

end CppDoc.Syntax
