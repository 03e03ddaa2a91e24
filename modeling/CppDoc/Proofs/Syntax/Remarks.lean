import CppDoc.Proofs.Syntax.Blanked
import CppDoc.Proofs.Syntax.NameSpec

/-!
# Remarks in names and types

The scanners of names and types pass over a line comment as they pass over the spaces it could be
overwritten with.  There are two places where they do not: a comment may be taken for the end of the
symbol of an operator name, and a modifier behind a comment counts for no modifier.  `Remarks s t`
leaves out those of operator names, and `Agrees` says that a scanner then measures the same.

* `agrees_operatorLength` … `agrees_typeLength`: each scanner agrees if those that it calls on less
  text do;
* `agrees_names`: the circle of names and types.
-/

namespace CppDoc.Syntax

open CppDoc.Text

/-- The comments that are overwritten in `t` are mere remarks: without them no operator name has
another symbol, or other modifiers in front of its type. -/
structure Remarks (s t : List Char) : Prop where
  blanked : Blanked s t
  operators : ∀ k u v, Blanked (s.drop k) (t.drop k) → s.drop k = operatorKeyword ++ u →
    t.drop k = operatorKeyword ++ v → symbolLength (skipGap v) = symbolLength (skipGap u) ∧
      modifiersLength (skipGap v) = modifiersLength (skipGap u)

/-- The scanner measures the same with and without the comments, and leaves it to what follows to
tell which of them there are. -/
def Agrees (f : List Char → Nat) (s t : List Char) : Prop :=
  f t = f s ∧ Blanked (s.drop (f s)) (t.drop (f s))

section Pairs

variable {s t : List Char}

theorem Remarks.drop (h : Remarks s t) {n : Nat} (hn : Blanked (s.drop n) (t.drop n)) :
    Remarks (s.drop n) (t.drop n) where
  blanked := hn
  operators k u v := by
    simpa only [List.drop_drop] using h.operators (n + k) u v

/-- Where there is no operator name, every comment is a mere remark. -/
theorem Remarks.of_no_operator (h : Blanked s t) (hoperator : ¬ operatorKeyword <:+: s) :
    Remarks s t where
  blanked := h
  operators k u v _ hs _ :=
    absurd ⟨s.take k, u, by rw [List.append_assoc, ← hs, List.take_append_drop]⟩ hoperator

/-- Behind what a scanner recognises there is the same pair of texts. -/
theorem Remarks.behind {f : List Char → Nat} (h : Remarks s t) (hf : Agrees f s t) :
    Remarks (s.drop (f s)) (t.drop (f s)) :=
  h.drop hf.2

/-- Behind what a scanner recognises from the place `k` on. -/
theorem Agrees.drop_add {f : List Char → Nat} {k : Nat} (h : Agrees f (s.drop k) (t.drop k)) :
    Blanked (s.drop (k + f (s.drop k))) (t.drop (k + f (s.drop k))) := by
  rw [← List.drop_drop, ← List.drop_drop]
  exact h.2

/-- A scanner that gives up on both texts agrees. -/
theorem Agrees.of_zero {f : List Char → Nat} (h : Blanked s t) (hs : f s = 0) (ht : f t = 0) :
    Agrees f s t := by
  rw [Agrees, hs, ht]
  exact ⟨rfl, h⟩

theorem agrees_gap (h : Blanked s t) : Agrees gap s t :=
  h.gap

/-- Types in a text that is shorter than `n`. -/
def TypesAgree (n : Nat) : Prop :=
  ∀ s t, s.length < n → Remarks s t → modifiersLength t = modifiersLength s → Agrees typeLength s t

/-- Names in a text that is shorter than `n`. -/
def NamesAgree (n : Nat) : Prop :=
  ∀ s t, s.length < n → Remarks s t → Agrees qualifiedName s t

theorem TypesAgree.mono {m n : Nat} (h : TypesAgree n) (hle : m ≤ n) : TypesAgree m :=
  fun s t hs => h s t (Nat.lt_of_lt_of_le hs hle)

/-! ## Operator names and members -/

/-- What follows the keyword of an operator name. -/
theorem agrees_operatorTail (h : Remarks s t)
    (hsymbol : symbolLength (skipGap t) = symbolLength (skipGap s))
    (hmodifiers : modifiersLength (skipGap t) = modifiersLength (skipGap s)) {n : Nat}
    (htypes : TypesAgree n) (hn : s.length < n) : Agrees operatorTail s t := by
  have hgap := agrees_gap h.blanked
  simp only [skipGap, hgap.1] at hsymbol hmodifiers
  have hname : Remarks (s.drop (gap s)) (t.drop (gap s)) := h.behind hgap
  have hlength : (s.drop (gap s)).length < n :=
    Nat.lt_of_le_of_lt (List.length_drop ▸ Nat.sub_le _ _) hn
  have hpart : operatorPart t = operatorPart s ∧
      Blanked (s.drop (gap s + operatorPart s)) (t.drop (gap s + operatorPart s)) := by
    rw [← List.drop_drop, ← List.drop_drop]
    simp only [operatorPart, hgap.1, hsymbol]
    split
    · exact htypes _ _ hlength hname hmodifiers
    · exact ⟨rfl, hname.blanked.drop_symbol (gap_drop_gapFrom false s) hsymbol⟩
  have hbehind := agrees_gap hpart.2
  have hopen := (Agrees.drop_add hbehind).head?_iff (c := '(') (by decide) (by decide)
  rw [Agrees, operatorTail_eq, operatorTail_eq]
  simp only [hpart.1, hgap.1, hbehind.1, hopen, true_and]
  split
  · exact h.blanked
  · split
    · exact hbehind.drop_add
    · exact h.blanked

theorem agrees_operatorLength (h : Remarks s t) (htypes : TypesAgree s.length) :
    Agrees operatorLength s t := by
  have hslash : '/' ∉ operatorKeyword := by decide
  have hprefix := h.blanked.prefix_iff hslash (by decide)
  by_cases hs : operatorKeyword <+: s
  · have hs' := hprefix.mpr hs
    obtain ⟨u, rfl⟩ := hs
    obtain ⟨v, rfl, huv⟩ := h.blanked.behind hslash
    have hdrop (w : List Char) : (operatorKeyword ++ w).drop operatorKeyword.length = w :=
      List.drop_left
    have hrest : Remarks u v := h.drop (n := operatorKeyword.length) (by rwa [hdrop, hdrop])
    have hparts := h.operators 0 u v h.blanked rfl rfl
    have htail : Agrees operatorTail u v :=
      agrees_operatorTail hrest hparts.1 hparts.2 htypes
        (by rw [List.length_append]; exact Nat.lt_add_of_pos_left (by decide))
    have hlength (w : List Char) : operatorLength (operatorKeyword ++ w) =
        if operatorTail w = 0 then 0 else operatorKeyword.length + operatorTail w := by
      rw [operatorLength, if_pos (List.isPrefixOf_iff_prefix.mpr (List.prefix_append _ _)), hdrop]
    rw [Agrees, hlength, hlength, htail.1]
    split
    · exact ⟨rfl, h.blanked⟩
    · rw [← List.drop_drop, ← List.drop_drop, hdrop, hdrop]
      exact ⟨rfl, htail.2⟩
  · have hnone {w : List Char} (hw : ¬ operatorKeyword <+: w) : operatorLength w = 0 := by
      rw [operatorLength, if_neg (mt List.isPrefixOf_iff_prefix.mp hw)]
    exact .of_zero h.blanked (hnone hs) (hnone (mt hprefix.mp hs))

/-- An identifier or an operator name behind a gap. -/
theorem agrees_simpleName (h : Remarks s t) (htypes : TypesAgree s.length) :
    Agrees simpleName s t := by
  have hgap := agrees_gap h.blanked
  have hname : Remarks (s.drop (gap s)) (t.drop (gap s)) := h.behind hgap
  have hlength : (s.drop (gap s)).length ≤ s.length := List.length_drop ▸ Nat.sub_le _ _
  have hoperator : Agrees operatorLength (s.drop (gap s)) (t.drop (gap s)) :=
    agrees_operatorLength hname (htypes.mono hlength)
  have hidentifier : Agrees identifierLength (s.drop (gap s)) (t.drop (gap s)) :=
    hname.blanked.identifierLength
  rw [Agrees, simpleName_eq_operatorLength, simpleName_eq_operatorLength]
  simp only [hgap.1, hoperator.1, hidentifier.1, true_and]
  by_cases hnone : operatorLength (s.drop (gap s)) = 0
  · simp only [hnone, if_true]
    split
    · exact h.blanked
    · exact hidentifier.drop_add
  · simp only [hnone, if_false]
    exact hoperator.drop_add

/-- A member behind a `::`. -/
theorem agrees_scopeMember (h : Remarks s t) (htypes : TypesAgree s.length) :
    Agrees scopeMember s t := by
  have hkeyword : operatorKeyword.isPrefixOf t = operatorKeyword.isPrefixOf s := by
    rw [Bool.eq_iff_iff, List.isPrefixOf_iff_prefix, List.isPrefixOf_iff_prefix]
    exact h.blanked.prefix_iff (by decide) (by decide)
  have htilde := h.blanked.head?_iff (c := '~') (by decide) (by decide)
  rw [Agrees, scopeMember_eq, scopeMember_eq, hkeyword]
  simp only [htilde]
  split
  · exact agrees_operatorLength h htypes
  · split
    · rename_i hs
      obtain ⟨u, rfl⟩ := List.head?_eq_some_iff.mp hs
      obtain ⟨v, rfl, huv⟩ := h.blanked.behind_char (by decide)
      have hname : Agrees simpleName u v :=
        agrees_simpleName (h.drop (n := 1) huv) (htypes.mono (Nat.le_succ _))
      exact ⟨congrArg (· + 1) hname.1, hname.2⟩
    · exact agrees_simpleName h htypes

/-- **Members.**  The chain of members of a name. -/
theorem agrees_scopeChain (h : Remarks s t) (htypes : TypesAgree s.length) :
    Agrees scopeChain s t := by
  induction hlen : s.length using Nat.strongRecOn generalizing s t with
  | ind n ih =>
      have hscope := h.blanked.prefix_iff (w := [':', ':']) (by decide) (by decide)
      by_cases hs : [':', ':'] <+: s
      · obtain ⟨u, rfl⟩ := hs
        obtain ⟨v, rfl, huv⟩ := h.blanked.behind (w := [':', ':']) (by decide)
        have hshorter : u.length < n := by
          rw [← hlen, List.length_append]
          exact Nat.lt_add_of_pos_left (by decide)
        have hrest : Remarks u v := h.drop (n := 2) huv
        have hmember : Agrees scopeMember u v :=
          agrees_scopeMember hrest (htypes.mono (hlen ▸ Nat.le_of_lt hshorter))
        have hdrop : (u.drop (scopeMember u)).length ≤ u.length :=
          List.length_drop ▸ Nat.sub_le _ _
        have hchain : Agrees scopeChain (u.drop (scopeMember u)) (v.drop (scopeMember u)) :=
          ih _ (Nat.lt_of_le_of_lt hdrop hshorter) (hrest.behind hmember)
            (htypes.mono (by omega)) rfl
        have hbehind (w : List Char) (m k : Nat) :
            (':' :: ':' :: w).drop (m + 2 + k) = (w.drop m).drop k := by
          rw [List.drop_drop, Nat.add_right_comm]
          rfl
        have hcolons (w : List Char) : [':', ':'] ++ w = ':' :: ':' :: w := rfl
        simp only [Agrees, hcolons, scopeChain_cons, hmember.1, hchain.1, true_and]
        split
        · exact h.blanked
        · rw [hbehind, hbehind]
          exact hchain.2
      · exact .of_zero h.blanked (scopeChain_eq_zero hs) (scopeChain_eq_zero (mt hscope.mp hs))

/-! ## Names -/

theorem agrees_leadingScope (h : Blanked s t) : Agrees leadingScope s t := by
  have hgap := agrees_gap h
  have hscope := hgap.2.prefix_iff (w := [':', ':']) (by decide) (by decide)
  have hbegin : t.drop (gap t) = t.drop (gap s) := by rw [hgap.1]
  by_cases hs : [':', ':'] <+: s.drop (gap s)
  · obtain ⟨u, hu'⟩ := hs
    have hu : s.drop (gap s) = ':' :: ':' :: u := hu'.symm
    obtain ⟨v, hv', huv⟩ := Blanked.behind (w := [':', ':']) (by decide) (hu' ▸ hgap.2)
    have hv : t.drop (gap s) = ':' :: ':' :: v := hv'
    have hinner := agrees_gap huv
    have hbehind {r w : List Char} (hr : r.drop (gap s) = ':' :: ':' :: w) (k : Nat) :
        r.drop (gap s + 2 + k) = w.drop k := by
      rw [← List.drop_drop, ← List.drop_drop, hr]
      rfl
    rw [Agrees, leadingScope_of_scope (hbegin.trans hv), leadingScope_of_scope hu, hgap.1,
      hinner.1, hbehind hu, hbehind hv]
    exact ⟨rfl, hinner.2⟩
  · rw [Agrees, leadingScope_of_not_scope hs,
      leadingScope_of_not_scope (by rwa [hbegin, hscope]), hgap.1]
    exact ⟨rfl, hgap.2⟩

/-- The argument of a template, at a place behind which the texts are a pair. -/
theorem agrees_templateEnd {l : Nat} (h : Remarks (s.drop l) (t.drop l))
    (hnames : NamesAgree (s.drop l).length) :
    templateEnd t l = templateEnd s l ∧
      Blanked (s.drop (templateEnd s l)) (t.drop (templateEnd s l)) := by
  have hopen := h.blanked.head?_iff (c := '<') (by decide) (by decide)
  unfold templateEnd
  simp only [hopen]
  split
  · rename_i hs
    obtain ⟨u, hu⟩ := List.head?_eq_some_iff.mp hs
    obtain ⟨v, hv, hrest⟩ := Blanked.behind_char (by decide) (hu ▸ h.blanked)
    have huv : Remarks u v := by
      have hdrop := h.drop (n := 1) (by rwa [hu, hv])
      rwa [hu, hv] at hdrop
    have hname : Agrees qualifiedName u v :=
      hnames u v (by rw [hu]; exact Nat.lt_succ_self _) huv
    have hclose := hname.2.head?_iff (c := '>') (by decide) (by decide)
    have hend : ((v.drop (qualifiedName u)).head? == some '>') =
        ((u.drop (qualifiedName u)).head? == some '>') := by
      rw [Bool.eq_iff_iff, beq_iff_eq, beq_iff_eq, hclose]
    simp only [hu, hv, List.tail_cons, hname.1, hend, true_and]
    split
    · rename_i hclosed
      rw [Bool.and_eq_true, beq_iff_eq] at hclosed
      obtain ⟨u', hu'⟩ := List.head?_eq_some_iff.mp hclosed.2
      obtain ⟨v', hv', hrest'⟩ := Blanked.behind_char (by decide) (hu' ▸ hname.2)
      have hbehind {r w w' : List Char} (hr : r.drop l = '<' :: w)
          (hw : w.drop (qualifiedName u) = '>' :: w') : r.drop (l + qualifiedName u + 2) = w' := by
        rw [Nat.add_assoc, ← List.drop_drop, hr, List.drop_succ_cons, ← List.drop_drop, hw]
        rfl
      rwa [hbehind hu hu', hbehind hv hv']
    · exact h.blanked
  · exact ⟨rfl, h.blanked⟩

theorem agrees_qualifiedName (h : Remarks s t) (htypes : TypesAgree s.length)
    (hnames : NamesAgree s.length) : Agrees qualifiedName s t := by
  have hlength (n : Nat) : (s.drop n).length ≤ s.length := List.length_drop ▸ Nat.sub_le _ _
  have hlead := agrees_leadingScope h.blanked
  have hname := agrees_simpleName (h.behind hlead) (htypes.mono (hlength _))
  have hbehind := agrees_gap hname.drop_add
  have hchain := agrees_scopeChain (h.drop hbehind.drop_add) (htypes.mono (hlength _))
  have hend := agrees_gap hchain.drop_add
  have hargument := agrees_templateEnd (h.drop hend.drop_add) fun u v hu =>
    hnames u v (Nat.lt_of_lt_of_le hu (hlength _))
  rw [Agrees, qualifiedName_eq, qualifiedName_eq]
  simp only [hlead.1, hname.1, hbehind.1, hchain.1, nameEnd, hend.1, hargument.1, true_and]
  split
  · exact h.blanked
  · exact hargument.2

/-! ## Types -/

/-- The end of a type, at a place behind which the texts are a pair. -/
theorem agrees_typeEnd {l : Nat} (h : Remarks s t) (hl : Blanked (s.drop l) (t.drop l))
    (htypes : TypesAgree s.length) :
    typeEnd t l = typeEnd s l ∧ Blanked (s.drop (typeEnd s l)) (t.drop (typeEnd s l)) := by
  have hscope := hl.prefix_iff (w := [':', ':']) (by decide) (by decide)
  by_cases hs : [':', ':'] <+: s.drop l
  · obtain ⟨u, hu'⟩ := hs
    have hu : s.drop l = ':' :: ':' :: u := hu'.symm
    obtain ⟨v, hv', huv⟩ := Blanked.behind (w := [':', ':']) (by decide) (hu' ▸ hl)
    have hv : t.drop l = ':' :: ':' :: v := hv'
    have hinner {r w : List Char} (hr : r.drop l = ':' :: ':' :: w) : r.drop (l + 2) = w := by
      rw [← List.drop_drop, hr]
      rfl
    have hmember : Agrees simpleName (s.drop (l + 2)) (t.drop (l + 2)) :=
      agrees_simpleName (h.drop (by rwa [hinner hu, hinner hv]))
        (htypes.mono (List.length_drop ▸ Nat.sub_le _ _))
    have hbehind := agrees_gap hmember.drop_add
    have hmark := hbehind.drop_add.indirectionLength
    rw [hinner hu, hinner hv] at hmember
    rw [hinner hu] at hbehind hmark
    rw [typeEnd_of_scope hu, typeEnd_of_scope hv]
    simp only [hmember.1, hbehind.1, hmark.1, true_and]
    split
    · exact h.blanked
    · exact Agrees.drop_add hmark
  · have hmark := hl.indirectionLength
    rw [typeEnd_of_not_scope hs, typeEnd_of_not_scope (mt hscope.mp hs), hmark.1]
    exact ⟨rfl, Agrees.drop_add hmark⟩

theorem agrees_typeLength (h : Remarks s t) (hmodifiers : modifiersLength t = modifiersLength s)
    (htypes : TypesAgree s.length) (hnames : NamesAgree (s.length + 1)) :
    Agrees typeLength s t := by
  have hlength (n : Nat) : (s.drop n).length < s.length + 1 :=
    Nat.lt_succ_of_le (List.length_drop ▸ Nat.sub_le _ _)
  have hname := hnames _ _ (hlength _) (h.drop h.blanked.drop_modifiers)
  have hbehind := agrees_gap hname.drop_add
  have hend := agrees_typeEnd h hbehind.drop_add htypes
  rw [Agrees, typeLength_eq, typeLength_eq]
  simp only [hmodifiers, hname.1, hbehind.1, hend.1, true_and]
  split
  · exact h.blanked
  · exact hend.2

end Pairs

/-- **Names and types.**  The scanners that refer to each other measure the same whether the remarks
are there or not. -/
theorem agrees_names (n : Nat) : TypesAgree n ∧ NamesAgree n := by
  induction n with
  | zero =>
      exact ⟨fun s t hs => absurd hs (Nat.not_lt_zero _), fun s t hs => absurd hs (Nat.not_lt_zero _)⟩
  | succ n ih =>
      have hnames : NamesAgree (n + 1) := fun s t hs h =>
        have hle : s.length ≤ n := Nat.le_of_lt_succ hs
        agrees_qualifiedName h (ih.1.mono hle) fun u v hu => ih.2 u v (Nat.lt_of_lt_of_le hu hle)
      have htypes : TypesAgree (n + 1) := fun s t hs h hmodifiers =>
        have hle : s.length ≤ n := Nat.le_of_lt_succ hs
        agrees_typeLength h hmodifiers (ih.1.mono hle) fun u v hu =>
          hnames u v (Nat.lt_of_lt_of_le hu (Nat.succ_le_succ hle))
      exact ⟨htypes, hnames⟩

end CppDoc.Syntax
