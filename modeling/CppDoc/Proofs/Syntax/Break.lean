import CppDoc.Proofs.Syntax.Lookahead

/-!
# Where scanners stop

A scanner stops between two tokens and never inside an identifier.  `Breaks s n` says that no
identifier of `s` goes on over the position `n`; then what follows is plain if `s` is.

* `breaks_qualifiedName` and `breaks_typeLength`: names and types of a plain text end at breaks;
* `Plain.drop_of_breaks`: behind a break a plain text stays plain.
-/

namespace CppDoc.Syntax

open CppDoc.Text

/-- No identifier of `s` goes on over the position `n`. -/
def Breaks (s : List Char) (n : Nat) : Prop :=
  (s.take n).getLast?.any isNameChar = true → (s.drop n).head?.any isNameChar = false

theorem breaks_zero (s : List Char) : Breaks s 0 :=
  fun h => nomatch h

theorem breaks_of_length_le {s : List Char} {n : Nat} (h : s.length ≤ n) : Breaks s n := by
  intro _
  rw [List.drop_eq_nil_of_le h]
  rfl

/-- What is a break of a part of a text is a break of the text, unless it is the start of the
part. -/
theorem Breaks.of_drop {s : List Char} {k n : Nat} (h : Breaks (s.drop k) n) (hn : n ≠ 0) :
    Breaks s (k + n) := by
  rcases Nat.lt_or_ge k s.length with hk | hk
  · intro hlast
    rw [← List.drop_drop]
    apply h
    have hne : (s.drop k).take n ≠ [] := by
      intro hnil
      have := congrArg List.length hnil
      simp only [List.length_take, List.length_drop, List.length_nil] at this
      omega
    obtain ⟨d, hd⟩ := Option.ne_none_iff_exists'.mp (mt List.getLast?_eq_none_iff.mp hne)
    rwa [List.take_add, List.getLast?_append, hd, Option.some_or, ← hd] at hlast
  · exact breaks_of_length_le (by omega)

/-- A break followed by a part of the text that ends at a break. -/
theorem Breaks.add {s : List Char} {k n : Nat} (hk : Breaks s k) (hn : Breaks (s.drop k) n) :
    Breaks s (k + n) := by
  by_cases hzero : n = 0
  · rwa [hzero, Nat.add_zero]
  · exact hn.of_drop hzero

/-- No operator name begins at a break. -/
theorem Breaks.not_begins {s : List Char} {n : Nat} (h : Breaks s n)
    (hs : Avoids operatorKeyword s) : ¬ operatorKeyword <+: s.drop n := by
  cases hlast : (s.take n).getLast?.any isNameChar with
  | false => exact hs.not_prefix_drop hlast
  | true =>
      have hhead := h hlast
      rintro ⟨v, hv⟩
      have hkeyword : operatorKeyword.head? = some 'o' := by decide
      rw [← hv, List.head?_append, hkeyword] at hhead
      exact nomatch hhead

theorem Plain.drop_of_breaks {s : List Char} {n : Nat} (hs : Plain s) (h : Breaks s n) :
    Plain (s.drop n) :=
  hs.drop (h.not_begins hs.operators)

/-- A break in front of the end of a text is one without what follows. -/
theorem Breaks.of_append {a x : List Char} {n : Nat} (h : Breaks (a ++ x) n) (hn : n ≤ a.length) :
    Breaks a n := by
  have htake : (a ++ x).take n = a.take n := List.take_append_of_le_length hn
  intro hlast
  rw [← htake] at hlast
  have hhead := h hlast
  rw [List.drop_append_of_le_length hn] at hhead
  cases ha : a.drop n with
  | nil => rfl
  | cons c rest => simpa [ha] using hhead

/-! ## Gaps and names -/

theorem breaks_gap {s : List Char} (hs : ClosesComments s) : Breaks s (gap s) := by
  intro hlast
  rw [getLast?_take_gap hs] at hlast
  exact nomatch hlast

/-- A run of characters does not go on. -/
private theorem head?_drop_takeWhile (p : Char → Bool) (s : List Char) :
    (s.drop (s.takeWhile p).length).head?.any p = false := by
  induction s with
  | nil => rfl
  | cons c rest ih =>
      by_cases hc : p c = true
      · simpa [hc] using ih
      · simp [hc]

theorem breaks_identifierLength (s : List Char) : Breaks s (identifierLength s) := by
  cases s with
  | nil => exact breaks_of_length_le (Nat.zero_le _)
  | cons c rest =>
      simp only [identifierLength]
      split
      · intro _
        rw [List.drop_succ_cons]
        exact head?_drop_takeWhile isNameChar rest
      · exact breaks_zero _

theorem breaks_simpleName {s : List Char} (hs : Plain s) : Breaks s (simpleName s) := by
  have hno := (breaks_gap hs.comments).not_begins hs.operators
  rw [simpleName_eq hno]
  split
  · exact breaks_zero s
  · exact (breaks_gap hs.comments).add (breaks_identifierLength _)

/-- The mark of a destructor is no part of a name. -/
theorem breaks_one_of_tilde (s : List Char) : Breaks ('~' :: s) 1 :=
  fun h => nomatch h

theorem breaks_scopeMember {s : List Char} (hs : Plain s) : Breaks s (scopeMember s) := by
  have hno : ¬ operatorKeyword.isPrefixOf s = true := by
    rw [List.isPrefixOf_iff_prefix]
    exact hs.operators.not_begins
  unfold scopeMember
  rw [if_neg hno]
  by_cases htilde : s.head? = some '~'
  · obtain ⟨rest, rfl⟩ := List.head?_eq_some_iff.mp htilde
    have hrest : Plain rest := hs.behind (n := 0) rfl (by decide)
    rw [if_pos (by rfl), List.tail_cons, Nat.add_comm]
    exact (breaks_one_of_tilde rest).add (breaks_simpleName hrest)
  · rw [if_neg (by simpa using htilde)]
    exact breaks_simpleName hs

theorem breaks_scopeChain {s : List Char} (hs : Plain s) : Breaks s (scopeChain s) := by
  induction hlen : s.length using Nat.strongRecOn generalizing s with
  | ind n ih =>
      by_cases hscope : [':', ':'] <+: s
      · obtain ⟨b, rfl⟩ := hscope
        have hb : Plain b := hs.behind (n := 1) rfl (by decide)
        have hcolons : Breaks (':' :: ':' :: b) 2 := fun h => nomatch h
        have hmember := breaks_scopeMember hb
        have hshort : (b.drop (scopeMember b)).length < n := by
          rw [List.length_drop]
          simp only [← hlen, List.cons_append, List.nil_append, List.length_cons]
          omega
        have hrest := ih _ hshort (hb.drop_of_breaks hmember) rfl
        simp only [List.cons_append, List.nil_append, scopeChain_cons]
        split
        · exact breaks_zero _
        · rw [Nat.add_comm (scopeMember b), Nat.add_assoc]
          exact hcolons.add (hmember.add hrest)
      · rw [scopeChain_eq_zero hscope]
        exact breaks_zero s

/-! ## Qualified names and types -/

theorem breaks_leadingScope {s : List Char} (hs : Plain s) : Breaks s (leadingScope s) := by
  have hgap := breaks_gap hs.comments
  by_cases hscope : [':', ':'] <+: s.drop (gap s)
  · obtain ⟨b, hb⟩ := hscope
    have hplain : Plain b := by
      have hdrop : s.drop (gap s + 1) = ':' :: b := by rw [← List.drop_drop, ← hb]; rfl
      exact hs.behind hdrop (by decide)
    have hcolons : Breaks (s.drop (gap s)) 2 := by
      rw [← hb]
      exact fun h => nomatch h
    have hinner : Breaks (s.drop (gap s + 2)) (gap b) := by
      rw [← List.drop_drop, ← hb]
      exact breaks_gap hplain.comments
    rw [leadingScope_of_scope hb.symm]
    exact (hgap.add hcolons).add hinner
  · rw [leadingScope_of_not_scope hscope]
    exact hgap

/-- A template argument ends in its `>`. -/
theorem breaks_templateEnd {s : List Char} {l : Nat} (h : Breaks s l) :
    Breaks s (templateEnd s l) := by
  unfold templateEnd
  split
  · dsimp only
    split
    · rename_i hclosed
      intro hlast
      simp only [Bool.and_eq_true, beq_iff_eq] at hclosed
      obtain ⟨b, hb⟩ := List.head?_eq_some_iff.mp hclosed.2
      generalize qualifiedName (s.drop l).tail = n at *
      have hdrop : s.drop (l + n + 1) = '>' :: b := by
        rw [← hb, ← List.drop_one, List.drop_drop, List.drop_drop]
        congr 1
        omega
      have hlt : l + n + 1 < s.length := by
        have := congrArg List.length hdrop
        simp only [List.length_drop, List.length_cons] at this
        omega
      have hget : s[l + n + 1] = '>' :=
        (List.cons.inj ((List.drop_eq_getElem_cons hlt).symm.trans hdrop)).1
      rw [List.take_succ_eq_append_getElem hlt, List.getLast?_append, hget] at hlast
      exact nomatch hlast
    · exact h
  · exact h

theorem breaks_qualifiedName {s : List Char} (hs : Plain s) : Breaks s (qualifiedName s) := by
  have hlead := breaks_leadingScope hs
  have hname := hlead.add (breaks_simpleName (hs.drop_of_breaks hlead))
  have hgap {l : Nat} (h : Breaks s l) : Breaks s (l + gap (s.drop l)) :=
    h.add (breaks_gap (hs.drop_of_breaks h).comments)
  have hbehind := hgap hname
  have hchain := hbehind.add (breaks_scopeChain (hs.drop_of_breaks hbehind))
  rw [qualifiedName_eq]
  dsimp only
  split
  · exact breaks_zero s
  · exact breaks_templateEnd (hgap hchain)

theorem breaks_indirectionLength {s : List Char} (hs : Plain s) :
    Breaks s (indirectionLength s) := by
  have hmark (c : Char) (rest : List Char) (hc : isNameChar c = false) (h : Plain (c :: rest)) :
      Breaks (c :: rest) (gap rest + 1) := by
    have hrest := h.behind (n := 0) rfl hc
    have hfirst : Breaks (c :: rest) 1 := by
      intro hlast
      have : isNameChar c = true := hlast
      rw [hc] at this
      exact nomatch this
    rw [Nat.add_comm]
    exact hfirst.add (breaks_gap hrest.comments)
  unfold indirectionLength
  split
  · exact hmark '&' _ (by decide) hs
  · exact hmark '*' _ (by decide) hs
  · exact breaks_zero _

theorem breaks_typeEnd {s : List Char} {l : Nat} (hs : Plain s) (h : Breaks s l) :
    Breaks s (typeEnd s l) := by
  have hindirection {l : Nat} (h : Breaks s l) : Breaks s (l + indirectionLength (s.drop l)) :=
    h.add (breaks_indirectionLength (hs.drop_of_breaks h))
  by_cases hscope : [':', ':'] <+: s.drop l
  · obtain ⟨b, hb⟩ := hscope
    have hplain : Plain b := by
      have hdrop : s.drop (l + 1) = ':' :: b := by rw [← List.drop_drop, ← hb]; rfl
      exact hs.behind hdrop (by decide)
    have hcolons : Breaks (s.drop l) 2 := by
      rw [← hb]
      exact fun h => nomatch h
    have hmember : Breaks (s.drop (l + 2)) (simpleName b) := by
      rw [← List.drop_drop, ← hb]
      exact breaks_simpleName hplain
    have hname := (h.add hcolons).add hmember
    rw [typeEnd_of_scope hb.symm]
    split
    · exact breaks_zero s
    · exact hindirection (hname.add (breaks_gap (hs.drop_of_breaks hname).comments))
  · rw [typeEnd_of_not_scope hscope]
    exact hindirection h

/-- The modifiers of a type may be written together with its name, but the name ends at a break. -/
theorem breaks_typeLength {s : List Char} (hs : Plain s) : Breaks s (typeLength s) := by
  have hplain := hs.drop (not_prefix_drop_modifiers hs.operators)
  rw [typeLength_eq]
  dsimp only
  split
  · exact breaks_zero s
  · rename_i hne
    have hname := (breaks_qualifiedName hplain).of_drop hne
    exact breaks_typeEnd hs (hname.add (breaks_gap (hs.drop_of_breaks hname).comments))

end CppDoc.Syntax
