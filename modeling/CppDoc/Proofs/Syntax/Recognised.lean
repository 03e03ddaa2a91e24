import CppDoc.Proofs.Syntax.SpelledType

/-!
# What is recognised is spelled as a type

The converse of recognising types as they may be spelled: the characters that a scanner takes, line
comments apart, are spelled as what it looks for, with blanks around them.  Only an operator name is
more than that, and behind one there is a parenthesis.

* `simpleName_cases`, `scopeChain_cases` and `qualifiedName_cases`: names;
* `typeLength_cases`: types, of which `TypeRead` lists the parts.
-/

namespace CppDoc.Syntax

open CppDoc.Text

/-- No line comment begins among the first `n` characters of `s`.  Behind a `=` there may be one, since
no name or type goes on there. -/
def Uncommented (s : List Char) (n : Nat) : Prop :=
  ∀ k < n, '=' ∉ s.take k → ¬ ['/', '/'] <+: s.drop k

/-- The first `n` characters of `s` hold the keyword of operator names, and parameters follow. -/
structure MeetsOperator (s : List Char) (n : Nat) : Prop where
  keyword : operatorKeyword <:+: s.take n
  opens : (s.drop n).head? = some '('

/-- What is read of a text may be followed by `r`: a word goes on to its end, and the mark of a
destructor takes a word behind it. -/
structure Stops (a r : List Char) : Prop where
  apart : a.getLast?.any isNameChar = true → r.head?.any isNameChar = false
  tilde : a.getLast? = some '~' → (r.drop (gap r)).head?.any isNameStart = false

variable {s r : List Char} {k m n : Nat}

theorem Uncommented.first (h : Uncommented s n) (hle : m ≤ n) : Uncommented s m :=
  fun k hk => h k (Nat.lt_of_lt_of_le hk hle)

theorem Uncommented.behind {a : List Char} (h : Uncommented s n) (hs : s = a ++ r) (ha : '=' ∉ a)
    (hle : a.length + m ≤ n) : Uncommented r m := by
  intro k hk hno
  have hcomment := h (a.length + k) (by omega)
  rw [hs, List.take_length_add_append, List.drop_length_add_append] at hcomment
  exact hcomment fun hmem => (List.mem_append.mp hmem).elim ha hno

theorem no_equals_blanks {b : List Char} (hb : b.all isBlank = true) : '=' ∉ b :=
  (TypeChars.blanks hb).not_mem rfl rfl

theorem MeetsOperator.of_drop (h : MeetsOperator (s.drop k) n) : MeetsOperator s (k + n) where
  keyword := by
    rw [List.take_add]
    exact h.keyword.trans (List.suffix_append _ _).isInfix
  opens := by
    rw [← List.drop_drop]
    exact h.opens

theorem MeetsOperator.append (h : MeetsOperator s n) (a : List Char) :
    MeetsOperator (a ++ s) (a.length + n) :=
  .of_drop (by rwa [List.drop_left])

/-- The end of the last part of a text is that of the text. -/
theorem Stops.append {b : List Char} (h : Stops b r) (hb : b ≠ []) (a : List Char) :
    Stops (a ++ b) r := by
  have hlast := getLast?_append_right (a := a) hb
  exact ⟨fun ha => h.apart (hlast ▸ ha), fun ha => h.tilde (hlast ▸ ha)⟩

/-- A word ends where no letter follows. -/
theorem Word.stops {E : Prop} {w : List Char} (hw : Word E w)
    (hr : r.head?.any isNameChar = false) : Stops w r where
  apart := fun _ => hr
  tilde := fun hlast => by
    have hname := hw.getLast?
    rw [hlast] at hname
    exact nomatch hname

/-! ## Gaps and words -/

/-- Without comments, a gap consists of blanks. -/
theorem all_isBlank_take_gap (h : Uncommented s (gap s)) : (s.take (gap s)).all isBlank = true := by
  induction s with
  | nil => rfl
  | cons c rest ih =>
      by_cases hblank : isBlank c = true
      · have hgap : gap (c :: rest) = gap rest + 1 := by
          simp only [gap, gapFrom, hblank, if_true, Bool.false_eq_true, if_false]
        rw [hgap] at h ⊢
        rw [List.take_succ_cons, List.all_cons, hblank, Bool.true_and]
        have hno : '=' ∉ [c] := no_equals_blanks (by simpa using hblank)
        exact ih (h.behind (a := [c]) rfl hno (by rw [List.length_singleton]; omega))
      · by_cases hcomment : c = '/' ∧ rest.head? = some '/'
        · obtain ⟨rfl, hslash⟩ := hcomment
          obtain ⟨tail, rfl⟩ := List.head?_eq_some_iff.mp hslash
          refine absurd ⟨tail, rfl⟩ (h 0 ?_ List.not_mem_nil)
          simp [gap, gapFrom, hblank]
        · have hgap : gap (c :: rest) = 0 :=
            gap_cons_eq_zero_iff.mpr ⟨by simpa using hblank, fun hc hslash => hcomment ⟨hc, hslash⟩⟩
          rw [hgap]
          rfl

/-- A text is cut behind the gap at its front. -/
theorem exists_gap (h : Uncommented s (gap s)) :
    ∃ b r, s = b ++ r ∧ b.all isBlank = true ∧ gap s = b.length ∧ gap r = 0 := by
  refine ⟨s.take (gap s), s.drop (gap s), (List.take_append_drop _ _).symm,
    all_isBlank_take_gap h, ?_, gap_drop_gap s⟩
  rw [List.length_take, Nat.min_eq_left (gap_le s)]

/-- An identifier goes on as far as there are letters. -/
theorem exists_word (h : identifierLength s ≠ 0) :
    ∃ w r, s = w ++ r ∧ Word True w ∧ r.head?.any isNameChar = false ∧
      identifierLength s = w.length := by
  cases s with
  | nil => exact absurd rfl h
  | cons c rest =>
      have hc : isNameStart c = true := by
        cases hc : isNameStart c with
        | true => rfl
        | false => simp [identifierLength, hc] at h
      refine ⟨c :: rest.takeWhile isNameChar, rest.dropWhile isNameChar, ?_, ⟨hc, ?_, fun _ => trivial⟩,
        head?_dropWhile_not rest, ?_⟩
      · rw [List.cons_append, List.takeWhile_append_dropWhile]
      · rw [List.all_cons, isNameChar_of_isNameStart hc, Bool.true_and]
        exact List.all_takeWhile
      · simp [identifierLength, hc]

theorem MeetsOperator.of_operatorLength (h : operatorLength s ≠ 0) :
    MeetsOperator s (operatorLength s) := by
  obtain ⟨⟨t, rfl⟩, hopen⟩ := operatorLength_opens h
  refine ⟨?_, hopen⟩
  have hle : operatorKeyword.length ≤ operatorLength (operatorKeyword ++ t) := by
    unfold operatorLength at h ⊢
    split at h
    · split at h
      · exact absurd rfl h
      · rename_i hprefix htail
        rw [if_pos hprefix, if_neg htail]
        exact Nat.le_add_right _ _
    · exact absurd rfl h
  rw [List.take_append, List.take_of_length_le hle]
  exact (List.prefix_append _ _).isInfix

/-- **A name** is a word behind blanks, or an operator name. -/
theorem simpleName_cases (h : simpleName s ≠ 0) (hs : Uncommented s (simpleName s)) :
    MeetsOperator s (simpleName s) ∨
      ∃ b w r, s = b ++ (w ++ r) ∧ b.all isBlank = true ∧ gap s = b.length ∧ Word True w ∧
        r.head?.any isNameChar = false ∧ simpleName s = b.length + w.length := by
  rw [simpleName_eq_nameLength] at h hs ⊢
  by_cases hzero : nameLength (s.drop (gap s)) = 0
  · exact absurd (if_pos hzero) h
  rw [if_neg hzero] at hs ⊢
  obtain ⟨b, t, rfl, hb, hgap, -⟩ := exists_gap (hs.first (Nat.le_add_right _ _))
  rw [hgap, List.drop_left] at hzero ⊢
  unfold nameLength at hzero ⊢
  by_cases hoperator : operatorLength t = 0
  · right
    rw [if_pos hoperator] at hzero ⊢
    obtain ⟨w, r, rfl, hw, hr, hlength⟩ := exists_word hzero
    exact ⟨b, w, r, rfl, hb, rfl, hw, hr, by rw [hlength]⟩
  · left
    rw [if_neg hoperator]
    exact (MeetsOperator.of_operatorLength hoperator).append b

/-- Where there is no name, nothing begins one behind the gap. -/
theorem head?_of_simpleName_eq_zero (h : simpleName s = 0) :
    (s.drop (gap s)).head?.any isNameStart = false := by
  cases hstart : (s.drop (gap s)).head?.any isNameStart with
  | false => rfl
  | true =>
      cases hs : s.drop (gap s) with
      | nil =>
          rw [hs] at hstart
          exact nomatch hstart
      | cons c rest =>
          rw [hs] at hstart
          have hc : isNameStart c = true := hstart
          have hlt := lt_simpleName (s := s) (by rw [hs]; simp [identifierLength, hc])
          omega

/-! ## Members -/

/-- **A member** behind a `::` is one of a chain, or an operator name. -/
theorem scopeMember_cases (h : scopeMember s ≠ 0) (hs : Uncommented s (scopeMember s)) :
    MeetsOperator s (scopeMember s) ∨
      ∃ c r, s = c ++ r ∧ ChainMember True c ∧ scopeMember s = c.length ∧ Stops c r := by
  rw [scopeMember_eq] at h hs ⊢
  by_cases hprefix : operatorKeyword.isPrefixOf s = true
  · rw [if_pos hprefix] at h ⊢
    exact .inl (.of_operatorLength h)
  rw [if_neg hprefix] at h hs ⊢
  by_cases htilde : s.head? = some '~'
  · rw [if_pos htilde] at h hs ⊢
    obtain ⟨t, rfl⟩ := List.head?_eq_some_iff.mp htilde
    rw [List.tail_cons] at h hs ⊢
    by_cases hzero : simpleName t = 0
    · right
      rw [hzero]
      exact ⟨['~'], t, rfl, .tilde, rfl, fun hname => absurd hname (by decide),
        fun _ => head?_of_simpleName_eq_zero hzero⟩
    · rcases simpleName_cases hzero (hs.behind (a := ['~']) rfl (by decide)
        (by rw [List.length_singleton]; omega)) with
        hoperator | ⟨b, w, r, rfl, hb, -, hw, hr, hlength⟩
      · left
        have hwhole := hoperator.append ['~']
        rwa [Nat.add_comm] at hwhole
      · right
        refine ⟨'~' :: (b ++ w), r, by simp, .destructor hb hw, ?_, ?_⟩
        · rw [hlength, List.length_cons, List.length_append]
        · rw [← List.cons_append]
          exact (hw.stops hr).append hw.ne_nil _
  · rw [if_neg htilde] at h hs ⊢
    rcases simpleName_cases h hs with hoperator | ⟨b, w, r, rfl, hb, -, hw, hr, hlength⟩
    · exact .inl hoperator
    · right
      refine ⟨b ++ w, r, by simp, .name hb hw ?_, by rw [hlength, List.length_append],
        (hw.stops hr).append hw.ne_nil _⟩
      rintro rfl hkey
      exact hprefix (List.isPrefixOf_iff_prefix.mpr (hkey.trans (List.prefix_append _ _)))

/-- A chain of members has been read of `s`, and `r` is left. -/
structure ChainRead (s : List Char) (cs : List (List Char)) (r : List Char) : Prop where
  text : s = chain cs ++ r
  members : ∀ c ∈ cs, ChainMember True c
  length : scopeChain s = (chain cs).length
  ends : scopeChain r = 0
  stops : cs ≠ [] → Stops (chain cs) r

/-- Where no member stands, the chain is empty. -/
theorem ChainRead.none (h : scopeChain s = 0) : ChainRead s [] s where
  text := rfl
  members := fun _ hc => absurd hc List.not_mem_nil
  length := h
  ends := h
  stops := fun hne => absurd rfl hne

/-- A member in front of a chain. -/
theorem ChainRead.cons {c : List Char} {cs : List (List Char)} {t : List Char}
    (hc : ChainMember True c) (hlength : scopeMember (c ++ t) = c.length) (hstops : Stops c t)
    (h : ChainRead t cs r) : ChainRead (':' :: ':' :: (c ++ t)) (c :: cs) r where
  text := by rw [chain_cons, h.text]
  members := by
    intro d hd
    rcases List.mem_cons.mp hd with rfl | hd
    · exact hc
    · exact h.members d hd
  length := by
    have hpos := List.length_pos_iff.mpr hc.ne_nil
    rw [scopeChain_cons, hlength, if_neg (Nat.ne_of_gt hpos), List.drop_left, h.length,
      chain_cons_eq]
    simp only [List.length_cons, List.length_append]
    omega
  ends := h.ends
  stops := by
    intro _
    rw [chain_cons_eq]
    cases cs with
    | nil =>
        have hwhole := hstops.append hc.ne_nil [':', ':']
        rw [h.text] at hwhole
        simpa [chain] using hwhole
    | cons d ds =>
        exact (h.stops (List.cons_ne_nil d ds)).append (chain_ne_nil (List.cons_ne_nil d ds))
          (':' :: ':' :: c)

/-- **A chain of members** is read, or an operator name is met. -/
theorem scopeChain_cases (hs : Uncommented s (scopeChain s)) :
    MeetsOperator s (scopeChain s) ∨ ∃ cs r, ChainRead s cs r := by
  induction hlen : s.length using Nat.strongRecOn generalizing s with
  | ind n ih =>
      subst hlen
      by_cases hscope : [':', ':'] <+: s
      · obtain ⟨t, rfl⟩ := hscope
        simp only [List.cons_append, List.nil_append] at hs ih ⊢
        by_cases hzero : scopeMember t = 0
        · exact .inr ⟨[], _, .none (by rw [scopeChain_cons, if_pos hzero])⟩
        have hvalue : scopeChain (':' :: ':' :: t) =
            2 + (scopeMember t + scopeChain (t.drop (scopeMember t))) := by
          rw [scopeChain_cons, if_neg hzero]
          omega
        rw [hvalue] at hs
        rcases scopeMember_cases hzero (hs.behind (a := [':', ':']) rfl (by decide)
          (Nat.add_le_add_left (Nat.le_add_right _ _) 2)) with
          hoperator | ⟨c, r, rfl, hc, hlength, hstops⟩
        · left
          obtain ⟨rest, hrest⟩ := List.head?_eq_some_iff.mp hoperator.opens
          rw [hvalue, hrest, scopeChain_parenthesis, Nat.add_zero]
          exact hoperator.append [':', ':']
        · rw [hlength, List.drop_left] at hvalue hs
          have hrest : Uncommented r (scopeChain r) :=
            hs.behind (a := [':', ':'] ++ c) rfl ((TypeChars.cons rfl (.cons rfl hc.typeChars)).not_mem
              rfl rfl) (by rw [List.length_append, List.length_cons, List.length_singleton]; omega)
          have hshort : r.length < (':' :: ':' :: (c ++ r)).length := by
            simp only [List.length_cons, List.length_append]
            omega
          rcases ih r.length hshort hrest rfl with hoperator | ⟨cs, r', hread⟩
          · left
            rw [hvalue]
            exact (hoperator.append c).append [':', ':']
          · exact .inr ⟨c :: cs, r', .cons hc hlength hstops hread⟩
      · exact .inr ⟨[], s, .none (scopeChain_eq_zero hscope)⟩

/-! ## Names -/

/-- What stands in front of the first word of a name. -/
theorem exists_lead (hs : Uncommented s (leadingScope s)) :
    ∃ i l t, s = i ++ (l ++ t) ∧ i.all isBlank = true ∧ Lead l ∧
      leadingScope s = i.length + l.length ∧ gap t = 0 := by
  have hle : gap s ≤ leadingScope s := by
    unfold leadingScope
    split <;> omega
  obtain ⟨i, t, rfl, hi, hgap, hnone⟩ := exists_gap (hs.first hle)
  have hdrop : (i ++ t).drop (gap (i ++ t)) = t := by rw [hgap, List.drop_left]
  by_cases hscope : [':', ':'] <+: t
  · obtain ⟨u, rfl⟩ := hscope
    have hvalue := leadingScope_of_scope (b := u) hdrop
    rw [hgap] at hvalue
    have hchars : TypeChars (i ++ [':', ':']) :=
      (TypeChars.blanks hi).append (.cons rfl (.cons rfl (.blanks rfl)))
    have hpart : Uncommented u (gap u) :=
      hs.behind (by simp) (hchars.not_mem rfl rfl)
        (by rw [List.length_append, hvalue]; exact Nat.le_refl _)
    obtain ⟨b, v, rfl, hb, hgapU, hnoneV⟩ := exists_gap hpart
    refine ⟨i, ':' :: ':' :: b, v, rfl, hi, .outermost hb, ?_, hnoneV⟩
    rw [hvalue, hgapU, List.length_cons, List.length_cons]
    omega
  · have hvalue := leadingScope_of_not_scope (s := i ++ t) (by rwa [hdrop])
    exact ⟨i, [], t, rfl, hi, .none, by rw [hvalue, hgap]; rfl, hnone⟩

/-- The first word `w` of a name has been read of `s`, with `i` and `l` before it. -/
structure FirstWord (s i l w r : List Char) : Prop where
  text : s = i ++ (l ++ (w ++ r))
  indent : i.all isBlank = true
  lead : Lead l
  word : Word True w
  apart : r.head?.any isNameChar = false
  start : leadingScope s = i.length + l.length
  length : simpleName (w ++ r) = w.length

section FirstWord

variable {i l w r : List Char}

theorem FirstWord.drop_eq (h : FirstWord s i l w r) (n : Nat) :
    s.drop (i.length + l.length + w.length + n) = r.drop n := by
  rw [h.text, Nat.add_assoc, Nat.add_assoc, List.drop_length_add_append,
    List.drop_length_add_append, List.drop_length_add_append]

theorem FirstWord.drop_start (h : FirstWord s i l w r) : s.drop (leadingScope s) = w ++ r := by
  rw [h.start, h.text, List.drop_length_add_append, List.drop_left]

theorem FirstWord.simpleName_ne_zero (h : FirstWord s i l w r) :
    simpleName (s.drop (leadingScope s)) ≠ 0 := by
  rw [h.drop_start, h.length]
  exact mt List.length_eq_zero_iff.mp h.word.ne_nil

/-- Behind the first word, the gap there ends. -/
theorem FirstWord.gap_eq (h : FirstWord s i l w r) :
    leadingScope s + simpleName (s.drop (leadingScope s)) +
      gap (s.drop (leadingScope s + simpleName (s.drop (leadingScope s)))) =
        i.length + l.length + w.length + gap r := by
  have hword := h.drop_eq 0
  rw [Nat.add_zero, List.drop_zero] at hword
  rw [h.drop_start, h.length, h.start, hword]

/-- The end of a name of which the first word has been read. -/
theorem FirstWord.qualifiedName_eq (h : FirstWord s i l w r) :
    qualifiedName s = nameEnd s (i.length + l.length + w.length + gap r +
      scopeChain (r.drop (gap r))) := by
  rw [CppDoc.Syntax.qualifiedName_eq]
  dsimp only
  rw [if_neg h.simpleName_ne_zero, h.gap_eq, h.drop_eq]

theorem FirstWord.uncommented {g t : List Char} (h : FirstWord s i l w r) (hs : Uncommented s n)
    (hr : r = g ++ t) (hg : TypeChars g)
    (hle : i.length + l.length + w.length + g.length + m ≤ n) : Uncommented t m := by
  have htext : s = (i ++ (l ++ (w ++ g))) ++ t := by
    rw [h.text, hr]
    simp
  refine hs.behind htext (TypeChars.not_mem ?_ rfl rfl) ?_
  · exact (TypeChars.blanks h.indent).append (h.lead.typeChars.append ((TypeChars.word h.word.chars).append
      hg))
  · simp only [List.length_append]
    omega

end FirstWord

/-- **The first word of a name** is read, or the name is that of an operator. -/
theorem exists_firstWord (h : qualifiedName s ≠ 0) (hs : Uncommented s (qualifiedName s)) :
    MeetsOperator s (qualifiedName s) ∨ ∃ i l w r, FirstWord s i l w r := by
  have hvalue := qualifiedName_eq s
  dsimp only at hvalue
  by_cases hzero : simpleName (s.drop (leadingScope s)) = 0
  · rw [if_pos hzero] at hvalue
    exact absurd hvalue h
  rw [if_neg hzero] at hvalue
  have hle : leadingScope s + simpleName (s.drop (leadingScope s)) ≤ qualifiedName s := by
    rw [hvalue]
    exact Nat.le_trans (by omega) (le_nameEnd s _)
  obtain ⟨i, l, t, rfl, hi, hl, hlead, hnone⟩ := exists_lead (hs.first (by omega))
  have hdrop : (i ++ (l ++ t)).drop (leadingScope (i ++ (l ++ t))) = t := by
    rw [hlead, List.drop_length_add_append, List.drop_left]
  rw [hdrop] at hle
  have hpart : Uncommented t (simpleName t) :=
    hs.behind (a := i ++ l) (by simp) (((TypeChars.blanks hi).append hl.typeChars).not_mem rfl rfl)
      (by rw [List.length_append, ← hlead]; exact hle)
  rw [hdrop] at hzero
  rcases simpleName_cases hzero hpart with
    hoperator | ⟨b, w, r, rfl, hb, hgap, hw, hr, hlength⟩
  · left
    have hwhole : MeetsOperator (i ++ (l ++ t)) (leadingScope (i ++ (l ++ t)) + simpleName t) :=
      .of_drop (by rwa [hdrop])
    rwa [qualifiedName_eq_of_name (by rw [hdrop]) hzero hwhole.opens]
  · right
    obtain rfl : b = [] := List.length_eq_zero_iff.mp (by omega)
    rw [List.length_nil, Nat.zero_add] at hlength
    exact ⟨i, l, w, r, rfl, hi, hl, hw, hr, hlead, hlength⟩

/-- A name `q` has been read of `s`, with the blanks `i` before it and `b` behind it, and `r` is
left. -/
structure NameRead (k : Shape) (s i q b r : List Char) : Prop where
  text : s = i ++ (q ++ (b ++ r))
  indent : i.all isBlank = true
  name : SpelledName True k q
  blank : b.all isBlank = true
  closed : k = .closed → b = []
  ends : k ≠ .closed → gap r = 0
  stops : k ≠ .closed → Stops q (b ++ r)
  scope : k ≠ .closed → (k = .path → b = []) → scopeChain r = 0

/-- What is left behind a name that has been read. -/
theorem NameRead.drop_eq {k : Shape} {i q b r : List Char} (h : NameRead k s i q b r) :
    s.drop (i.length + (q.length + b.length)) = r := by
  rw [h.text, List.drop_length_add_append, List.drop_length_add_append, List.drop_left]

/-- An operator name is met in the chain behind the first word. -/
theorem FirstWord.meetsOperator {i l w r : List Char} (h : FirstWord s i l w r)
    (hoperator : MeetsOperator (r.drop (gap r)) (scopeChain (r.drop (gap r)))) :
    MeetsOperator s (qualifiedName s) := by
  rw [← h.drop_eq] at hoperator
  have hwhole := MeetsOperator.of_drop hoperator
  rw [h.drop_eq] at hwhole
  rwa [h.qualifiedName_eq, nameEnd_parenthesis hwhole.opens]

/-- Without a chain the name is its first word, with the gap behind it. -/
theorem FirstWord.word_read {i l w g t : List Char} (h : FirstWord s i l w (g ++ t))
    (hg : g.all isBlank = true) (hends : gap t = 0) (hnone : scopeChain t = 0) :
    NameRead .word s i (l ++ w) g t where
  text := by
    rw [h.text]
    simp
  indent := h.indent
  name := .word h.lead h.word
  blank := hg
  closed := fun hclosed => by cases hclosed
  ends := fun _ => hends
  stops := fun _ => (h.word.stops h.apart).append h.word.ne_nil l
  scope := fun _ _ => hnone

/-- A chain that has members belongs to the name, and the gap stands behind it. -/
theorem FirstWord.path_read {i l w g t b z : List Char} {cs : List (List Char)}
    (h : FirstWord s i l w (g ++ t)) (hg : g.all isBlank = true) (hread : ChainRead t cs (b ++ z))
    (hne : cs ≠ []) (hb : b.all isBlank = true) (hends : gap z = 0) :
    NameRead .path s i (l ++ (w ++ (g ++ chain cs))) b z where
  text := by
    rw [h.text, hread.text]
    simp
  indent := h.indent
  name := .path h.lead h.word hg hne hread.members
  blank := hb
  closed := fun hclosed => by cases hclosed
  ends := fun _ => hends
  stops := fun _ => by
    rw [← List.append_assoc, ← List.append_assoc]
    exact (hread.stops hne).append (chain_ne_nil hne) _
  scope := fun _ hblank => by
    have hchain := hread.ends
    rwa [hblank rfl, List.nil_append] at hchain

/-- **The part of a name before its template arguments** is read, or an operator name is met. -/
theorem stem_cases (h : qualifiedName s ≠ 0) (hs : Uncommented s (qualifiedName s)) :
    MeetsOperator s (qualifiedName s) ∨
      ∃ k i q b r, k ≠ .closed ∧ NameRead k s i q b r ∧
        qualifiedName s = templateEnd s (i.length + (q.length + b.length)) := by
  rcases exists_firstWord h hs with hoperator | ⟨i, l, w, r, hfirst⟩
  · exact .inl hoperator
  have hvalue := hfirst.qualifiedName_eq
  have hle : i.length + l.length + w.length + gap r + scopeChain (r.drop (gap r)) ≤
      qualifiedName s := by
    rw [hvalue]
    exact le_nameEnd s _
  have hgapPart := hfirst.uncommented (g := []) (m := gap r) hs rfl (.blanks rfl)
    (by rw [List.length_nil]; omega)
  obtain ⟨g, t, rfl, hg, hgap, hnone⟩ := exists_gap hgapPart
  have hdrop := hfirst.drop_eq g.length
  have hgapDrop : (g ++ t).drop (gap (g ++ t)) = t := by rw [hgap, List.drop_left]
  rw [List.drop_left] at hdrop
  rw [hgapDrop, hgap] at hle hvalue
  have hpart := hfirst.uncommented (m := scopeChain t) hs rfl (TypeChars.blanks hg) (by omega)
  rcases scopeChain_cases hpart with hoperator | ⟨cs, y, hread⟩
  · exact .inl (hfirst.meetsOperator (by rwa [hgapDrop]))
  right
  have hlength := hread.length
  by_cases hnil : cs = []
  · subst hnil
    have hzero : scopeChain t = 0 := hlength
    refine ⟨.word, i, l ++ w, g, t, by decide, hfirst.word_read hg hnone hzero, ?_⟩
    rw [hvalue, hzero, Nat.add_zero, nameEnd, hdrop, hnone, Nat.add_zero, List.length_append,
      Nat.add_assoc, Nat.add_assoc, Nat.add_assoc]
  · have hbehind : s.drop (i.length + l.length + w.length + g.length + (chain cs).length) = y := by
      rw [← List.drop_drop, hdrop, hread.text, List.drop_left]
    rw [hlength, nameEnd, hbehind] at hvalue
    have hle := le_templateEnd s
      (i.length + l.length + w.length + g.length + (chain cs).length + gap y)
    rw [← hvalue] at hle
    have hgapPart : Uncommented y (gap y) :=
      hfirst.uncommented (g := g ++ chain cs) hs (by rw [hread.text]; simp)
        ((TypeChars.blanks hg).append (typeChars_chain hread.members))
        (by rw [List.length_append]; omega)
    obtain ⟨b, z, rfl, hb, hgapY, hnoneZ⟩ := exists_gap hgapPart
    refine ⟨.path, i, _, b, z, by decide, hfirst.path_read hg hread hnil hb hnoneZ, ?_⟩
    rw [hvalue, hgapY]
    simp only [List.length_append]
    congr 1
    omega

/-- A template argument is read behind the name before it. -/
theorem NameRead.close {k j : Shape} {i q b t i' a b' : List Char} (h : NameRead k s i q b ('<' :: t))
    (hk : k ≠ .closed) (ha : NameRead j t i' a b' ('>' :: r)) :
    NameRead .closed s i (q ++ (b ++ '<' :: (i' ++ (a ++ (b' ++ ['>']))))) [] r where
  text := by
    rw [h.text, ha.text]
    simp
  indent := h.indent
  name := .closed h.name hk h.blank ha.indent ha.name ha.blank ha.closed
  blank := rfl
  closed := fun _ => rfl
  ends := fun hno => absurd rfl hno
  stops := fun hno => absurd rfl hno
  scope := fun hno => absurd rfl hno

/-- **A name** is read, or an operator name is met. -/
theorem qualifiedName_cases (h : qualifiedName s ≠ 0) (hs : Uncommented s (qualifiedName s)) :
    MeetsOperator s (qualifiedName s) ∨
      ∃ k i q b r, NameRead k s i q b r ∧
        qualifiedName s = i.length + (q.length + b.length) := by
  induction hlen : s.length using Nat.strongRecOn generalizing s with
  | ind n ih =>
      subst hlen
      rcases stem_cases h hs with hoperator | ⟨k, i, q, b, r, hk, hread, hvalue⟩
      · exact .inl hoperator
      right
      have hdrop := hread.drop_eq
      by_cases hopen : r.head? = some '<' ∧ 0 < qualifiedName r.tail ∧
          (r.tail.drop (qualifiedName r.tail)).head? = some '>'
      · obtain ⟨hopen, hpos, hclose⟩ := hopen
        obtain ⟨t, rfl⟩ := List.head?_eq_some_iff.mp hopen
        rw [List.tail_cons] at hpos hclose
        rw [templateEnd_of_argument hdrop hpos hclose] at hvalue
        have hchars : TypeChars (i ++ (q ++ (b ++ ['<']))) :=
          (TypeChars.blanks hread.indent).append (hread.name.typeChars.append
            ((TypeChars.blanks hread.blank).append (.cons rfl nofun)))
        have hpart : Uncommented t (qualifiedName t) :=
          hs.behind (by rw [hread.text]; simp) (hchars.not_mem rfl rfl) (by
            simp only [List.length_append, List.length_singleton]
            omega)
        have hshort : t.length < s.length := by
          rw [hread.text]
          simp only [List.length_append, List.length_cons]
          omega
        rcases ih t.length hshort (Nat.ne_of_gt hpos) hpart rfl with
          hoperator | ⟨j, i', a, b', r, hargument, hlength⟩
        · rw [hoperator.opens] at hclose
          exact absurd hclose (by decide)
        · rw [hlength, hargument.drop_eq] at hclose
          obtain ⟨u, rfl⟩ := List.head?_eq_some_iff.mp hclose
          refine ⟨.closed, i, _, [], u, hread.close hk hargument, ?_⟩
          rw [hvalue, hlength]
          simp only [List.length_append, List.length_cons, List.length_nil]
          omega
      · refine ⟨k, i, q, b, r, hread, ?_⟩
        rw [hvalue]
        simp only [templateEnd, hdrop]
        split
        · rename_i hangle
          rw [if_neg]
          simp only [Bool.and_eq_true, decide_eq_true_eq, beq_iff_eq]
          exact fun hclosed => hopen ⟨hangle, hclosed⟩
        · rfl

/-! ## Types -/

/-- The mark of a type and the blanks behind it. -/
theorem exists_mark {z : List Char}
    (hz : Uncommented z (gap z + indirectionLength (z.drop (gap z)))) :
    ∃ k b r, z = k ++ (b ++ r) ∧ SpelledMark k ∧ b.all isBlank = true ∧ gap r = 0 ∧
      gap z + indirectionLength (z.drop (gap z)) = k.length + b.length := by
  obtain ⟨g, t, rfl, hg, hgap, hnone⟩ := exists_gap (hz.first (Nat.le_add_right _ _))
  rw [hgap, List.drop_left] at hz ⊢
  have hmark (c : Char) (hc : c = '&' ∨ c = '*') (u : List Char) (ht : t = c :: u)
      (hlength : indirectionLength t = gap u + 1) :
      ∃ k b r, g ++ t = k ++ (b ++ r) ∧ SpelledMark k ∧ b.all isBlank = true ∧ gap r = 0 ∧
        g.length + indirectionLength t = k.length + b.length := by
    rw [hlength, ht] at hz
    have hno : '=' ∉ g ++ [c] := by
      rw [List.mem_append, not_or]
      refine ⟨no_equals_blanks hg, ?_⟩
      rcases hc with rfl | rfl <;> decide
    have hpart : Uncommented u (gap u) :=
      hz.behind (a := g ++ [c]) (by simp) hno (by
        rw [List.length_append, List.length_singleton]
        omega)
    obtain ⟨b, r, rfl, hb, hgapU, hnoneR⟩ := exists_gap hpart
    refine ⟨g ++ [c], b, r, by rw [ht]; simp, .mark hg hc, hb, hnoneR, ?_⟩
    rw [hlength, hgapU, List.length_append, List.length_singleton]
    omega
  unfold indirectionLength at hmark ⊢
  split
  · exact hmark '&' (.inl rfl) _ rfl rfl
  · exact hmark '*' (.inr rfl) _ rfl rfl
  · exact ⟨[], g, t, rfl, .none, hg, hnone, by rw [List.length_nil]; omega⟩

/-- Where there is a name but no member, the keyword of operator names begins the name. -/
theorem keyword_of_scopeMember {t : List Char} (hmember : scopeMember t = 0)
    (hname : simpleName t ≠ 0) : operatorKeyword <+: t := by
  rw [scopeMember_eq] at hmember
  split at hmember
  · rename_i hprefix
    exact List.isPrefixOf_iff_prefix.mp hprefix
  · split at hmember
    · exact nomatch hmember
    · exact absurd hmember hname

/-- The name of a type has been read of `s`, with `i` before it, and `z` is left. -/
structure BodyRead (s i x z : List Char) : Prop where
  text : s = i ++ (x ++ z)
  indent : i.all isBlank = true
  body : SpelledBody True x
  stops : Stops x z
  length : typeLength s = i.length + (x.length + (gap z + indirectionLength (z.drop (gap z))))

/-- Template arguments do not go on. -/
theorem NameRead.stops_name {k : Shape} {i q b r : List Char} (h : NameRead k s i q b r) :
    Stops q (b ++ r) := by
  rcases h.name.getLast? with ⟨-, hlast⟩ | ⟨hclosed, -⟩
  · constructor
    · rw [hlast]
      exact fun hname => nomatch hname
    · rw [hlast]
      exact fun htilde => absurd htilde (by decide)
  · exact h.stops hclosed

/-- One more member is read behind the name of a type. -/
theorem NameRead.member {k : Shape} {i q b r g t : List Char} (h : NameRead k s i q b r)
    (hg : r = g ++ ':' :: ':' :: t) (hblank : g.all isBlank = true) (hgap : gap r = g.length)
    (hname : simpleName t ≠ 0) (ht : Uncommented t (simpleName t)) :
    MeetsOperator t (simpleName t) ∨ ∃ x z, q ++ (b ++ r) = x ++ z ∧ SpelledBody True x ∧
      Stops x z ∧ x.length = q.length + b.length + g.length + 2 + simpleName t := by
  rcases simpleName_cases hname ht with hoperator | ⟨b', w, z, rfl, hb', -, hw, hz, hlength⟩
  · exact .inl hoperator
  right
  refine ⟨q ++ ((b ++ g) ++ ':' :: ':' :: (b' ++ w)), z, by rw [hg]; simp, ?_, ?_, ?_⟩
  · refine .member h.name (by rw [List.all_append, h.blank, hblank]; rfl) hb' hw ?_
    by_cases hclosed : k = .closed
    · exact .inl hclosed
    right
    have hnil : g = [] := by
      rw [h.ends hclosed] at hgap
      exact List.length_eq_zero_iff.mp hgap.symm
    rw [hnil, List.append_nil]
    by_cases hpath : k = .path ∧ b ≠ []
    · exact .inl hpath
    -- The chain has left a member behind, and only one that begins like an operator name is left.
    right
    have hchain := h.scope hclosed fun hk => Decidable.not_not.mp fun hb => hpath ⟨hk, hb⟩
    rw [hg, hnil, List.nil_append, scopeChain_cons] at hchain
    have hmember : scopeMember (b' ++ (w ++ z)) = 0 := by
      by_cases hne : scopeMember (b' ++ (w ++ z)) = 0
      · exact hne
      · rw [if_neg hne] at hchain
        omega
    have hkey := keyword_of_scopeMember hmember hname
    have hb : b' = [] := Decidable.not_not.mp fun hne =>
      not_prefix_blanks_append hb' hne (c := 'o') rfl rfl _ hkey
    subst hb
    exact ⟨rfl, Decidable.not_not.mp fun hno =>
      not_prefix_append (by decide) hno (fun _ => hz) hkey⟩
  · have htext : q ++ ((b ++ g) ++ ':' :: ':' :: (b' ++ w)) =
        (q ++ ((b ++ g) ++ ':' :: ':' :: b')) ++ w := by simp
    rw [htext]
    exact (hw.stops hz).append hw.ne_nil _
  · rw [hlength]
    simp only [List.length_append, List.length_cons]
    omega

/-- Where no `::` follows, the name of a type is the name that has been read. -/
theorem NameRead.body {k : Shape} {i q b g y : List Char} {l : Nat}
    (h : NameRead k s i q b (g ++ y)) (hgap : gap (g ++ y) = g.length)
    (hl : i.length + (q.length + b.length) + g.length = l) (hvalue : typeLength s = typeEnd s l)
    (hscope : ¬ [':', ':'] <+: y) : BodyRead s i q (b ++ (g ++ y)) where
  text := h.text
  indent := h.indent
  body := .name h.name
  stops := h.stops_name
  length := by
    have hbehind : s.drop l = y := by rw [← hl, ← List.drop_drop, h.drop_eq, List.drop_left]
    have hgapZ : gap (b ++ (g ++ y)) = b.length + g.length := by
      rw [gap_blanks_append h.blank, hgap]
    rw [hvalue, typeEnd_of_not_scope (by rwa [hbehind]), hbehind, hgapZ, ← hl, ← List.drop_drop,
      List.drop_left, List.drop_left]
    omega

/-- Where one more member follows, it belongs to the name of the type. -/
theorem NameRead.body_member {k : Shape} {i q b g t : List Char} {l : Nat}
    (h : NameRead k s i q b (g ++ ':' :: ':' :: t)) (hg : g.all isBlank = true)
    (hgap : gap (g ++ ':' :: ':' :: t) = g.length)
    (hl : i.length + (q.length + b.length) + g.length = l) (hvalue : typeLength s = typeEnd s l)
    (hmember : simpleName t ≠ 0) (ht : Uncommented t (simpleName t)) :
    MeetsOperator s (typeLength s) ∨ ∃ x z, BodyRead s i x z := by
  have hbehind : s.drop l = ':' :: ':' :: t := by
    rw [← hl, ← List.drop_drop, h.drop_eq, List.drop_left]
  rcases h.member rfl hg hgap hmember ht with hoperator | ⟨x, z, htext, hbody, hstops, hx⟩
  · left
    have hwhole : MeetsOperator s (l + 2 + simpleName t) :=
      .of_drop (by rw [← List.drop_drop, hbehind]; exact hoperator)
    rwa [hvalue, typeEnd_eq_of_opens hbehind hmember hwhole.opens]
  · right
    have hx' : l + 2 + simpleName t = i.length + x.length := by omega
    have htext' : s = i ++ (x ++ z) := by rw [h.text, htext]
    have hz : s.drop (i.length + x.length) = z := by
      rw [htext', List.drop_length_add_append, List.drop_left]
    refine ⟨x, z, htext', h.indent, hbody, hstops, ?_⟩
    rw [hvalue, typeEnd_of_scope hbehind, if_neg hmember, hx']
    dsimp only
    rw [hz, ← List.drop_drop, hz, Nat.add_assoc, Nat.add_assoc]

/-- **The name of a type** is read, or an operator name is met. -/
theorem body_cases (hmodifiers : modifiersLength s = 0) (h : typeLength s ≠ 0)
    (hs : Uncommented s (typeLength s)) :
    MeetsOperator s (typeLength s) ∨ ∃ i x z, BodyRead s i x z := by
  have hname : qualifiedName s ≠ 0 := by
    have hname := qualifiedName_ne_zero s h
    rwa [hmodifiers, List.drop_zero] at hname
  have hvalue := typeLength_eq_typeEnd hmodifiers hname rfl
  have hle : qualifiedName s + gap (s.drop (qualifiedName s)) ≤ typeLength s := by
    rcases typeEnd_eq_zero_or_le s (qualifiedName s + gap (s.drop (qualifiedName s))) with hzero | hle
    · exact absurd (hvalue.trans hzero) h
    · omega
  rcases qualifiedName_cases hname (hs.first (by omega)) with
    hoperator | ⟨k, i, q, b, r, hread, hlength⟩
  · left
    rwa [typeLength_eq_of_stop hmodifiers hname (.inl hoperator.opens)]
  have hchars : TypeChars (i ++ (q ++ b)) := (TypeChars.blanks hread.indent).append
    (hread.name.typeChars.append (TypeChars.blanks hread.blank))
  have hsum : (i ++ (q ++ b)).length = qualifiedName s := by simp [hlength]
  have hdrop : s.drop (qualifiedName s) = r := hlength ▸ hread.drop_eq
  rw [hdrop] at hvalue hle
  have hpart : Uncommented r (gap r) :=
    hs.behind (by rw [hread.text]; simp) (hchars.not_mem rfl rfl) (by rw [hsum]; exact hle)
  obtain ⟨g, y, rfl, hg, hgap, -⟩ := exists_gap hpart
  rw [hgap] at hvalue hle
  by_cases hscope : [':', ':'] <+: y
  · obtain ⟨t, ht⟩ := hscope
    obtain rfl : y = ':' :: ':' :: t := ht.symm
    have hbehind : s.drop (qualifiedName s + g.length) = ':' :: ':' :: t := by
      rw [← List.drop_drop, hdrop, List.drop_left]
    have hmember : simpleName t ≠ 0 := by
      intro hzero
      rw [typeEnd_of_scope hbehind, if_pos hzero] at hvalue
      exact h hvalue
    have hbound : qualifiedName s + g.length + 2 + simpleName t ≤ typeLength s := by
      rw [hvalue, typeEnd_of_scope hbehind, if_neg hmember]
      dsimp only
      omega
    have hcharsT : TypeChars ((i ++ (q ++ b)) ++ (g ++ [':', ':'])) :=
      hchars.append ((TypeChars.blanks hg).append (.cons rfl (.cons rfl nofun)))
    have hpartT : Uncommented t (simpleName t) :=
      hs.behind (by rw [hread.text]; simp) (hcharsT.not_mem rfl rfl) (by
        rw [List.length_append, hsum, List.length_append, ← Nat.add_assoc]
        exact hbound)
    exact (hread.body_member hg hgap (by rw [hlength]) hvalue hmember hpartT).imp_right
      fun ⟨x, z, hbody⟩ => ⟨i, x, z, hbody⟩
  · exact .inr ⟨i, q, b ++ (g ++ y), hread.body hgap (by rw [hlength]) hvalue hscope⟩

/-- Where no modifier is read, the small letters of the name are none. -/
theorem BodyRead.unmodified {i x z : List Char} (h : BodyRead s i x z)
    (hmodifier : modifierLength s = 0) : Unmodified x := by
  have hstart := h.body.beginsType
  obtain ⟨d, rest, rfl⟩ := List.exists_cons_of_ne_nil h.body.ne_nil
  have hblank : isBlank d = false :=
    (gap_cons_eq_zero_iff.mp (gap_eq_zero_of_beginsType hstart rest)).1
  have hblanks : s.takeWhile isBlank = i := by
    rw [h.text, List.takeWhile_append_of_pos (List.all_eq_true.mp h.indent), List.cons_append,
      List.takeWhile_cons_of_neg (by simp [hblank]), List.append_nil]
  have hword : (d :: rest ++ z).takeWhile Char.isLower = (d :: rest).takeWhile Char.isLower := by
    apply takeWhile_append_of_boundary
    intro hall
    apply head?_not_isLower
    apply h.stops.apart
    rw [List.getLast?_eq_some_getLast (List.cons_ne_nil d rest)]
    exact isNameChar_of_isLower (List.all_eq_true.mp hall _ (List.getLast_mem _))
  have hne : ∀ m ∈ typeModifiers, m.length ≠ 0 := by decide
  intro hmem
  simp only [modifierLength, hblanks] at hmodifier
  rw [h.text, List.drop_left, hword, if_pos (List.contains_iff_mem.mpr hmem)] at hmodifier
  exact hne _ hmem (by omega)

/-- The first modifier of a type. -/
theorem exists_first_modifier (h : modifierLength s ≠ 0) :
    ∃ i m t, s = i ++ (m ++ t) ∧ i.all isBlank = true ∧ m ∈ typeModifiers ∧
      modifierLength s = i.length + m.length ∧ t.head?.any Char.isLower = false := by
  have hblanks : s = s.takeWhile isBlank ++ s.dropWhile isBlank :=
    List.takeWhile_append_dropWhile.symm
  generalize hi : s.takeWhile isBlank = i at hblanks
  generalize s.dropWhile isBlank = u at hblanks
  have hword : u = u.takeWhile Char.isLower ++ u.dropWhile Char.isLower :=
    List.takeWhile_append_dropWhile.symm
  have hdrop : s.drop i.length = u := by rw [hblanks, List.drop_left]
  unfold modifierLength at h ⊢
  dsimp only at h ⊢
  rw [hi, hdrop] at h ⊢
  split at h
  · rename_i hmodifier
    rw [if_pos hmodifier]
    exact ⟨i, _, _, hword ▸ hblanks, hi ▸ List.all_takeWhile, List.contains_iff_mem.mp hmodifier,
      rfl, head?_dropWhile_not u⟩
  · exact absurd rfl h

/-- Modifiers make no type of what is none. -/
theorem typeLength_behind_modifiers {a t : List Char}
    (hmodifiers : modifiersLength (a ++ t) = a.length + modifiersLength t)
    (h : typeLength (a ++ t) ≠ 0) : typeLength t ≠ 0 := by
  intro hzero
  apply h
  rw [typeLength_eq] at hzero ⊢
  dsimp only at hzero ⊢
  rw [hmodifiers, List.drop_length_add_append, Nat.add_assoc a.length,
    List.drop_length_add_append, Nat.add_assoc a.length]
  by_cases hname : qualifiedName (t.drop (modifiersLength t)) = 0
  · rw [if_pos hname]
  rw [if_neg hname] at hzero ⊢
  generalize hl : modifiersLength t + qualifiedName (t.drop (modifiersLength t)) + gap (t.drop
    (modifiersLength t + qualifiedName (t.drop (modifiersLength t)))) = l at hzero ⊢
  by_cases hscope : [':', ':'] <+: t.drop l
  · obtain ⟨u, hu⟩ := hscope
    rw [typeEnd_of_scope (b := u) hu.symm] at hzero
    rw [typeEnd_of_scope (b := u) (by rw [List.drop_length_add_append]; exact hu.symm)]
    by_cases hmember : simpleName u = 0
    · rw [if_pos hmember]
    · rw [if_neg hmember] at hzero
      dsimp only at hzero
      omega
  · rw [typeEnd_of_not_scope hscope] at hzero
    omega

/-- A type has been read of `s`: the type `x` with its mark `k`, the blanks `i` before it and `b`
behind it, and `r` is left. -/
structure TypeRead (s i x k b r : List Char) : Prop where
  text : s = i ++ (x ++ (k ++ (b ++ r)))
  indent : i.all isBlank = true
  type : SpelledType True x
  mark : SpelledMark k
  blank : b.all isBlank = true
  ends : gap r = 0
  stops : Stops x (k ++ (b ++ r))
  length : typeLength s = i.length + (x.length + (k.length + b.length))

/-- A modifier is read in front of a type. -/
theorem TypeRead.modifier {i m t i' x k b : List Char} (hi : i.all isBlank = true)
    (hm : m ∈ typeModifiers) (ht : t.head?.any Char.isLower = false)
    (hlength : typeLength (i ++ (m ++ t)) = i.length + m.length + typeLength t)
    (h : TypeRead t i' x k b r) :
    TypeRead (i ++ (m ++ t)) i (m ++ (i' ++ x)) k b r where
  text := by
    rw [h.text]
    simp
  indent := hi
  type := .modifier hm h.indent h.type fun hnil => by
    rw [h.text, hnil, List.nil_append] at ht
    obtain ⟨c, rest, hx⟩ := List.exists_cons_of_ne_nil h.type.ne_nil
    rw [hx] at ht ⊢
    exact ht
  mark := h.mark
  blank := h.blank
  ends := h.ends
  stops := by
    rw [← List.append_assoc]
    exact h.stops.append h.type.ne_nil _
  length := by
    rw [hlength, h.length]
    simp only [List.length_append]
    omega

/-- **A type** is read, or an operator name is met. -/
theorem typeLength_cases (h : typeLength s ≠ 0) (hs : Uncommented s (typeLength s)) :
    MeetsOperator s (typeLength s) ∨ ∃ i x k b r, TypeRead s i x k b r := by
  induction hlen : s.length using Nat.strongRecOn generalizing s with
  | ind n ih =>
      subst hlen
      have hmodifiers := modifiersLength_eq s
      by_cases hzero : modifierLength s = 0
      · rw [if_pos hzero] at hmodifiers
        rcases body_cases hmodifiers h hs with hoperator | ⟨i, x, z, hread⟩
        · exact .inl hoperator
        right
        have hdrop : s.drop (i.length + x.length) = z := by
          rw [hread.text, List.drop_length_add_append, List.drop_left]
        have hchars : TypeChars (i ++ x) := (TypeChars.blanks hread.indent).append
          (hread.body.typeChars)
        have hpart : Uncommented z (gap z + indirectionLength (z.drop (gap z))) :=
          hs.behind (by rw [hread.text]; simp) (hchars.not_mem rfl rfl) (by
            rw [hread.length, List.length_append]
            omega)
        obtain ⟨k, b, r, rfl, hk, hb, hr, hsum⟩ := exists_mark hpart
        exact ⟨i, x, k, b, r, hread.text, hread.indent, .body hread.body (hread.unmodified hzero), hk,
          hb, hr, hread.stops, by rw [hread.length, hsum]⟩
      · obtain ⟨i, m, t, rfl, hi, hm, hlength, ht⟩ := exists_first_modifier hzero
        have hdrop : (i ++ (m ++ t)).drop (i.length + m.length) = t := by
          rw [List.drop_length_add_append, List.drop_left]
        rw [if_neg hzero, hlength, hdrop] at hmodifiers
        have htext : i ++ (m ++ t) = (i ++ m) ++ t := by simp
        have hsame : (i ++ m).length = i.length + m.length := List.length_append
        rw [htext] at h hmodifiers
        have htype := typeLength_behind_modifiers (hsame ▸ hmodifiers) h
        have hvalue := typeLength_of_modifiersLength t htype (hsame ▸ hmodifiers)
        rw [← htext, hsame] at hvalue
        rw [hvalue] at hs
        have hall : ∀ m ∈ typeModifiers, m.all isNameChar = true := by decide
        have hchars : TypeChars (i ++ m) := (TypeChars.blanks hi).append (.word (hall m hm))
        have hpart : Uncommented t (typeLength t) :=
          hs.behind (a := i ++ m) (by simp) (hchars.not_mem rfl rfl) (Nat.le_of_eq (by rw [hsame]))
        have hne : ∀ m ∈ typeModifiers, m.length ≠ 0 := by decide
        have hshort : t.length < (i ++ (m ++ t)).length := by
          have := hne m hm
          simp only [List.length_append]
          omega
        rcases ih t.length hshort htype hpart rfl with hoperator | ⟨i', x, k, b, r, hread⟩
        · left
          rw [hvalue]
          exact .of_drop (by rwa [hdrop])
        · exact .inr ⟨i, _, k, b, r, .modifier hi hm ht hvalue hread⟩

end CppDoc.Syntax
