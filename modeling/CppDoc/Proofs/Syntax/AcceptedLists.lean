import CppDoc.Proofs.Syntax.LaidParameters

/-!
# Accepted lists are laid out

The converse of reading parameter lists as they may be laid out: a list that is read consists of
parameters that are spelled as types with names and endings, with blanks around them.  Line comments are
passed over like blanks, but they would be kept in the types, and so they are left out here; in a
default value there may be one.

* `commented`: line comments outside of default values;
* `exists_laidParameter`: one parameter;
* `exists_laidList`: a list in its parentheses.
-/

namespace CppDoc.Syntax

open CppDoc.Text

/-- Behind `c`, does a default value go on?  `v` tells whether there was one before. -/
def valueAfter (v : Bool) (c : Char) : Bool :=
  c == '=' || (v && !endsDefault c)

/-- Does a line comment begin in `s` outside of default values?  `v` tells whether `s` begins in one. -/
def commented (v : Bool) : List Char → Bool
  | [] => false
  | c :: s => (!v && ['/', '/'].isPrefixOf (c :: s)) || commented (valueAfter v c) s

section Comments

variable {a s : List Char} {c : Char} {m n : Nat}

/-- No default value begins where there is no `=`. -/
theorem commented_behind (ha : '=' ∉ a) (h : commented false (a ++ s) = false) :
    commented false s = false := by
  induction a with
  | nil => exact h
  | cons d rest ih =>
      rw [List.mem_cons, not_or] at ha
      have hd : valueAfter false d = false := by
        simp [valueAfter, Ne.symm ha.1]
      rw [List.cons_append, commented, hd, Bool.or_eq_false_iff] at h
      exact ih ha.2 h.2

/-- A default value ends at what separates parameters. -/
theorem commented_value (ha : a.all (fun c => !endsDefault c) = true) (hc : Separates c)
    (h : commented true (a ++ c :: s) = false) : commented false s = false := by
  induction a with
  | nil =>
      have hvalue : valueAfter true c = false := by rcases hc with rfl | rfl <;> rfl
      rw [List.nil_append, commented, hvalue, Bool.or_eq_false_iff] at h
      exact h.2
  | cons d rest ih =>
      rw [List.all_cons, Bool.and_eq_true] at ha
      have hvalue : valueAfter true d = true := by simp [valueAfter, ha.1]
      rw [List.cons_append, commented, hvalue, Bool.or_eq_false_iff] at h
      exact ih ha.2 h.2

/-- What is read in front of an end holds no comment. -/
theorem uncommented_of_commented (h : commented false (s.take n) = false) (hm : m < n) :
    Uncommented s m := by
  intro k hk hno hcomment
  obtain ⟨t, ht⟩ := hcomment
  have htext : s.take n = s.take k ++ (s.drop k).take (n - k) := by
    rw [← List.take_add, Nat.add_sub_cancel' (by omega)]
  obtain ⟨j, hj⟩ : ∃ j, n - k = j + 2 := ⟨n - k - 2, by omega⟩
  rw [htext, ← ht, hj] at h
  exact absurd (commented_behind hno h) (by simp [commented])

end Comments

section Accepted

variable {s t z kept : List Char} {n : Nat} {c : Char}

/-- **What is accepted**: a parameter, and behind it a parenthesis, or a comma and the rest. -/
theorem readParameterTail_cases (h : (readParameterTail s).1 ≠ none) :
    (readParameter s).2 ≠ 0 ∧ ∃ t,
      (s.drop (readParameter s).2 = ',' :: t ∧ (readParameterTail t).1 ≠ none ∧
          (readParameterTail s).2 = (readParameter s).2 + 1 + (readParameterTail t).2) ∨
        (s.drop (readParameter s).2 = ')' :: t ∧
          (readParameterTail s).2 = (readParameter s).2 + 1) := by
  rw [readParameterTail_eq] at h ⊢
  dsimp only at h ⊢
  by_cases hzero : (readParameter s).2 = 0
  · rw [if_pos hzero] at h
    exact absurd rfl h
  refine ⟨hzero, ?_⟩
  rw [if_neg hzero] at h ⊢
  by_cases hcomma : (s.drop (readParameter s).2).head? = some ','
  · obtain ⟨t, ht⟩ := List.head?_eq_some_iff.mp hcomma
    rw [if_pos hcomma, ht] at h ⊢
    refine ⟨t, .inl ⟨rfl, fun hnone => ?_, rfl⟩⟩
    rw [List.tail_cons, hnone] at h
    exact absurd rfl h
  · rw [if_neg hcomma] at h ⊢
    by_cases hclose : (s.drop (readParameter s).2).head? = some ')'
    · obtain ⟨t, ht⟩ := List.head?_eq_some_iff.mp hclose
      rw [if_pos hclose, ht]
      exact ⟨t, .inr ⟨rfl, rfl⟩⟩
    · rw [if_neg hclose] at h
      exact absurd rfl h

/-- Where the default value or the brackets behind a parameter end. -/
theorem readParameterEnd_cases (s text : List Char) (n : Nat) :
    (∃ v, s.drop n = '=' :: v ∧ (readParameterEnd s text n).2 =
        n + (v.takeWhile (fun c => !endsDefault c)).length + 1 +
          gap (v.dropWhile fun c => !endsDefault c)) ∨
      (∃ r, s.drop n = '[' :: ']' :: r ∧ (readParameterEnd s text n).2 = n + 2 + gap r) ∨
      (readParameterEnd s text n).2 = n := by
  unfold readParameterEnd
  split
  · rename_i v hv
    refine .inl ⟨v, hv, ?_⟩
    dsimp only
    rw [drop_length_takeWhile]
    omega
  · rename_i r hr
    refine .inr (.inl ⟨r, hr, ?_⟩)
    dsimp only
    omega
  · exact .inr (.inr rfl)

/-- What stands behind a type and a name is an ending. -/
theorem exists_ending (hs : s.drop n = z)
    (hz : Uncommented z ((readParameterEnd s kept n).2 - n))
    (hnext : s.drop (readParameterEnd s kept n).2 = c :: t) :
    ∃ e : LaidEnding, z = e.text ++ c :: t ∧ (readParameterEnd s kept n).2 = n + e.text.length := by
  have hbehind (k : Nat) : s.drop (n + k) = z.drop k := by rw [← List.drop_drop, hs]
  rcases readParameterEnd_cases s kept n with ⟨v, hv, hend⟩ | ⟨r, hr, hend⟩ | hend
  · obtain rfl : z = '=' :: v := hs.symm.trans hv
    have hstop := head?_dropWhile_not (q := fun c => !endsDefault c) v
    have hsplit := List.takeWhile_append_dropWhile (p := fun c => !endsDefault c) (l := v)
    have hgap : gap (v.dropWhile fun c => !endsDefault c) = 0 := by
      cases hrest : v.dropWhile fun c => !endsDefault c with
      | nil => rfl
      | cons d u =>
          rw [hrest] at hstop
          have hd : endsDefault d = true := by simpa using hstop
          have hd : d = ',' ∨ d = ')' := by simpa [endsDefault] using hd
          exact Separates.gap_eq hd u
    rw [hgap] at hend
    have hlength : (readParameterEnd s kept n).2 =
        n + ('=' :: v.takeWhile fun c => !endsDefault c).length := by
      rw [hend, List.length_cons]
      omega
    rw [hlength, hbehind, List.length_cons, List.drop_succ_cons, drop_length_takeWhile] at hnext
    refine ⟨.value (v.takeWhile fun c => !endsDefault c) List.all_takeWhile, ?_, hlength⟩
    rw [LaidEnding.text, List.cons_append, ← hnext, hsplit]
  · obtain rfl : z = '[' :: ']' :: r := hs.symm.trans hr
    rw [hend] at hz
    obtain ⟨b, u, rfl, hb, hgap, -⟩ := exists_gap (s := r)
      (hz.behind (a := ['[', ']']) rfl (by decide) (by rw [List.length_cons, List.length_singleton]; omega))
    rw [hgap] at hend
    have hlength : (readParameterEnd s kept n).2 = n + ('[' :: ']' :: b).length := by
      rw [hend, List.length_cons, List.length_cons]
      omega
    rw [hlength, hbehind] at hnext
    have hrest : u = c :: t := by
      rw [← hnext]
      simp
    exact ⟨.brackets b hb, by rw [hrest]; rfl, hlength⟩
  · rw [hend, hs] at hnext
    exact ⟨.none, hnext, hend⟩

/-- The name of a parameter has been read of `r`: the name `w`, empty if there is none, with the blanks
`l` behind it, and `z` is left. -/
structure NameEnds (r w l z : List Char) : Prop where
  text : r = w ++ (l ++ z)
  named : w ≠ [] → Word True w
  blank : l.all isBlank = true
  length : simpleName r = w.length
  lead : gap (l ++ z) = l.length

/-- A name is read behind a type, or an operator name is met. -/
theorem exists_name {r : List Char} (hr : gap r = 0)
    (hs : Uncommented r (simpleName r + gap (r.drop (simpleName r)))) :
    MeetsOperator r (simpleName r) ∨ ∃ w l z, NameEnds r w l z := by
  by_cases hzero : simpleName r = 0
  · exact .inr ⟨[], [], r, rfl, fun h => absurd rfl h, rfl, hzero, hr⟩
  rcases simpleName_cases hzero (hs.first (Nat.le_add_right _ _)) with
    hoperator | ⟨b, w, y, rfl, hb, hgap, hw, hy, hlength⟩
  · exact .inl hoperator
  right
  obtain rfl : b = [] := List.length_eq_zero_iff.mp (hgap.symm.trans hr)
  rw [List.nil_append, List.length_nil, Nat.zero_add] at hlength
  rw [List.nil_append, hlength, List.drop_left] at hs
  have hno : '=' ∉ w := (TypeChars.word hw.chars).not_mem rfl rfl
  obtain ⟨l, z, rfl, hl, hgapL, -⟩ := exists_gap (hs.behind rfl hno (Nat.le_refl _))
  exact ⟨w, l, z, rfl, fun _ => hw, hl, hlength, hgapL⟩

/-- A name is not taken for a part of the type. -/
theorem TypeRead.apart {i x b r w l : List Char} (h : TypeRead s i x [] b r) (hname : NameEnds r w l z)
    (hne : w ≠ []) : x.getLast? ≠ some '~' ∧ (b = [] → x.getLast? = some '>') := by
  have hword := hname.named hne
  have hstart : r.head?.any isNameStart = true := by
    rw [hname.text]
    exact hword.append_start _
  have hstops := h.stops
  rw [List.nil_append] at hstops
  have htilde : x.getLast? ≠ some '~' := by
    intro hlast
    have hnone := hstops.tilde hlast
    rw [gap_blanks_append h.blank, h.ends, Nat.add_zero, List.drop_left] at hnone
    exact nomatch hstart.symm.trans hnone
  refine ⟨htilde, fun hnil => ?_⟩
  rw [hnil, List.nil_append] at hstops
  rcases h.type.getLast? with hclose | hlast | hlast
  · exact hclose
  · exact absurd hlast htilde
  · have hnone := hstops.apart hlast
    obtain ⟨c, rest, rfl⟩ : ∃ c rest, r = c :: rest := by
      cases r with
      | nil => exact nomatch hstart
      | cons c rest => exact ⟨c, rest, rfl⟩
    exact nomatch (isNameChar_of_isNameStart hstart).symm.trans hnone

theorem SpelledMark.no_equals {k : List Char} (h : SpelledMark k) : '=' ∉ k := by
  cases h with
  | none => exact nofun
  | mark hg hm =>
      rw [List.mem_append, not_or]
      refine ⟨no_equals_blanks hg, ?_⟩
      rcases hm with rfl | rfl <;> decide

/-- The characters up to the end of a type are no `=`. -/
theorem TypeRead.no_equals {i x k b r : List Char} (h : TypeRead s i x k b r) :
    '=' ∉ i ++ (x ++ (k ++ b)) := by
  simp only [List.mem_append, not_or]
  exact ⟨no_equals_blanks h.indent, h.type.typeChars.not_mem rfl rfl, h.mark.no_equals,
    no_equals_blanks h.blank⟩

theorem NameEnds.no_equals {r w l : List Char} (h : NameEnds r w l z) : '=' ∉ w ++ l := by
  rw [List.mem_append, not_or]
  refine ⟨?_, no_equals_blanks h.blank⟩
  by_cases hnil : w = []
  · rw [hnil]
    exact nofun
  · exact (TypeChars.word (h.named hnil).chars).not_mem rfl rfl

/-- The type and the name of a parameter have been read of `s`. -/
structure ParameterRead (s i x k b w l z : List Char) : Prop where
  type : TypeRead s i x k b (w ++ (l ++ z))
  name : NameEnds (w ++ (l ++ z)) w l z
  rest : ∃ text, readParameter s =
    readParameterEnd s text (i ++ (x ++ (k ++ (b ++ (w ++ l))))).length

theorem ParameterRead.text {i x k b w l : List Char} (h : ParameterRead s i x k b w l z) :
    s = (i ++ (x ++ (k ++ (b ++ (w ++ l))))) ++ z := by
  rw [h.type.text]
  simp

theorem ParameterRead.no_equals {i x k b w l : List Char} (h : ParameterRead s i x k b w l z) :
    '=' ∉ i ++ (x ++ (k ++ (b ++ (w ++ l)))) := by
  have htype := h.type.no_equals
  have hname := h.name.no_equals
  simp only [List.mem_append, not_or] at htype hname ⊢
  exact ⟨htype.1, htype.2.1, htype.2.2.1, htype.2.2.2, hname⟩

/-- **The type and the name** of a parameter that is not refused. -/
theorem exists_parameterRead (h : (readParameterTail s).1 ≠ none)
    (hs : Uncommented s (readParameter s).2) : ∃ i x k b w l z, ParameterRead s i x k b w l z := by
  have htype : typeLength s ≠ 0 := by
    intro hzero
    have hne := (readParameterTail_cases h).1
    rw [readParameter_eq, hzero] at hne
    exact hne rfl
  have hread : readParameter s = readParameterName s (cleanType (s.take (typeLength s)))
      (typeLength s + gap (s.drop (typeLength s))) := by
    rw [readParameter_eq]
    exact if_neg htype
  generalize cleanType (s.take (typeLength s)) = type at hread
  have hle := le_readParameterName s type (typeLength s + gap (s.drop (typeLength s)))
  rw [← hread] at hle
  rcases typeLength_cases htype (hs.first (by omega)) with hoperator | ⟨i, x, k, b, r, hx⟩
  · exact absurd (refused_of_type htype (.inl hoperator.opens)) h
  have hsum : (i ++ (x ++ (k ++ b))).length = typeLength s := by simp [hx.length]
  have htext : s = (i ++ (x ++ (k ++ b))) ++ r := by rw [hx.text]; simp
  have hdrop : s.drop (typeLength s) = r := by rw [← hsum, htext, List.drop_left]
  rw [hdrop, hx.ends, Nat.add_zero] at hread
  obtain ⟨kept, hend⟩ : ∃ kept, readParameter s = readParameterEnd s kept
      (typeLength s + simpleName r + gap (r.drop (simpleName r))) := by
    rw [hread, readParameterName, ← List.drop_drop, hdrop]
    exact ⟨_, rfl⟩
  have hleEnd := le_readParameterEnd s kept
    (typeLength s + simpleName r + gap (r.drop (simpleName r)))
  rw [← hend] at hleEnd
  have hr : Uncommented r (simpleName r + gap (r.drop (simpleName r))) :=
    hs.behind htext hx.no_equals (by rw [hsum]; omega)
  rcases exists_name hx.ends hr with hoperator | ⟨w, l, z, hname⟩
  · refine absurd (refused_of_name hread ?_) h
    rw [← List.drop_drop, hdrop]
    exact hoperator.opens
  obtain rfl := hname.text
  refine ⟨i, x, k, b, w, l, z, hx, hname, kept, ?_⟩
  rw [hend, hname.length, List.drop_left, hname.lead, ← hsum]
  simp only [List.length_append, Nat.add_assoc]

/-- **A parameter** that is not refused is one that may be laid out. -/
theorem exists_laidParameter (h : (readParameterTail s).1 ≠ none)
    (hs : Uncommented s (readParameter s).2) (hnext : s.drop (readParameter s).2 = c :: t) :
    ∃ p : LaidParameter True, s = p.text ++ c :: t ∧ (readParameter s).2 = p.text.length := by
  obtain ⟨i, x, k, b, w, l, z, hread⟩ := exists_parameterRead h hs
  obtain ⟨kept, hend⟩ := hread.rest
  have hle := le_readParameterEnd s kept (i ++ (x ++ (k ++ (b ++ (w ++ l))))).length
  have hrest : s.drop (i ++ (x ++ (k ++ (b ++ (w ++ l))))).length = z := by
    rw [hread.text, List.drop_left]
  rw [hend] at hs hnext ⊢
  have hz := hs.behind hread.text hread.no_equals (Nat.le_of_eq (Nat.add_sub_cancel' hle))
  obtain ⟨e, htail, hlength⟩ := exists_ending hrest hz hnext
  let p : LaidParameter True :=
    { indent := i, type := x, mark := k, space := b, name := w, lead := l, ending := e,
      blank := ⟨hread.type.indent, hread.type.blank, hread.name.blank⟩, spelled := hread.type.type,
      marked := hread.type.mark, named := hread.name.named,
      apart := fun hne hnil => by
        obtain ⟨htype, hname, -⟩ := hread
        subst hnil
        exact htype.apart hname hne }
  refine ⟨p, ?_, ?_⟩
  · rw [hread.text, htail]
    simp [p, LaidParameter.text, LaidParameter.front]
  · rw [hlength, ← List.length_append]
    rfl

/-! ## Lists -/

/-- Behind a parameter, no default value goes on. -/
theorem LaidParameter.commented_behind {p : LaidParameter True} (hc : Separates c)
    (h : commented false (p.text ++ c :: t) = false) : commented false t = false := by
  have hword : '=' ∉ p.name := by
    by_cases hnil : p.name = []
    · rw [hnil]
      exact nofun
    · exact (TypeChars.word (p.named hnil).chars).not_mem rfl rfl
  have hmark : '=' ∉ p.mark := p.marked.no_equals
  have hfront : '=' ∉ p.front := by
    simp only [front, List.mem_append, not_or]
    exact ⟨no_equals_blanks p.blank.1, p.spelled.typeChars.not_mem rfl rfl, hmark,
      no_equals_blanks p.blank.2.1, hword, no_equals_blanks p.blank.2.2⟩
  have hnext : '=' ∉ [c] := by
    rcases hc with rfl | rfl <;> decide
  rw [text, List.append_assoc] at h
  have hending := CppDoc.Syntax.commented_behind hfront h
  cases he : p.ending with
  | none =>
      rw [he] at hending
      exact CppDoc.Syntax.commented_behind (a := [c]) hnext hending
  | value v closed =>
      rw [he, LaidEnding.text, List.cons_append, commented, Bool.or_eq_false_iff] at hending
      exact commented_value closed hc hending.2
  | brackets b blank =>
      rw [he, LaidEnding.text, List.append_cons] at hending
      refine CppDoc.Syntax.commented_behind (a := ('[' :: ']' :: b) ++ [c]) ?_ hending
      simp only [List.mem_append, List.mem_cons, not_or]
      exact ⟨⟨by decide, by decide, no_equals_blanks blank⟩, by simpa using hnext⟩

/-- **The rest of a list** that is accepted consists of parameters as they may be laid out. -/
theorem exists_commas (h : (readParameterTail s).1 ≠ none)
    (hs : commented false (s.take (readParameterTail s).2) = false) :
    ∃ (p : LaidParameter True) (ps : List (LaidParameter True)),
      s.take (readParameterTail s).2 = commas ((p :: ps).map LaidParameter.text) ++ [')'] := by
  induction hlen : s.length using Nat.strongRecOn generalizing s with
  | ind n ih =>
      subst hlen
      obtain ⟨hne, t, ⟨hnext, hrest, hlength⟩ | ⟨hnext, hlength⟩⟩ := readParameterTail_cases h
      · obtain ⟨p, htext, hend⟩ :=
          exists_laidParameter h (uncommented_of_commented hs (by omega)) hnext
        rw [hlength, hend] at hs ⊢
        have htake : s.take (p.text.length + 1 + (readParameterTail t).2) =
            p.text ++ ',' :: t.take (readParameterTail t).2 := by
          rw [htext, Nat.add_assoc, List.take_length_add_append, Nat.add_comm 1, List.take_succ_cons]
        have hshort : t.length < s.length := by
          rw [htext]
          simp only [List.length_append, List.length_cons]
          omega
        rw [htake] at hs ⊢
        obtain ⟨q, qs, htail⟩ := ih t.length hshort hrest (p.commented_behind (.inl rfl) hs) rfl
        refine ⟨p, q :: qs, ?_⟩
        rw [htail]
        simp only [List.map_cons, commas_cons, List.append_assoc, List.cons_append]
      · obtain ⟨p, htext, hend⟩ :=
          exists_laidParameter h (uncommented_of_commented hs (by omega)) hnext
        refine ⟨p, [], ?_⟩
        rw [hlength, hend, htext, List.take_length_add_append]
        simp [commas]

/-- A list that is accepted begins with a parenthesis. -/
theorem exists_open (h : (readParameters s).1 ≠ "") : ∃ b, s.drop (gap s) = '(' :: b := by
  unfold readParameters at h
  dsimp only at h
  split at h
  · rename_i b hb
    exact ⟨b, hb⟩
  · exact absurd rfl h

/-- The end of a list that is accepted. -/
theorem readParameters_cases {b : List Char} (hb : s.drop (gap s) = '(' :: b)
    (h : (readParameters s).1 ≠ "") :
    (∃ t, b.drop (gap b) = ')' :: t ∧ (readParameters s).2 = gap s + 1 + gap b + 1) ∨
      ((readParameterTail (b.drop (gap b))).1 ≠ none ∧
        (readParameters s).2 = gap s + 1 + gap b + (readParameterTail (b.drop (gap b))).2) := by
  rw [readParameters_of_open hb, readParameters_eq rfl] at h ⊢
  by_cases hclose : (b.drop (gap b)).head? = some ')'
  · obtain ⟨t, ht⟩ := List.head?_eq_some_iff.mp hclose
    rw [if_pos hclose]
    refine .inl ⟨t, ht, ?_⟩
    dsimp only
    omega
  · rw [if_neg hclose] at h ⊢
    refine .inr ⟨fun hnone => ?_, ?_⟩
    · rw [hnone] at h
      exact absurd rfl h
    · dsimp only
      omega

/-- **A list** that is accepted is laid out in its parentheses. -/
theorem exists_laidList (h : (readParameters s).1 ≠ "")
    (hs : commented false (s.take (readParameters s).2) = false) :
    ∃ l : List Char, l.all isBlank = true ∧
      ((∃ b : List Char, b.all isBlank = true ∧
          s.take (readParameters s).2 = l ++ '(' :: (b ++ [')'])) ∨
        ∃ (p : LaidParameter True) (ps : List (LaidParameter True)),
          s.take (readParameters s).2 = l ++ laidList (p :: ps)) := by
  obtain ⟨b, hb⟩ := exists_open h
  have hcases := readParameters_cases hb h
  have hlt : gap s + 1 + gap b < (readParameters s).2 := by
    rcases hcases with ⟨t, -, hend⟩ | ⟨htail, hend⟩
    · omega
    · obtain ⟨hne, t, ⟨-, -, hlength⟩ | ⟨-, hlength⟩⟩ := readParameterTail_cases htail <;> omega
  -- The blanks before the parenthesis and behind it.
  have huncommented := uncommented_of_commented hs hlt
  obtain ⟨l, r, htext, hl, hlength, -⟩ := exists_gap (huncommented.first (by omega))
  obtain rfl : r = '(' :: b := by
    rw [htext, ← htext, hlength] at hb
    conv_lhs at hb => rw [htext, List.drop_left]
    exact hb
  have hno : '=' ∉ l ++ ['('] := by
    rw [List.mem_append, not_or]
    exact ⟨no_equals_blanks hl, by decide⟩
  obtain ⟨g, y, rfl, hg, hgap, -⟩ := exists_gap (huncommented.behind (a := l ++ ['(']) (m := gap b)
    (by rw [htext]; simp) hno (by rw [List.length_append, hlength]; exact Nat.le_refl _))
  have hdrop : (g ++ y).drop (gap (g ++ y)) = y := by rw [hgap, List.drop_left]
  have hcut : s = (l ++ '(' :: g) ++ y := by rw [htext]; simp
  have hsum : gap s + 1 + gap (g ++ y) = (l ++ '(' :: g).length := by
    rw [hlength, hgap, List.length_append, List.length_cons]
    omega
  have htake (n : Nat) : s.take (gap s + 1 + gap (g ++ y) + n) = (l ++ '(' :: g) ++ y.take n := by
    rw [hsum, hcut, List.take_length_add_append]
  refine ⟨l, hl, ?_⟩
  rw [hdrop] at hcases
  rcases hcases with ⟨t, rfl, hend⟩ | ⟨htail, hend⟩
  · exact .inl ⟨g, hg, by rw [hend, htake]; simp⟩
  · rw [hend, htake] at hs
    have hprefix : '=' ∉ l ++ '(' :: g := by
      simp only [List.mem_append, List.mem_cons, not_or]
      exact ⟨no_equals_blanks hl, by decide, no_equals_blanks hg⟩
    obtain ⟨p, ps, hlist⟩ := exists_commas htail (commented_behind hprefix hs)
    let q : LaidParameter True :=
      { p with
        indent := g ++ p.indent
        blank := ⟨by rw [List.all_append, hg, p.blank.1]; rfl, p.blank.2⟩ }
    have hfirst : q.text = g ++ p.text := by simp [q, LaidParameter.text, LaidParameter.front]
    refine .inr ⟨q, ps, ?_⟩
    rw [hend, htake, hlist, laidList, commas_behind hfirst]
    simp

end Accepted

end CppDoc.Syntax
