import CppDoc.Proofs.Syntax.Break
import CppDoc.Syntax.Parameters

/-!
# Parameter lists end at their parenthesis

A parameter list that has been read up to its closing parenthesis is read in the same way whatever
stands behind it.  The types and names in it are settled there, because a parameter that is followed
by a comma or a parenthesis is.

* `readParameter_append` for one parameter, `readParameterTail_append` for what is left of a list;
* `readParameters_append` for a list in its parentheses.
-/

namespace CppDoc.Syntax

open CppDoc.Text

/-! ## One parameter -/

/-- Reads what may follow the type and the name of a parameter: a default value or brackets.  `text`
is what has been read, and the gap behind it ends at `n`. -/
def readParameterEnd (s text : List Char) (n : Nat) : List Char × Nat :=
  match s.drop n with
  | '=' :: value =>
    let k := (value.takeWhile fun c => !endsDefault c).length
    (text, n + (k + 1 + gap (value.drop k)))
  | '[' :: ']' :: rest => (text ++ "[]".toList, n + (gap rest + 2))
  | _ => (text, n)

/-- Reads the name of a parameter, of which the type and the gap behind it end at `n`. -/
def readParameterName (s type : List Char) (n : Nat) : List Char × Nat :=
  let m := simpleName (s.drop n)
  let name := if m = 0 then [] else ' ' :: simplify ((s.drop n).take m)
  readParameterEnd s (type ++ name) (n + m + gap (s.drop (n + m)))

theorem readParameter_eq (s : List Char) :
    readParameter s =
      let n := typeLength s
      if n = 0 then ([], 0)
      else readParameterName s (cleanType (s.take n)) (n + gap (s.drop n)) := by
  rfl

theorem le_readParameterEnd (s text : List Char) (n : Nat) : n ≤ (readParameterEnd s text n).2 := by
  unfold readParameterEnd
  split
  · exact Nat.le_add_right _ _
  · exact Nat.le_add_right _ _
  · exact Nat.le_refl n

theorem le_readParameterName (s type : List Char) (n : Nat) :
    n ≤ (readParameterName s type n).2 :=
  Nat.le_trans (by omega) (le_readParameterEnd _ _ _)

/-- A closing parenthesis is a boundary. -/
theorem follows_close (a t : List Char) : Follows a (')' :: t) :=
  ⟨rfl, fun h => nomatch h⟩

theorem alike_close (a t u : List Char) : Alike a (')' :: t) (')' :: u) :=
  ⟨follows_close a t, follows_close a u, rfl⟩

theorem readParameterEnd_append {a : List Char} {n : Nat} (ha : ClosesComments a)
    (hn : n ≤ a.length) (t u text : List Char) :
    readParameterEnd (a ++ ')' :: t) text n = readParameterEnd (a ++ ')' :: u) text n := by
  have hgap (b : List Char) (hb : ClosesComments b) : gap (b ++ ')' :: t) = gap (b ++ ')' :: u) := by
    rw [gap_append hb (follows_close b t), gap_append hb (follows_close b u)]
  have hclosed := ha.drop n
  unfold readParameterEnd
  rw [List.drop_append_of_le_length hn, List.drop_append_of_le_length hn]
  generalize a.drop n = b at hclosed
  cases b with
  | nil => rfl
  | cons c rest =>
      have hrest : ClosesComments rest := hclosed.drop 1
      by_cases hvalue : c = '='
      · subst hvalue
        have hrun (t : List Char) :
            (rest ++ ')' :: t).takeWhile (fun c => !endsDefault c) =
              rest.takeWhile fun c => !endsDefault c :=
          takeWhile_append_of_boundary fun _ => rfl
        have hle := (List.takeWhile_sublist (l := rest) fun c => !endsDefault c).length_le
        simp only [List.cons_append, hrun, List.drop_append_of_le_length hle, hgap _ (hrest.drop _)]
      · by_cases hopen : c = '['
        · subst hopen
          cases rest with
          | nil => rfl
          | cons d rest =>
              by_cases hclose : d = ']'
              · subst hclose
                simp only [List.cons_append, hgap rest (hrest.drop 1)]
              · simp [hclose]
        · simp [hvalue, hopen]

/-- The name of a parameter and what follows it are settled in front of a parenthesis. -/
theorem readParameterName_append {a : List Char} {n : Nat} (ha : ClosesComments a)
    (hname : Plain (a.drop n)) (hn : n ≤ a.length) (t u type : List Char)
    (hend : (readParameterName (a ++ ')' :: t) type n).2 ≤ a.length) :
    readParameterName (a ++ ')' :: u) type n = readParameterName (a ++ ')' :: t) type n := by
  have hle : n + simpleName (a.drop n ++ ')' :: t) ≤ a.length := by
    have := Nat.le_trans (le_readParameterEnd _ _ _) hend
    rw [List.drop_append_of_le_length hn] at this
    omega
  have hsame : simpleName (a.drop n ++ ')' :: u) = simpleName (a.drop n ++ ')' :: t) := by
    rcases simpleName_alike hname (alike_close _ u t) with heq | ⟨-, hlt⟩
    · exact heq
    · rw [List.length_drop] at hlt
      omega
  unfold readParameterName
  rw [List.drop_append_of_le_length hn, List.drop_append_of_le_length hn, hsame]
  generalize simpleName (a.drop n ++ ')' :: t) = m at hle
  have hm : m ≤ (a.drop n).length := by
    rw [List.length_drop]
    omega
  have hgap := gap_le (a.drop (n + m))
  rw [List.length_drop] at hgap
  dsimp only
  rw [List.drop_append_of_le_length hle, List.drop_append_of_le_length hle,
    List.take_append_of_le_length hm, List.take_append_of_le_length hm,
    gap_append (ha.drop _) (follows_close _ t), gap_append (ha.drop _) (follows_close _ u)]
  exact readParameterEnd_append ha (by omega) u t _

/-- Where a type gives up in front of a `::` or a `<`, the parameter ends. -/
theorem readParameter_of_stuck {s : List Char} (hzero : typeLength s ≠ 0)
    (hstuck : (s.drop (typeLength s)).head? = some ':' ∨ (s.drop (typeLength s)).head? = some '<') :
    (readParameter s).2 = typeLength s := by
  rw [readParameter_eq]
  dsimp only
  rw [if_neg hzero]
  generalize typeLength s = n at *
  obtain ⟨c, rest, hrest, hc⟩ : ∃ c rest, s.drop n = c :: rest ∧ (c = ':' ∨ c = '<') := by
    rcases hstuck with h | h
    all_goals obtain ⟨rest, hrest⟩ := List.head?_eq_some_iff.mp h
    · exact ⟨_, rest, hrest, .inl rfl⟩
    · exact ⟨_, rest, hrest, .inr rfl⟩
  have hgap : gap (c :: rest) = 0 := by
    rcases hc with rfl | rfl <;> simp [gap, gapFrom, isBlank]
  have hname : simpleName (c :: rest) = 0 := by
    apply simpleName_eq_zero
    rw [hgap]
    rcases hc with rfl | rfl <;> rfl
  simp only [readParameterName, hrest, hgap, hname, Nat.add_zero, readParameterEnd]
  rcases hc with rfl | rfl <;> rfl

/-- **One parameter.**  A parameter that is followed by a comma or a parenthesis is settled. -/
theorem readParameter_append {a : List Char} {c : Char} (ha : Plain a) (hc : c = ',' ∨ c = ')')
    (hzero : (readParameter (a ++ [')'])).2 ≠ 0)
    (hnext : ((a ++ [')']).drop (readParameter (a ++ [')'])).2).head? = some c) (t : List Char) :
    readParameter (a ++ ')' :: t) = readParameter (a ++ [')']) := by
  have htype : typeLength (a ++ [')']) ≠ 0 := by
    intro hnone
    rw [readParameter_eq] at hzero
    exact hzero (by dsimp only; rw [if_pos hnone])
  have hend : (readParameter (a ++ [')'])).2 ≤ a.length := by
    obtain ⟨rest, hrest⟩ := List.head?_eq_some_iff.mp hnext
    have := congrArg List.length hrest
    simp only [List.length_drop, List.length_append, List.length_cons, List.length_nil] at this
    omega
  have hle : typeLength (a ++ [')']) + gap ((a ++ [')']).drop (typeLength (a ++ [')']))) ≤
      (readParameter (a ++ [')'])).2 := by
    rw [readParameter_eq]
    dsimp only
    rw [if_neg htype]
    exact le_readParameterName _ _ _
  have hlen : typeLength (a ++ [')']) ≤ a.length := by omega
  have hsame : typeLength (a ++ ')' :: t) = typeLength (a ++ [')']) := by
    rcases typeLength_alike ha (alike_close a t []) with heq | ⟨-, hzero | (hlt | hscope) | hopen⟩
    · exact heq
    · exact absurd hzero htype
    · omega
    · -- The parameter would end in front of the `::`.
      have hhead : ((a ++ [')']).drop (typeLength (a ++ [')']))).head? = some ':' := by
        rw [List.drop_append_of_le_length hlen, hscope]
        rfl
      rw [readParameter_of_stuck htype (.inl hhead), hhead] at hnext
      rcases hc with rfl | rfl <;> simp at hnext
    · have hhead : ((a ++ [')']).drop (typeLength (a ++ [')']))).head? = some '<' := by
        rw [List.drop_append_of_le_length hlen, List.head?_append, hopen]
        rfl
      rw [readParameter_of_stuck htype (.inr hhead), hhead] at hnext
      rcases hc with rfl | rfl <;> simp at hnext
  have hbreak : Breaks a (typeLength (a ++ [')'])) :=
    (breaks_typeLength (ha.concat rfl (by decide))).of_append hlen
  have hclosed := ha.comments.drop (typeLength (a ++ [')']))
  have hgap := gap_le (a.drop (typeLength (a ++ [')'])))
  rw [List.length_drop] at hgap
  rw [readParameter_eq] at hend
  rw [readParameter_eq, readParameter_eq]
  dsimp only at hend ⊢
  rw [if_neg htype, List.drop_append_of_le_length hlen, List.take_append_of_le_length hlen,
    gap_append hclosed (follows_close _ _)] at hend
  rw [hsame, if_neg htype, if_neg htype, List.drop_append_of_le_length hlen,
    List.drop_append_of_le_length hlen, List.take_append_of_le_length hlen,
    List.take_append_of_le_length hlen, gap_append hclosed (follows_close _ _),
    gap_append hclosed (follows_close _ _)]
  have hname := hbreak.add (breaks_gap hclosed)
  exact readParameterName_append ha.comments (ha.drop_of_breaks hname) (by omega) [] t _ hend

/-! ## Lists -/

theorem readParameterTail_eq (s : List Char) :
    readParameterTail s =
      let p := readParameter s
      let rest := s.drop p.2
      if p.2 = 0 then (none, 0)
      else if rest.head? = some ',' then
        ((readParameterTail rest.tail).1.map (p.1 ++ ", ".toList ++ ·),
          p.2 + 1 + (readParameterTail rest.tail).2)
      else if rest.head? = some ')' then (some (p.1 ++ [')']), p.2 + 1)
      else (none, p.2) := by
  rw [readParameterTail]
  simp only [dite_eq_ite]

/-- What stands in front of the last character stands in front of it. -/
theorem exists_drop_eq_cons {a : List Char} {c d : Char} {n : Nat} (hne : c ≠ d)
    (h : ((a ++ [d]).drop n).head? = some c) : ∃ b, a.drop n = c :: b := by
  rw [List.head?_drop] at h
  rcases Nat.lt_or_ge n a.length with hlt | hge
  · rw [List.getElem?_append_left hlt] at h
    obtain ⟨hn, rfl⟩ := List.getElem?_eq_some_iff.mp h
    exact ⟨_, List.drop_eq_getElem_cons hn⟩
  · rw [List.getElem?_append_right hge] at h
    exact absurd (List.mem_singleton.mp (List.mem_of_getElem? h)) hne

/-- **The rest of a list** that ends at a parenthesis is settled. -/
theorem readParameterTail_append {a ps : List Char} (ha : Plain a)
    (h : readParameterTail (a ++ [')']) = (some ps, a.length + 1)) (t : List Char) :
    readParameterTail (a ++ ')' :: t) = (some ps, a.length + 1) := by
  induction hlen : a.length using Nat.strongRecOn generalizing a ps with
  | ind n ih =>
      subst hlen
      have hsame {c : Char} (hc : c = ',' ∨ c = ')') := readParameter_append (c := c) ha hc
      rw [readParameterTail_eq] at h ⊢
      generalize readParameter (a ++ [')']) = p at h hsame
      dsimp only at h
      by_cases hzero : p.2 = 0
      · rw [if_pos hzero] at h
        exact nomatch h
      rw [if_neg hzero] at h
      by_cases hcomma : ((a ++ [')']).drop p.2).head? = some ','
      · rw [hsame (.inl rfl) hzero hcomma t]
        rw [if_pos hcomma] at h
        obtain ⟨b, hb⟩ := exists_drop_eq_cons (by decide) hcomma
        have hlength : a.length - p.2 = b.length + 1 := by
          rw [← List.length_drop, hb, List.length_cons]
        have hle : p.2 ≤ a.length := by omega
        have hdrop (t : List Char) : ((a ++ ')' :: t).drop p.2) = ',' :: (b ++ ')' :: t) := by
          rw [List.drop_append_of_le_length hle, hb]
          rfl
        simp only [hdrop [], List.tail_cons, Prod.mk.injEq, Option.map_eq_some_iff] at h
        obtain ⟨⟨qs, hqs, rfl⟩, hcount⟩ := h
        have hrest := ih b.length (by omega) (ha.behind hb (by decide))
          (Prod.ext hqs (by dsimp only; omega)) rfl
        simp only [hdrop t, hzero, if_false, List.head?_cons, if_true, List.tail_cons, hrest,
          Option.map_some]
        congr 1
        omega
      · rw [if_neg hcomma] at h
        by_cases hclose : ((a ++ [')']).drop p.2).head? = some ')'
        · rw [hsame (.inr rfl) hzero hclose t]
          rw [if_pos hclose, Prod.mk.injEq] at h
          obtain ⟨hps, hcount⟩ := h
          have hend : p.2 = a.length := by omega
          simp [hend ▸ hzero, hend, hps]
        · rw [if_neg hclose] at h
          exact nomatch h

/-- What stands between the parentheses, behind the gap there. -/
theorem readParameters_eq {s b : List Char} (hs : s.drop (gap s) = b) :
    readParameters ('(' :: s) =
      if b.head? = some ')' then ("()", gap s + 2)
      else
        (((readParameterTail b).1.map fun t => String.ofList ('(' :: t)).getD "",
          1 + gap s + (readParameterTail b).2) := by
  simp only [readParameters, gap_parenthesis, List.drop_zero, hs]
  cases b with
  | nil => simp
  | cons c rest =>
      by_cases hc : c = ')'
      · simp [hc]
      · simp [hc]

theorem readParameters_of_not_open {s : List Char} (hs : (s.drop (gap s)).head? ≠ some '(') :
    readParameters s = ("", 0) := by
  unfold readParameters
  dsimp only
  split
  · rename_i hopen
    rw [hopen] at hs
    exact absurd rfl hs
  · rfl

/-- A parameter list behind a gap. -/
theorem readParameters_of_open {s b : List Char} (hs : s.drop (gap s) = '(' :: b) :
    readParameters s =
      ((readParameters ('(' :: b)).1, gap s + (readParameters ('(' :: b)).2) := by
  rw [readParameters_eq rfl]
  rw [readParameters]
  simp only [hs]
  cases hlist : b.drop (gap b) with
  | nil => simp; omega
  | cons c rest =>
      by_cases hclose : c = ')'
      · simp [hclose]; omega
      · simp [hclose]; omega

/-- **Parameter lists.**  A list that has been read up to the parenthesis that closes it is read in
the same way whatever stands behind it. -/
theorem readParameters_append {a : List Char} (ha : Plain a)
    (hread : (readParameters ('(' :: a ++ [')'])).1 ≠ "")
    (hend : (readParameters ('(' :: a ++ [')'])).2 = a.length + 2) (t : List Char) :
    readParameters ('(' :: a ++ ')' :: t) = readParameters ('(' :: a ++ [')']) := by
  have hgap (t : List Char) : gap (a ++ ')' :: t) = gap a :=
    gap_append ha.comments (follows_close a t)
  have hinner (t : List Char) : (a ++ ')' :: t).drop (gap (a ++ ')' :: t)) =
      a.drop (gap a) ++ ')' :: t := by
    rw [hgap, List.drop_append_of_le_length (gap_le a)]
  have hplain := ha.drop_gap
  have hlen : (a.drop (gap a)).length = a.length - gap a := List.length_drop
  have hle := gap_le a
  simp only [List.cons_append, readParameters_eq (hinner _), hgap] at hread hend ⊢
  generalize a.drop (gap a) = b at *
  have hhead (t : List Char) : (b ++ ')' :: t).head? = (b ++ [')']).head? := by
    cases b <;> rfl
  rw [hhead t]
  split
  · rfl
  · rename_i hopen
    rw [if_neg hopen] at hread hend
    cases htail : readParameterTail (b ++ [')']) with
    | mk text count =>
        rw [htail] at hread hend
        cases text with
        | none => exact absurd rfl hread
        | some ps =>
            have hcount : count = b.length + 1 := by
              dsimp only at hend
              omega
            subst hcount
            rw [readParameterTail_append hplain htail t]

end CppDoc.Syntax
