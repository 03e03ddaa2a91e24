import CppDoc.Proofs.Syntax.Cleaning
import CppDoc.Proofs.Syntax.Conversion
import CppDoc.Proofs.Syntax.Remarks

/-!
# Remarks that are read

A reader cuts what it keeps out of the text between the ends of what the scanners have measured, and
the gaps in between are cut out with it.  Blanks are then dropped, comments are not.  So a name, a
type or a parameter list that is read with remarks in it is the one that is read without them only if
no remark stands in what is cut out.

* `count_cleanType` and the lemmas behind it: what is dropped from the text that is cut out has no
  slash in it;
* `keptList`: what is cut out of a parameter list;
* `read_remarks`: the values are the same exactly if what is cut out is.
-/

namespace CppDoc.Syntax

open CppDoc.Text

/-! ## Slashes -/

section Slashes

/-- The words of a text are what is left of it without its white space. -/
theorem flatten_words (s : List Char) : (words s).flatten = spaceless s := by
  induction s with
  | nil => rfl
  | cons c s ih =>
      by_cases hc : isSpace c = true
      · have hdropped : spaceless (c :: s) = spaceless s := List.filter_cons_of_neg (by simp [hc])
        rw [words, if_pos hc, hdropped, ih]
      · have hkept : spaceless (c :: s) = c :: spaceless s := List.filter_cons_of_pos (by simp [hc])
        rw [words, if_neg hc, hkept, ← ih]
        split
        · rfl
        · split
          · rename_i hnone
            rw [hnone]
            rfl
          · rename_i w ws hwords
            rw [hwords]
            rfl

theorem count_spaceless (s : List Char) : (spaceless s).count '/' = s.count '/' :=
  List.count_filter (by decide)

theorem count_simplify (s : List Char) : (simplify s).count '/' = s.count '/' := by
  have hjoined (ws : List (List Char)) : (joined ws).count '/' = ws.flatten.count '/' := by
    have hbehind (ws : List (List Char)) : (behind ws).count '/' = ws.flatten.count '/' := by
      induction ws with
      | nil => rfl
      | cons w ws ih =>
          rw [behind_cons, List.flatten_cons, List.count_cons, List.count_append, List.count_append,
            ih]
          rfl
    cases ws with
    | nil => rfl
    | cons w ws =>
        rw [joined_cons, List.flatten_cons, List.count_append, List.count_append, hbehind]
  rw [simplify_eq_joined, hjoined, flatten_words, count_spaceless]

theorem count_replaceAll {pat new : List Char} (hne : pat ≠ []) (hpat : pat.count '/' = 0)
    (hnew : new.count '/' = 0) (s : List Char) :
    (replaceAll pat new s).count '/' = s.count '/' := by
  induction hlen : s.length using Nat.strongRecOn generalizing s with
  | ind n ih =>
      cases s with
      | nil => rfl
      | cons c rest =>
          by_cases hprefix : pat <+: c :: rest
          · obtain ⟨b, hb⟩ := hprefix
            have hshorter : b.length < n := by
              have := List.length_pos_iff.mpr hne
              rw [← hlen, ← hb, List.length_append]
              omega
            rw [← hb, replaceAll_of_prefix hne, List.count_append, List.count_append, hpat, hnew,
              ih _ hshorter b rfl]
          · rw [replaceAll_cons hprefix, List.count_cons, List.count_cons,
              ih _ (hlen ▸ Nat.lt_succ_self _) rest rfl]

theorem count_dropRecordKeyword (s : List Char) :
    (dropRecordKeyword s).count '/' = s.count '/' := by
  induction s using dropRecordKeyword.induct with
  | case1 rest ih =>
      rw [dropRecordKeyword, ih]
      simp
  | case2 rest ih =>
      rw [dropRecordKeyword, ih]
      simp
  | case3 s hclass hstruct =>
      rw [dropRecordKeyword]
      · exact hclass
      · exact hstruct

theorem count_joinIndirection (s : List Char) : (joinIndirection s).count '/' = s.count '/' := by
  rcases joinIndirection_eq s with heq | ⟨front, mark, rfl, -, heq⟩
  · rw [heq]
  · rw [heq, List.count_append, List.count_append]
    simp [List.count_cons]

/-- **Slashes.**  All of them are kept in the written form of a type. -/
theorem count_cleanType (s : List Char) : (cleanType s).count '/' = s.count '/' := by
  unfold cleanType
  dsimp only
  rw [count_joinIndirection, count_replaceAll (by decide) (by decide) (by decide),
    count_replaceAll (by decide) (by decide) (by decide), count_dropRecordKeyword, count_simplify]

end Slashes

/-! ## What is read and what is cut out -/

/-- `y` is read where `q` is cut out, and `x` where `p` is: `q` has lost slashes that were in `p`, and
then they are not in `y` either, or the two are the same. -/
structure Reveals {α : Type} (x y : List Char) (p q : α) : Prop where
  slashes : y.count '/' ≤ x.count '/'
  cut : y.count '/' = x.count '/' → q = p
  text : q = p → y = x

section Reveals

variable {α β : Type} {x y x' y' : List Char} {p q : α} {p' q' : β}

theorem Reveals.iff (h : Reveals x y p q) : y = x ↔ q = p :=
  ⟨fun heq => h.cut (heq ▸ rfl), h.text⟩

theorem Reveals.of_iff (h : Reveals x y p q) (hcut : q' = p' ↔ q = p) : Reveals x y p' q' where
  slashes := h.slashes
  cut hcount := hcut.mpr (h.cut hcount)
  text heq := h.text (hcut.mp heq)

theorem Reveals.append (h : Reveals x y p q) (h' : Reveals x' y' p' q') :
    Reveals (x ++ x') (y ++ y') (p, p') (q, q') where
  slashes := by
    rw [List.count_append, List.count_append]
    exact Nat.add_le_add h.slashes h'.slashes
  cut hcount := by
    have hle := h.slashes
    have hle' := h'.slashes
    rw [List.count_append, List.count_append] at hcount
    rw [h.cut (by omega), h'.cut (by omega)]
  text heq := by
    obtain ⟨hleft, hright⟩ := Prod.mk.inj heq
    rw [h.text hleft, h'.text hright]

/-- What stands in both texts alike adds nothing that is cut out. -/
theorem Reveals.same (x : List Char) : Reveals x x () () :=
  ⟨Nat.le_refl _, fun _ => rfl, fun _ => rfl⟩

theorem Reveals.append_same (h : Reveals x y p q) (e : List Char) : Reveals (x ++ e) (y ++ e) p q :=
  (h.append (.same e)).of_iff (by rw [Prod.mk.injEq, and_iff_left rfl])

theorem Reveals.same_append (h : Reveals x y p q) (e : List Char) : Reveals (e ++ x) (e ++ y) p q :=
  ((Reveals.same e).append h).of_iff (by rw [Prod.mk.injEq, and_iff_right rfl])

/-- What is cut out is read in a way that keeps the slashes. -/
theorem Blanked.reveals_take {s t : List Char} (h : Blanked s t) {clean : List Char → List Char}
    (hclean : ∀ w, (clean w).count '/' = w.count '/') (n : Nat) :
    Reveals (clean (s.take n)) (clean (t.take n)) (s.take n) (t.take n) where
  slashes := by
    rw [hclean, hclean]
    exact (h.count_take n).1
  cut hcount := by
    rw [hclean, hclean] at hcount
    exact (h.count_take n).2 hcount
  text heq := by rw [heq]

end Reveals

/-- The reader takes up the same room in both texts, and what it reads is the same exactly if what it
cuts out is. -/
def RestsOn {α : Type} (reader : List Char → String × Nat) (cut : List Char → α) (s t : List Char) :
    Prop :=
  (reader t).2 = (reader s).2 ∧ ((reader t).1 = (reader s).1 ↔ cut t = cut s)

/-! ## Parameter lists -/

/-- What is cut out for the type and for the name of a parameter. -/
def keptParameter (s : List Char) : List Char × List Char :=
  let n := typeLength s
  let k := n + gap (s.drop n)
  (s.take n, (s.drop k).take (simpleName (s.drop k)))

/-- What is cut out of the parameters up to the closing parenthesis, or nothing if they cannot be
read. -/
def keptTail (s : List Char) : Option (List (List Char × List Char)) :=
  let n := (readParameter s).2
  if n = 0 then none
  else if _h : (s.drop n).head? = some ',' then
    (keptTail (s.drop n).tail).map (keptParameter s :: ·)
  else if (s.drop n).head? = some ')' then some [keptParameter s]
  else none
termination_by s.length
decreasing_by exact length_tail_drop_lt_of_head? _h

/-- What is cut out of a parameter list, or nothing if there is none or it cannot be read. -/
def keptList (s : List Char) : Option (List (List Char × List Char)) :=
  if (skipGap s).head? = some '(' then
    let parameters := skipGap (skipGap s).tail
    if parameters.head? = some ')' then some [] else keptTail parameters
  else none

/-- The comments that are overwritten in `t` are mere remarks in a parameter list: without them no
type has other modifiers, and no default value ends elsewhere. -/
structure ListRemarks (s t : List Char) : Prop extends Remarks s t where
  first : ∀ k u v, Blanked (s.drop k) (t.drop k) → s.drop k = '(' :: u → t.drop k = '(' :: v →
    modifiersLength (skipGap v) = modifiersLength (skipGap u)
  next : ∀ k u v, Blanked (s.drop k) (t.drop k) → s.drop k = ',' :: u → t.drop k = ',' :: v →
    modifiersLength v = modifiersLength u
  defaults : ∀ k u v, Blanked (s.drop k) (t.drop k) → s.drop k = '=' :: u → t.drop k = '=' :: v →
    (v.takeWhile fun c => !endsDefault c).length = (u.takeWhile fun c => !endsDefault c).length

section Lists

variable {s t : List Char}

theorem ListRemarks.drop (h : ListRemarks s t) {n : Nat} (hn : Blanked (s.drop n) (t.drop n)) :
    ListRemarks (s.drop n) (t.drop n) where
  toRemarks := h.toRemarks.drop hn
  first k u v := by simpa only [List.drop_drop] using h.first (n + k) u v
  next k u v := by simpa only [List.drop_drop] using h.next (n + k) u v
  defaults k u v := by simpa only [List.drop_drop] using h.defaults (n + k) u v

/-- A default value or brackets end at the same place, and leave the same behind the name. -/
theorem readParameterEnd_remarks (h : ListRemarks s t) {n : Nat}
    (hn : Blanked (s.drop n) (t.drop n)) :
    ∃ e m, (∀ x, readParameterEnd s x n = (x ++ e, m)) ∧ (∀ y, readParameterEnd t y n = (y ++ e, m)) ∧
      Blanked (s.drop m) (t.drop m) := by
  have hdefault := hn.head?_iff (c := '=') (by decide) (by decide)
  have hbrackets := hn.prefix_iff (w := ['[', ']']) (by decide) (by decide)
  by_cases hs : (s.drop n).head? = some '='
  · obtain ⟨u, hu⟩ := List.head?_eq_some_iff.mp hs
    obtain ⟨v, hv, huv⟩ := Blanked.behind_char (by decide) (hu ▸ hn)
    have hvalue := h.defaults n u v hn hu hv
    have hgap := agrees_gap (huv.drop_run_of_eq rfl rfl hvalue)
    generalize hk : (u.takeWhile fun c => !endsDefault c).length = k at hvalue hgap
    have hbehind {r w : List Char} (hr : r.drop n = '=' :: w) (g : Nat) :
        r.drop (n + (k + 1 + g)) = (w.drop k).drop g := by
      rw [Nat.add_right_comm, ← List.drop_drop, hr, List.drop_succ_cons, List.drop_drop]
    refine ⟨[], n + (k + 1 + gap (u.drop k)), fun x => ?_, fun y => ?_, ?_⟩
    · simp only [readParameterEnd, hu, hk, List.append_nil]
    · simp only [readParameterEnd, hv, hvalue, hgap.1, List.append_nil]
    · rw [hbehind hu, hbehind hv]
      exact hgap.2
  · by_cases hs' : ['[', ']'] <+: s.drop n
    · obtain ⟨u, hu'⟩ := hs'
      have hu : s.drop n = '[' :: ']' :: u := hu'.symm
      obtain ⟨v, hv', huv⟩ := Blanked.behind (w := ['[', ']']) (by decide) (hu' ▸ hn)
      have hv : t.drop n = '[' :: ']' :: v := hv'
      have hgap := agrees_gap huv
      have hbehind {r w : List Char} (hr : r.drop n = '[' :: ']' :: w) (g : Nat) :
          r.drop (n + (g + 2)) = w.drop g := by
        rw [Nat.add_comm g, ← List.drop_drop, ← List.drop_drop, hr]
        rfl
      refine ⟨"[]".toList, n + (gap u + 2), fun x => ?_, fun y => ?_, ?_⟩
      · simp only [readParameterEnd, hu]
      · simp only [readParameterEnd, hv, hgap.1]
      · rw [hbehind hu, hbehind hv]
        exact hgap.2
    · have hnone {r : List Char} (hr : (r.drop n).head? ≠ some '=') (hr' : ¬ ['[', ']'] <+: r.drop n)
          (x : List Char) : readParameterEnd r x n = (x ++ [], n) := by
        rw [List.append_nil]
        unfold readParameterEnd
        split
        · rename_i w hw
          exact absurd (congrArg List.head? hw) hr
        · rename_i w hw
          exact absurd ⟨w, hw.symm⟩ hr'
        · rfl
      exact ⟨[], n, hnone hs hs', hnone (mt hdefault.mp hs) (mt hbrackets.mp hs'), hn⟩

/-- The name of a parameter, which is left out if there is none. -/
theorem Blanked.reveals_name (h : Blanked s t) (m : Nat) :
    Reveals (if m = 0 then [] else ' ' :: simplify (s.take m))
      (if m = 0 then [] else ' ' :: simplify (t.take m)) (s.take m) (t.take m) := by
  by_cases hm : m = 0
  · subst hm
    exact ⟨Nat.le_refl _, fun _ => rfl, fun _ => rfl⟩
  · rw [if_neg hm, if_neg hm]
    exact (h.reveals_take count_simplify m).same_append [' ']

/-- **One parameter** takes up the same room, and leaves the same behind if the same is cut out. -/
theorem readParameter_remarks (h : ListRemarks s t)
    (hmodifiers : modifiersLength t = modifiersLength s) :
    Agrees (fun s => (readParameter s).2) s t ∧ ((readParameter s).2 ≠ 0 →
      Reveals (readParameter s).1 (readParameter t).1 (keptParameter s) (keptParameter t)) := by
  have htypes := (agrees_names (s.length + 1)).1
  have htype := htypes s t (Nat.lt_succ_self _) h.toRemarks hmodifiers
  simp only [readParameter_eq, Agrees, htype.1, keptParameter]
  by_cases hzero : typeLength s = 0
  · simp only [hzero, if_true]
    exact ⟨⟨trivial, h.blanked⟩, fun hne => absurd rfl hne⟩
  · simp only [hzero, if_false]
    have hgap := agrees_gap htype.2
    have hplace := hgap.drop_add
    have hname := agrees_simpleName (h.toRemarks.drop hplace)
      (htypes.mono (List.length_drop ▸ by omega))
    have hend := agrees_gap hname.drop_add
    obtain ⟨e, m, hs, ht, hm⟩ := readParameterEnd_remarks h hend.drop_add
    simp only [readParameterName, hgap.1, hname.1, hend.1, hs, ht]
    refine ⟨⟨trivial, hm⟩, fun _ => ?_⟩
    exact ((h.blanked.reveals_take count_cleanType _).append
      (hplace.reveals_name _)).append_same e

theorem keptTail_eq (s : List Char) :
    keptTail s =
      let n := (readParameter s).2
      if n = 0 then none
      else if (s.drop n).head? = some ',' then
        (keptTail (s.drop n).tail).map (keptParameter s :: ·)
      else if (s.drop n).head? = some ')' then some [keptParameter s]
      else none := by
  rw [keptTail]
  simp only [dite_eq_ite]

/-- Of both texts a list is read or of none, and `Reveals` holds of the lists that are. -/
inductive Shows {α : Type} : Option (List Char) → Option (List Char) → Option α → Option α → Prop
  | none : Shows none none none none
  | some {x y : List Char} {p q : α} (h : Reveals x y p q) :
      Shows (some x) (some y) (some p) (some q)

/-- A parameter and what stands before the others. -/
theorem Shows.cons {α : Type} {x y : List Char} {p q : α} {xs ys : Option (List Char)}
    {ps qs : Option (List α)} (htail : Shows xs ys ps qs) (h : Reveals x y p q) :
    Shows (xs.map (x ++ ·)) (ys.map (y ++ ·)) (ps.map (p :: ·)) (qs.map (q :: ·)) := by
  cases htail with
  | none => exact .none
  | some htail => exact .some ((h.append htail).of_iff (by rw [Prod.mk.injEq, List.cons.injEq]))

/-- **The parameters** up to the closing parenthesis. -/
theorem readParameterTail_remarks (h : ListRemarks s t)
    (hmodifiers : modifiersLength t = modifiersLength s) :
    (readParameterTail t).2 = (readParameterTail s).2 ∧
      Shows (readParameterTail s).1 (readParameterTail t).1 (keptTail s) (keptTail t) := by
  induction hlen : s.length using Nat.strongRecOn generalizing s t with
  | ind n ih =>
      obtain ⟨⟨hlength, hn⟩, hreveals⟩ := readParameter_remarks h hmodifiers
      dsimp only at hlength hn
      have hcomma := hn.head?_iff (c := ',') (by decide) (by decide)
      have hclose := hn.head?_iff (c := ')') (by decide) (by decide)
      rw [readParameterTail_eq, readParameterTail_eq, keptTail_eq, keptTail_eq]
      simp only [hlength, hcomma, hclose]
      by_cases hzero : (readParameter s).2 = 0
      · simp only [if_pos hzero]
        exact ⟨trivial, .none⟩
      simp only [if_neg hzero]
      by_cases hs : (s.drop (readParameter s).2).head? = some ','
      · obtain ⟨u, hu⟩ := List.head?_eq_some_iff.mp hs
        obtain ⟨v, hv, huv⟩ := Blanked.behind_char (by decide) (hu ▸ hn)
        have hrest : ListRemarks u v := by
          have hdrop := (h.drop hn).drop (n := 1) (by rwa [hu, hv])
          rwa [hu, hv] at hdrop
        obtain ⟨hcount, hshows⟩ := ih u.length (hlen ▸ length_lt_of_drop_eq_cons hu) hrest
          (h.next _ u v hn hu hv) rfl
        simp only [hu, hv, List.head?_cons, if_true, List.tail_cons, hcount, true_and]
        exact hshows.cons ((hreveals hzero).append_same _)
      · simp only [if_neg hs]
        by_cases hs' : (s.drop (readParameter s).2).head? = some ')'
        · simp only [if_pos hs']
          exact ⟨trivial, .some (((hreveals hzero).append_same _).of_iff
            (by rw [List.cons.injEq, and_iff_left rfl]))⟩
        · simp only [if_neg hs']
          exact ⟨trivial, .none⟩

/-- The text of a list begins with its parenthesis, and of what is no list there is none. -/
theorem Shows.text_iff {α : Type} {x y : Option (List Char)} {p q : Option α} (h : Shows x y p q) :
    (y.map fun t => String.ofList ('(' :: t)).getD "" =
      (x.map fun t => String.ofList ('(' :: t)).getD "" ↔ q = p := by
  cases h with
  | none => exact ⟨fun _ => rfl, fun _ => rfl⟩
  | some hlist =>
      rw [Option.some.injEq, ← hlist.iff, Option.map_some, Option.map_some, Option.getD_some,
        Option.getD_some, String.ofList_inj, List.cons.injEq, and_iff_right rfl]

theorem keptList_of_open {b : List Char} (hs : s.drop (gap s) = '(' :: b) :
    keptList s =
      if (b.drop (gap b)).head? = some ')' then some [] else keptTail (b.drop (gap b)) := by
  simp only [keptList, skipGap, hs, List.head?_cons, if_true, List.tail_cons]

/-- **Parameter lists.**  The list that is read is the same exactly if what is cut out is. -/
theorem readParameters_remarks (h : ListRemarks s t) : RestsOn readParameters keptList s t := by
  unfold RestsOn
  have hgap := agrees_gap h.blanked
  have hopen := hgap.2.head?_iff (c := '(') (by decide) (by decide)
  have hbegin : t.drop (gap t) = t.drop (gap s) := by rw [hgap.1]
  by_cases hs : (s.drop (gap s)).head? = some '('
  · obtain ⟨u, hu⟩ := List.head?_eq_some_iff.mp hs
    obtain ⟨v, hv, huv⟩ := Blanked.behind_char (by decide) (hu ▸ hgap.2)
    have hinside : ListRemarks u v := by
      have hdrop := (h.drop hgap.2).drop (n := 1) (by rwa [hu, hv])
      rwa [hu, hv] at hdrop
    have hinner := agrees_gap huv
    have hmodifiers := h.first (gap s) u v hgap.2 hu hv
    simp only [skipGap, hinner.1] at hmodifiers
    obtain ⟨hcount, hshows⟩ := readParameterTail_remarks (hinside.drop hinner.2) hmodifiers
    have hclose := hinner.2.head?_iff (c := ')') (by decide) (by decide)
    have hempty : v.drop (gap v) = v.drop (gap u) := by rw [hinner.1]
    rw [readParameters_of_open hu, readParameters_of_open (hbegin.trans hv), keptList_of_open hu,
      keptList_of_open (hbegin.trans hv), readParameters_eq rfl, readParameters_eq rfl, hempty, hgap.1]
    simp only [hclose, hinner.1]
    split
    · exact ⟨rfl, fun _ => rfl, fun _ => rfl⟩
    · rw [hcount]
      exact ⟨rfl, hshows.text_iff⟩
  · have hnone {r : List Char} (hr : (r.drop (gap r)).head? ≠ some '(') : keptList r = none :=
      if_neg hr
    have ht : (t.drop (gap t)).head? ≠ some '(' := by rwa [hbegin, ne_eq, hopen]
    rw [readParameters_of_not_open hs, readParameters_of_not_open ht, hnone hs, hnone ht]
    exact ⟨rfl, fun _ => rfl, fun _ => rfl⟩

end Lists

/-! ## Names, types and lists -/

theorem readName_remarks {s t : List Char} (h : Remarks s t) :
    RestsOn readName (fun s => s.take (qualifiedName s)) s t := by
  have hname := (agrees_names (s.length + 1)).2 s t (Nat.lt_succ_self _) h
  simp only [RestsOn, readName, hname.1, String.ofList_inj]
  exact ⟨trivial, (h.blanked.reveals_take count_spaceless _).iff⟩

theorem readType_remarks {s t : List Char} (h : Remarks s t)
    (hmodifiers : modifiersLength t = modifiersLength s) :
    RestsOn readType (fun s => s.take (typeLength s)) s t := by
  have htype := (agrees_names (s.length + 1)).1 s t (Nat.lt_succ_self _) h hmodifiers
  simp only [RestsOn, readType, htype.1, String.ofList_inj]
  exact ⟨trivial, (h.blanked.reveals_take count_cleanType _).iff⟩

/-- **A remark behind a name** is read with it, up to the end of its line. -/
theorem readName_line (p : ScopePath) {r : List Char} (hr : '\n' ∉ r) (x : List Char) :
    readName (p.text ++ ' ' :: '/' :: '/' :: (r ++ '\n' :: '{' :: x)) =
      (String.ofList (p.text ++ '/' :: '/' :: spaceless r), p.text.length + (r.length + 4)) := by
  generalize hy : ' ' :: '/' :: '/' :: (r ++ '\n' :: '{' :: x) = y
  have hsplit : y = (' ' :: '/' :: '/' :: (r ++ ['\n'])) ++ '{' :: x := by simp [← hy]
  have hgap : gap y = (' ' :: '/' :: '/' :: (r ++ ['\n'])).length := by
    have hopen : gap y = gapFrom true (r ++ '\n' :: '{' :: x) + 3 := by
      rw [← hy]
      rfl
    have hend : gapFrom true ('\n' :: '{' :: x) = 1 := rfl
    rw [hopen, gapFrom_line hr, hend]
    simp
  have hdrop : y.drop (gap y) = '{' :: x := by rw [hgap, hsplit, List.drop_left]
  have htake : y.take (gap y) = ' ' :: '/' :: '/' :: (r ++ ['\n']) := by
    rw [hgap, hsplit, List.take_left]
  have hends : EndsName y := by
    refine ⟨⟨?_, ?_⟩, ?_⟩
    · rw [← hy]
      rfl
    · rw [hdrop]
      rintro ⟨v, hv⟩
      cases hv
    · rw [hdrop]
      exact fun h => (by cases h)
  have hlength := p.qualifiedName_text hends
  have hkept : spaceless (' ' :: '/' :: '/' :: (r ++ ['\n'])) = '/' :: '/' :: spaceless r := by
    simp [spaceless, isSpace]
  have happend (a b : List Char) : spaceless (a ++ b) = spaceless a ++ spaceless b :=
    List.filter_append ..
  rw [readName, hlength, List.take_length_add_append, htake, happend, spaceless_eq_self p.solid_text,
    hkept, hgap]
  simp

/-- **Remarks.**  Where comments are mere remarks, names, types and parameter lists take up the same
room as with spaces instead of the comments.  They are read the same exactly if no remark stands in
what is cut out of the text for them; the remark in the line of a name does. -/
theorem read_remarks {s t : List Char} (h : Remarks s t) :
    RestsOn readName (fun s => s.take (qualifiedName s)) s t ∧
      (modifiersLength t = modifiersLength s →
        RestsOn readType (fun s => s.take (typeLength s)) s t) ∧
      (ListRemarks s t → RestsOn readParameters keptList s t) ∧
      ∀ (p : ScopePath) (r x : List Char), '\n' ∉ r →
        readName (p.text ++ ' ' :: '/' :: '/' :: (r ++ '\n' :: '{' :: x)) =
          (String.ofList (p.text ++ '/' :: '/' :: spaceless r), p.text.length + (r.length + 4)) :=
  ⟨readName_remarks h, readType_remarks h, readParameters_remarks,
    fun p _ x hr => readName_line p hr x⟩

/-- The parameter `A // r`, of which the name `a` stands in the next line, is read with the remark in
it, and so is the class `N` with the remark in its line. -/
theorem read_remarks_parameter :
    let s := '(' :: 'A' :: ' ' :: '/' :: '/' :: ([' ', 'r'] ++ ['\n', 'a', ')'])
    let t := '(' :: 'A' :: ' ' :: (List.replicate 4 ' ' ++ ['\n', 'a', ')'])
    Remarks s t ∧ ListRemarks s t ∧ RestsOn readParameters keptList s t ∧
      (readParameters s).1 = "(A // r a)" ∧ (readParameters t).1 = "(A a)" ∧
      readName (['N'] ++ ' ' :: '/' :: '/' :: ([' ', 'r'] ++ '\n' :: '{' :: [])) =
        (String.ofList (['N'] ++ '/' :: '/' :: spaceless [' ', 'r']), 1 + (2 + 4)) := by
  intro s t
  have hblanked : Blanked s t :=
    .char (fun h => absurd h (by decide)) (.char (fun h => absurd h (by decide))
      (.char (fun h => absurd h (by decide)) (.comment (by decide) rfl (.refl _))))
  have hnone {c : Char} (hc : c ∉ s) {k : Nat} {u : List Char} (hs : s.drop k = c :: u) : False :=
    hc (List.mem_of_mem_drop (hs ▸ List.mem_cons_self))
  have hremarks : Remarks s t := by
    refine .of_no_operator hblanked fun hkeyword => ?_
    exact absurd (hkeyword.subset (List.mem_cons_self (a := 'o'))) (by decide)
  have hlist : ListRemarks s t :=
    { toRemarks := hremarks
      first := by
        intro k u v _ hs ht
        cases k with
        | zero =>
            obtain ⟨-, rfl⟩ := List.cons.inj hs
            obtain ⟨-, rfl⟩ := List.cons.inj ht
            exact (modifiersLength_eq_zero (c := 'A') rfl rfl).trans
              (modifiersLength_eq_zero (c := 'A') rfl rfl).symm
        | succ k =>
            have hmem : '(' ∈ s.tail.drop k := by
              rw [List.drop_tail]
              exact hs ▸ List.mem_cons_self
            exact absurd (List.mem_of_mem_drop hmem) (by decide)
      next := fun k u v _ hs _ => (hnone (by decide) hs).elim
      defaults := fun k u v _ hs _ => (hnone (by decide) hs).elim }
  obtain ⟨-, -, hread, hline⟩ := read_remarks hremarks
  have hclass := hline ⟨['N'], [], fun c hc => List.mem_singleton.mp hc ▸ ⟨rfl, rfl, by decide⟩⟩
    [' ', 'r'] [] (by decide)
  exact ⟨hremarks, hlist, hread hlist, by decide +kernel, by decide +kernel, hclass⟩

end CppDoc.Syntax
