import CppDoc.Proofs.Syntax.Rereading

/-!
# Parameter lists as they may be laid out

A parameter may be laid out with any blanks around its type, its mark, its name and what follows the
name.  Reading a list of such parameters gives their types in the written form with the names and
brackets, unless it is refused because the scanners meet an operator name; and reading what is kept
gives the types and the names again.

* `LaidParameter.readParameter_text`: one parameter;
* `readParameters_laid`: a list in its parentheses;
* `typesOnly_laid` and `parameterNames_laid`: what is read of the text that is kept.
-/

namespace CppDoc.Syntax

open CppDoc.Text

/-- What may stand behind the type and the name of a parameter, with the blanks behind it. -/
inductive LaidEnding where
  | none
  | value (text : List Char) (closed : text.all (fun c => !endsDefault c) = true)
  | brackets (b : List Char) (blank : b.all isBlank = true)

namespace LaidEnding

/-- The ending as it is laid out. -/
def text : LaidEnding → List Char
  | .none => []
  | .value v _ => '=' :: v
  | .brackets b _ => '[' :: ']' :: b

/-- The ending as it is kept. -/
def kept : LaidEnding → List Char
  | .brackets _ _ => ['[', ']']
  | _ => []

end LaidEnding

/-- A parameter with the blanks around its parts.  Without a name, the name is empty. -/
structure LaidParameter (E : Prop) where
  indent : List Char
  type : List Char
  mark : List Char
  space : List Char
  name : List Char
  lead : List Char
  ending : LaidEnding
  blank : indent.all isBlank = true ∧ space.all isBlank = true ∧ lead.all isBlank = true
  spelled : SpelledType E type
  marked : SpelledMark mark
  named : name ≠ [] → Word E name
  /-- A name is not taken for a part of the type. -/
  apart : name ≠ [] → mark = [] →
    type.getLast? ≠ some '~' ∧ (space = [] → type.getLast? = some '>')

namespace LaidParameter

variable {E : Prop}

/-- The parameter as it is laid out, up to its ending. -/
def front (p : LaidParameter E) : List Char :=
  p.indent ++ (p.type ++ (p.mark ++ (p.space ++ (p.name ++ p.lead))))

/-- The parameter as it is laid out. -/
def text (p : LaidParameter E) : List Char :=
  p.front ++ p.ending.text

/-- The words of the type, and its mark. -/
def typeWords (p : LaidParameter E) : List (List Char) × List Char :=
  (words p.type, spaceless p.mark)

/-- The type as it is kept. -/
def written (p : LaidParameter E) : List Char :=
  cleanType (p.type ++ p.mark)

/-- The name as it is kept. -/
def nameText (p : LaidParameter E) : List Char :=
  if p.name = [] then [] else ' ' :: p.name

/-- The parameter as it is kept. -/
def kept (p : LaidParameter E) : List Char :=
  p.written ++ (p.nameText ++ p.ending.kept)

end LaidParameter

/-! ## One parameter -/

section Parameter

variable {E : Prop} {s i x k b y w t type text : List Char} {n : Nat} {c : Char}

/-- An ending is read as a whole. -/
theorem readParameterEnd_laid (e : LaidEnding) (hc : Separates c) (hs : s.drop n = e.text ++ c :: t) :
    readParameterEnd s text n = (text ++ e.kept, n + e.text.length) := by
  have hgap := hc.gap_eq t
  cases e with
  | none =>
      simp only [LaidEnding.text, List.nil_append] at hs
      rcases hc with rfl | rfl <;>
        simp [readParameterEnd, hs, LaidEnding.kept, LaidEnding.text]
  | value v closed =>
      have hrun : (v ++ c :: t).takeWhile (fun c => !endsDefault c) = v := by
        rw [takeWhile_append_of_boundary, takeWhile_eq_self closed]
        intro _
        rw [List.head?_cons, Option.any_some, hc.endsDefault]
        rfl
      have hs' : s.drop n = '=' :: (v ++ c :: t) := hs
      simp only [readParameterEnd, hs', hrun, LaidEnding.kept, LaidEnding.text, List.drop_left, hgap]
      simp
  | brackets b blank =>
      have hs' : s.drop n = '[' :: ']' :: (b ++ c :: t) := hs
      simp only [readParameterEnd, hs', gap_blanks_append blank, hgap, LaidEnding.kept, LaidEnding.text]
      simp

/-- What may follow a parameter does not go on with its name or type. -/
theorem LaidEnding.fresh (e : LaidEnding) (hc : Separates c) (t : List Char) :
    (e.text ++ c :: t).head?.any goesOn = false ∧
      (e.text ++ c :: t).head?.any isNameChar = false := by
  cases e with
  | none => rcases hc with rfl | rfl <;> exact ⟨rfl, rfl⟩
  | value v _ => exact ⟨rfl, rfl⟩
  | brackets b _ => exact ⟨rfl, rfl⟩

/-- Blanks around a type are not kept. -/
theorem cleanType_blanks (hi : i.all isBlank = true) (hb : b.all isBlank = true) (x k : List Char) :
    cleanType (i ++ (x ++ (k ++ b))) = cleanType (x ++ k) := by
  rw [cleanType_eq_joined, cleanType_eq_joined, words_indent hi, ← List.append_assoc,
    words_append_blanks hb]

/-- A type that has been recognised is read with the blanks around it. -/
theorem readParameter_of_typeLength (hi : i.all isBlank = true) (hb : b.all isBlank = true)
    (hx : x ≠ []) (hy : gap y = 0)
    (hlength : typeLength (i ++ (x ++ (k ++ (b ++ y)))) =
      i.length + (x.length + (k.length + b.length))) :
    readParameter (i ++ (x ++ (k ++ (b ++ y)))) =
      readParameterName (i ++ (x ++ (k ++ (b ++ y)))) (cleanType (x ++ k))
        (i.length + (x.length + (k.length + b.length))) := by
  have hpos := List.length_pos_iff.mpr hx
  have htext : i ++ (x ++ (k ++ (b ++ y))) = (i ++ (x ++ (k ++ b))) ++ y := by simp
  have hsum : i.length + (x.length + (k.length + b.length)) = (i ++ (x ++ (k ++ b))).length := by
    simp
  have hdrop : (i ++ (x ++ (k ++ (b ++ y)))).drop
      (i.length + (x.length + (k.length + b.length))) = y := by
    rw [htext, hsum, List.drop_left]
  rw [readParameter_eq]
  dsimp only
  rw [hlength, if_neg (by omega), hdrop, hy, Nat.add_zero, ← cleanType_blanks hi hb]
  congr 1
  rw [htext, hsum, List.take_left]

/-- A word behind the type is read as the name. -/
theorem readParameterName_word (hs : s.drop n = w ++ y) (hne : w ≠ []) (hsolid : Solid w)
    (hname : simpleName (w ++ y) = w.length) :
    readParameterName s type n =
      readParameterEnd s (type ++ ' ' :: w) (n + w.length + gap y) := by
  have hpos := List.length_pos_iff.mpr hne
  have hbehind : s.drop (n + w.length) = y := by
    rw [← List.drop_drop, hs, List.drop_left]
  simp only [readParameterName, hs, hname, Nat.ne_of_gt hpos, if_false, List.take_left,
    simplify_eq_self hsolid, hbehind]

/-- A list ends badly where neither a comma nor a parenthesis stands behind a parameter. -/
theorem readParameterTail_refused (h : (s.drop (readParameter s).2).head? = some c)
    (hc : ¬ Separates c) : (readParameterTail s).1 = none := by
  rw [readParameterTail_eq]
  dsimp only
  split
  · rfl
  · rw [h, if_neg fun heq => hc (.inl (Option.some.inj heq)),
      if_neg fun heq => hc (.inr (Option.some.inj heq))]

/-- A parameter of which the type ends at a parenthesis or a bracket is refused. -/
theorem refused_of_type (hne : typeLength s ≠ 0)
    (hstop : (s.drop (typeLength s)).head? = some '(' ∨ (s.drop (typeLength s)).head? = some '<') :
    (readParameterTail s).1 = none := by
  have hread (c : Char) (hc : c = '(' ∨ c = '<') (hhead : (s.drop (typeLength s)).head? = some c) :
      (readParameterTail s).1 = none := by
    obtain ⟨rest, hrest⟩ := List.head?_eq_some_iff.mp hhead
    have hgap : gap (c :: rest) = 0 := by
      rcases hc with rfl | rfl <;> exact gap_punctuation (by decide) _
    have hname : simpleName (c :: rest) = 0 := by
      apply simpleName_eq_zero
      rw [hgap, List.drop_zero]
      rcases hc with rfl | rfl <;> rfl
    have hend (text : List Char) :
        readParameterEnd s text (typeLength s) = (text, typeLength s) := by
      rw [readParameterEnd, hrest]
      rcases hc with rfl | rfl <;> rfl
    have hlength : (readParameter s).2 = typeLength s := by
      rw [readParameter_eq]
      dsimp only
      rw [if_neg hne, hrest, hgap, Nat.add_zero, readParameterName_none hrest hgap hname, hend]
    apply readParameterTail_refused (c := c) (by rw [hlength]; exact hhead)
    rcases hc with rfl | rfl <;> exact fun h => h.elim (by decide) (by decide)
  rcases hstop with hstop | hstop
  · exact hread '(' (.inl rfl) hstop
  · exact hread '<' (.inr rfl) hstop

/-- A parameter of which the name ends at a parenthesis is refused. -/
theorem refused_of_name (hread : readParameter s = readParameterName s type n)
    (hopen : (s.drop (n + simpleName (s.drop n))).head? = some '(') :
    (readParameterTail s).1 = none := by
  obtain ⟨rest, hrest⟩ := List.head?_eq_some_iff.mp hopen
  have hlength : (readParameter s).2 = n + simpleName (s.drop n) := by
    rw [hread, readParameterName, hrest, gap_parenthesis, Nat.add_zero, readParameterEnd, hrest]
    rfl
  exact readParameterTail_refused (by rw [hlength]; exact hopen)
    fun h => h.elim (by decide) (by decide)

end Parameter

namespace LaidParameter

variable {E : Prop} (p : LaidParameter E) {c : Char} (t : List Char)

/-- What follows the type of a parameter that has a name. -/
theorem endsSpelled_named (hname : p.name ≠ []) (y : List Char) :
    EndsSpelled p.type p.mark p.space (p.name ++ y) := by
  have hstart := (p.named hname).append_start y
  refine ⟨p.blank.2.1, follows_of_isNameStart hstart ?_, fun hmark htilde => ?_⟩
  · by_cases hspace : p.space = []
    · rw [hspace, List.append_nil]
      have hmarked := p.marked
      generalize hk : p.mark = k at hmarked
      cases hmarked with
      | none =>
          rw [List.append_nil, (p.apart hname hk).2 hspace]
          rfl
      | @mark g d hg hd =>
          rw [← List.append_assoc, getLast?_append_right (List.cons_ne_nil _ _)]
          rcases hd with rfl | rfl <;> rfl
    · rw [← List.append_assoc, getLast?_append_right hspace, List.getLast?_eq_some_getLast hspace]
      exact isNameChar_eq_false_of_isBlank
        (List.all_eq_true.mp p.blank.2.1 _ (List.getLast_mem hspace))
  · exact absurd htilde (p.apart hname hmark).1

/-- The type and the name of a parameter are read, and what stands behind them, or it is refused. -/
theorem readParameter_front {y : List Char} (hgoes : y.head?.any goesOn = false)
    (hfresh : y.head?.any isNameChar = false) :
    readParameter (p.front ++ y) =
        readParameterEnd (p.front ++ y) (p.written ++ p.nameText) p.front.length ∨
      E ∧ (readParameterTail (p.front ++ y)).1 = none := by
  obtain ⟨hi, hspace, hlead⟩ := p.blank
  have hgap : gap y = 0 := (Follows.mk (a := []) hgoes fun _ => rfl).gap_eq
  have hread {b z : List Char} (hz : EndsSpelled p.type p.mark b z) (hnone : gap z = 0) :
      let s := p.indent ++ (p.type ++ (p.mark ++ (b ++ z)))
      readParameter s = readParameterName s p.written
          (p.indent.length + (p.type.length + (p.mark.length + b.length))) ∨
        E ∧ (readParameterTail s).1 = none := by
    rcases typeLength_spelled hi p.spelled p.marked hz with hlength | hstuck
    · exact .inl (readParameter_of_typeLength hi hz.blank p.spelled.ne_nil hnone hlength)
    · exact .inr ⟨hstuck.operator, refused_of_type hstuck.pos hstuck.stop⟩
  have hdrop (b z : List Char) (n : Nat) :
      (p.indent ++ (p.type ++ (p.mark ++ (b ++ z)))).drop
        (p.indent.length + (p.type.length + (p.mark.length + b.length)) + n) = z.drop n := by
    rw [Nat.add_assoc, Nat.add_assoc, Nat.add_assoc, List.drop_length_add_append,
      List.drop_length_add_append, List.drop_length_add_append, List.drop_length_add_append]
  by_cases hname : p.name = []
  · have hb : (p.space ++ p.lead).all isBlank = true := by rw [List.all_append, hspace, hlead]; rfl
    have hends : EndsSpelled p.type p.mark (p.space ++ p.lead) y := endsSpelled_of_fresh hb hgoes hfresh
    have htext : p.front ++ y = p.indent ++ (p.type ++ (p.mark ++ ((p.space ++ p.lead) ++ y))) := by
      simp [front, hname]
    have hbehind := hdrop (p.space ++ p.lead) y 0
    rw [Nat.add_zero, List.drop_zero] at hbehind
    have hnone : simpleName y = 0 := by
      apply simpleName_eq_zero
      rw [hgap, List.drop_zero]
      exact head?_not_isNameStart hfresh
    rw [htext]
    refine (hread hends hgap).imp_left fun hread => ?_
    rw [hread, readParameterName_none hbehind hgap hnone]
    simp [front, nameText, hname]
  · have hword := p.named hname
    have hends := p.endsSpelled_named hname (p.lead ++ y)
    have htext : p.front ++ y =
        p.indent ++ (p.type ++ (p.mark ++ (p.space ++ (p.name ++ (p.lead ++ y))))) := by
      simp [front]
    have hbehind := hdrop p.space (p.name ++ (p.lead ++ y)) 0
    rw [Nat.add_zero, List.drop_zero] at hbehind
    have hapart : (p.lead ++ y).head?.any isNameChar = false := head?_blanks_append hlead hfresh
    rw [htext]
    rcases hread hends (hword.gap_append _) with hread | hrefused
    · rcases simpleName_word hword hapart with hlength | hhalted
      · left
        rw [hread, readParameterName_word hbehind hname hword.solid hlength,
          gap_blanks_append hlead, hgap]
        simp [front, nameText, hname, Nat.add_assoc]
      · right
        rw [← hbehind] at hhalted
        exact ⟨hhalted.operator, refused_of_name hread hhalted.of_drop.opens⟩
    · exact .inr hrefused

/-- **One parameter** is read up to what stands behind it, or it is refused. -/
theorem readParameter_text (hc : Separates c) :
    readParameter (p.text ++ c :: t) = (p.kept, p.text.length) ∨
      E ∧ (readParameterTail (p.text ++ c :: t)).1 = none := by
  obtain ⟨hgoes, hfresh⟩ := p.ending.fresh hc t
  have htext : p.text ++ c :: t = p.front ++ (p.ending.text ++ c :: t) := List.append_assoc ..
  rw [htext]
  refine (p.readParameter_front hgoes hfresh).imp_left fun hread => ?_
  rw [hread, readParameterEnd_laid p.ending hc (List.drop_left), List.append_assoc, kept, text,
    List.length_append]

end LaidParameter

/-! ## Lists -/

section Lists

variable {E : Prop}

/-- Parameters with a comma between them. -/
def commas (l : List (List Char)) : List Char :=
  List.intercalate [','] l

theorem commas_cons (x y : List Char) (l : List (List Char)) :
    commas (x :: y :: l) = x ++ ',' :: commas (y :: l) := by
  simp [commas, List.intercalate_cons_cons]

/-- What stands before the first parameter stands before the list. -/
theorem commas_behind {p q : LaidParameter E} {b : List Char} (h : p.text = b ++ q.text)
    (ps : List (LaidParameter E)) :
    commas ((p :: ps).map LaidParameter.text) = b ++ commas ((q :: ps).map LaidParameter.text) := by
  cases ps with
  | nil => simp [commas, h]
  | cons r rs => simp only [List.map_cons, commas_cons, h, List.append_assoc]

/-- A parameter list as it is laid out. -/
def laidList (ps : List (LaidParameter E)) : List Char :=
  '(' :: (commas (ps.map LaidParameter.text) ++ [')'])

/-- A parameter list as it is kept. -/
def laidKept (ps : List (LaidParameter E)) : String :=
  String.ofList ('(' :: (separated (ps.map LaidParameter.kept) ++ [')']))

theorem LaidParameter.length_text_ne_zero (p : LaidParameter E) : p.text.length ≠ 0 := by
  have := List.length_pos_iff.mpr p.spelled.ne_nil
  simp only [LaidParameter.text, LaidParameter.front, List.length_append]
  omega

/-- **The rest of a list** is read up to the parenthesis that closes it, or the list is refused. -/
theorem readParameterTail_laid (p : LaidParameter E) (ps : List (LaidParameter E)) (t : List Char) :
    let s := commas ((p :: ps).map LaidParameter.text) ++ ')' :: t
    readParameterTail s = (some (separated ((p :: ps).map LaidParameter.kept) ++ [')']),
        (commas ((p :: ps).map LaidParameter.text)).length + 1) ∨
      E ∧ (readParameterTail s).1 = none := by
  induction ps generalizing p with
  | nil =>
      simp only [List.map_singleton, separated, commas, List.intercalate_singleton]
      refine (p.readParameter_text t (.inr rfl)).imp_left fun hread => ?_
      rw [readParameterTail_eq]
      simp only [hread, p.length_text_ne_zero, if_false, List.drop_left, List.head?_cons, if_true]
      rw [if_neg (by decide)]
  | cons q qs ih =>
      have htext : commas ((p :: q :: qs).map LaidParameter.text) ++ ')' :: t =
          p.text ++ ',' :: (commas ((q :: qs).map LaidParameter.text) ++ ')' :: t) := by
        simp only [List.map_cons, commas_cons, List.append_assoc, List.cons_append]
      dsimp only at ih ⊢
      rw [htext]
      rcases p.readParameter_text (commas ((q :: qs).map LaidParameter.text) ++ ')' :: t) (.inl rfl)
        with hread | hrefused
      · rw [readParameterTail_eq]
        simp only [hread, p.length_text_ne_zero, if_false, List.drop_left, List.head?_cons, if_true,
          List.tail_cons]
        rcases ih q with hrest | ⟨hoperator, hrest⟩
        · left
          rw [hrest]
          refine Prod.ext ?_ ?_
          · simp [List.map_cons, separated_cons]
          · simp only [List.map_cons, commas_cons, List.length_append, List.length_cons]
            omega
        · exact .inr ⟨hoperator, by rw [hrest]; rfl⟩
      · exact .inr hrefused

/-- Nothing that ends a list stands at the front of a type, and no gap. -/
theorem front_of_isTypeChar {c : Char} (hc : isTypeChar c = true) (hblank : isBlank c = false)
    (y : List Char) : gap (c :: y) = 0 ∧ (c :: y).head? ≠ some ')' := by
  refine ⟨gap_cons_eq_zero_iff.mpr ⟨hblank, ?_⟩, ?_⟩
  · rintro rfl
    exact nomatch hc
  · intro hclose
    obtain rfl : c = ')' := Option.some.inj hclose
    exact nomatch hc

/-- **A parameter list** is read up to the parenthesis that closes it, or it is refused. -/
theorem readParameters_laid (ps : List (LaidParameter E)) {lead : List Char}
    (hlead : lead.all isBlank = true) (t : List Char) :
    readParameters (lead ++ (laidList ps ++ t)) =
        (laidKept ps, lead.length + (laidList ps).length) ∨
      E ∧ (readParameters (lead ++ (laidList ps ++ t))).1 = "" := by
  have htext : laidList ps ++ t = '(' :: (commas (ps.map LaidParameter.text) ++ ')' :: t) := by
    simp [laidList]
  have hlength : (laidList ps).length = (commas (ps.map LaidParameter.text)).length + 2 := by
    simp [laidList]
  have hgap : gap (lead ++ (laidList ps ++ t)) = lead.length := by
    rw [gap_blanks_append hlead, htext, gap_parenthesis, Nat.add_zero]
  rw [readParameters_of_open (by rw [hgap, List.drop_left, htext]), hgap, hlength]
  cases ps with
  | nil =>
      left
      have hnone : gap (')' :: t) = 0 := gap_punctuation (by decide) _
      have hempty := readParameters_eq (s := ')' :: t) (b := ')' :: t)
        (by rw [hnone, List.drop_zero])
      rw [List.head?_cons, if_pos rfl, hnone] at hempty
      have hcommas : commas (([] : List (LaidParameter E)).map LaidParameter.text) = [] := rfl
      rw [hcommas, List.nil_append, hempty]
      rfl
  | cons p ps =>
      -- The blanks before the first type are skipped with the parenthesis.
      let q : LaidParameter E := { p with indent := [], blank := ⟨rfl, p.blank.2⟩ }
      have hfirst : p.text = p.indent ++ q.text := by
        simp [q, LaidParameter.text, LaidParameter.front]
      have hcut := commas_behind hfirst ps
      obtain ⟨y, hy⟩ : ∃ y, commas ((q :: ps).map LaidParameter.text) ++ ')' :: t = p.type ++ y := by
        cases ps <;>
          simp [q, commas, List.intercalate_cons_cons, LaidParameter.text, LaidParameter.front]
      obtain ⟨c, x, hx, hblank, htype⟩ := p.spelled.exists_head
      obtain ⟨hnone, hopen⟩ := front_of_isTypeChar htype hblank (x ++ y)
      rw [← List.cons_append, ← hx, ← hy] at hnone hopen
      have hrest : (commas ((p :: ps).map LaidParameter.text) ++ ')' :: t).drop
          (gap (commas ((p :: ps).map LaidParameter.text) ++ ')' :: t)) =
            commas ((q :: ps).map LaidParameter.text) ++ ')' :: t := by
        rw [hcut, List.append_assoc, gap_blanks_append p.blank.1, hnone, Nat.add_zero, List.drop_left]
      rw [readParameters_eq hrest, if_neg hopen]
      rcases readParameterTail_laid q ps t with htail | ⟨hoperator, hrefused⟩
      · left
        rw [htail, hcut, List.append_assoc, gap_blanks_append p.blank.1, hnone, List.length_append]
        refine Prod.ext rfl ?_
        dsimp only
        omega
      · exact .inr ⟨hoperator, by rw [hrefused]; rfl⟩

end Lists

/-! ## What is kept -/

section Kept

variable {E : Prop} {x b : List Char} {c : Char}

/-- The written form of a type ends like the type. -/
theorem SpelledType.getLast?_kept (h : SpelledType E x) (ho : Orderly (words x)) :
    (joined (unkeyed (words x))).getLast? = x.getLast? := by
  obtain ⟨d, hd, hsolid, -⟩ := h.exists_getLast?
  obtain ⟨I, l, hwords, hl, -⟩ := words_concat (s := x) (by rw [hd]; simpa using hsolid)
  have hkey := h.last_word ho l (by rw [hwords]; simp)
  have hne : l ≠ [] := by
    rintro rfl
    rw [hd] at hl
    exact nomatch hl
  have hkeep : unkeyed [l] = [l] := unkeyed_eq_self (by simpa using hkey)
  rw [hwords, unkeyed_append, hkeep, getLast?_joined hne, hl]

/-- An orderly type is kept in its written form. -/
theorem LaidParameter.written_eq (p : LaidParameter E) (ho : Orderly (words p.type)) :
    p.written = writtenType p.type p.mark := by
  have hclean := cleanType_orderly (i := []) (b := []) rfl p.spelled ho p.marked rfl
  rwa [List.nil_append, List.append_nil] at hclean

/-- What is kept of a parameter is written with the characters of types and with brackets. -/
theorem LaidParameter.not_mem_kept {c : Char} (p : LaidParameter E) (ho : Orderly (words p.type))
    (hc : isTypeChar c = false) (hblank : isBlank c = false) (hmark : c ≠ '&' ∧ c ≠ '*')
    (hbracket : c ≠ '[' ∧ c ≠ ']') : c ∉ p.kept := by
  have hname : isNameChar c = false := by
    cases hword : isNameChar c with
    | false => rfl
    | true => simp [isTypeChar, hword] at hc
  have hspace : c ≠ ' ' := by
    rintro rfl
    cases hblank
  rw [kept, p.written_eq ho]
  simp only [List.mem_append, not_or]
  refine ⟨(KeptType.written p.spelled ho p.marked).not_mem hc hblank hmark, ?_, ?_⟩
  · unfold nameText
    split
    · exact List.not_mem_nil
    · rename_i hnamed
      rw [List.mem_cons, not_or]
      refine ⟨hspace, fun hmem => ?_⟩
      have hchar := List.all_eq_true.mp (p.named hnamed).chars c hmem
      cases hname.symm.trans hchar
  · cases p.ending <;> simp [LaidEnding.kept, hbracket]

/-- A parameter that is kept is an entry, and its name stands behind the type. -/
theorem LaidParameter.entry (p : LaidParameter E) (ho : Orderly (words p.type))
    (hb : b.all isBlank = true) (hc : Separates c) (t : List Char)
    (hopen : '(' ∉ b ++ (p.kept ++ c :: t)) :
    ∃ y, Entry E (b ++ (p.kept ++ c :: t)) p.written y ∧ after? ',' y = after? ',' (c :: t) ∧
      simpleName y = p.name.length ∧ y.take p.name.length = p.name := by
  have hfresh (c : Char) (hc : Separates c) (t : List Char) :
      (p.ending.kept ++ c :: t).head?.any goesOn = false ∧
        (p.ending.kept ++ c :: t).head?.any isNameChar = false := by
    cases p.ending <;> rcases hc with rfl | rfl <;> exact ⟨rfl, rfl⟩
  obtain ⟨hgoes, hname⟩ := hfresh c hc t
  have hcomma : ',' ∉ p.ending.kept := by
    cases p.ending <;> simp [LaidEnding.kept]
  rw [p.written_eq ho]
  by_cases hunnamed : p.name = []
  · have htext : p.kept ++ c :: t = writtenType p.type p.mark ++ ([] ++ (p.ending.kept ++ c :: t)) := by
      simp [kept, nameText, hunnamed, p.written_eq ho]
    refine ⟨p.ending.kept ++ c :: t, ?_, after?_append hcomma _, ?_, ?_⟩
    · rw [htext]
      exact .kept hb p.spelled ho p.marked (endsSpelled_of_fresh rfl hgoes hname)
    · rw [hunnamed]
      apply simpleName_eq_zero
      rw [(Follows.mk (a := []) hgoes fun _ => rfl).gap_eq, List.drop_zero]
      exact head?_not_isNameStart hname
    · rw [hunnamed]
      rfl
  · have hword := p.named hunnamed
    have htext : p.kept ++ c :: t =
        writtenType p.type p.mark ++ ([' '] ++ (p.name ++ (p.ending.kept ++ c :: t))) := by
      simp [kept, nameText, hunnamed, p.written_eq ho]
    rw [htext] at hopen ⊢
    refine ⟨p.name ++ (p.ending.kept ++ c :: t), ?_, ?_, ?_, List.take_left⟩
    · refine .kept hb p.spelled ho p.marked ⟨rfl, ?_, fun hmark htilde => ?_⟩
      · apply follows_of_isNameStart (hword.append_start _)
        rw [← List.append_assoc, getLast?_append_right (List.cons_ne_nil _ _)]
        rfl
      · rw [p.spelled.getLast?_kept ho] at htilde
        have hnone : p.mark = [] := by
          have hmarked := p.marked
          generalize p.mark = k at hmark hmarked
          cases hmarked with
          | none => rfl
          | mark hg hm =>
              rw [spaceless_mark hg hm] at hmark
              exact nomatch hmark
        exact absurd htilde (p.apart hunnamed hnone).1
    · have hnone : ',' ∉ p.name := fun hmem => nomatch List.all_eq_true.mp hword.chars ',' hmem
      rw [after?_append hnone, after?_append hcomma]
    · refine (simpleName_word hword hname).resolve_right fun hhalted => hopen ?_
      simp only [List.mem_append] at hhalted ⊢
      have hmem := List.mem_of_mem_drop (List.mem_of_head? hhalted.opens)
      simp only [List.mem_append] at hmem
      exact .inr (.inr (.inr hmem))

/-- The names of the parameters that have one. -/
def namesOf (ps : List (LaidParameter E)) : List (List Char) :=
  (ps.map LaidParameter.name).filter (!·.isEmpty)

theorem namesOf_cons (p : LaidParameter E) (ps : List (LaidParameter E)) :
    namesOf (p :: ps) = (if p.name = [] then [] else [p.name]) ++ namesOf ps := by
  unfold namesOf
  by_cases hname : p.name = [] <;> simp [hname]

/-- The type and the name of the first parameter, and the rest behind the comma. -/
theorem LaidParameter.lists_entry (p : LaidParameter E) (ho : Orderly (words p.type))
    (hb : b.all isBlank = true) (hc : Separates c) (t : List Char)
    (hopen : '(' ∉ b ++ (p.kept ++ c :: t)) :
    typeList (b ++ (p.kept ++ c :: t)) =
        p.written :: (((after? ',' (c :: t)).map typeList).getD []) ∧
      nameList (b ++ (p.kept ++ c :: t)) =
        (if p.name = [] then [] else [p.name]) ++ (((after? ',' (c :: t)).map nameList).getD []) := by
  obtain ⟨y, hentry, hafter, hname, htake⟩ := p.entry ho hb hc t hopen
  refine ⟨by rw [hentry.typeList fun _ => hopen, hafter], ?_⟩
  rw [hentry.nameList fun _ => hopen, hafter, hname, htake]
  by_cases hunnamed : p.name = []
  · simp [hunnamed]
  · simp [hunnamed, simplify_eq_self (p.named hunnamed).solid]

/-- The parameters of a list are orderly. -/
def OrderlyTypes (ps : List (LaidParameter E)) : Prop :=
  ∀ p ∈ ps, Orderly (words p.type)

/-- No parenthesis is kept between those of the list. -/
theorem OrderlyTypes.no_open {ps : List (LaidParameter E)} (ho : OrderlyTypes ps)
    (hb : b.all isBlank = true) :
    '(' ∉ b ++ (separated (ps.map LaidParameter.kept) ++ [')']) := by
  have hlist : '(' ∉ separated (ps.map LaidParameter.kept) := by
    apply not_mem_separated (by decide)
    intro t ht
    obtain ⟨p, hp, rfl⟩ := List.mem_map.mp ht
    exact p.not_mem_kept (ho p hp) rfl rfl (by decide) (by decide)
  have hblanks : '(' ∉ b := fun hmem => nomatch List.all_eq_true.mp hb '(' hmem
  simp only [List.mem_append, not_or]
  exact ⟨hblanks, hlist, by decide⟩

/-- **The types and names** of a kept list. -/
theorem lists_kept (p : LaidParameter E) (ps : List (LaidParameter E)) (ho : OrderlyTypes (p :: ps))
    (hb : b.all isBlank = true) :
    typeList (b ++ (separated ((p :: ps).map LaidParameter.kept) ++ [')'])) =
        (p :: ps).map LaidParameter.written ∧
      nameList (b ++ (separated ((p :: ps).map LaidParameter.kept) ++ [')'])) =
        namesOf (p :: ps) := by
  have hopen := ho.no_open hb
  have hp := ho p List.mem_cons_self
  induction ps generalizing p b with
  | nil =>
      have htext : separated ([p].map LaidParameter.kept) ++ [')'] = p.kept ++ [')'] := by
        simp [separated]
      rw [htext] at hopen ⊢
      obtain ⟨htypes, hnames⟩ := p.lists_entry hp hb (.inr rfl) [] hopen
      rw [htypes, hnames, namesOf_cons]
      exact ⟨rfl, rfl⟩
  | cons q qs ih =>
      have hrest : OrderlyTypes (q :: qs) := fun r hr => ho r (List.mem_cons_of_mem p hr)
      obtain ⟨hrestTypes, hrestNames⟩ := ih q hrest (b := [' ']) rfl (hrest.no_open rfl)
        (hrest q List.mem_cons_self)
      have htext : separated ((p :: q :: qs).map LaidParameter.kept) ++ [')'] =
          p.kept ++ ',' :: ' ' :: (separated ((q :: qs).map LaidParameter.kept) ++ [')']) := by
        simp only [List.map_cons, separated_cons, List.append_assoc, List.cons_append]
      rw [htext] at hopen ⊢
      obtain ⟨htypes, hnames⟩ := p.lists_entry hp hb (.inl rfl) _ hopen
      rw [after?, if_pos rfl, Option.map_some, Option.getD_some] at htypes hnames
      rw [htypes, hnames, List.map_cons, namesOf_cons]
      exact ⟨congrArg _ hrestTypes, congrArg _ hrestNames⟩

/-- A kept list is not empty if there are parameters. -/
theorem laidKept_ne_empty (p : LaidParameter E) (ps : List (LaidParameter E))
    (ho : Orderly (words p.type)) : laidKept (p :: ps) ≠ "()" := by
  intro hempty
  have hclose : separated ((p :: ps).map LaidParameter.kept) ++ [')'] = [')'] :=
    (List.cons.inj (String.ofList_injective hempty)).2
  have hnil := List.append_left_eq_self.mp hclose
  have hne := (p.spelled.kept ho).ne_nil
  cases ps <;>
    simp [separated, List.intercalate_cons_cons, LaidParameter.kept, p.written_eq ho,
      writtenType, hne] at hnil

/-- **The signature** of a list that is laid out consists of the types in their written form. -/
theorem typesOnly_laid (p : LaidParameter E) (ps : List (LaidParameter E))
    (ho : OrderlyTypes (p :: ps)) :
    typesOnly (laidKept (p :: ps)) = String.ofList
      ('(' :: ' ' :: (separated ((p :: ps).map LaidParameter.written) ++ " )".toList)) := by
  have htypes := (lists_kept p ps ho (b := []) rfl).1
  apply typesOnly_of_types (laidKept_ne_empty p ps (ho p List.mem_cons_self))
  rw [laidKept, String.toList_ofList, List.drop_succ_cons, List.drop_zero]
  exact htypes

/-- **The names** of a list that is laid out are the written ones. -/
theorem parameterNames_laid (ps : List (LaidParameter E)) (ho : OrderlyTypes ps) :
    parameterNames (laidKept ps) = (namesOf ps).map String.ofList := by
  cases ps with
  | nil => rfl
  | cons p ps =>
      have hnames := (lists_kept p ps ho (b := []) rfl).2
      rw [parameterNames, if_neg (laidKept_ne_empty p ps (ho p List.mem_cons_self)), laidKept,
        String.toList_ofList, List.drop_succ_cons, List.drop_zero]
      exact congrArg _ hnames

end Kept

end CppDoc.Syntax
