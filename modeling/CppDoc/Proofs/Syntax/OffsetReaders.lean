import CppDoc.Proofs.Syntax.OffsetNames
import CppDoc.Proofs.Syntax.Parameters
import CppDoc.Proofs.Syntax.Tidy
import CppDoc.Proofs.Text.Search
import CppDoc.Syntax.ReadAt

/-!
# Readers at offsets

A cursor that stands on a boundary of its text, with the rest of the text behind it, never has to do
with half a character: the readers that look at bytes and cut the text between offsets give what the
readers of characters give, and stop on a boundary again.

* `cut?_eq_some_iff`: what is cut is the text between two boundaries, and nothing else is ever cut;
* `Cursor.Stands`: the standing cursor, and what moving over some of its characters does to it;
* `stepWhile_eq`: moving on byte by byte;
* `readNameAt?_eq`, `readTypeAt?_eq`, `readWordAt?_eq`, `readValueAt?_eq` and `readParametersAt?_eq`: the
  readers.
-/

namespace CppDoc

open CppDoc.Syntax CppDoc.Text

/-! ## Cutting -/

namespace Text

section Cut

variable {s t : List Char} {n start stop : Nat}

theorem dropBytes?_append (before after : List Char) :
    dropBytes? (before ++ after) (byteLength before) = some after := by
  induction before with
  | nil => cases after <;> rfl
  | cons c before ih =>
      have hpos := c.utf8Size_pos
      obtain ⟨k, hk⟩ : ∃ k, c.utf8Size + byteLength before = k + 1 :=
        ⟨c.utf8Size + byteLength before - 1, by omega⟩
      have hrest : k + 1 - c.utf8Size = byteLength before := by omega
      rw [List.cons_append, byteLength, hk, dropBytes?, if_neg (by omega), hrest, ih]

theorem exists_before_of_dropBytes? (h : dropBytes? s n = some t) :
    ∃ before, s = before ++ t ∧ byteLength before = n := by
  fun_induction dropBytes? s n with
  | case1 s => exact ⟨[], (Option.some.inj h), rfl⟩
  | case2 | case3 => cases h
  | case4 c rest n hsize ih =>
      obtain ⟨before, rfl, hbefore⟩ := ih h
      refine ⟨c :: before, rfl, ?_⟩
      rw [byteLength, hbefore]
      omega

theorem exists_after_of_takeBytes? (h : takeBytes? s n = some t) :
    ∃ after, s = t ++ after ∧ byteLength t = n := by
  fun_induction takeBytes? s n generalizing t with
  | case1 s =>
      obtain rfl := Option.some.inj h
      exact ⟨s, rfl, rfl⟩
  | case2 | case3 => cases h
  | case4 c rest n hsize ih =>
      obtain ⟨tail, htail, rfl⟩ := Option.map_eq_some_iff.mp h
      obtain ⟨after, rfl, hlength⟩ := ih htail
      refine ⟨after, rfl, ?_⟩
      rw [byteLength, hlength]
      omega

/-- **Cuts.**  A text is cut at two boundaries, and what is cut out is the text between them. -/
theorem cut?_eq_some_iff :
    cut? s start stop = some t ↔
      ∃ before after, s = before ++ (t ++ after) ∧ byteLength before = start ∧
        start + byteLength t = stop := by
  constructor
  · intro h
    unfold cut? at h
    split at h
    · rename_i hle
      obtain ⟨rest, hdrop, htake⟩ := Option.bind_eq_some_iff.mp h
      obtain ⟨before, rfl, hbefore⟩ := exists_before_of_dropBytes? hdrop
      obtain ⟨after, rfl, hlength⟩ := exists_after_of_takeBytes? htake
      exact ⟨before, after, rfl, hbefore, by omega⟩
    · cases h
  · rintro ⟨before, after, rfl, rfl, rfl⟩
    rw [cut?, if_pos (Nat.le_add_right _ _), dropBytes?_append, Nat.add_sub_cancel_left]
    exact takeBytes?_append t after

/-- A slice between two boundaries is the text between them: nothing is left out. -/
theorem slice_of_cut? (h : cut? s start stop = some t) : slice s start stop = t := by
  obtain ⟨before, after, rfl, rfl, rfl⟩ := cut?_eq_some_iff.mp h
  have hlength : min (byteLength before + byteLength t) (byteLength (before ++ (t ++ after))) -
      byteLength before = byteLength t := by
    rw [byteLength_append, byteLength_append]
    omega
  rw [slice, hlength, fromOffset_append, takeBytes?_append, Option.getD_some]

/-- Between an offset and the one behind some characters that stand there. -/
theorem cut?_offsetBehind (before after : List Char) (m n : Nat) :
    cut? (before ++ after) (byteLength before + byteLength (after.take m))
      (byteLength before + byteLength (after.take (m + n))) = some ((after.drop m).take n) := by
  refine cut?_eq_some_iff.mpr ⟨before ++ after.take m, (after.drop m).drop n, ?_, ?_, ?_⟩
  · rw [List.take_append_drop, List.append_assoc, List.take_append_drop]
  · exact byteLength_append _ _
  · rw [List.take_add, byteLength_append]
    omega

end Cut

end Text

/-! ## Classes of characters, and runs of them -/

namespace Syntax

theorem ascii_of_isNameChar {p : Char → Bool} (hp : ∀ x, p x = true → isNameChar x = true) : Ascii p :=
  fun x hx => ascii_isNameChar x (hp x hx)

theorem ascii_isAlphanum : Ascii Char.isAlphanum :=
  ascii_of_isNameChar fun _ => isNameChar_of_isAlphanum

theorem ascii_isAlpha : Ascii Char.isAlpha :=
  fun x hx => ascii_isAlphanum x (by simp [Char.isAlphanum, hx])

theorem ascii_isUpper : Ascii Char.isUpper :=
  fun x hx => ascii_isAlphanum x (isAlphanum_of_isUpper hx)

theorem ascii_isDigit : Ascii Char.isDigit := by
  intro x hx
  unfold Char.isDigit at hx
  simp only [Bool.and_eq_true, decide_eq_true_eq, UInt32.le_iff_toNat_le] at hx
  exact Nat.lt_of_le_of_lt hx.2 (by decide)

theorem ascii_isBlank : Ascii isBlank := by
  intro x hx
  have := isBlank_iff.mp hx
  omega

theorem ascii_endsDefault : Ascii endsDefault := by
  intro x hx
  simp only [endsDefault, Bool.or_eq_true, beq_iff_eq] at hx
  rcases hx with rfl | rfl <;> decide

section Runs

variable {p : Char → Bool}

theorem take_length_takeWhile (p : Char → Bool) (s : List Char) :
    s.take (s.takeWhile p).length = s.takeWhile p :=
  (List.prefix_iff_eq_take.mp (List.takeWhile_prefix p)).symm

theorem runEnd_append (hp : Ascii p) (before after : List Char) :
    runEnd p (before ++ after) (byteLength before) = byteLength (before ++ after.takeWhile p) := by
  rw [runEnd_eq hp, fromOffset_append, offsetBehind, fromOffset_append, take_length_takeWhile,
    byteLength_append]

theorem cut?_takeWhile (p : Char → Bool) (before after : List Char) :
    cut? (before ++ after) (byteLength before) (byteLength (before ++ after.takeWhile p)) =
      some (after.takeWhile p) := by
  refine cut?_eq_some_iff.mpr ⟨before, after.dropWhile p, ?_, rfl, (byteLength_append _ _).symm⟩
  rw [List.takeWhile_append_dropWhile]

/-- A run ends before a byte of another class. -/
theorem letterAt?_behind_run (hp : Ascii p) (before after : List Char) :
    ¬ (letterAt? (before ++ after) (byteLength (before ++ after.takeWhile p))).any p = true := by
  have hsplit : before ++ after = (before ++ after.takeWhile p) ++ after.dropWhile p := by
    rw [List.append_assoc, List.takeWhile_append_dropWhile]
  rw [letterAt?_any hp, hsplit, fromOffset_append]
  have hhead := List.head?_dropWhile_not p after
  cases hrest : after.dropWhile p with
  | nil => exact Bool.false_ne_true
  | cons x rest => simpa [hrest] using hhead

end Runs

/-- The names behind hyphens. -/
theorem marks_hyphenated (text : List Char) (offset : Nat) :
    Marks hyphenatedAt hyphenated text offset := by
  unfold Marks
  fun_induction hyphenatedAt text offset with
  | case1 offset hhyphen stop hmore ih =>
      rw [letterAt?_eq_some_iff (by decide)] at hhyphen
      obtain ⟨rest, hrest⟩ := List.head?_eq_some_iff.mp hhyphen
      have hsucc := succ_eq_offsetBehind (by decide) hhyphen
      have hstop : stop = offsetBehind text offset (1 + simpleName rest) := by
        have hname : stop = _ := marks_simpleName text (offset + 1)
        rw [hname, hsucc, fromOffset_offsetBehind, offsetBehind_offsetBehind, hrest]
        rfl
      have hne : simpleName rest ≠ 0 := by
        intro hzero
        rw [hstop, hzero, hsucc] at hmore
        exact Nat.lt_irrefl _ hmore
      rw [ih, hstop, fromOffset_offsetBehind, offsetBehind_offsetBehind, hrest, hyphenated,
        if_neg hne, Nat.add_comm 1 (simpleName rest), List.drop_succ_cons]
  | case2 offset hhyphen stop hstay =>
      rw [letterAt?_eq_some_iff (by decide)] at hhyphen
      obtain ⟨rest, hrest⟩ := List.head?_eq_some_iff.mp hhyphen
      have hsucc := succ_eq_offsetBehind (by decide) hhyphen
      have hzero : simpleName rest = 0 := by
        have hname : stop = _ := marks_simpleName text (offset + 1)
        rw [hname, hsucc] at hstay
        have hmoves := offsetBehind_moves_iff (f := simpleName) (by with_unfolding_all rfl) text offset 1
        rw [← offsetBehind_offsetBehind, ← fromOffset_offsetBehind] at hmoves
        by_contra hne
        refine hstay (hmoves.mpr ?_)
        rwa [fromOffset_offsetBehind, hrest]
      rw [hrest, hyphenated, if_pos hzero, offsetBehind_zero]
  | case3 offset hhyphen =>
      rw [letterAt?_eq_some_iff (by decide)] at hhyphen
      have hzero : hyphenated (fromOffset text offset) = 0 := by
        unfold hyphenated
        split
        · rename_i hrest
          rw [hrest] at hhyphen
          exact absurd rfl hhyphen
        · rfl
      rw [hzero, offsetBehind_zero]

end Syntax

/-! ## Standing cursors -/

namespace Cursor

/-- The cursor stands on a boundary of its text, and what is left of the text follows it. -/
def Stands (c : Cursor) : Prop :=
  ∃ before, c.text = before ++ c.rest ∧ c.pos = byteLength before

theorem stands_ofText (s : List Char) : (ofText s).Stands :=
  ⟨[], rfl, rfl⟩

@[simp]
theorem rest_skip (c : Cursor) (n : Nat) : (c.skip n).rest = c.rest.drop n := rfl

@[simp]
theorem skip_zero (c : Cursor) : c.skip 0 = c := rfl

@[simp]
theorem skip_skip (c : Cursor) (m n : Nat) : (c.skip m).skip n = c.skip (m + n) := by
  simp only [skip, List.take_add, List.drop_drop, byteLength_append, Nat.add_assoc]

theorem step_eq {c : Cursor} (h : c.rest ≠ []) : c.step = c.skip 1 := by
  rw [step, if_neg (by simpa using h)]

section Stands

variable {c : Cursor} (h : c.Stands)

include h

theorem Stands.fromOffset_eq : fromOffset c.text c.pos = c.rest := by
  obtain ⟨before, htext, hpos⟩ := h
  rw [htext, hpos, fromOffset_append]

theorem Stands.dropBytes?_eq : dropBytes? c.text c.pos = some c.rest := by
  obtain ⟨before, htext, hpos⟩ := h
  rw [htext, hpos, dropBytes?_append]

theorem Stands.pos_add : c.pos + byteLength c.rest = byteLength c.text := by
  obtain ⟨before, htext, hpos⟩ := h
  rw [htext, hpos, byteLength_append]

/-- The cursor is at the end if nothing is left of the text. -/
theorem Stands.atEnd_eq : c.atEnd = c.rest.isEmpty := by
  have hpos := h.pos_add
  rw [atEnd]
  cases hrest : c.rest with
  | nil =>
      rw [hrest] at hpos
      simpa [byteLength] using hpos.ge
  | cons x rest => rfl

theorem Stands.skip (n : Nat) : (c.skip n).Stands := by
  obtain ⟨before, htext, hpos⟩ := h
  refine ⟨before ++ c.rest.take n, ?_, ?_⟩
  · rw [List.append_assoc]
    simp only [Cursor.skip, List.take_append_drop, htext]
  · rw [byteLength_append, ← hpos]
    rfl

theorem Stands.offsetBehind_eq (n : Nat) : offsetBehind c.text c.pos n = (c.skip n).pos := by
  rw [offsetBehind, h.fromOffset_eq]
  rfl

/-- The cursor is put behind some of the characters that follow it. -/
theorem Stands.jumpTo_eq (n : Nat) : c.jumpTo (offsetBehind c.text c.pos n) = c.skip n := by
  rw [jumpTo, fromOffset_offsetBehind, h.fromOffset_eq, h.offsetBehind_eq]
  rfl

theorem Stands.pos_skip_le (n : Nat) : (c.skip n).pos ≤ byteLength c.text := by
  have hpos := (h.skip n).pos_add
  have htext : (c.skip n).text = c.text := rfl
  rw [htext] at hpos
  omega

theorem Stands.moveTo_eq (n : Nat) : c.moveTo (offsetBehind c.text c.pos n) = c.skip n := by
  have hmin : min (offsetBehind c.text c.pos n) (byteLength c.text) = offsetBehind c.text c.pos n := by
    rw [h.offsetBehind_eq]
    exact Nat.min_eq_left (h.pos_skip_le n)
  rw [← h.jumpTo_eq, moveTo, hmin]
  rfl

theorem Stands.cut?_eq (m n : Nat) :
    cut? c.text (offsetBehind c.text c.pos m) (offsetBehind c.text c.pos (m + n)) =
      some ((c.rest.drop m).take n) := by
  rw [h.offsetBehind_eq, h.offsetBehind_eq]
  obtain ⟨before, htext, hpos⟩ := h
  simp only [Cursor.skip, hpos]
  rw [htext]
  exact cut?_offsetBehind before c.rest m n

theorem Stands.cut?_behind (n : Nat) :
    cut? c.text c.pos (offsetBehind c.text c.pos n) = some (c.rest.take n) := by
  have hcut := h.cut?_eq 0 n
  rwa [offsetBehind_zero, Nat.zero_add, List.drop_zero] at hcut

theorem Stands.takeTo?_eq (n : Nat) :
    c.takeTo? (offsetBehind c.text c.pos n) = some (c.rest.take n, c.skip n) := by
  rw [takeTo?, h.cut?_behind, h.moveTo_eq]
  rfl

theorem Stands.skipGapAt_eq : c.skipGapAt = c.skipGap := by
  rw [skipGapAt, gapAt_eq, h.fromOffset_eq, h.jumpTo_eq]
  rfl

theorem Stands.toEnd_eq : c.toEnd = c.skip c.rest.length := by
  have hpos := h.pos_add
  simp only [toEnd, Cursor.skip, List.take_length, List.drop_length, hpos]

/-- **Searching.**  The text up to what is looked for is cut out whole, and behind it the cursor stands
again. -/
theorem Stands.cutAt?_eq (pat : String) : c.cutAt? pat = some (c.cutAt pat) := by
  rw [Cursor.cutAt?, h.dropBytes?_eq, Option.bind_some, cutAt]
  cases hfind : find? pat.toList c.rest with
  | none =>
      have hend : byteLength c.text = offsetBehind c.text c.pos c.rest.length := by
        rw [h.offsetBehind_eq, ← h.toEnd_eq]
        rfl
      dsimp only
      rw [hend, h.cut?_behind, List.take_length]
      rfl
  | some n =>
      have hn : c.pos + byteLength (c.rest.take n) = offsetBehind c.text c.pos n := by
        rw [h.offsetBehind_eq]
        rfl
      have hpat : (c.rest.drop n).take pat.toList.length = pat.toList := by
        rw [drop_of_find? hfind, List.take_left]
      have hbehind : c.pos + byteLength (c.rest.take n) + byteLength pat.toList =
          offsetBehind c.text c.pos (n + pat.toList.length) := by
        rw [h.offsetBehind_eq, Cursor.skip, List.take_add, hpat, byteLength_append, Nat.add_assoc]
      dsimp only
      rw [hbehind, h.moveTo_eq, hn, h.cut?_behind]
      rfl

/-! ## Bytes under a standing cursor -/

theorem Stands.letterAt?_any {p : Char → Bool} (hp : Ascii p) :
    (letterAt? c.text c.pos).any p = c.rest.head?.any p := by
  rw [Syntax.letterAt?_any hp, h.fromOffset_eq]

theorem Stands.letterAt?_eq_some_iff {x : Char} (hx : x.toNat < 128) :
    letterAt? c.text c.pos = some x ↔ c.rest.head? = some x := by
  rw [Syntax.letterAt?_eq_some_iff hx, h.fromOffset_eq]

/-- On a boundary, a byte that is no character of the class begins a character that is none, either. -/
theorem Stands.letterAt?_any_not {p : Char → Bool} (hp : Ascii p) :
    (letterAt? c.text c.pos).any (!p ·) = c.rest.head?.any (!p ·) := by
  have hany := h.letterAt?_any hp
  obtain ⟨before, htext, hpos⟩ := h
  have hletter : letterAt? c.text c.pos = letterAt? c.rest 0 := by
    rw [htext, hpos, ← letterAt?_append before c.rest 0]
    rfl
  rw [hletter] at hany ⊢
  cases hrest : c.rest with
  | nil => rfl
  | cons x rest =>
      obtain ⟨b, -, hb⟩ := letterAt?_cons rest x.utf8Size_pos
      rw [hrest, hb] at hany
      rw [hb]
      simpa using hany

end Stands

/-- Moving over one byte after another moves over the characters of the class, if the bytes tell which
characters those are. -/
theorem stepWhile_eq {p : Char → Bool}
    (hp : ∀ c : Cursor, c.Stands → (letterAt? c.text c.pos).any p = c.rest.head?.any p) {c : Cursor}
    (h : c.Stands) : c.stepWhile p = c.skip (c.rest.takeWhile p).length := by
  fun_induction stepWhile p c with
  | case1 c hletter ih =>
      rw [hp c h] at hletter
      obtain ⟨x, hhead, hx⟩ := (Option.any_eq_true _ _).mp hletter
      obtain ⟨rest, hrest⟩ := List.head?_eq_some_iff.mp hhead
      have hstep : c.step = c.skip 1 := step_eq (by simp [hrest])
      have hbehind : (c.skip 1).rest = rest := by
        rw [rest_skip, hrest, List.drop_one, List.tail_cons]
      rw [hstep] at ih ⊢
      rw [ih (h.skip 1), hbehind, skip_skip, hrest, List.takeWhile_cons_of_pos hx, List.length_cons,
        Nat.add_comm]
  | case2 c hletter =>
      rw [hp c h] at hletter
      have hnone : c.rest.takeWhile p = [] := by
        cases hrest : c.rest with
        | nil => rfl
        | cons x rest => exact List.takeWhile_cons_of_neg (by simpa [hrest] using hletter)
      rw [hnone]
      rfl

theorem stepWhile_ascii {p : Char → Bool} (hp : Ascii p) {c : Cursor} (h : c.Stands) :
    c.stepWhile p = c.skip (c.rest.takeWhile p).length :=
  stepWhile_eq (fun _ hc => hc.letterAt?_any hp) h

theorem stepWhile_not {p : Char → Bool} (hp : Ascii p) {c : Cursor} (h : c.Stands) :
    c.stepWhile (!p ·) = c.skip (c.rest.takeWhile (!p ·)).length :=
  stepWhile_eq (fun _ hc => hc.letterAt?_any_not hp) h

/-! ## Names, types, words and values -/

section Readers

variable {c : Cursor} (h : c.Stands)

include h

theorem readNameAt?_eq : c.readNameAt? = some (c.read readName) := by
  have hname : qualifiedNameAt c.text c.pos = _ := (marks_names c.text c.pos).1
  rw [readNameAt?, hname, h.fromOffset_eq, h.takeTo?_eq]
  rfl

theorem readTypeAt?_eq :
    c.readTypeAt? =
      some (cleanType (c.rest.take (typeLength c.rest)), c.skip (typeLength c.rest)) := by
  have htype : typeAt c.text c.pos = _ := (marks_names c.text c.pos).2
  rw [readTypeAt?, htype, h.fromOffset_eq, h.takeTo?_eq]
  rfl

theorem readWordAt?_eq : c.readWordAt? = some (c.read readWord) := by
  have hname : simpleNameAt c.text c.pos = _ := marks_simpleName c.text c.pos
  have hmore : hyphenatedAt c.text (offsetBehind c.text c.pos (simpleName c.rest)) = _ :=
    (marks_hyphenated c.text _).behind
  rw [readWordAt?, hname, h.fromOffset_eq, hmore, h.fromOffset_eq, h.cut?_behind, Option.map_some,
    h.moveTo_eq]
  simp only [read, readWord]
  split
  · rfl
  · rfl

/-- The offset behind the digits behind an optional minus sign. -/
theorem digitsAt_eq (n : Nat) :
    let start := offsetBehind c.text c.pos n
    let sign := if (c.rest.drop n).head? == some '-' then 1 else 0
    runEnd Char.isDigit c.text (if letterAt? c.text start = some '-' then start + 1 else start) =
      offsetBehind c.text c.pos
        (n + (sign + (((c.rest.drop n).drop sign).takeWhile Char.isDigit).length)) := by
  intro start sign
  have hsign : (if letterAt? c.text start = some '-' then start + 1 else start) =
      offsetBehind c.text c.pos (n + sign) := by
    have hletter : letterAt? c.text start = some '-' ↔ (c.rest.drop n).head? = some '-' := by
      rw [letterAt?_offsetBehind (by decide), h.fromOffset_eq]
    by_cases hminus : (c.rest.drop n).head? = some '-'
    · have hone : sign = 1 := if_pos (beq_iff_eq.mpr hminus)
      rw [if_pos (hletter.mpr hminus), hone]
      exact offsetBehind_succ (c := '-') (by decide) (by rwa [h.fromOffset_eq])
    · have hnone : sign = 0 := if_neg (by simpa using hminus)
      rw [if_neg (mt hletter.mp hminus), hnone]
      rfl
  rw [hsign, runEnd_eq ascii_isDigit, fromOffset_offsetBehind, offsetBehind_offsetBehind,
    h.fromOffset_eq, List.drop_drop, Nat.add_assoc]

theorem readValueAt?_eq : c.readValueAt? = some (c.read readValue) := by
  have hnumber : Ascii fun b => b == '-' || b.isDigit := by
    intro x hx
    rcases Bool.or_eq_true_iff.mp hx with hx | hx
    · obtain rfl := beq_iff_eq.mp hx
      decide
    · exact ascii_isDigit x hx
  have hdigits := digitsAt_eq h (gap c.rest)
  have hcut := h.cut?_eq (gap c.rest)
  have hany : (letterAt? c.text (offsetBehind c.text c.pos (gap c.rest))).any
      (fun b => b == '-' || b.isDigit) =
        (c.rest.drop (gap c.rest)).head?.any fun b => b == '-' || b.isDigit := by
    rw [Syntax.letterAt?_any hnumber, fromOffset_offsetBehind, h.fromOffset_eq]
  rw [readValueAt?, gapAt_eq, h.fromOffset_eq]
  dsimp only at hdigits ⊢
  rw [hdigits, hany, hcut, h.moveTo_eq, readNameAt?_eq h]
  simp only [read, readValue]
  generalize gap c.rest = n
  cases hvalue : c.rest.drop n with
  | nil => rfl
  | cons x rest =>
      rw [List.head?_cons, Option.any_some]
      by_cases hminus : x = '-'
      · subst hminus
        rw [if_pos (by decide), if_pos (by decide), if_neg (by omega)]
        rfl
      · have hsign : (some x == some '-') = false := by simpa using hminus
        rw [hsign, if_neg Bool.false_ne_true, List.drop_zero, Nat.zero_add]
        by_cases hdigit : x.isDigit
        · rw [List.takeWhile_cons_of_pos hdigit, if_pos (by simp [hdigit]), List.length_cons,
            if_neg (Nat.succ_ne_zero _)]
          rfl
        · rw [List.takeWhile_cons_of_neg hdigit, if_neg (by simpa [hminus] using hdigit),
            List.length_nil, if_pos rfl]

end Readers

/-! ## Parameter lists -/

/-- What stands behind a parameter is read from there on. -/
theorem readParameterEnd_eq (s text : List Char) (n : Nat) :
    readParameterEnd s text n =
      (text ++ (readParameterEnd (s.drop n) [] 0).1, n + (readParameterEnd (s.drop n) [] 0).2) := by
  unfold readParameterEnd
  rw [List.drop_zero]
  split
  · simp only [List.append_nil, Nat.zero_add]
  · simp only [List.nil_append, Nat.zero_add]
  · simp only [List.append_nil, Nat.add_zero]

/-- A parameter that takes up characters has a text, and no other has one. -/
theorem readParameter_eq_nil_iff {s : List Char} :
    (readParameter s).1 = [] ↔ (readParameter s).2 = 0 := by
  rw [readParameter_eq]
  dsimp only
  by_cases hzero : typeLength s = 0
  · rw [if_pos hzero]
    exact ⟨fun _ => rfl, fun _ => rfl⟩
  · have hne := (tidy_cleanType _).2 (words_typeLength hzero)
    have hlength := le_readParameterName s (cleanType (s.take (typeLength s)))
      (typeLength s + gap (s.drop (typeLength s)))
    rw [if_neg hzero]
    refine ⟨fun hnil => absurd ?_ hne, fun hnone => by omega⟩
    rw [readParameterName, readParameterEnd_eq, List.append_assoc] at hnil
    exact (List.append_eq_nil_iff.mp hnil).1

section Lists

variable {c : Cursor} (h : c.Stands)

include h

theorem Stands.skipGapAt_skip (n : Nat) :
    (c.skip n).skipGapAt = c.skip (n + gap (c.rest.drop n)) := by
  rw [(h.skip n).skipGapAt_eq, skipGap, skip_skip]
  rfl

theorem readParameterEndAt_eq :
    c.readParameterEndAt =
      ((readParameterEnd c.rest [] 0).1, c.skip (readParameterEnd c.rest [] 0).2) := by
  unfold readParameterEndAt readParameterEnd
  rw [List.drop_zero]
  by_cases hvalue : c.rest.head? = some '='
  · obtain ⟨value, hrest⟩ := List.head?_eq_some_iff.mp hvalue
    have hdefault : c.rest.takeWhile (!endsDefault ·) = '=' :: value.takeWhile (!endsDefault ·) := by
      rw [hrest]
      exact List.takeWhile_cons_of_pos (by decide)
    rw [if_pos ((h.letterAt?_eq_some_iff (by decide)).mpr hvalue),
      stepWhile_not ascii_endsDefault h, h.skipGapAt_skip, hdefault, hrest]
    simp only [List.length_cons, List.drop_succ_cons, Nat.zero_add]
  · rw [if_neg (mt (h.letterAt?_eq_some_iff (by decide)).mp hvalue)]
    by_cases hbrackets : "[]".toList <+: c.rest
    · have hbegins : beginsAt c.text c.pos "[]".toList = true := by
        rwa [beginsAt_iff (by decide), h.fromOffset_eq]
      have htwo : c.pos + 2 = offsetBehind c.text c.pos 2 :=
        add_length_eq_offsetBehind (w := "[]".toList) (by decide) (by rwa [h.fromOffset_eq])
      obtain ⟨rest, hrest⟩ := hbrackets
      have hdrop : c.rest.drop 2 = rest := by
        rw [← hrest]
        rfl
      rw [if_pos hbegins, htwo, h.moveTo_eq, h.skipGapAt_skip, hdrop, ← hrest]
      simp only [String.reduceToList, List.cons_append, List.nil_append, Nat.zero_add, Nat.add_comm]
    · have hbegins : ¬ beginsAt c.text c.pos "[]".toList = true := by
        rwa [beginsAt_iff (by decide), h.fromOffset_eq]
      rw [if_neg hbegins]
      split
      · rename_i hrest
        exact absurd (congrArg List.head? hrest) hvalue
      · rename_i rest hrest
        exact absurd ⟨rest, hrest.symm⟩ hbrackets
      · rfl

theorem readParameterNameAt?_eq :
    c.readParameterNameAt? =
      some (if simpleName c.rest = 0 then [] else ' ' :: simplify (c.rest.take (simpleName c.rest)),
        c.skip (simpleName c.rest)) := by
  have hname : simpleNameAt c.text c.pos = _ := marks_simpleName c.text c.pos
  have hmoves := offsetBehind_moves_iff (f := simpleName) (by with_unfolding_all rfl) c.text c.pos 0
  rw [offsetBehind_zero, Nat.zero_add, List.drop_zero, h.fromOffset_eq] at hmoves
  rw [readParameterNameAt?, hname, h.fromOffset_eq]
  dsimp only
  by_cases hzero : simpleName c.rest = 0
  · rw [if_neg (mt hmoves.mp (not_not.mpr hzero)), if_pos hzero, hzero, skip_zero]
  · rw [if_pos (hmoves.mpr hzero), if_neg hzero, h.takeTo?_eq]
    rfl

theorem readParameterAt?_eq :
    c.readParameterAt? = some ((readParameter c.rest).1, c.skip (readParameter c.rest).2) := by
  have hname (n : Nat) := readParameterNameAt?_eq (h.skip n)
  have hend (n : Nat) := readParameterEndAt_eq (h.skip n)
  rw [readParameterAt?, readTypeAt?_eq h, Option.bind_some, readParameter_eq]
  dsimp only
  by_cases hzero : typeLength c.rest = 0
  · have hempty : (cleanType (c.rest.take 0)).isEmpty = true := by
      rw [List.take_zero]
      decide
    rw [hzero, if_pos hempty, if_pos rfl]
  · have hne : ¬ (cleanType (c.rest.take (typeLength c.rest))).isEmpty = true := by
      rw [List.isEmpty_iff]
      exact (tidy_cleanType _).2 (words_typeLength hzero)
    rw [if_neg hne, if_neg hzero, h.skipGapAt_skip, hname, Option.map_some, skip_skip, h.skipGapAt_skip,
      hend, skip_skip, readParameterName, readParameterEnd_eq c.rest]
    rfl

/-- What is behind the parameter. -/
theorem eq_of_readParameterAt? {parameter : List Char} {next : Cursor}
    (hread : c.readParameterAt? = some (parameter, next)) :
    parameter = (readParameter c.rest).1 ∧ next = c.skip (readParameter c.rest).2 := by
  rw [readParameterAt?_eq h] at hread
  obtain ⟨rfl, rfl⟩ := Prod.mk.inj (Option.some.inj hread)
  exact ⟨rfl, rfl⟩

/-- On a given character of one byte. -/
theorem Stands.step_of_letter {x : Char} (hx : x.toNat < 128)
    (hletter : letterAt? c.text c.pos = some x) : c.rest.head? = some x ∧ c.step = c.skip 1 := by
  have hhead := (h.letterAt?_eq_some_iff hx).mp hletter
  refine ⟨hhead, step_eq fun hnil => ?_⟩
  rw [hnil] at hhead
  cases hhead

theorem readParameterTailAt?_eq :
    c.readParameterTailAt? =
      some ((readParameterTail c.rest).1, c.skip (readParameterTail c.rest).2) := by
  fun_induction readParameterTailAt? c with
  | case1 c hnone =>
      rw [readParameterAt?_eq h] at hnone
      cases hnone
  | case2 c parameter next hread hempty =>
      obtain ⟨rfl, rfl⟩ := eq_of_readParameterAt? h hread
      have hzero := readParameter_eq_nil_iff.mp (List.isEmpty_iff.mp hempty)
      rw [readParameterTail_eq]
      dsimp only
      rw [if_pos hzero, hzero]
  | case3 c parameter next hread hne hcomma ih =>
      obtain ⟨rfl, rfl⟩ := eq_of_readParameterAt? h hread
      have hzero := mt readParameter_eq_nil_iff.mpr (mt List.isEmpty_iff.mpr hne)
      obtain ⟨hhead, hstep⟩ := (h.skip _).step_of_letter (by decide) hcomma
      rw [hstep] at ih ⊢
      rw [ih ((h.skip _).skip 1), Option.map_some, readParameterTail_eq c.rest]
      rw [rest_skip] at hhead
      dsimp only
      rw [if_neg hzero, if_pos hhead, skip_skip, skip_skip, rest_skip, ← List.drop_drop, List.drop_one]
  | case4 c parameter next hread hne hcomma hclose =>
      obtain ⟨rfl, rfl⟩ := eq_of_readParameterAt? h hread
      have hzero := mt readParameter_eq_nil_iff.mpr (mt List.isEmpty_iff.mpr hne)
      obtain ⟨hhead, hstep⟩ := (h.skip _).step_of_letter (by decide) hclose
      have hcomma := mt ((h.skip _).letterAt?_eq_some_iff (by decide)).mpr hcomma
      rw [rest_skip] at hhead hcomma
      rw [hstep, skip_skip, readParameterTail_eq]
      dsimp only
      rw [if_neg hzero, if_neg hcomma, if_pos hhead]
  | case5 c parameter next hread hne hcomma hclose =>
      obtain ⟨rfl, rfl⟩ := eq_of_readParameterAt? h hread
      have hzero := mt readParameter_eq_nil_iff.mpr (mt List.isEmpty_iff.mpr hne)
      have hcomma := mt ((h.skip _).letterAt?_eq_some_iff (by decide)).mpr hcomma
      have hclose := mt ((h.skip _).letterAt?_eq_some_iff (by decide)).mpr hclose
      rw [rest_skip] at hcomma hclose
      rw [readParameterTail_eq]
      dsimp only
      rw [if_neg hzero, if_neg hcomma, if_neg hclose]

theorem readParametersAt?_eq : c.readParametersAt? = some (c.read readParameters) := by
  rw [readParametersAt?, gapAt_eq, h.fromOffset_eq]
  dsimp only
  by_cases hopen : (c.rest.drop (gap c.rest)).head? = some '('
  · have hletter : letterAt? c.text (offsetBehind c.text c.pos (gap c.rest)) = some '(' := by
      rwa [letterAt?_offsetBehind (by decide), h.fromOffset_eq]
    obtain ⟨rest, hrest⟩ := List.head?_eq_some_iff.mp hopen
    have hbehind : c.rest.drop (gap c.rest + 1) = rest := by
      rw [← List.drop_drop, hrest]
      rfl
    have hgap : gapAt c.text (offsetBehind c.text c.pos (gap c.rest) + 1) =
        offsetBehind c.text c.pos (gap c.rest + 1 + gap rest) := by
      rw [offsetBehind_succ (c := '(') (by decide) (by rwa [h.fromOffset_eq]), gapAt_behind,
        h.fromOffset_eq, hbehind]
    have hinner := h.skip (gap c.rest + 1 + gap rest)
    have hleft : (c.skip (gap c.rest + 1 + gap rest)).rest = rest.drop (gap rest) := by
      rw [rest_skip, ← List.drop_drop, hbehind]
    rw [if_pos hletter, hgap, h.moveTo_eq, read, readParameters_of_open hrest, readParameters_eq rfl]
    by_cases hclose : (rest.drop (gap rest)).head? = some ')'
    · have hhead := (hinner.letterAt?_eq_some_iff (by decide)).mpr (hleft.symm ▸ hclose)
      obtain ⟨-, hstep⟩ := hinner.step_of_letter (by decide) hhead
      rw [if_pos hhead, if_pos hclose, hstep, skip_skip]
      congr 3
      dsimp only
      omega
    · have hhead := mt (hinner.letterAt?_eq_some_iff (by decide)).mp (hleft.symm ▸ hclose)
      rw [if_neg hhead, if_neg hclose, readParameterTailAt?_eq hinner, hleft, Option.map_some, skip_skip,
        Nat.add_assoc (gap c.rest), Nat.add_assoc (gap c.rest)]
  · have hletter : ¬ letterAt? c.text (offsetBehind c.text c.pos (gap c.rest)) = some '(' := by
      rwa [letterAt?_offsetBehind (by decide), h.fromOffset_eq]
    rw [if_neg hletter, read, readParameters_of_not_open hopen]
    rfl

end Lists

end Cursor

end CppDoc
