import CppDoc.Cursor
import CppDoc.Syntax.Name

/-!
# Scanning at an offset

The scanners of names and types as functions on byte offsets, byte by byte.  Each gives the offset
behind what it recognises, or the offset it was given if there is nothing.  An offset may be any number:
also one past the end of the text, or one in the middle of a character.

* `gapAt` moves over blanks and comments, and `runEnd` over the bytes of one class;
* `simpleNameAt`, `qualifiedNameAt`, `operatorNameAt` and `typeAt` are the scanners.

The scanners refer to each other in a circle.  They never go back, and the answers carry that with them,
so that every turn of the circle comes closer to the end of the text; past the end, where offsets still
grow but nothing is left to come closer to, each scanner starts only scanners of a lower rank.
-/

namespace CppDoc.Syntax

open CppDoc.Text

/-! ## Bytes and runs of bytes -/

/-- The byte at an offset as a character by itself.  A byte of a character of several bytes is none that
any scanner looks for. -/
def letterAt? (text : List Char) (offset : Nat) : Option Char :=
  (byteAt? text offset).map Char.ofUInt8

theorem lt_byteLength_of_byteAt? {text : List Char} {offset : Nat} {b : UInt8}
    (h : byteAt? text offset = some b) : offset < byteLength text := by
  induction text generalizing offset with
  | nil => exact nomatch h
  | cons c rest ih =>
      rw [byteLength]
      rw [byteAt?] at h
      split at h
      · omega
      · have := ih h
        omega

theorem lt_byteLength_of_letterAt? {text : List Char} {offset : Nat} {p : Char → Bool}
    (h : (letterAt? text offset).any p = true) : offset < byteLength text := by
  cases hb : byteAt? text offset with
  | none => simp [letterAt?, hb] at h
  | some b => exact lt_byteLength_of_byteAt? hb

/-- The first offset from `offset` on where there is no byte of the class `p`. -/
def runEnd (p : Char → Bool) (text : List Char) (offset : Nat) : Nat :=
  if _h : (letterAt? text offset).any p then runEnd p text (offset + 1) else offset
termination_by byteLength text - offset
decreasing_by
  have := lt_byteLength_of_letterAt? _h
  omega

theorem le_runEnd (p : Char → Bool) (text : List Char) (offset : Nat) :
    offset ≤ runEnd p text offset := by
  fun_induction runEnd p text offset with
  | case1 offset _ ih => omega
  | case2 offset _ => exact Nat.le_refl offset

/-- A run that is not empty begins before the end of the text. -/
theorem lt_byteLength_of_lt_runEnd {p : Char → Bool} {text : List Char} {offset : Nat}
    (h : offset < runEnd p text offset) : offset < byteLength text := by
  rw [runEnd] at h
  split at h
  · rename_i hletter
    exact lt_byteLength_of_letterAt? hletter
  · omega

/-- A text that begins at an offset, and is not empty, ends before the end. -/
theorem le_byteLength_of_beginsAt {text pat : List Char} {offset : Nat} (hpat : pat ≠ [])
    (h : beginsAt text offset pat = true) : offset + byteLength pat ≤ byteLength text := by
  have hbegins : pat <+: fromOffset text offset := by
    rw [← List.isPrefixOf_iff_prefix]
    simpa [beginsAt, hpat] using h
  obtain ⟨rest, hrest⟩ := hbegins
  obtain ⟨before, htext, hbefore⟩ : ∃ before, text = before ++ fromOffset text offset ∧
      byteLength before = offset := by
    apply exists_before_of_fromOffset
    rw [← hrest]
    simp [hpat]
  have hlength := congrArg byteLength htext
  rw [← hrest, byteLength_append, byteLength_append] at hlength
  omega

/-! ## Gaps and modifiers -/

/-- The offset behind the blanks at `offset`, and behind the line comment that follows them. -/
def gapStepAt (text : List Char) (offset : Nat) : Nat :=
  let blanks := runEnd isBlank text offset
  if beginsAt text blanks "//".toList then runEnd (· != '\n') text blanks else blanks

theorem le_gapStepAt (text : List Char) (offset : Nat) : offset ≤ gapStepAt text offset := by
  have hblanks := le_runEnd isBlank text offset
  simp only [gapStepAt]
  split
  · exact Nat.le_trans hblanks (le_runEnd _ _ _)
  · exact hblanks

theorem lt_byteLength_of_lt_gapStepAt {text : List Char} {offset : Nat}
    (h : offset < gapStepAt text offset) : offset < byteLength text := by
  have hblanks := le_runEnd isBlank text offset
  simp only [gapStepAt] at h
  split at h
  · rename_i hslashes
    have := le_byteLength_of_beginsAt (by decide) hslashes
    have : byteLength "//".toList = 2 := rfl
    omega
  · exact lt_byteLength_of_lt_runEnd h

/-- The offset behind the blanks and comments at `offset`. -/
def gapAt (text : List Char) (offset : Nat) : Nat :=
  let stop := gapStepAt text offset
  if _h : offset < stop then gapAt text stop else stop
termination_by byteLength text - offset
decreasing_by
  have := lt_byteLength_of_lt_gapStepAt _h
  omega

theorem le_gapAt (text : List Char) (offset : Nat) : offset ≤ gapAt text offset := by
  fun_induction gapAt text offset with
  | case1 offset stop h ih => omega
  | case2 offset stop _ => exact le_gapStepAt text offset

/-- The offset behind the small letters that follow the gap at `offset`. -/
def wordEnd (text : List Char) (offset : Nat) : Nat :=
  runEnd Char.isLower text (gapAt text offset)

/-- Is there nothing but a modifier between two offsets? -/
def isModifierAt (text : List Char) (offset stop : Nat) : Bool :=
  typeModifiers.contains (trim (slice text offset stop))

theorem lt_of_isModifierAt {text : List Char} {offset stop : Nat}
    (h : isModifierAt text offset stop = true) : offset < stop ∧ offset < byteLength text := by
  have hslice (hempty : min stop (byteLength text) - offset = 0) : slice text offset stop = [] := by
    rw [slice, hempty]
    cases fromOffset text offset <;> rfl
  have hne : min stop (byteLength text) - offset ≠ 0 := by
    intro hempty
    rw [isModifierAt, hslice hempty] at h
    revert h
    decide
  omega

/-- The offset behind the type modifiers at `offset`. -/
def modifiersAt (text : List Char) (offset : Nat) : Nat :=
  let stop := wordEnd text offset
  if _h : isModifierAt text offset stop then modifiersAt text stop else offset
termination_by byteLength text - offset
decreasing_by
  have := lt_of_isModifierAt _h
  omega

theorem le_modifiersAt (text : List Char) (offset : Nat) : offset ≤ modifiersAt text offset := by
  fun_induction modifiersAt text offset with
  | case1 offset stop h ih => exact Nat.le_trans (Nat.le_of_lt (lt_of_isModifierAt h).1) ih
  | case2 offset stop _ => exact Nat.le_refl offset

/-! ## Parts of names and types -/

/-- The offset behind the gap at `offset` and a `::` with the gap behind it. -/
def leadingScopeAt (text : List Char) (offset : Nat) : Nat :=
  let k := gapAt text offset
  if beginsAt text k "::".toList then gapAt text (k + 2) else k

theorem le_leadingScopeAt (text : List Char) (offset : Nat) : offset ≤ leadingScopeAt text offset := by
  have hgap := le_gapAt text offset
  simp only [leadingScopeAt]
  split
  · have := le_gapAt text (gapAt text offset + 2)
    omega
  · exact hgap

/-- The offset behind the symbol of an operator name at `offset`. -/
def symbolAt (text : List Char) (offset : Nat) : Nat :=
  if beginsAt text offset "()".toList then offset + 2
  else if (letterAt? text offset).any isOperatorChar then
    if (letterAt? text (offset + 1)).any fun c => c != '(' && isOperatorChar c then offset + 2
    else offset + 1
  else offset

theorem le_symbolAt (text : List Char) (offset : Nat) : offset ≤ symbolAt text offset := by
  unfold symbolAt
  split
  · omega
  · split
    · split <;> omega
    · exact Nat.le_refl offset

/-- The offset behind the `&` or `*` at `offset` and the gap behind it. -/
def indirectionAt (text : List Char) (offset : Nat) : Nat :=
  if (letterAt? text offset).any fun c => c == '&' || c == '*' then gapAt text (offset + 1) else offset

theorem le_indirectionAt (text : List Char) (offset : Nat) : offset ≤ indirectionAt text offset := by
  unfold indirectionAt
  split
  · exact Nat.le_of_succ_le (le_gapAt text (offset + 1))
  · exact Nat.le_refl offset

/-! ## The scanners -/

/-- What a scanner answers: an offset from `offset` on. -/
abbrev From (offset : Nat) : Type :=
  { stop : Nat // offset ≤ stop }

/-- What a scanner at an offset may still come closer to, and its rank: scanners of a higher rank may
start the lower ones at the same offset. -/
def distance (text : List Char) (offset rank : Nat) : Nat :=
  5 * (byteLength text - offset) + rank

theorem distance_lt_of_le {text : List Char} {offset later i j : Nat} (hij : i < j)
    (h : offset ≤ later) : distance text later i < distance text offset j := by
  unfold distance
  omega

theorem distance_lt_of_lt {text : List Char} {offset later i j : Nat} (hi : i < 5)
    (hleft : offset < byteLength text) (h : offset < later) :
    distance text later i < distance text offset j := by
  unfold distance
  omega

mutual

/-- The offset behind the identifier or operator name at `offset`. -/
def simpleNameFrom (text : List Char) (offset : Nat) : From offset :=
  let k := gapAt text offset
  let stop : From k :=
    if _h : beginsAt text k operatorKeyword then operatorNameFrom text k else ⟨k, Nat.le_refl k⟩
  have hk : offset ≤ k := le_gapAt text offset
  if k < stop.1 then ⟨stop.1, Nat.le_trans hk stop.2⟩
  else if (letterAt? text k).any isNameStart then
    ⟨runEnd isNameChar text (k + 1), Nat.le_trans hk (Nat.le_of_succ_le (le_runEnd _ _ _))⟩
  else ⟨offset, Nat.le_refl offset⟩
termination_by distance text offset 0
decreasing_by
  have hk := le_gapAt text offset
  have hkeyword : gapAt text offset + 8 ≤ byteLength text :=
    le_byteLength_of_beginsAt (by decide) _h
  exact distance_lt_of_lt (by decide) (by omega) (by omega)

/-- The offset behind the members that follow a name at `offset`. -/
def scopeChainFrom (text : List Char) (offset : Nat) : From offset :=
  if _h : beginsAt text offset "::".toList then
    let next : From (offset + 2) :=
      if beginsAt text (offset + 2) operatorKeyword then operatorNameFrom text (offset + 2)
      else if letterAt? text (offset + 2) = some '~' then
        let stop := simpleNameFrom text (offset + 3)
        ⟨stop.1, Nat.le_of_succ_le stop.2⟩
      else simpleNameFrom text (offset + 2)
    if _hnext : offset + 2 < next.1 then
      let stop := scopeChainFrom text next.1
      have hnext : offset ≤ next.1 := Nat.le_of_succ_le (Nat.le_of_succ_le (Nat.le_of_lt _hnext))
      ⟨stop.1, Nat.le_trans hnext stop.2⟩
    else ⟨offset, Nat.le_refl offset⟩
  else ⟨offset, Nat.le_refl offset⟩
termination_by distance text offset 1
decreasing_by
  all_goals
    have hscope : offset + 2 ≤ byteLength text := le_byteLength_of_beginsAt (by decide) _h
    have hleft : offset < byteLength text := Nat.lt_of_succ_le (Nat.le_of_succ_le hscope)
  · exact distance_lt_of_lt (by decide) hleft (by omega)
  · exact distance_lt_of_lt (by decide) hleft (by omega)
  · exact distance_lt_of_lt (by decide) hleft (by omega)
  · exact distance_lt_of_lt (by decide) hleft (Nat.lt_of_succ_lt (Nat.lt_of_succ_lt _hnext))

/-- The offset behind the qualified name at `offset`. -/
def qualifiedNameFrom (text : List Char) (offset : Nat) : From offset :=
  let k := leadingScopeAt text offset
  let l := simpleNameFrom text k
  have hk : offset ≤ k := le_leadingScopeAt text offset
  if l.1 = k then ⟨offset, Nat.le_refl offset⟩
  else
    let members := scopeChainFrom text (gapAt text l.1)
    let stop := gapAt text members.1
    have hl : offset ≤ gapAt text l.1 := Nat.le_trans hk (Nat.le_trans l.2 (le_gapAt text l.1))
    have hstop : offset ≤ stop := Nat.le_trans hl (Nat.le_trans members.2 (le_gapAt text members.1))
    if _h : letterAt? text stop = some '<' then
      let argument := qualifiedNameFrom text (stop + 1)
      if stop + 1 < argument.1 && letterAt? text argument.1 = some '>' then
        ⟨argument.1 + 1, Nat.le_succ_of_le (Nat.le_trans hstop (Nat.le_of_succ_le argument.2))⟩
      else ⟨stop, hstop⟩
    else ⟨stop, hstop⟩
termination_by distance text offset 2
decreasing_by
  · exact distance_lt_of_le (by decide) (le_leadingScopeAt text offset)
  · exact distance_lt_of_le (by decide) (Nat.le_trans hk (Nat.le_trans l.2 (le_gapAt text l.1)))
  · have hless : stop < byteLength text :=
      lt_byteLength_of_letterAt? (p := fun _ => true) (by rw [_h]; rfl)
    exact distance_lt_of_lt (by decide) (Nat.lt_of_le_of_lt hstop hless) (Nat.lt_succ_of_le hstop)

/-- The offset behind the type at `offset`. -/
def typeFrom (text : List Char) (offset : Nat) : From offset :=
  let k := modifiersAt text offset
  let l := qualifiedNameFrom text k
  have hk : offset ≤ k := le_modifiersAt text offset
  if l.1 = k then ⟨offset, Nat.le_refl offset⟩
  else
    let m := gapAt text l.1
    have hm : offset ≤ m := Nat.le_trans hk (Nat.le_trans l.2 (le_gapAt text l.1))
    if beginsAt text m "::".toList then
      let member := simpleNameFrom text (m + 2)
      if member.1 = m + 2 then ⟨offset, Nat.le_refl offset⟩
      else
        have hmember : offset ≤ member.1 :=
          Nat.le_trans hm (Nat.le_trans (Nat.le_add_right m 2) member.2)
        have hgap : offset ≤ gapAt text member.1 := Nat.le_trans hmember (le_gapAt text member.1)
        ⟨indirectionAt text (gapAt text member.1), Nat.le_trans hgap (le_indirectionAt text _)⟩
    else ⟨indirectionAt text m, Nat.le_trans hm (le_indirectionAt text m)⟩
termination_by distance text offset 3
decreasing_by
  · exact distance_lt_of_le (by decide) (le_modifiersAt text offset)
  · exact distance_lt_of_le (by decide) (Nat.le_trans hm (Nat.le_add_right m 2))

/-- The offset of the `(` behind the operator name whose keyword is taken to stand at `offset`. -/
def operatorNameFrom (text : List Char) (offset : Nat) : From offset :=
  let k := gapAt text (offset + operatorKeyword.length)
  let symbol := symbolAt text k
  let stop : From k := if symbol = k then typeFrom text k else ⟨symbol, le_symbolAt text k⟩
  have hk : offset ≤ k := Nat.le_trans (Nat.le_add_right offset _) (le_gapAt text _)
  have hstop : offset ≤ gapAt text stop.1 := Nat.le_trans hk (Nat.le_trans stop.2 (le_gapAt text _))
  if k < stop.1 && letterAt? text (gapAt text stop.1) = some '(' then ⟨gapAt text stop.1, hstop⟩
  else ⟨offset, Nat.le_refl offset⟩
termination_by distance text (offset + 8) 4
decreasing_by
  exact distance_lt_of_le (by decide) (le_gapAt text (offset + operatorKeyword.length))

end

/-- The offset behind the identifier or operator name at `offset`. -/
def simpleNameAt (text : List Char) (offset : Nat) : Nat :=
  (simpleNameFrom text offset).1

/-- The offset behind the members that follow a name at `offset`. -/
def scopeChainAt (text : List Char) (offset : Nat) : Nat :=
  (scopeChainFrom text offset).1

/-- The offset behind the qualified name at `offset`. -/
def qualifiedNameAt (text : List Char) (offset : Nat) : Nat :=
  (qualifiedNameFrom text offset).1

/-- The offset behind the type at `offset`. -/
def typeAt (text : List Char) (offset : Nat) : Nat :=
  (typeFrom text offset).1

/-- The offset of the `(` behind the operator name whose keyword is taken to stand at `offset`. -/
def operatorNameAt (text : List Char) (offset : Nat) : Nat :=
  (operatorNameFrom text offset).1

end CppDoc.Syntax
