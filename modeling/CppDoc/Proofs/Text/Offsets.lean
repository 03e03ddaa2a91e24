import CppDoc.Proofs.Text.Bytes
import Mathlib.Data.List.TakeDrop

/-!
# The offset behind some characters

Scanners measure characters, and offsets count bytes.  `offsetBehind` goes from an offset over a number
of the characters that stand there.  At an offset that is no boundary there are none, and it stays where
it is.

* `fromOffset_offsetBehind` and `offsetBehind_add`: what stands there, and how to go on;
* `offsetBehind_eq_self_iff` and `advances_offsetBehind`: it stays, or it comes to a boundary further on;
* `slice_offsetBehind`: the text in between.
-/

namespace CppDoc.Text

/-- A character begins at the offset, or the text ends there. -/
def IsBoundary (s : List Char) (offset : Nat) : Prop :=
  ∃ before, before <+: s ∧ byteLength before = offset

/-- From an offset one stays there, or one comes to a boundary further on in the text. -/
def Advances (s : List Char) (offset stop : Nat) : Prop :=
  stop = offset ∨ offset < stop ∧ stop ≤ byteLength s ∧ IsBoundary s stop

/-- The offset behind the first `n` characters that stand at an offset. -/
def offsetBehind (s : List Char) (offset n : Nat) : Nat :=
  offset + byteLength ((fromOffset s offset).take n)

section Offsets

variable {s before after : List Char} {offset m n : Nat}

/-! ## Lengths -/

theorem byteLength_eq_zero_iff : byteLength s = 0 ↔ s = [] := by
  cases s with
  | nil => simp [byteLength]
  | cons c rest =>
      have := c.utf8Size_pos
      simp only [byteLength, reduceCtorEq, iff_false]
      omega

/-- What stands at an offset in the second part of a text. -/
theorem fromOffset_append_add (before after : List Char) (i : Nat) :
    fromOffset (before ++ after) (byteLength before + i) = fromOffset after i := by
  induction before with
  | nil => rw [List.nil_append, byteLength, Nat.zero_add]
  | cons c before ih =>
      have := c.utf8Size_pos
      rw [List.cons_append, byteLength, fromOffset, if_neg (by omega), if_neg (by omega), ← ih]
      congr 1
      omega

/-- The byte at an offset in the second part of a text. -/
theorem byteAt?_append_add (before after : List Char) (i : Nat) :
    byteAt? (before ++ after) (byteLength before + i) = byteAt? after i := by
  rw [byteAt?_eq, byteAt?_eq, utf8_append, ← length_utf8,
    List.getElem?_append_right (Nat.le_add_right _ _), Nat.add_sub_cancel_left]

/-! ## Going on -/

@[simp]
theorem offsetBehind_zero (s : List Char) (offset : Nat) : offsetBehind s offset 0 = offset := by
  rw [offsetBehind, List.take_zero, byteLength, Nat.add_zero]

theorem offsetBehind_of_nil (h : fromOffset s offset = []) : offsetBehind s offset n = offset := by
  rw [offsetBehind, h, List.take_nil, byteLength, Nat.add_zero]

/-- Behind the characters that have been passed over, the others stand. -/
@[simp]
theorem fromOffset_offsetBehind (s : List Char) (offset n : Nat) :
    fromOffset s (offsetBehind s offset n) = (fromOffset s offset).drop n := by
  by_cases hnil : fromOffset s offset = []
  · rw [offsetBehind_of_nil hnil, hnil, List.drop_nil]
  · obtain ⟨before, hs, hbefore⟩ := exists_before_of_fromOffset hnil
    have hsplit : s = (before ++ (fromOffset s offset).take n) ++ (fromOffset s offset).drop n := by
      rw [List.append_assoc, List.take_append_drop, ← hs]
    have hlength : offsetBehind s offset n =
        byteLength (before ++ (fromOffset s offset).take n) := by
      rw [offsetBehind, byteLength_append, hbefore]
    have hrest := fromOffset_append (before ++ (fromOffset s offset).take n)
      ((fromOffset s offset).drop n)
    rwa [← hsplit, ← hlength] at hrest

@[simp]
theorem offsetBehind_offsetBehind (s : List Char) (offset m n : Nat) :
    offsetBehind s (offsetBehind s offset m) n = offsetBehind s offset (m + n) := by
  rw [offsetBehind, fromOffset_offsetBehind, offsetBehind, offsetBehind, List.take_add,
    byteLength_append, Nat.add_assoc]

/-- Over characters of one byte each, an offset goes one by one. -/
theorem offsetBehind_word {a b : List Char} (h : fromOffset s offset = a ++ b)
    (ha : byteLength a = a.length) : offsetBehind s offset a.length = offset + a.length := by
  rw [offsetBehind, h, List.take_left, ha]

/-! ## Staying or coming further -/

theorem le_offsetBehind (s : List Char) (offset n : Nat) : offset ≤ offsetBehind s offset n :=
  Nat.le_add_right _ _

/-- Where nothing is measured if nothing stands there, an offset stays only if nothing is measured. -/
theorem offsetBehind_eq_self_iff (hn : fromOffset s offset = [] → n = 0) :
    offsetBehind s offset n = offset ↔ n = 0 := by
  refine ⟨fun h => ?_, fun h => h ▸ offsetBehind_zero s offset⟩
  have hempty : (fromOffset s offset).take n = [] := by
    rw [← byteLength_eq_zero_iff]
    exact Nat.add_left_cancel h
  rcases List.take_eq_nil_iff.mp hempty with hzero | hnil
  · exact hzero
  · exact hn hnil

theorem lt_offsetBehind_iff (hn : fromOffset s offset = [] → n = 0) :
    offset < offsetBehind s offset n ↔ n ≠ 0 := by
  rw [ne_eq, ← offsetBehind_eq_self_iff hn]
  have := le_offsetBehind s offset n
  omega

/-- Likewise behind what has been passed over before. -/
theorem offsetBehind_add_eq_iff (hn : (fromOffset s offset).drop m = [] → n = 0) :
    offsetBehind s offset (m + n) = offsetBehind s offset m ↔ n = 0 := by
  rw [← offsetBehind_offsetBehind]
  exact offsetBehind_eq_self_iff (by rwa [fromOffset_offsetBehind])

theorem lt_offsetBehind_add_iff (hn : (fromOffset s offset).drop m = [] → n = 0) :
    offsetBehind s offset m < offsetBehind s offset (m + n) ↔ n ≠ 0 := by
  rw [← offsetBehind_offsetBehind]
  exact lt_offsetBehind_iff (by rwa [fromOffset_offsetBehind])

/-- A measure that finds nothing in the empty text leaves an offset only if it finds anything. -/
theorem offsetBehind_stays_iff {f : List Char → Nat} (hf : f [] = 0) (s : List Char) (offset k : Nat) :
    offsetBehind s offset (k + f ((fromOffset s offset).drop k)) = offsetBehind s offset k ↔
      f ((fromOffset s offset).drop k) = 0 :=
  offsetBehind_add_eq_iff fun hnil => hnil ▸ hf

theorem offsetBehind_moves_iff {f : List Char → Nat} (hf : f [] = 0) (s : List Char) (offset k : Nat) :
    offsetBehind s offset k < offsetBehind s offset (k + f ((fromOffset s offset).drop k)) ↔
      f ((fromOffset s offset).drop k) ≠ 0 :=
  lt_offsetBehind_add_iff fun hnil => hnil ▸ hf

/-- Behind some characters there is a boundary, unless there are none at the offset. -/
theorem advances_offsetBehind (s : List Char) (offset n : Nat) :
    Advances s offset (offsetBehind s offset n) := by
  rcases Nat.eq_or_lt_of_le (le_offsetBehind s offset n) with hstay | hlt
  · exact .inl hstay.symm
  · have hne : fromOffset s offset ≠ [] := by
      intro hnil
      rw [offsetBehind_of_nil hnil] at hlt
      exact Nat.lt_irrefl _ hlt
    obtain ⟨before, hs, hbefore⟩ := exists_before_of_fromOffset hne
    have hprefix : before ++ (fromOffset s offset).take n <+: s := by
      conv_rhs => rw [hs]
      exact (List.prefix_append_right_inj before).mpr (List.take_prefix _ _)
    have hlength : byteLength (before ++ (fromOffset s offset).take n) = offsetBehind s offset n := by
      rw [offsetBehind, byteLength_append, hbefore]
    refine .inr ⟨hlt, ?_, _, hprefix, hlength⟩
    obtain ⟨after, hafter⟩ := hprefix
    have hbytes := congrArg byteLength hafter
    rw [byteLength_append, hlength] at hbytes
    omega

/-! ## The text in between -/

theorem takeBytes?_append (a b : List Char) : takeBytes? (a ++ b) (byteLength a) = some a := by
  induction a with
  | nil => cases b <;> rfl
  | cons c a ih =>
      have hpos := c.utf8Size_pos
      obtain ⟨k, hk⟩ : ∃ k, c.utf8Size + byteLength a = k + 1 :=
        ⟨c.utf8Size + byteLength a - 1, by omega⟩
      have hrest : k + 1 - c.utf8Size = byteLength a := by omega
      rw [List.cons_append, byteLength, hk, takeBytes?, if_neg (by omega), hrest, ih]
      rfl

/-- **The text between an offset and the one behind some characters** is those characters. -/
theorem slice_offsetBehind (s : List Char) (offset n : Nat) :
    slice s offset (offsetBehind s offset n) = (fromOffset s offset).take n := by
  have hbytes : min (offsetBehind s offset n) (byteLength s) - offset =
      byteLength ((fromOffset s offset).take n) := by
    rcases advances_offsetBehind s offset n with hstay | ⟨-, hle, -⟩
    · have hzero : byteLength ((fromOffset s offset).take n) = 0 := Nat.add_left_cancel hstay
      rw [hzero, hstay]
      omega
    · rw [Nat.min_eq_left hle, offsetBehind, Nat.add_sub_cancel_left]
  have htake := takeBytes?_append ((fromOffset s offset).take n) ((fromOffset s offset).drop n)
  rw [List.take_append_drop] at htake
  rw [slice, hbytes, htake, Option.getD_some]

end Offsets

end CppDoc.Text
