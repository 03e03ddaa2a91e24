/-!
# Searching and replacing

Where one text occurs in another.  A position is the number of characters before it.

* `find?` gives the first occurrence and `findLast?` the last one;
* `after?` is the text behind the first occurrence;
* `replaceAll` replaces the occurrences found from left to right without overlap.
-/

namespace CppDoc.Text

/-- The position of the first occurrence of `pat` in `s`. -/
def find? (pat : List Char) : List Char → Option Nat
  | [] => if pat.isEmpty then some 0 else none
  | c :: rest =>
    if pat.isPrefixOf (c :: rest) then some 0 else (find? pat rest).map (· + 1)

/-- The position of the last occurrence of `pat` in `s`. -/
def findLast? (pat : List Char) : List Char → Option Nat
  | [] => if pat.isEmpty then some 0 else none
  | c :: rest =>
    match findLast? pat rest with
    | some n => some (n + 1)
    | none => if pat.isPrefixOf (c :: rest) then some 0 else none

/-- Does `pat` occur in `s`? -/
def occurs (pat s : List Char) : Bool :=
  (find? pat s).isSome

/-- What follows the first `d` of a text, if there is one. -/
def after? (d : Char) : List Char → Option (List Char)
  | [] => none
  | c :: rest => if c = d then some rest else after? d rest

/-- What stands behind a character is shorter than the text. -/
theorem length_lt_of_after? {d : Char} {s r : List Char} (h : after? d s = some r) :
    r.length < s.length := by
  induction s with
  | nil => simp [after?] at h
  | cons c rest ih =>
    simp only [after?] at h
    split at h
    · simp_all
    · have := ih h
      simp only [List.length_cons]
      omega

/-- Reads on with `skip` characters of the last occurrence still to be passed over. -/
def replaceFrom (pat new : List Char) : Nat → List Char → List Char
  | _, [] => []
  | skip + 1, _ :: rest => replaceFrom pat new skip rest
  | 0, c :: rest =>
    if pat.isPrefixOf (c :: rest) then new ++ replaceFrom pat new (pat.length - 1) rest
    else c :: replaceFrom pat new 0 rest

/-- `s` with every occurrence of the non-empty `pat` replaced by `new`. -/
def replaceAll (pat new s : List Char) : List Char :=
  replaceFrom pat new 0 s

/-- A non-empty text that begins `s` leaves less than `s` behind it. -/
theorem length_drop_lt_of_isPrefixOf {pat s : List Char} (hne : 0 < pat.length)
    (h : pat.isPrefixOf s = true) : (s.drop pat.length).length < s.length := by
  have hle : pat.length ≤ s.length := (List.isPrefixOf_iff_prefix.mp h).length_le
  simp only [List.length_drop]
  omega

/-- What stands behind a character of `s` is shorter than `s`. -/
theorem length_lt_of_drop_eq_cons {s r : List Char} {n : Nat} {c : Char}
    (h : s.drop n = c :: r) : r.length < s.length := by
  have := congrArg List.length h
  simp only [List.length_drop, List.length_cons] at this
  omega

/-- What stands behind a character of `s` that has been looked at is shorter than `s`. -/
theorem length_tail_drop_lt_of_head? {s : List Char} {n : Nat} {c : Char}
    (h : (s.drop n).head? = some c) : (s.drop n).tail.length < s.length := by
  obtain ⟨rest, hrest⟩ : ∃ rest, s.drop n = c :: rest := List.head?_eq_some_iff.mp h
  rw [hrest]
  exact length_lt_of_drop_eq_cons hrest

end CppDoc.Text
