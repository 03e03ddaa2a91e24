/-!
# Byte offsets

Positions in a text are reported as offsets into its UTF-8 form.  An offset is a **boundary** if
a character begins there or the text ends there; other offsets point into the middle of a character
or past the end.

* `byteLength` measures a text and `byteAt?` reads one byte of it;
* `fromOffset` is the text from a boundary on, and empty at any other offset;
* `slice` is the text between two boundaries.
-/

namespace CppDoc.Text

/-- The number of bytes of `s` in UTF-8. -/
def byteLength : List Char → Nat
  | [] => 0
  | c :: rest => c.utf8Size + byteLength rest

/-- The byte at offset `n`, or `none` past the end. -/
def byteAt? : List Char → Nat → Option UInt8
  | [], _ => none
  | c :: rest, n =>
    if n < c.utf8Size then (String.utf8EncodeChar c)[n]? else byteAt? rest (n - c.utf8Size)

/-- The text from the boundary `n` on; nothing if `n` is no boundary. -/
def fromOffset : List Char → Nat → List Char
  | [], _ => []
  | c :: rest, n =>
    if n = 0 then c :: rest
    else if n < c.utf8Size then []
    else fromOffset rest (n - c.utf8Size)

/-- The first characters of `s` that fill exactly `n` bytes, if there are such. -/
def takeBytes? : List Char → Nat → Option (List Char)
  | _, 0 => some []
  | [], _ + 1 => none
  | c :: rest, n + 1 =>
    if n + 1 < c.utf8Size then none
    else (takeBytes? rest (n + 1 - c.utf8Size)).map (c :: ·)

/-- The text between two offsets, the second one clamped to the end; nothing if one of them is no
boundary or they do not increase. -/
def slice (s : List Char) (start stop : Nat) : List Char :=
  let stop := min stop (byteLength s)
  (takeBytes? (fromOffset s start) (stop - start)).getD []

/-- Does `pat` begin at offset `n`?  The empty text begins at every offset up to the end. -/
def beginsAt (s : List Char) (n : Nat) (pat : List Char) : Bool :=
  if pat.isEmpty then n ≤ byteLength s else pat.isPrefixOf (fromOffset s n)

/-- Lengths in bytes add up. -/
theorem byteLength_append (a b : List Char) :
    byteLength (a ++ b) = byteLength a + byteLength b := by
  induction a with
  | nil => simp [byteLength]
  | cons c rest ih => simp only [List.cons_append, byteLength, ih]; omega

/-- From the end of a first part on, the text is its second part. -/
theorem fromOffset_append (a b : List Char) : fromOffset (a ++ b) (byteLength a) = b := by
  induction a with
  | nil => cases b <;> simp [byteLength, fromOffset]
  | cons c rest ih =>
    have hpos : 0 < c.utf8Size := Char.utf8Size_pos c
    simp only [List.cons_append, byteLength, fromOffset]
    rw [if_neg (by omega), if_neg (by omega), Nat.add_sub_cancel_left, ih]

/-- What stands at an offset, if there is anything, is the rest of the text behind that many
bytes. -/
theorem exists_before_of_fromOffset {s : List Char} {n : Nat} (h : fromOffset s n ≠ []) :
    ∃ before, s = before ++ fromOffset s n ∧ byteLength before = n := by
  induction s generalizing n with
  | nil => exact absurd rfl h
  | cons c rest ih =>
    rw [fromOffset] at h ⊢
    by_cases hzero : n = 0
    · rw [if_pos hzero]
      exact ⟨[], rfl, hzero.symm⟩
    by_cases hlt : n < c.utf8Size
    · rw [if_neg hzero, if_pos hlt] at h
      exact absurd rfl h
    · rw [if_neg hzero, if_neg hlt] at h ⊢
      obtain ⟨before, hrest, hlength⟩ := ih h
      refine ⟨c :: before, congrArg (c :: ·) hrest, ?_⟩
      rw [byteLength, hlength]
      omega

end CppDoc.Text
