import CppDoc.Reading
import CppDoc.Syntax.At
import CppDoc.Syntax.Parameters
import CppDoc.Syntax.Word

/-!
# Reading at an offset

The readers of names, types, parameter lists, words and values as they work on the bytes of a text: they
look for the offset where something ends, cut the text between two offsets, and put the cursor at the
second one.  An offset inside a character cannot be cut at, and then there is no answer.

* `cut?` cuts a text between two boundaries;
* `Cursor.takeTo?` and `Cursor.cutAt?` cut and move, `Cursor.jumpTo` and `Cursor.stepWhile` move only;
* `Cursor.readNameAt?`, `readTypeAt?`, `readWordAt?`, `readValueAt?` and `readParametersAt?` are the
  readers.
-/

namespace CppDoc

open CppDoc.Syntax CppDoc.Text

/-! ## Cutting -/

/-- The text from a boundary on. -/
def Text.dropBytes? : List Char → Nat → Option (List Char)
  | s, 0 => some s
  | [], _ + 1 => none
  | c :: rest, n + 1 => if n + 1 < c.utf8Size then none else dropBytes? rest (n + 1 - c.utf8Size)

/-- The text between two boundaries, the second of which is not before the first.  There is none between
other offsets. -/
def Text.cut? (s : List Char) (start stop : Nat) : Option (List Char) :=
  if start ≤ stop then (dropBytes? s start).bind (takeBytes? · (stop - start)) else none

namespace Text

theorem le_of_takeBytes? {s t : List Char} {n : Nat} (h : takeBytes? s n = some t) :
    n ≤ byteLength s := by
  induction s generalizing n t with
  | nil =>
      cases n with
      | zero => exact Nat.zero_le _
      | succ n => cases h
  | cons c rest ih =>
      cases n with
      | zero => exact Nat.zero_le _
      | succ n =>
          rw [takeBytes?] at h
          split at h
          · cases h
          · obtain ⟨tail, htail, -⟩ := Option.map_eq_some_iff.mp h
            have := ih htail
            rw [byteLength]
            omega

theorem byteLength_of_dropBytes? {s t : List Char} {n : Nat} (h : dropBytes? s n = some t) :
    n + byteLength t = byteLength s := by
  fun_induction dropBytes? s n with
  | case1 s =>
      obtain rfl := Option.some.inj h
      exact Nat.zero_add _
  | case2 | case3 => cases h
  | case4 c rest n hsize ih =>
      have := ih h
      rw [byteLength]
      omega

/-- What is cut lies within the text. -/
theorem bounds_of_cut? {s t : List Char} {start stop : Nat} (h : cut? s start stop = some t) :
    start ≤ stop ∧ stop ≤ byteLength s := by
  unfold cut? at h
  split at h
  · rename_i hle
    obtain ⟨rest, hrest, htake⟩ := Option.bind_eq_some_iff.mp h
    have hlength := byteLength_of_dropBytes? hrest
    have := le_of_takeBytes? htake
    exact ⟨hle, by omega⟩
  · cases h

/-- What is cut is not empty only if the boundaries are two. -/
theorem lt_of_cut? {s t : List Char} {start stop : Nat} (h : cut? s start stop = some t)
    (ht : t ≠ []) : start < stop := by
  apply Nat.lt_of_le_of_ne (bounds_of_cut? h).1
  rintro rfl
  rw [cut?, if_pos (Nat.le_refl start), Nat.sub_self] at h
  obtain ⟨rest, -, htake⟩ := Option.bind_eq_some_iff.mp h
  rw [takeBytes?] at htake
  exact ht (Option.some.inj htake).symm

end Text

/-- The offset behind the names at `offset` that are each preceded by a hyphen. -/
def Syntax.hyphenatedAt (text : List Char) (offset : Nat) : Nat :=
  if _h : letterAt? text offset = some '-' then
    let stop := simpleNameAt text (offset + 1)
    if offset + 1 < stop then hyphenatedAt text stop else offset
  else offset
termination_by byteLength text - offset
decreasing_by
  have hleft := lt_byteLength_of_letterAt? (p := (· == '-')) (by rw [_h]; rfl)
  omega

/-! ## Moving -/

namespace Cursor

/-- Puts the cursor at an offset, whatever it is. -/
def jumpTo (c : Cursor) (offset : Nat) : Cursor :=
  { c with pos := offset, rest := fromOffset c.text offset }

/-- The cursor behind the blanks and comments that follow it. -/
def skipGapAt (c : Cursor) : Cursor :=
  c.jumpTo (gapAt c.text c.pos)

/-- The text from the cursor up to an offset, to which the cursor is moved. -/
def takeTo? (c : Cursor) (stop : Nat) : Option (List Char × Cursor) :=
  (cut? c.text c.pos stop).map fun t => (t, c.moveTo stop)

/-- The text up to the next `pat`, which the cursor moves over as well; all that is left if there is
none.  The first answer tells whether there was one. -/
def cutAt? (c : Cursor) (pat : String) : Option (Bool × List Char × Cursor) :=
  (dropBytes? c.text c.pos).bind fun rest =>
    match find? pat.toList rest with
    | some n =>
      let stop := c.pos + byteLength (rest.take n)
      (cut? c.text c.pos stop).map fun t => (true, t, c.moveTo (stop + byteLength pat.toList))
    | none => (cut? c.text c.pos (byteLength c.text)).map fun t => (false, t, c.toEnd)

theorem pos_lt_step {c : Cursor} (h : c.pos < byteLength c.text) : c.pos < c.step.pos := by
  unfold step
  split
  · exact h
  · rename_i hrest
    obtain ⟨x, t, hcons⟩ := List.exists_cons_of_ne_nil (by simpa using hrest)
    have := x.utf8Size_pos
    simp only [skip, hcons, List.take_succ_cons, List.take_zero, byteLength]
    omega

theorem text_step (c : Cursor) : c.step.text = c.text := by
  unfold step
  split <;> rfl

/-- Moves over one character after another while the byte under the cursor is of class `p`. -/
def stepWhile (p : Char → Bool) (c : Cursor) : Cursor :=
  if _h : (letterAt? c.text c.pos).any p then stepWhile p c.step else c
termination_by byteLength c.text - c.pos
decreasing_by
  have hleft := lt_byteLength_of_letterAt? _h
  have hstep := pos_lt_step hleft
  rw [text_step]
  omega

/-- The cursor has not been moved back. -/
structure NotBack (c c' : Cursor) : Prop where
  text : c'.text = c.text
  pos : c.pos ≤ c'.pos

theorem NotBack.trans {a b c : Cursor} (hab : a.NotBack b) (hbc : b.NotBack c) : a.NotBack c :=
  ⟨hbc.text.trans hab.text, Nat.le_trans hab.pos hbc.pos⟩

theorem notBack_moveTo {c : Cursor} {offset : Nat} (hle : c.pos ≤ offset)
    (hin : c.pos ≤ byteLength c.text) : c.NotBack (c.moveTo offset) :=
  ⟨rfl, Nat.le_min.mpr ⟨hle, hin⟩⟩

theorem notBack_skipGapAt (c : Cursor) : c.NotBack c.skipGapAt :=
  ⟨rfl, le_gapAt c.text c.pos⟩

theorem notBack_takeTo? {c c' : Cursor} {stop : Nat} {t : List Char}
    (h : c.takeTo? stop = some (t, c')) : c.NotBack c' := by
  obtain ⟨u, hcut, heq⟩ := Option.map_eq_some_iff.mp h
  obtain ⟨-, rfl⟩ := Prod.mk.inj heq
  obtain ⟨hle, hin⟩ := bounds_of_cut? hcut
  exact notBack_moveTo hle (Nat.le_trans hle hin)

theorem notBack_cutAt? {c c' : Cursor} {pat : String} {found : Bool} {t : List Char}
    (h : c.cutAt? pat = some (found, t, c')) : c.NotBack c' := by
  obtain ⟨rest, -, h⟩ := Option.bind_eq_some_iff.mp h
  split at h
  · obtain ⟨u, hcut, heq⟩ := Option.map_eq_some_iff.mp h
    obtain ⟨-, -, rfl⟩ := heq
    obtain ⟨hle, hin⟩ := bounds_of_cut? hcut
    exact notBack_moveTo (Nat.le_add_right_of_le hle) (Nat.le_trans hle hin)
  · obtain ⟨u, hcut, heq⟩ := Option.map_eq_some_iff.mp h
    obtain ⟨-, -, rfl⟩ := heq
    exact ⟨rfl, (bounds_of_cut? hcut).1⟩

theorem notBack_stepWhile (p : Char → Bool) (c : Cursor) : c.NotBack (c.stepWhile p) := by
  fun_induction stepWhile p c with
  | case1 c hletter ih =>
      have hstep := pos_lt_step (lt_byteLength_of_letterAt? hletter)
      exact ⟨ih.text.trans c.text_step, Nat.le_trans (Nat.le_of_lt hstep) ih.pos⟩
  | case2 c _ => exact ⟨rfl, Nat.le_refl _⟩

/-! ## Names, types, words and values -/

/-- Reads a qualified name; the empty name if there is none. -/
def readNameAt? (c : Cursor) : Option (String × Cursor) :=
  (c.takeTo? (qualifiedNameAt c.text c.pos)).map fun (t, c) => (String.ofList (spaceless t), c)

/-- Reads a type; the empty type if there is none. -/
def readTypeAt? (c : Cursor) : Option (List Char × Cursor) :=
  (c.takeTo? (typeAt c.text c.pos)).map fun (t, c) => (cleanType t, c)

/-- Reads a word; the empty word takes up nothing. -/
def readWordAt? (c : Cursor) : Option (String × Cursor) :=
  let stop := hyphenatedAt c.text (simpleNameAt c.text c.pos)
  (cut? c.text c.pos stop).map fun t =>
    if (simplify t).isEmpty then ("", c) else (String.ofList (simplify t), c.moveTo stop)

/-- Reads the value of an enumerator: digits with an optional minus sign before them, or a name. -/
def readValueAt? (c : Cursor) : Option (String × Cursor) :=
  let start := gapAt c.text c.pos
  if (letterAt? c.text start).any fun b => b == '-' || b.isDigit then
    let digits := if letterAt? c.text start = some '-' then start + 1 else start
    let stop := runEnd Char.isDigit c.text digits
    (cut? c.text start stop).map fun t => (String.ofList t, c.moveTo stop)
  else c.readNameAt?

/-! ## Parameter lists -/

/-- Reads the name of a parameter, with a space before it, if there is one. -/
def readParameterNameAt? (c : Cursor) : Option (List Char × Cursor) :=
  let stop := simpleNameAt c.text c.pos
  if c.pos < stop then (c.takeTo? stop).map fun (t, c) => (' ' :: simplify t, c) else some ([], c)

/-- Moves over the default value or the brackets behind a parameter.  Brackets are kept. -/
def readParameterEndAt (c : Cursor) : List Char × Cursor :=
  if letterAt? c.text c.pos = some '=' then
    ([], (c.stepWhile fun b => !endsDefault b).skipGapAt)
  else if beginsAt c.text c.pos "[]".toList then
    ("[]".toList, (c.moveTo (c.pos + 2)).skipGapAt)
  else ([], c)

/-- Reads one parameter: a type, perhaps a name, and a default value or brackets.  Its text is empty if
no type stands there. -/
def readParameterAt? (c : Cursor) : Option (List Char × Cursor) :=
  c.readTypeAt?.bind fun (type, c) =>
    if type.isEmpty then some ([], c)
    else c.skipGapAt.readParameterNameAt?.map fun (name, c) =>
      let (brackets, c) := c.skipGapAt.readParameterEndAt
      (type ++ name ++ brackets, c)

theorem notBack_readParameterEndAt (c : Cursor) : c.NotBack c.readParameterEndAt.2 := by
  unfold readParameterEndAt
  split
  · exact (c.notBack_stepWhile _).trans (notBack_skipGapAt _)
  split
  · rename_i hbrackets
    have hin : c.pos + 2 ≤ byteLength c.text := le_byteLength_of_beginsAt (by decide) hbrackets
    have hmove : c.NotBack (c.moveTo (c.pos + 2)) := notBack_moveTo (by omega) (by omega)
    exact hmove.trans (notBack_skipGapAt _)
  · exact ⟨rfl, Nat.le_refl _⟩

theorem notBack_readParameterAt? {c c' : Cursor} {t : List Char}
    (h : c.readParameterAt? = some (t, c')) : c.NotBack c' := by
  obtain ⟨⟨type, c₁⟩, htype, h⟩ := Option.bind_eq_some_iff.mp h
  obtain ⟨⟨s, c₂⟩, htake, heq⟩ := Option.map_eq_some_iff.mp htype
  obtain ⟨-, rfl⟩ := Prod.mk.inj heq
  have hbehind := notBack_takeTo? htake
  dsimp only at h
  split at h
  · obtain ⟨-, rfl⟩ := Prod.mk.inj (Option.some.inj h)
    exact hbehind
  · obtain ⟨⟨name, c₃⟩, hname, heq⟩ := Option.map_eq_some_iff.mp h
    obtain ⟨-, rfl⟩ := Prod.mk.inj heq
    have hname : c₂.skipGapAt.NotBack c₃ := by
      unfold readParameterNameAt? at hname
      dsimp only at hname
      split at hname
      · obtain ⟨⟨s, c₄⟩, htake, heq⟩ := Option.map_eq_some_iff.mp hname
        obtain ⟨-, rfl⟩ := Prod.mk.inj heq
        exact notBack_takeTo? htake
      · obtain ⟨-, rfl⟩ := Prod.mk.inj (Option.some.inj hname)
        exact ⟨rfl, Nat.le_refl _⟩
    have hend := (notBack_skipGapAt c₃).trans (notBack_readParameterEndAt _)
    exact (hbehind.trans (notBack_skipGapAt c₂)).trans (hname.trans hend)

/-- Reads the parameters up to the closing parenthesis.  Gives their text, or nothing if they cannot be
read. -/
def readParameterTailAt? (c : Cursor) : Option (Option (List Char) × Cursor) :=
  match _h : c.readParameterAt? with
  | none => none
  | some (parameter, next) =>
    if parameter.isEmpty then some (none, next)
    else if _hcomma : letterAt? next.text next.pos = some ',' then
      (readParameterTailAt? next.step).map fun (tail, c) =>
        (tail.map (parameter ++ ", ".toList ++ ·), c)
    else if letterAt? next.text next.pos = some ')' then some (some (parameter ++ [')']), next.step)
    else some (none, next)
termination_by byteLength c.text - c.pos
decreasing_by
  have hback := notBack_readParameterAt? _h
  have hleft := lt_byteLength_of_letterAt? (p := (· == ',')) (by rw [_hcomma]; rfl)
  have hstep := pos_lt_step hleft
  have hpos := hback.pos
  rw [text_step, hback.text]
  rw [hback.text] at hleft
  omega

/-- Reads a parameter list.  The text is empty if there is none or it cannot be read. -/
def readParametersAt? (c : Cursor) : Option (String × Cursor) :=
  let start := gapAt c.text c.pos
  if letterAt? c.text start = some '(' then
    let c := c.moveTo (gapAt c.text (start + 1))
    if letterAt? c.text c.pos = some ')' then some ("()", c.step)
    else c.readParameterTailAt?.map fun (tail, c) =>
      ((tail.map fun t => String.ofList ('(' :: t)).getD "", c)
  else some ("", c)

end Cursor

end CppDoc
