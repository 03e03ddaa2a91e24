import CppDoc.Proofs.Syntax.Blanked
import CppDoc.Proofs.Syntax.Written
import CppDoc.Proofs.Text.Offsets
import CppDoc.Syntax.At

/-!
# Gaps and modifiers at offsets

The scanners that are given an offset look at single bytes, the scanners of texts at characters.
`Marks` says that both find the same: the first give the offset behind the characters that the second
measure in the text that stands at the offset.  At an offset that is no boundary nothing stands, and
nothing is found.

* `letterAt?_any` and `runEnd_eq`: the bytes that are looked for are characters by themselves, and no
  byte of another character is taken for one;
* `marks_gap`: gaps.  A comment may have characters of several bytes in it;
* `marks_modifiers`: modifiers.  They are told by the piece of text with the gap before them, which is
  no modifier if there is a comment in the gap.
-/

namespace CppDoc.Syntax

open CppDoc.Text

/-! ## Letters -/

/-- A class of characters of one byte each. -/
def Ascii (p : Char → Bool) : Prop :=
  ∀ c, p c = true → c.toNat < 128

section Letters

variable {p : Char → Bool} {text before after : List Char} {offset : Nat} {c : Char}

theorem utf8Size_of_lt (hc : c.toNat < 128) : c.utf8Size = 1 := by
  obtain ⟨-, hbytes⟩ | ⟨hlarge, -⟩ := encode_cases c
  · rw [← String.length_utf8EncodeChar, hbytes]
    rfl
  · omega

/-- A byte of a character is the character itself, or it is no character of one byte. -/
theorem ofUInt8_cases {b : UInt8} (hb : b ∈ String.utf8EncodeChar c) :
    c.toNat < 128 ∧ Char.ofUInt8 b = c ∨ 128 ≤ c.toNat ∧ 128 ≤ (Char.ofUInt8 b).toNat := by
  obtain ⟨hsmall, hbytes⟩ | ⟨hlarge, hbytes⟩ := encode_cases c
  · obtain rfl : b = UInt8.ofNat c.toNat := List.mem_singleton.mp (hbytes ▸ hb)
    refine .inl ⟨hsmall, Char.toNat_inj.mp ?_⟩
    show (UInt8.ofNat c.toNat).toNat = c.toNat
    rw [UInt8.toNat_ofNat', Nat.mod_eq_of_lt (by omega)]
  · exact .inr ⟨hlarge, hbytes b hb⟩

theorem letterAt?_append (before after : List Char) (i : Nat) :
    letterAt? (before ++ after) (byteLength before + i) = letterAt? after i := by
  rw [letterAt?, letterAt?, byteAt?_append_add]

/-- A byte of the first character. -/
theorem letterAt?_cons (rest : List Char) {i : Nat} (hi : i < c.utf8Size) :
    ∃ b ∈ String.utf8EncodeChar c, letterAt? (c :: rest) i = some (Char.ofUInt8 b) := by
  rw [← String.length_utf8EncodeChar] at hi
  refine ⟨_, List.getElem_mem hi, ?_⟩
  rw [letterAt?, byteAt?, if_pos (by rwa [← String.length_utf8EncodeChar]), List.getElem?_eq_getElem hi]
  rfl

/-- **A class of characters of one byte** is found at an offset if the text goes on with it. -/
theorem letterAt?_any (hp : Ascii p) (text : List Char) (offset : Nat) :
    (letterAt? text offset).any p = (fromOffset text offset).head?.any p := by
  obtain ⟨before, after, rfl, hle, hafter⟩ := exists_split text offset
  obtain ⟨i, rfl⟩ := Nat.exists_eq_add_of_le hle
  rw [letterAt?_append, fromOffset_append_add]
  cases after with
  | nil => rfl
  | cons c rest =>
      have hi : i < c.utf8Size := Nat.lt_of_add_lt_add_left (hafter c rfl)
      obtain ⟨b, hb, hletter⟩ := letterAt?_cons rest hi
      rw [hletter, Option.any_some]
      rcases ofUInt8_cases hb with ⟨hc, hsame⟩ | ⟨hc, hlarge⟩
      · obtain rfl : i = 0 := by
          rw [utf8Size_of_lt hc] at hi
          omega
        rw [hsame, fromOffset, if_pos rfl, List.head?_cons, Option.any_some]
      · have hbyte : p (Char.ofUInt8 b) = false :=
          Bool.eq_false_iff.mpr fun h => absurd (hp _ h) (by omega)
        have hchar : p c = false := Bool.eq_false_iff.mpr fun h => absurd (hp _ h) (by omega)
        rw [hbyte, fromOffset, if_pos hi]
        split
        · rw [List.head?_cons, Option.any_some, hchar]
        · rfl

theorem letterAt?_eq_some_iff (hc : c.toNat < 128) :
    letterAt? text offset = some c ↔ (fromOffset text offset).head? = some c := by
  have hany := letterAt?_any (p := (· == c)) (fun d hd => beq_iff_eq.mp hd ▸ hc) text offset
  have hsome (o : Option Char) : o = some c ↔ o.any (· == c) = true := by
    cases o <;> simp
  rw [hsome, hsome, hany]

theorem letterAt?_offsetBehind (hc : c.toNat < 128) {k : Nat} :
    letterAt? text (offsetBehind text offset k) = some c ↔
      ((fromOffset text offset).drop k).head? = some c := by
  rw [letterAt?_eq_some_iff hc, fromOffset_offsetBehind]

theorem byteLength_eq_length {w : List Char} (hw : w.all (·.toNat < 128) = true) :
    byteLength w = w.length := by
  induction w with
  | nil => rfl
  | cons c w ih =>
      simp only [List.all_cons, Bool.and_eq_true, decide_eq_true_eq] at hw
      rw [byteLength, utf8Size_of_lt hw.1, ih hw.2, List.length_cons, Nat.add_comm]

/-- Over a word with characters of one byte each, an offset goes one by one. -/
theorem add_length_eq_offsetBehind {w : List Char} (hw : w.all (·.toNat < 128) = true)
    (h : w <+: fromOffset text offset) :
    offset + w.length = offsetBehind text offset w.length := by
  obtain ⟨rest, hrest⟩ := h
  exact (offsetBehind_word hrest.symm (byteLength_eq_length hw)).symm

/-- The offset behind a character of one byte is the next one. -/
theorem succ_eq_offsetBehind (hc : c.toNat < 128) (h : (fromOffset text offset).head? = some c) :
    offset + 1 = offsetBehind text offset 1 := by
  obtain ⟨rest, hrest⟩ := List.head?_eq_some_iff.mp h
  exact add_length_eq_offsetBehind (w := [c]) (by simpa using hc) ⟨rest, hrest.symm⟩

theorem beginsAt_iff {w : List Char} (hw : w ≠ []) :
    beginsAt text offset w = true ↔ w <+: fromOffset text offset := by
  rw [beginsAt, if_neg (by simp [hw]), List.isPrefixOf_iff_prefix]

/-! ## Runs -/

/-- A run of characters of one byte. -/
theorem runEnd_eq (hp : Ascii p) (text : List Char) (offset : Nat) :
    runEnd p text offset =
      offsetBehind text offset ((fromOffset text offset).takeWhile p).length := by
  fun_induction runEnd p text offset with
  | case1 offset hletter ih =>
      rw [letterAt?_any hp] at hletter
      obtain ⟨c, hhead, hc⟩ := (Option.any_eq_true _ _).mp hletter
      obtain ⟨rest, hrest⟩ := List.head?_eq_some_iff.mp hhead
      rw [ih, succ_eq_offsetBehind (hp c hc) hhead, fromOffset_offsetBehind,
        offsetBehind_offsetBehind, hrest, List.takeWhile_cons_of_pos hc, List.length_cons, Nat.add_comm]
      rfl
  | case2 offset hletter =>
      rw [letterAt?_any hp] at hletter
      have hnone : (fromOffset text offset).takeWhile p = [] := by
        cases hs : fromOffset text offset with
        | nil => rfl
        | cons c rest => exact List.takeWhile_cons_of_neg (by simpa [hs] using hletter)
      rw [hnone, List.length_nil, offsetBehind_zero]

theorem runEnd_add {n : Nat} (h : ∀ i < n, (letterAt? text (offset + i)).any p = true) :
    runEnd p text offset = runEnd p text (offset + n) := by
  induction n with
  | zero => rfl
  | succ n ih =>
      rw [ih fun i hi => h i (Nat.lt_succ_of_lt hi)]
      conv_lhs => rw [runEnd, dif_pos (h n (Nat.lt_succ_self n))]
      rfl

/-- No byte of a character that is no line feed is a line feed. -/
theorem letterAt?_cons_ne_newline (hc : c ≠ '\n') (rest : List Char) {i : Nat} (hi : i < c.utf8Size) :
    (letterAt? (c :: rest) i).any (· != '\n') = true := by
  obtain ⟨b, hb, hletter⟩ := letterAt?_cons rest hi
  rw [hletter, Option.any_some, bne_iff_ne]
  intro hfeed
  rcases ofUInt8_cases hb with ⟨-, hsame⟩ | ⟨-, hlarge⟩
  · exact hc (hsame.symm.trans hfeed)
  · rw [hfeed] at hlarge
    exact absurd hlarge (by decide)

theorem runEnd_of_end {rest : List Char} (h : (letterAt? rest 0).any p ≠ true) (before : List Char) :
    runEnd p (before ++ rest) (byteLength before) = byteLength before := by
  rw [runEnd, dif_neg]
  rwa [← Nat.add_zero (byteLength before), letterAt?_append]

/-- The rest of a line may have characters of several bytes: no byte of theirs is a line feed. -/
theorem runEnd_line (before after : List Char) :
    runEnd (· != '\n') (before ++ after) (byteLength before) =
      byteLength before + byteLength (after.takeWhile (· != '\n')) := by
  induction after generalizing before with
  | nil => exact runEnd_of_end (by exact Bool.false_ne_true) before
  | cons c rest ih =>
      by_cases hc : c = '\n'
      · subst hc
        exact runEnd_of_end (by exact Bool.false_ne_true) before
      · have hbytes : ∀ i < c.utf8Size,
            (letterAt? (before ++ c :: rest) (byteLength before + i)).any (· != '\n') = true :=
          fun i hi => by rw [letterAt?_append, letterAt?_cons_ne_newline hc rest hi]
        have hnext := ih (before ++ [c])
        have hlength : byteLength (before ++ [c]) = byteLength before + c.utf8Size := by
          rw [byteLength_append, byteLength, byteLength, Nat.add_zero]
        rw [hlength, List.append_assoc, List.singleton_append] at hnext
        have hfirst : (c != '\n') = true := bne_iff_ne.mpr hc
        rw [runEnd_add hbytes, hnext, List.takeWhile_cons_of_pos (p := (· != '\n')) hfirst,
          byteLength, Nat.add_assoc]

theorem runEnd_line_eq (h : fromOffset text offset ≠ []) :
    runEnd (· != '\n') text offset =
      offsetBehind text offset ((fromOffset text offset).takeWhile (· != '\n')).length := by
  obtain ⟨before, htext, hbefore⟩ := exists_before_of_fromOffset h
  have hline := runEnd_line before (fromOffset text offset)
  have htake := List.prefix_iff_eq_take.mp
    (List.takeWhile_prefix (l := fromOffset text offset) (· != '\n'))
  rw [← htext, hbefore] at hline
  rw [hline, offsetBehind, ← htake]

end Letters

/-! ## Gaps -/

/-- The length of the blanks at the head of a text, and of the line comment that follows them. -/
def gapStep (s : List Char) : Nat :=
  let blanks := (s.takeWhile isBlank).length
  if "//".toList <+: s.drop blanks then
    blanks + ((s.drop blanks).takeWhile (· != '\n')).length
  else blanks

section Gaps

variable {s text : List Char} {offset : Nat}

/-- Behind its blanks a gap may go on with a comment. -/
theorem gap_eq_blanks (s : List Char) :
    gap s = (s.takeWhile isBlank).length + gap (s.drop (s.takeWhile isBlank).length) := by
  rw [drop_length_takeWhile]
  conv_lhs => rw [← List.takeWhile_append_dropWhile (p := isBlank) (l := s)]
  exact gap_blanks_append List.all_takeWhile _

/-- A gap begins with a blank or with a comment. -/
theorem gap_eq_zero (hblanks : s.takeWhile isBlank = []) (hslashes : ¬ "//".toList <+: s) :
    gap s = 0 := by
  cases s with
  | nil => rfl
  | cons c rest =>
      refine gap_cons_eq_zero_iff.mpr ⟨?_, ?_⟩
      · by_contra hc
        rw [Bool.not_eq_false] at hc
        rw [List.takeWhile_cons_of_pos hc] at hblanks
        exact List.cons_ne_nil _ _ hblanks
      · rintro rfl hrest
        obtain ⟨rest, rfl⟩ := List.head?_eq_some_iff.mp hrest
        exact hslashes ⟨rest, rfl⟩

/-- Without a step there is no gap. -/
theorem gap_of_gapStep (h : gapStep s = 0) : gap s = 0 := by
  unfold gapStep at h
  dsimp only at h
  by_cases hslashes : "//".toList <+: s.drop (s.takeWhile isBlank).length
  · rw [if_pos hslashes] at h
    obtain ⟨rest, hrest⟩ := hslashes
    rw [← hrest] at h
    have hline : (("//".toList ++ rest).takeWhile (· != '\n')).length =
        (rest.takeWhile (· != '\n')).length + 2 := rfl
    omega
  · rw [if_neg hslashes, List.length_eq_zero_iff] at h
    rw [h] at hslashes
    exact gap_eq_zero h hslashes

/-- A comment goes to the end of its line. -/
theorem gap_slashes (rest : List Char) :
    gap ("//".toList ++ rest) =
      (rest.takeWhile (· != '\n')).length + 2 + gap (rest.dropWhile (· != '\n')) := by
  have hopen : '\n' ∉ rest.takeWhile (· != '\n') := fun hmem => by
    simpa using List.all_eq_true.mp List.all_takeWhile _ hmem
  have hend : (rest.dropWhile (· != '\n')).head?.all (· == '\n') = true := by
    have hnot := List.head?_dropWhile_not (· != '\n') rest
    cases hhead : (rest.dropWhile (· != '\n')).head? with
    | none => rfl
    | some c => simpa [hhead] using hnot
  have hcomment := gapFrom_comment hopen hend false
  rwa [List.takeWhile_append_dropWhile] at hcomment

/-- **A gap** is taken step by step. -/
theorem gap_eq_gapStep (s : List Char) : gap s = gapStep s + gap (s.drop (gapStep s)) := by
  rw [gap_eq_blanks s]
  unfold gapStep
  generalize (s.takeWhile isBlank).length = blanks
  dsimp only
  by_cases hslashes : "//".toList <+: s.drop blanks
  · rw [if_pos hslashes]
    obtain ⟨rest, hrest⟩ := hslashes
    have hbehind : s.drop (blanks + ((s.drop blanks).takeWhile (· != '\n')).length) =
        rest.dropWhile (· != '\n') := by
      rw [← List.drop_drop, drop_length_takeWhile, ← hrest]
      rfl
    have hline : (("//".toList ++ rest).takeWhile (· != '\n')).length =
        (rest.takeWhile (· != '\n')).length + 2 := rfl
    rw [hbehind, ← hrest, gap_slashes, hline]
    omega
  · rw [if_neg hslashes]

/-- The scanner of offsets gives the offset behind what the measure finds there. -/
def Marks (scan : List Char → Nat → Nat) (f : List Char → Nat) (text : List Char) (offset : Nat) :
    Prop :=
  scan text offset = offsetBehind text offset (f (fromOffset text offset))

/-- A scanner that is started behind what others have found. -/
theorem Marks.behind {scan : List Char → Nat → Nat} {f : List Char → Nat} {k : Nat}
    (h : Marks scan f text (offsetBehind text offset k)) :
    scan text (offsetBehind text offset k) =
      offsetBehind text offset (k + f ((fromOffset text offset).drop k)) := by
  rw [h, fromOffset_offsetBehind, offsetBehind_offsetBehind]

theorem marks_gapStep (text : List Char) (offset : Nat) : Marks gapStepAt gapStep text offset := by
  have hblank : Ascii isBlank := fun c hc => by
    have := isBlank_iff.mp hc
    omega
  unfold Marks gapStepAt gapStep
  simp only [runEnd_eq hblank, beginsAt_iff (w := "//".toList) (by decide), fromOffset_offsetBehind]
  generalize ((fromOffset text offset).takeWhile isBlank).length = blanks
  by_cases hslashes : "//".toList <+: (fromOffset text offset).drop blanks
  · have hne : fromOffset text (offsetBehind text offset blanks) ≠ [] := by
      rw [fromOffset_offsetBehind]
      rintro hnil
      rw [hnil] at hslashes
      exact absurd hslashes (by decide)
    rw [if_pos hslashes, if_pos hslashes, runEnd_line_eq hne, fromOffset_offsetBehind,
      offsetBehind_offsetBehind]
  · rw [if_neg hslashes, if_neg hslashes]

/-- **Gaps**, comments with characters of several bytes in them included. -/
theorem marks_gap (text : List Char) (offset : Nat) : Marks gapAt gap text offset := by
  unfold Marks
  fun_induction gapAt text offset with
  | case1 offset stop _ ih =>
      have hstop : stop = offsetBehind text offset (gapStep (fromOffset text offset)) :=
        marks_gapStep text offset
      rw [ih, hstop, fromOffset_offsetBehind, offsetBehind_offsetBehind, ← gap_eq_gapStep]
  | case2 offset stop hstay =>
      have hstop : stop = offsetBehind text offset (gapStep (fromOffset text offset)) :=
        marks_gapStep text offset
      have hzero : gapStep (fromOffset text offset) = 0 := by
        by_contra hne
        exact hstay (hstop ▸ (lt_offsetBehind_iff fun hnil => hnil ▸ rfl).mpr hne)
      rw [hstop, hzero, gap_of_gapStep hzero]

theorem gapAt_eq (text : List Char) (offset : Nat) :
    gapAt text offset = offsetBehind text offset (gap (fromOffset text offset)) :=
  marks_gap text offset

/-- A gap behind what has been found. -/
theorem gapAt_behind (text : List Char) (offset k : Nat) :
    gapAt text (offsetBehind text offset k) =
      offsetBehind text offset (k + gap ((fromOffset text offset).drop k)) :=
  (marks_gap text _).behind

end Gaps

/-! ## Modifiers -/

/-- The length of a gap and of the small letters that follow it. -/
def wordLength (s : List Char) : Nat :=
  gap s + ((s.drop (gap s)).takeWhile Char.isLower).length

section Modifiers

variable {s text blanks w : List Char} {offset : Nat} {c : Char}

theorem mem_dropWhile {p : Char → Bool} (hmem : c ∈ s) (hc : p c = false) : c ∈ s.dropWhile p := by
  rw [← List.takeWhile_append_dropWhile (p := p) (l := s), List.mem_append] at hmem
  refine hmem.resolve_left fun htake => ?_
  have hp := List.all_eq_true.mp List.all_takeWhile c htake
  rw [hc] at hp
  cases hp

theorem mem_trim (hmem : c ∈ s) (hc : isSpace c = false) : c ∈ trim s := by
  unfold trim trimRight trimRightIf trimLeft
  exact List.mem_reverse.mpr (mem_dropWhile (List.mem_reverse.mpr (mem_dropWhile hmem hc)) hc)

/-- A word is what is left when the blanks before it are taken away. -/
theorem trim_blanks_append (hblanks : blanks.all isBlank = true) (hw : w.all (!isSpace ·) = true) :
    trim (blanks ++ w) = w := by
  have hkeep (w : List Char) (hw : w.all (!isSpace ·) = true) : w.dropWhile isSpace = w := by
    cases w with
    | nil => rfl
    | cons c w => exact List.dropWhile_cons_of_neg (by simp_all)
  have hspaces : ∀ c ∈ blanks, isSpace c = true := fun c hc =>
    isSpace_of_isBlank (List.all_eq_true.mp hblanks c hc)
  rw [trim, trimLeft, List.dropWhile_append_of_pos hspaces, hkeep w hw, trimRight, trimRightIf,
    hkeep _ (by rwa [List.all_reverse]), List.reverse_reverse]

/-- A text without its blanks in front does not begin with a blank. -/
theorem exists_split_blanks (s : List Char) :
    ∃ blanks rest, s = blanks ++ rest ∧ blanks.all isBlank = true ∧ s.takeWhile isBlank = blanks ∧
      rest.takeWhile isBlank = [] := by
  refine ⟨s.takeWhile isBlank, s.dropWhile isBlank, List.takeWhile_append_dropWhile.symm,
    List.all_takeWhile, rfl, ?_⟩
  have hnot := List.head?_dropWhile_not isBlank s
  cases hrest : s.dropWhile isBlank with
  | nil => rfl
  | cons c rest =>
      rw [hrest] at hnot
      exact List.takeWhile_cons_of_neg (Bool.eq_false_iff.mp hnot)

/-- Before a modifier there is nothing but blanks: a comment in the gap would be left standing. -/
theorem modifierLength_eq_wordLength (s : List Char) :
    modifierLength s =
      if typeModifiers.contains (trim (s.take (wordLength s))) then wordLength s else 0 := by
  obtain ⟨blanks, rest, rfl, hblanks, htake, hrest⟩ := exists_split_blanks s
  have hgap : gap (blanks ++ rest) = blanks.length + gap rest := gap_blanks_append hblanks rest
  simp only [modifierLength, wordLength, htake, hgap, List.drop_left, List.drop_length_add_append,
    Nat.add_assoc, List.take_length_add_append]
  by_cases hslashes : "//".toList <+: rest
  · obtain ⟨rest, rfl⟩ := hslashes
    have hopen : gap ("//".toList ++ rest) ≠ 0 := by
      intro hzero
      exact (gap_cons_eq_zero_iff (c := '/') (s := '/' :: rest)).mp hzero |>.2 rfl rfl
    generalize hn : gap ("//".toList ++ rest) + _ = n
    have hslash : '/' ∈ trim (blanks ++ ("//".toList ++ rest).take n) := by
      obtain ⟨k, rfl⟩ : ∃ k, n = k + 1 := ⟨n - 1, by omega⟩
      exact mem_trim (List.mem_append_right _ List.mem_cons_self) (by decide)
    have hnone : ∀ w ∈ typeModifiers, '/' ∉ w := by decide
    have hempty : ("//".toList ++ rest).takeWhile Char.isLower = [] := rfl
    rw [hempty, if_neg (by decide), if_neg]
    rw [List.contains_iff_mem]
    exact fun hmem => hnone _ hmem hslash
  · have hnone : gap rest = 0 := gap_eq_zero hrest hslashes
    have hword : (rest.takeWhile Char.isLower).all (!isSpace ·) = true := by
      refine List.all_eq_true.mpr fun c hc => ?_
      have hlower := List.all_eq_true.mp List.all_takeWhile c hc
      simp [isSpace_eq_false_of_isNameChar (isNameChar_of_isLower hlower)]
    have hprefix := List.prefix_iff_eq_take.mp (List.takeWhile_prefix (l := rest) Char.isLower)
    rw [hnone, Nat.zero_add, List.drop_zero, ← hprefix, trim_blanks_append hblanks hword]

theorem marks_word (text : List Char) (offset : Nat) : Marks wordEnd wordLength text offset := by
  have hlower : Ascii Char.isLower := fun c hc => by
    unfold Char.isLower at hc
    simp only [Bool.and_eq_true, decide_eq_true_eq, UInt32.le_iff_toNat_le] at hc
    exact Nat.lt_of_le_of_lt hc.2 (by decide)
  rw [Marks, wordEnd, runEnd_eq hlower, gapAt_eq, fromOffset_offsetBehind, offsetBehind_offsetBehind,
    wordLength]

theorem isModifierAt_wordEnd (text : List Char) (offset : Nat) :
    isModifierAt text offset (wordEnd text offset) = typeModifiers.contains
      (trim ((fromOffset text offset).take (wordLength (fromOffset text offset)))) := by
  have hword : wordEnd text offset = _ := marks_word text offset
  rw [isModifierAt, hword, slice_offsetBehind]

/-- **Modifiers**, one after the other. -/
theorem marks_modifiers (text : List Char) (offset : Nat) :
    Marks modifiersAt modifiersLength text offset := by
  unfold Marks
  fun_induction modifiersAt text offset with
  | case1 offset stop hmodifier ih =>
      have hstop : stop = offsetBehind text offset (wordLength (fromOffset text offset)) :=
        marks_word text offset
      have hlength : modifierLength (fromOffset text offset) = wordLength (fromOffset text offset) := by
        rw [modifierLength_eq_wordLength, if_pos (isModifierAt_wordEnd text offset ▸ hmodifier)]
      have hne : wordLength (fromOffset text offset) ≠ 0 := by
        intro hzero
        rw [hstop, hzero, offsetBehind_zero] at hmodifier
        exact Nat.lt_irrefl _ (lt_of_isModifierAt hmodifier).1
      rw [ih, hstop, fromOffset_offsetBehind, offsetBehind_offsetBehind,
        modifiersLength_eq (fromOffset text offset), hlength, if_neg hne]
  | case2 offset stop hmodifier =>
      have hlength : modifierLength (fromOffset text offset) = 0 := by
        rw [modifierLength_eq_wordLength, if_neg (isModifierAt_wordEnd text offset ▸ hmodifier)]
      rw [modifiersLength_eq, if_pos hlength, offsetBehind_zero]

end Modifiers

end CppDoc.Syntax
