import CppDoc.Proofs.Syntax.Cleaning

/-!
# Modifiers before the name of a type

The modifiers of a type are words before its name.  Where a name only begins with the letters of a
modifier, the scanner cuts it in two, and nothing comes of that unless a digit follows the letters,
since no name begins with a digit.  And of keywords that stand side by side behind another modifier,
some are kept.

* `LaidModifier`: a modifier with the blanks behind it;
* `Doubled` and `cleanWords_eq_unkeyed_iff`: the modifiers among which a keyword stays;
* `readType_word`: what is read of modifiers and a name, and when that is what is written there.
-/

namespace CppDoc.Syntax

open CppDoc.Text

/-! ## Keywords side by side -/

section Keywords

variable {k l w : List Char} {ws ms : List (List Char)}

/-- Only the keyword is dropped. -/
theorem filter_dropBetween (k : List Char) (ws : List (List Char)) :
    (dropBetween k ws).filter (· != k) = ws.filter (· != k) := by
  induction ws using dropBetween.induct k with
  | case1 v ws ih =>
      have hkey : (k != k) = false := by simp
      rw [dropBetween, if_pos rfl, List.filter_cons_of_neg (a := k) (by rw [hkey]; decide),
        List.filter_cons, List.filter_cons, ih]
  | case2 w v ws hkey ih => rw [dropBetween, if_neg hkey, List.filter_cons, List.filter_cons, ih]
  | case3 ws hshort =>
      unfold dropBetween
      split
      · exact absurd rfl (hshort _ _ _)
      · rfl

/-- Other words are left in. -/
theorem mem_dropBetween_of_ne (hw : w ≠ k) : w ∈ dropBetween k ws ↔ w ∈ ws := by
  have hsame := filter_dropBetween k ws
  have hmem (vs : List (List Char)) : w ∈ vs ↔ w ∈ vs.filter (· != k) := by
    simp [List.mem_filter, hw]
  rw [hmem, hsame, ← hmem]

/-- Behind another word, a pair of words begins later. -/
theorem pair_cons_of_ne (hw : w ≠ k) : [k, k] <:+: w :: ws ↔ [k, k] <:+: ws := by
  rw [List.infix_cons_iff]
  refine or_iff_right ?_
  rintro ⟨t, ht⟩
  exact hw (List.cons.inj ht).1.symm

/-- **A keyword stays** if and only if it stands twice in a row somewhere. -/
theorem mem_dropBetween_concat (hl : l ≠ k) :
    k ∈ dropBetween k (ws ++ [l]) ↔ [k, k] <:+: ws := by
  induction ws using dropBetween.induct k with
  | case1 v ws ih =>
      rw [List.cons_append, List.cons_append, dropBetween, if_pos rfl, List.mem_cons, ih]
      by_cases hv : v = k
      · rw [hv]
        exact ⟨fun _ => ⟨[], ws, rfl⟩, fun _ => .inl rfl⟩
      · rw [List.infix_cons_iff, pair_cons_of_ne hv]
        refine or_congr_left ⟨fun h => absurd h.symm hv, ?_⟩
        rintro ⟨t, ht⟩
        exact absurd (List.cons.inj (List.cons.inj ht).2).1.symm hv
  | case2 w v ws hkey ih =>
      rw [List.cons_append, dropBetween_cons hkey, List.mem_cons, ih, pair_cons_of_ne hkey]
      exact or_iff_right fun h => hkey h.symm
  | case3 ws hshort =>
      have hno (u : List Char) : ¬ [k, k] <:+: [u] := fun h => by
        have := h.length_le
        simp at this
      cases ws with
      | nil => simp [dropBetween, hl.symm]
      | cons w ws =>
        cases ws with
        | nil =>
            refine iff_of_false (fun h => ?_) (hno w)
            by_cases hkey : w = k
            · rw [hkey] at h
              simp [dropBetween, hl.symm] at h
            · rw [List.cons_append, dropBetween_cons hkey] at h
              simp [dropBetween, hl.symm, Ne.symm hkey] at h
        | cons v ws => exact absurd rfl (hshort w v ws)

theorem dropLeading_concat_eq (ms : List (List Char)) (l : List Char) :
    dropLeading (ms ++ [l]) = ms.dropWhile isRecord ++ [l] := by
  induction ms with
  | nil => rfl
  | cons m ms ih =>
      rw [List.cons_append, dropLeading_cons_concat, ih, List.dropWhile_cons]
      split <;> rfl

/-- Two keywords `class` stand side by side among the modifiers, or two keywords `struct` once those
are left out; but not at their front, where every keyword is dropped. -/
def Doubled (ms : List (List Char)) : Prop :=
  let behind := ms.dropWhile isRecord
  [RecordKey.ofClass.text, RecordKey.ofClass.text] <:+: behind ∨
    [RecordKey.ofStruct.text, RecordKey.ofStruct.text] <:+:
      behind.filter (· != RecordKey.ofClass.text)

/-- Without doubled keywords `k`, they are gone. -/
theorem dropBetween_concat_eq (hl : l ≠ k) (hno : ¬ [k, k] <:+: ws) :
    dropBetween k (ws ++ [l]) = ws.filter (· != k) ++ [l] := by
  have hgone : ∀ w ∈ dropBetween k (ws ++ [l]), (w != k) = true := by
    intro w hw
    rw [bne_iff_ne]
    rintro rfl
    exact hno ((mem_dropBetween_concat hl).mp hw)
  have hsame := filter_dropBetween k (ws ++ [l])
  rw [List.filter_eq_self.mpr hgone] at hsame
  rw [hsame, List.filter_append, List.filter_cons_of_pos (by simpa using hl), List.filter_nil]

/-- No keyword is left of words behind the first, if and only if none is doubled. -/
theorem keywords_dropped_iff (hl : isRecord l = false) (ws : List (List Char)) :
    (∀ w ∈ dropBetween RecordKey.ofStruct.text (dropBetween RecordKey.ofClass.text (ws ++ [l])),
        isRecord w = false) ↔
      ¬ ([RecordKey.ofClass.text, RecordKey.ofClass.text] <:+: ws ∨
        [RecordKey.ofStruct.text, RecordKey.ofStruct.text] <:+:
          ws.filter (· != RecordKey.ofClass.text)) := by
  have hclass : l ≠ RecordKey.ofClass.text := by
    rintro rfl
    cases hl
  have hstruct : l ≠ RecordKey.ofStruct.text := by
    rintro rfl
    cases hl
  have hfree (kept : List (List Char)) : (∀ w ∈ kept, isRecord w = false) ↔
      RecordKey.ofClass.text ∉ kept ∧ RecordKey.ofStruct.text ∉ kept := by
    constructor
    · exact fun h => ⟨fun hmem => (by cases h _ hmem), fun hmem => (by cases h _ hmem)⟩
    · rintro ⟨hno, hno'⟩ w hw
      rw [Bool.eq_false_iff]
      intro hrecord
      obtain ⟨k, rfl⟩ := isRecord_iff.mp hrecord
      cases k with
      | ofClass => exact hno hw
      | ofStruct => exact hno' hw
  rw [hfree, mem_dropBetween_of_ne (by decide), mem_dropBetween_concat hclass, not_or]
  refine and_congr_right fun hno => ?_
  -- Without doubled `class`, that keyword is gone from the words in which `struct` is looked for.
  rw [dropBetween_concat_eq hclass hno, mem_dropBetween_concat hstruct]

theorem unkeyed_dropBetween (k : RecordKey) (ws : List (List Char)) :
    unkeyed (dropBetween k.text ws) = unkeyed ws := by
  have hfilter (vs : List (List Char)) : unkeyed vs = unkeyed (vs.filter (· != k.text)) := by
    rw [unkeyed, unkeyed, List.filter_filter]
    refine List.filter_congr fun v _ => ?_
    by_cases hv : v = k.text
    · rw [hv, isRecord_iff.mpr ⟨k, rfl⟩]
      rfl
    · rw [bne_iff_ne.mpr hv, Bool.and_true]
  rw [hfilter, filter_dropBetween, ← hfilter]

theorem unkeyed_dropWhile (ms : List (List Char)) : unkeyed (ms.dropWhile isRecord) = unkeyed ms := by
  induction ms with
  | nil => rfl
  | cons m ms ih =>
      rw [List.dropWhile_cons]
      split
      · rename_i hm
        rw [ih, unkeyed, unkeyed, List.filter_cons_of_neg (by simp [hm])]
      · rfl

/-- Dropping keywords leaves the other words. -/
theorem unkeyed_cleanWords_concat (ms : List (List Char)) (l : List Char) :
    unkeyed (cleanWords (ms ++ [l])) = unkeyed (ms ++ [l]) := by
  have hfront : unkeyed (ms.dropWhile isRecord ++ [l]) = unkeyed (ms ++ [l]) := by
    rw [unkeyed_append, unkeyed_dropWhile, unkeyed_append]
  rw [cleanWords, dropLeading_concat_eq, ← hfront]
  cases ms.dropWhile isRecord with
  | nil => rfl
  | cons m vs =>
      have hcons (ws : List (List Char)) : unkeyed (m :: ws) = unkeyed [m] ++ unkeyed ws :=
        unkeyed_append [m] ws
      rw [List.cons_append]
      dsimp only
      rw [hcons, unkeyed_dropBetween .ofStruct, unkeyed_dropBetween .ofClass, ← hcons]

theorem mem_of_mem_cleanWords (h : w ∈ cleanWords ws) : w ∈ ws := by
  rw [cleanWords] at h
  split at h
  · cases h
  · rename_i v vs hlead
    rcases List.mem_cons.mp h with rfl | h
    · exact mem_of_mem_dropLeading (hlead ▸ List.mem_cons_self)
    · have hmem := mem_of_mem_dropBetween (mem_of_mem_dropBetween h)
      exact mem_of_mem_dropLeading (hlead ▸ List.mem_cons_of_mem v hmem)

/-- **The keywords are dropped** if and only if none is doubled. -/
theorem cleanWords_eq_unkeyed_iff (hl : isRecord l = false) (ms : List (List Char)) :
    cleanWords (ms ++ [l]) = unkeyed (ms ++ [l]) ↔ ¬ Doubled ms := by
  have hfree : cleanWords (ms ++ [l]) = unkeyed (ms ++ [l]) ↔
      ∀ w ∈ cleanWords (ms ++ [l]), isRecord w = false := by
    rw [← unkeyed_cleanWords_concat]
    constructor
    · exact fun h w hw => isRecord_of_mem_unkeyed (h ▸ hw)
    · exact fun h => (unkeyed_eq_self h).symm
  rw [hfree, cleanWords, dropLeading_concat_eq, Doubled]
  have hfirst := List.head?_dropWhile_not isRecord ms
  cases hbehind : ms.dropWhile isRecord with
  | nil => simp [hl, dropBetween]
  | cons m vs =>
      rw [hbehind] at hfirst
      have hm : isRecord m = false := hfirst
      have hclass : m ≠ RecordKey.ofClass.text := by
        rintro rfl
        cases hm
      have hstruct : m ≠ RecordKey.ofStruct.text := by
        rintro rfl
        cases hm
      dsimp only [List.cons_append]
      rw [pair_cons_of_ne hclass, List.filter_cons_of_pos (by simpa using hclass),
        pair_cons_of_ne hstruct, ← keywords_dropped_iff hl, List.forall_mem_cons]
      exact and_iff_right hm

end Keywords

/-! ## Modifiers as they are laid out -/

/-- A modifier with the blanks behind it. -/
structure LaidModifier where
  word : List Char
  gap : List Char
  known : word ∈ typeModifiers
  blank : gap.all isBlank = true
  apart : gap ≠ []

/-- Modifiers as they are laid out before a type. -/
def laidModifiers (ms : List LaidModifier) : List Char :=
  ms.flatMap fun m => m.word ++ m.gap

section Laid

variable {E : Prop} {w x p : List Char}

theorem laidModifiers_cons (m : LaidModifier) (ms : List LaidModifier) (x : List Char) :
    laidModifiers (m :: ms) ++ x = m.word ++ (m.gap ++ (laidModifiers ms ++ x)) := by
  simp [laidModifiers]

/-- Modifiers before a type are part of it. -/
theorem SpelledType.behind_laid (hx : SpelledType E x) (ms : List LaidModifier) :
    SpelledType E (laidModifiers ms ++ x) := by
  induction ms with
  | nil => exact hx
  | cons m ms ih =>
      rw [laidModifiers_cons]
      exact .modifier m.known m.blank ih fun hnil => absurd hnil m.apart

theorem words_laid (ms : List LaidModifier) (x : List Char) :
    words (laidModifiers ms ++ x) = ms.map LaidModifier.word ++ words x := by
  induction ms with
  | nil => rfl
  | cons m ms ih =>
      have hsolid : ∀ w ∈ typeModifiers, (w.all fun c => !isSpace c) = true ∧ w ≠ [] := by decide
      obtain ⟨hword, hne⟩ := hsolid m.word m.known
      rw [laidModifiers_cons, words_append_gap m.blank m.apart, ih,
        words_eq_singleton (.of_all hword) hne]
      rfl

/-- Modifiers before others are measured with them. -/
theorem modifiersLength_laid (hx : modifierLength x ≠ 0) (ms : List LaidModifier) :
    modifierLength (laidModifiers ms ++ x) ≠ 0 ∧
      modifiersLength (laidModifiers ms ++ x) = (laidModifiers ms).length + modifiersLength x := by
  induction ms with
  | nil => exact ⟨hx, (Nat.zero_add _).symm⟩
  | cons m ms ih =>
      obtain ⟨hmore, hrest⟩ := ih
      have hne : ∀ w ∈ typeModifiers, w.length ≠ 0 := by decide
      have hblank : (m.gap ++ (laidModifiers ms ++ x)).head?.any Char.isLower = false := by
        obtain ⟨c, rest, hgap⟩ := List.exists_cons_of_ne_nil m.apart
        have hc : isBlank c = true := List.all_eq_true.mp m.blank c (hgap ▸ List.mem_cons_self)
        rw [hgap]
        exact head?_not_isLower (head?_blanks_append (b := [c]) (by simpa using hc) (x := []) rfl)
      have hfirst := modifierLength_of_mem m.known hblank
      have hlength : (laidModifiers (m :: ms)).length =
          m.word.length + (m.gap.length + (laidModifiers ms).length) := by
        have := congrArg List.length (laidModifiers_cons m ms [])
        simpa using this
      rw [laidModifiers_cons, modifiersLength_eq, hfirst, if_neg (hne _ m.known), List.drop_left,
        modifiersLength_indent m.blank, if_neg hmore, hrest, hlength]
      exact ⟨hne _ m.known, by omega⟩

/-! ## Names behind modifiers -/

/-- **A name** is a type, also where the scanner takes its first letters for a modifier, unless a digit
follows these. -/
theorem Identifier.spelledType (hw : Identifier w) (hkey : w ∉ typeModifiers)
    (hwhole : ¬ Numbered w) : SpelledType False w := by
  have hname {v : List Char} (hv : Identifier v) : SpelledBody False v :=
    .name (.word (l := []) .none (hv.word False))
  by_cases hfree : Unmodified w
  · exact .body (hname hw) hfree
  obtain ⟨m, hm, rest, rfl, hrest, hlower, hchars⟩ := exists_modifier hw.chars hfree
  cases rest with
  | nil =>
      rw [List.append_nil] at hkey
      exact absurd hm hkey
  | cons d rest =>
      have hd : isNameChar d = true := List.all_eq_true.mp hchars d List.mem_cons_self
      have hstart : isNameStart d = true := by
        rw [isNameStart_eq_not_isDigit hd, Bool.not_eq_true', Bool.eq_false_iff]
        exact fun hdigit => hwhole ⟨hfree, by rw [hrest]; exact hdigit⟩
      have hfresh : ¬ operatorKeyword <+: d :: rest := by
        rintro ⟨t, ht⟩
        obtain rfl : 'o' = d := (List.cons.inj ht).1
        cases hlower
      have hnone : Unmodified (d :: rest) := by
        have hupper : d.isLower = false := hlower
        rw [Unmodified, List.takeWhile_cons_of_neg (by simp [hupper])]
        decide
      exact .modifier (g := []) hm rfl (.body (hname ⟨hstart, hchars, hfresh⟩) hnone)
        fun _ => hlower

/-- A name that begins with a modifier and a digit is no type. -/
theorem typeLength_laid_numbered (h : Numbered w) (hchars : w.all isNameChar = true)
    (ms : List LaidModifier) (x : List Char) :
    typeLength (laidModifiers ms ++ (w ++ x)) = 0 := by
  obtain ⟨hmodifier, hname⟩ := h.no_name hchars x
  rw [typeLength_eq]
  dsimp only
  rw [(modifiersLength_laid hmodifier ms).2, List.drop_length_add_append, hname, if_pos rfl]

/-- A type in front of a space and a name is read up to the name. -/
theorem SpelledType.readType_append (hx : SpelledType False x)
    (hlast : x.getLast?.any isNameChar = true) (hp : p.head?.any isNameStart = true) :
    readType (x ++ ' ' :: p) = (String.ofList (joined (cleanWords (words x))), x.length + 1) := by
  have hends : EndsSpelled x [] [' '] p := by
    refine ⟨rfl, follows_of_isNameStart hp (by simp [isNameChar]), fun _ htilde => ?_⟩
    rw [htilde] at hlast
    cases hlast
  have hlength : typeLength (x ++ ' ' :: p) = x.length + 1 := by
    rcases typeLength_spelled (i := []) rfl hx .none hends with hlength | hstuck
    · simpa using hlength
    · exact hstuck.operator.elim
  have htake : (x ++ ' ' :: p).take (x.length + 1) = [] ++ (x ++ ([] ++ [' '])) := by
    rw [List.take_length_add_append]
    rfl
  have hclean := cleanType_marked (i := []) (b := [' ']) rfl hx .none rfl fun h => absurd rfl h
  rw [readType, hlength, htake, hclean, spaceless, List.filter_nil, List.append_nil]

/-- **A name behind modifiers**, in front of a space and the name of a parameter.  It is read with its
modifiers, of which the keywords `class` and `struct` are left out, and the reader stops at the name of
the parameter, if and only if the name begins with no modifier that a digit follows, and no keyword is
doubled among the modifiers.  In the first case nothing is read, and in the second a keyword is left
in. -/
theorem readType_word (ms : List LaidModifier) (hw : Identifier w) (hkey : w ∉ typeModifiers)
    (hp : p.head?.any isNameStart = true) :
    let s := laidModifiers ms ++ (w ++ ' ' :: p)
    let front := ms.map LaidModifier.word
    let n := (laidModifiers ms ++ w).length + 1
    (Numbered w → readType s = ("", 0)) ∧
      (¬ Numbered w → readType s = (String.ofList (joined (cleanWords (front ++ [w]))), n)) ∧
      (readType s = (String.ofList (joined (unkeyed front ++ [w])), n) ↔
        ¬ Numbered w ∧ ¬ Doubled front) := by
  intro s front n
  have hnone (hnumbered : Numbered w) : readType s = ("", 0) := by
    rw [readType, typeLength_laid_numbered hnumbered hw.chars]
    rfl
  have hsolid : Solid w := (hw.word True).solid
  have hwords : words (laidModifiers ms ++ w) = front ++ [w] := by
    rw [words_laid, words_eq_singleton hsolid hw.ne_nil]
  have hread (hnumbered : ¬ Numbered w) :
      readType s = (String.ofList (joined (cleanWords (front ++ [w]))), n) := by
    have hlast : (laidModifiers ms ++ w).getLast?.any isNameChar = true := by
      rw [getLast?_append_right hw.ne_nil]
      exact (hw.word True).getLast?
    have hwhole := ((hw.spelledType hkey hnumbered).behind_laid ms).readType_append hlast hp
    rw [hwords, List.append_assoc] at hwhole
    exact hwhole
  refine ⟨hnone, hread, ?_⟩
  by_cases hnumbered : Numbered w
  · refine iff_of_false (fun hsame => ?_) fun h => h.1 hnumbered
    have hlength := congrArg Prod.snd ((hnone hnumbered).symm.trans hsame)
    cases hlength
  have hrecord := isRecord_eq_false hkey
  have hkept : unkeyed [w] = [w] := unkeyed_eq_self (by simpa using hrecord)
  have hunkeyed : unkeyed (front ++ [w]) = unkeyed front ++ [w] := by rw [unkeyed_append, hkept]
  rw [hread hnumbered, ← hunkeyed, and_iff_right hnumbered, ← cleanWords_eq_unkeyed_iff hrecord]
  constructor
  · intro hsame
    -- The words can be read off the text again.
    have hjoined := String.ofList_injective (congrArg Prod.fst hsame)
    have hall : ∀ v ∈ front ++ [w], v ≠ [] ∧ Solid v := fun v hv =>
      solid_of_mem_words (hwords ▸ hv)
    have hkept : ∀ v ∈ cleanWords (front ++ [w]), v ≠ [] ∧ Solid v := fun v hv =>
      hall v (mem_of_mem_cleanWords hv)
    have hleft : ∀ v ∈ unkeyed (front ++ [w]), v ≠ [] ∧ Solid v := fun v hv =>
      hall v (List.mem_filter.mp hv).1
    rw [← words_joined hkept, hjoined, words_joined hleft]
  · intro hsame
    rw [hsame]

/-- A keyword before another modifier and one behind it, and a name that begins with letters of a
modifier. -/
theorem readType_word_constant :
    readType "class const  struct constant x)".toList = ("const constant", 29) := by
  have hread := (readType_word (w := "constant".toList) (p := "x)".toList)
    [⟨"class".toList, " ".toList, by decide, rfl, by decide⟩,
      ⟨"const".toList, "  ".toList, by decide, rfl, by decide⟩,
      ⟨"struct".toList, " ".toList, by decide, rfl, by decide⟩]
    ⟨rfl, rfl, by decide⟩ (by decide) rfl).2.2.mpr
    ⟨by unfold Numbered Unmodified; decide, by unfold Doubled; decide⟩
  exact hread

end Laid

end CppDoc.Syntax
