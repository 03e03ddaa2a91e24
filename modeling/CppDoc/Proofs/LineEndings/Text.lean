import CppDoc.Proofs.Text.Search
import CppDoc.Text.Blank
import Mathlib.Data.List.Induction

/-!
# Line endings

`crlf` puts a carriage return before each line feed of a text.  Both are white space, and whatever
treats them alike does the same to a text and to its `crlf`: it finds the same words, and stops at the
same place.

* `drop_crlf` and `take_crlf`: a place of the text in its `crlf`, which `width` measures;
* `takeWhile_crlf`, `prefix_crlf_iff` and `find?_crlf`: runs of characters and texts that are looked for;
* `words_crlf` and the lemmas behind it: what is left when white space is cleaned up.
-/

namespace CppDoc.Text

/-- A text with a carriage return before each line feed. -/
def crlf : List Char → List Char
  | [] => []
  | c :: rest => if c = '\n' then '\r' :: '\n' :: crlf rest else c :: crlf rest

theorem crlf_feed (s : List Char) : crlf ('\n' :: s) = '\r' :: '\n' :: crlf s := rfl

theorem crlf_cons {c : Char} (hc : c ≠ '\n') (s : List Char) : crlf (c :: s) = c :: crlf s :=
  if_neg hc

theorem crlf_append (s t : List Char) : crlf (s ++ t) = crlf s ++ crlf t := by
  induction s with
  | nil => rfl
  | cons c rest ih =>
      simp only [List.cons_append, crlf, ih]
      split <;> rfl

theorem crlf_eq_self {s : List Char} (h : '\n' ∉ s) : crlf s = s := by
  induction s with
  | nil => rfl
  | cons c rest ih =>
      obtain ⟨hc, hrest⟩ := not_or.mp (mt List.mem_cons.mpr h)
      rw [crlf_cons (Ne.symm hc), ih hrest]

theorem crlf_eq_nil_iff {s : List Char} : crlf s = [] ↔ s = [] := by
  cases s with
  | nil => exact Iff.rfl
  | cons c rest =>
      simp only [crlf]
      split <;> simp

/-- No line is added. -/
theorem count_crlf (s : List Char) : (crlf s).count '\n' = s.count '\n' := by
  induction s with
  | nil => rfl
  | cons c rest ih =>
      by_cases hc : c = '\n'
      · subst hc
        simp [crlf, ih]
      · rw [crlf_cons hc, List.count_cons, List.count_cons, ih]

theorem length_crlf (s : List Char) : (crlf s).length = s.length + s.count '\n' := by
  induction s with
  | nil => rfl
  | cons c rest ih =>
      by_cases hc : c = '\n'
      · subst hc
        rw [crlf_feed, List.length_cons, List.length_cons, List.length_cons, ih, List.count_cons_self]
        omega
      · rw [crlf_cons hc, List.length_cons, List.length_cons, ih, List.count_cons_of_ne hc]
        omega

theorem head?_crlf {c : Char} (hfeed : c ≠ '\n') (hreturn : c ≠ '\r') (s : List Char) :
    (crlf s).head? = some c ↔ s.head? = some c := by
  cases s with
  | nil => exact Iff.rfl
  | cons d rest =>
      by_cases hd : d = '\n'
      · subst hd
        simp [crlf_feed, Ne.symm hfeed, Ne.symm hreturn]
      · rw [crlf_cons hd]
        rfl

/-- The text has no line ending in it. -/
def OneLine (s : List Char) : Prop :=
  '\n' ∉ s ∧ '\r' ∉ s

instance (s : List Char) : Decidable (OneLine s) :=
  inferInstanceAs (Decidable (_ ∧ _))

theorem OneLine.of_cons {c : Char} {s : List Char} (h : OneLine (c :: s)) :
    (c ≠ '\n' ∧ c ≠ '\r') ∧ OneLine s := by
  obtain ⟨hfeed, hs⟩ := not_or.mp (mt List.mem_cons.mpr h.1)
  obtain ⟨hreturn, hs'⟩ := not_or.mp (mt List.mem_cons.mpr h.2)
  exact ⟨⟨Ne.symm hfeed, Ne.symm hreturn⟩, hs, hs'⟩

theorem OneLine.append {s t : List Char} (hs : OneLine s) (ht : OneLine t) : OneLine (s ++ t) :=
  ⟨fun h => (List.mem_append.mp h).elim hs.1 ht.1, fun h => (List.mem_append.mp h).elim hs.2 ht.2⟩

/-! ## Places -/

/-- The number of characters that the first `n` characters of a text become. -/
def width (s : List Char) (n : Nat) : Nat :=
  (crlf (s.take n)).length

section Places

variable (s : List Char)

theorem crlf_split (n : Nat) : crlf s = crlf (s.take n) ++ crlf (s.drop n) := by
  rw [← crlf_append, List.take_append_drop]

theorem drop_crlf (n : Nat) : (crlf s).drop (width s n) = crlf (s.drop n) := by
  rw [crlf_split s n]
  exact List.drop_left

theorem take_crlf (n : Nat) : (crlf s).take (width s n) = crlf (s.take n) := by
  rw [crlf_split s n]
  exact List.take_left

@[simp] theorem width_zero : width s 0 = 0 := by
  simp [width, crlf]

theorem width_length : width s s.length = (crlf s).length := by
  rw [width, List.take_length]

theorem width_add (m n : Nat) : width s (m + n) = width s m + width (s.drop m) n := by
  rw [width, List.take_add, crlf_append, List.length_append]
  rfl

theorem width_append (t : List Char) (n : Nat) :
    width (s ++ t) (s.length + n) = (crlf s).length + width t n := by
  rw [width_add, List.drop_left, width, List.take_left]

theorem width_cons {c : Char} (hc : c ≠ '\n') (n : Nat) : width (c :: s) (n + 1) = width s n + 1 := by
  rw [width, List.take_succ_cons, crlf_cons hc]
  rfl

theorem width_feed (n : Nat) : width ('\n' :: s) (n + 1) = width s n + 2 := rfl

/-- A part that becomes no longer has no line feeds. -/
theorem crlf_take_of_width {s : List Char} {n : Nat} (h : width s n = n) (hn : n ≤ s.length) :
    crlf (s.take n) = s.take n := by
  rw [width, length_crlf, List.length_take, Nat.min_eq_left hn] at h
  exact crlf_eq_self (List.count_eq_zero.mp (by omega))

/-- Nothing becomes nothing. -/
theorem width_eq_zero_iff {s : List Char} {n : Nat} (h : s = [] → n = 0) : width s n = 0 ↔ n = 0 := by
  rw [width, List.length_eq_zero_iff, crlf_eq_nil_iff, List.take_eq_nil_iff]
  exact ⟨fun hor => hor.elim id h, .inl⟩

/-- Of two ends of one text, the shorter one also has the shorter `crlf`. -/
theorem length_crlf_lt_iff {a b s t : List Char} (h : a ++ s = b ++ t) :
    (crlf t).length < (crlf s).length ↔ t.length < s.length := by
  have hlonger {p q : List Char} (hpq : q <:+ p) (hlt : q.length < p.length) :
      (crlf q).length < (crlf p).length := by
    rw [length_crlf, length_crlf]
    exact Nat.add_lt_add_of_lt_of_le hlt (hpq.sublist.count_le _)
  have hends : s <:+ t ∨ t <:+ s :=
    List.suffix_or_suffix_of_suffix (List.suffix_append a s) (h ▸ List.suffix_append b t)
  rcases hends with hst | hts
  · rcases Nat.lt_or_eq_of_le hst.length_le with hless | hsame
    · exact iff_of_false (Nat.lt_asymm (hlonger hst hless)) (Nat.lt_asymm hless)
    · obtain rfl := hst.eq_of_length hsame
      exact iff_of_false (Nat.lt_irrefl _) (Nat.lt_irrefl _)
  · rcases Nat.lt_or_eq_of_le hts.length_le with hless | hsame
    · exact iff_of_true (hlonger hts hless) hless
    · obtain rfl := hts.eq_of_length hsame
      exact iff_of_false (Nat.lt_irrefl _) (Nat.lt_irrefl _)

end Places

/-! ## Runs of characters -/

section Runs

variable {p : Char → Bool} (hp : p '\r' = p '\n') (s : List Char)

include hp

theorem head?_crlf_any : (crlf s).head?.any p = s.head?.any p := by
  cases s with
  | nil => rfl
  | cons c rest =>
      by_cases hc : c = '\n'
      · subst hc
        exact hp
      · rw [crlf_cons hc]
        rfl

theorem takeWhile_crlf : (crlf s).takeWhile p = crlf (s.takeWhile p) := by
  induction s with
  | nil => rfl
  | cons c rest ih =>
      by_cases hc : c = '\n'
      · subst hc
        rw [crlf_feed, List.takeWhile_cons, List.takeWhile_cons, List.takeWhile_cons, ih, hp]
        split <;> rfl
      · rw [crlf_cons hc, List.takeWhile_cons, List.takeWhile_cons, ih]
        split
        · rw [crlf_cons hc]
        · rfl

theorem length_takeWhile_crlf :
    ((crlf s).takeWhile p).length = width s (s.takeWhile p).length := by
  rw [takeWhile_crlf hp, width, ← List.prefix_iff_eq_take.mp (List.takeWhile_prefix p)]

/-- A run that line feeds end. -/
theorem takeWhile_crlf_eq (hfeed : p '\n' = false) : (crlf s).takeWhile p = s.takeWhile p := by
  rw [takeWhile_crlf hp, crlf_eq_self]
  intro hmem
  have hall := List.all_eq_true.mp (List.all_takeWhile (p := p) (l := s)) _ hmem
  exact nomatch hfeed.symm.trans hall

theorem dropWhile_crlf : (crlf s).dropWhile p = crlf (s.dropWhile p) := by
  induction s with
  | nil => rfl
  | cons c rest ih =>
      by_cases hc : c = '\n'
      · subst hc
        rw [crlf_feed, List.dropWhile_cons, List.dropWhile_cons, List.dropWhile_cons, ih, hp]
        split <;> rfl
      · rw [crlf_cons hc, List.dropWhile_cons, List.dropWhile_cons, ih]
        split
        · rfl
        · rw [crlf_cons hc]

end Runs

/-! ## Texts that are looked for -/

section Search

variable {w : List Char} (hw : OneLine w) (s : List Char)

include hw

/-- A text on one line stands at the head of a text or of neither. -/
theorem prefix_crlf_iff : w <+: crlf s ↔ w <+: s := by
  induction w generalizing s with
  | nil => simp
  | cons d w ih =>
      obtain ⟨⟨hd, hd'⟩, hw⟩ := hw.of_cons
      cases s with
      | nil => exact Iff.rfl
      | cons c rest =>
          by_cases hc : c = '\n'
          · subst hc
            simp [crlf_feed, List.cons_prefix_cons, hd, hd']
          · rw [crlf_cons hc, List.cons_prefix_cons, List.cons_prefix_cons, ih hw]

theorem isPrefixOf_crlf : w.isPrefixOf (crlf s) = w.isPrefixOf s := by
  rw [Bool.eq_iff_iff, List.isPrefixOf_iff_prefix, List.isPrefixOf_iff_prefix,
    prefix_crlf_iff hw]

theorem find?_crlf : find? w (crlf s) = (find? w s).map (width s) := by
  induction s with
  | nil => cases w <;> rfl
  | cons c rest ih =>
      have hhere := isPrefixOf_crlf hw (c :: rest)
      by_cases hbegins : w.isPrefixOf (c :: rest) = true
      · rw [hbegins] at hhere
        have hfound : find? w (crlf (c :: rest)) = some 0 := by
          cases hcrlf : crlf (c :: rest) with
          | nil => exact absurd (crlf_eq_nil_iff.mp hcrlf) (List.cons_ne_nil c rest)
          | cons d tail => rw [find?, if_pos (hcrlf ▸ hhere)]
        rw [hfound, find?, if_pos hbegins, Option.map_some, width_zero]
      · rw [find?, if_neg hbegins, Option.map_map]
        by_cases hc : c = '\n'
        · subst hc
          have hbehind : ¬ w.isPrefixOf ('\n' :: crlf rest) = true := by
            cases w with
            | nil => exact absurd rfl hbegins
            | cons d w =>
                have hd := hw.of_cons.1.1
                simp [hd]
          rw [crlf_feed] at hhere ⊢
          rw [find?, if_neg (hhere ▸ hbegins), find?, if_neg hbehind, ih, Option.map_map, Option.map_map]
          rfl
        · rw [crlf_cons hc] at hhere ⊢
          rw [find?, if_neg (hhere ▸ hbegins), ih, Option.map_map]
          congr 1
          funext n
          exact (width_cons rest hc n).symm

theorem occurs_crlf : occurs w (crlf s) = occurs w s := by
  rw [occurs, occurs, find?_crlf hw, Option.isSome_map]

end Search

/-- A text behind a line feed is found behind the carriage return that has been put there. -/
theorem find?_crlf_feed {w : List Char} (hw : OneLine w) (s : List Char) :
    find? ('\n' :: w) (crlf s) = (find? ('\n' :: w) s).map (width s · + 1) := by
  induction s with
  | nil => rfl
  | cons c rest ih =>
      by_cases hc : c = '\n'
      · subst hc
        have hreturned : ¬ ('\n' :: w).isPrefixOf ('\r' :: '\n' :: crlf rest) = true := by simp
        have hhere : ('\n' :: w).isPrefixOf ('\n' :: crlf rest) = ('\n' :: w).isPrefixOf ('\n' :: rest) := by
          simp only [List.isPrefixOf, isPrefixOf_crlf hw]
        rw [crlf_feed, find?, if_neg hreturned, find?, find?, hhere, ih]
        split
        · rfl
        · simp only [Option.map_map]
          rfl
      · have hno (t : List Char) : ¬ ('\n' :: w).isPrefixOf (c :: t) = true := by
          simp [Ne.symm hc]
        rw [crlf_cons hc, find?, if_neg (hno _), find?, if_neg (hno _), ih, Option.map_map,
          Option.map_map]
        congr 1
        funext n
        simp only [Function.comp_apply, width_cons rest hc]

/-- The length of a text up to the first `w` and with it, or to the end. -/
def lengthPast (w s : List Char) : Nat :=
  ((find? w s).map (· + w.length)).getD s.length

theorem width_of_find? {w s : List Char} {n : Nat} (h : find? w s = some n) :
    width s (n + w.length) = width s n + (crlf w).length := by
  rw [width_add, drop_of_find? h]
  exact congrArg _ (by rw [width, List.take_left])

theorem lengthPast_crlf {w : List Char} (hw : OneLine w) (s : List Char) :
    lengthPast w (crlf s) = width s (lengthPast w s) := by
  rw [lengthPast, lengthPast, find?_crlf hw]
  cases hfound : find? w s with
  | none => exact (width_length s).symm
  | some n =>
      simp only [Option.map_some, Option.getD_some]
      rw [width_of_find? hfound, crlf_eq_self hw.1]

/-- A text behind a line feed. -/
theorem lengthPast_crlf_feed {w : List Char} (hw : OneLine w) (s : List Char) :
    lengthPast ('\n' :: w) (crlf s) = width s (lengthPast ('\n' :: w) s) := by
  rw [lengthPast, lengthPast, find?_crlf_feed hw]
  cases hfound : find? ('\n' :: w) s with
  | none => exact (width_length s).symm
  | some n =>
      simp only [Option.map_some, Option.getD_some]
      rw [width_of_find? hfound, crlf_feed, crlf_eq_self hw.1]
      simp only [List.length_cons]
      omega

/-! ## White space that is cleaned up -/

theorem words_crlf (s : List Char) : words (crlf s) = words s := by
  induction s with
  | nil => rfl
  | cons c rest ih =>
      by_cases hc : c = '\n'
      · subst hc
        have hspace : isSpace '\r' = true ∧ isSpace '\n' = true := ⟨rfl, rfl⟩
        simp [crlf_feed, words, hspace, ih]
      · have hhead : (crlf rest).head?.all isSpace = rest.head?.all isSpace := by
          cases rest with
          | nil => rfl
          | cons d rest =>
              by_cases hd : d = '\n'
              · subst hd
                rfl
              · rw [crlf_cons hd]
                rfl
        rw [crlf_cons hc, words, words, hhead, ih]

theorem simplify_crlf (s : List Char) : simplify (crlf s) = simplify s := by
  rw [simplify, words_crlf, simplify]

theorem spaceless_crlf (s : List Char) : spaceless (crlf s) = spaceless s := by
  induction s with
  | nil => rfl
  | cons c rest ih =>
      simp only [spaceless] at ih
      by_cases hc : c = '\n'
      · subst hc
        have hspace : isSpace '\r' = true ∧ isSpace '\n' = true := ⟨rfl, rfl⟩
        simp [spaceless, crlf_feed, hspace, ih]
      · rw [crlf_cons hc, spaceless, spaceless, List.filter_cons, List.filter_cons, ih]

theorem trimLeft_crlf (s : List Char) : trimLeft (crlf s) = crlf (trimLeft s) :=
  dropWhile_crlf rfl s

theorem trimRight_concat (s : List Char) (c : Char) :
    trimRight (s ++ [c]) = if isSpace c then trimRight s else s ++ [c] := by
  simp only [trimRight, trimRightIf, List.reverse_append, List.reverse_singleton,
    List.singleton_append, List.dropWhile_cons]
  split
  · rfl
  · simp

theorem trimRight_crlf (s : List Char) : trimRight (crlf s) = crlf (trimRight s) := by
  induction s using List.reverseRecOn with
  | nil => rfl
  | append_singleton s c ih =>
      rw [crlf_append, trimRight_concat]
      by_cases hc : c = '\n'
      · subst hc
        have hfeed : crlf s ++ crlf ['\n'] = crlf s ++ ['\r'] ++ ['\n'] := by simp [crlf]
        rw [hfeed, trimRight_concat, if_pos (by rfl), trimRight_concat, if_pos (by rfl), if_pos (by rfl), ih]
      · rw [crlf_cons hc, crlf, trimRight_concat, ih]
        split
        · rfl
        · rw [crlf_append, crlf_cons hc, crlf]

/-! ## Strings -/

/-- A text with a carriage return before each line feed, as a string. -/
def crlfText (s : String) : String :=
  String.ofList (crlf s.toList)

@[simp] theorem toList_crlfText (s : String) : (crlfText s).toList = crlf s.toList :=
  String.toList_ofList

theorem isEmpty_crlfText (s : String) : (crlfText s).isEmpty = s.isEmpty := by
  rw [Bool.eq_iff_iff, String.isEmpty_iff, String.isEmpty_iff, ← String.toList_inj,
    ← String.toList_inj, toList_crlfText]
  exact crlf_eq_nil_iff

end CppDoc.Text
