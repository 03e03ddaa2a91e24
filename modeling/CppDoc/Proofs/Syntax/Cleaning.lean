import CppDoc.Proofs.Syntax.SpelledType
import CppDoc.Proofs.Syntax.Tidy

/-!
# The written form of a type, word by word

The characters of a type are cleaned up as a text: its words are joined by single spaces, and then the
keywords `class` and `struct` are taken out where spaces stand around them.  Here the same is done on
the list of words, and the mark is set apart.

* `cleanWords` and `cleanType_eq_joined`: what is left of the words;
* `cleanType_marked`: the written form of a type with its mark and the blanks around it;
* `Orderly` and `cleanWords_orderly`: where the keywords stand among the modifiers, at most one of
  them, they are dropped and nothing else is.
-/

namespace CppDoc.Syntax

open CppDoc.Text

/-! ## Words -/

/-- The words with single spaces between them. -/
def joined (ws : List (List Char)) : List Char :=
  List.intercalate [' '] ws

/-- The words with a space before each. -/
def behind (ws : List (List Char)) : List Char :=
  ws.flatMap (' ' :: ·)

section Words

variable {s b w : List Char} {ws vs : List (List Char)} {c : Char}

theorem simplify_eq_joined (s : List Char) : simplify s = joined (words s) :=
  rfl

theorem behind_cons (w : List Char) (ws : List (List Char)) :
    behind (w :: ws) = ' ' :: (w ++ behind ws) :=
  rfl

theorem joined_cons (w : List Char) (ws : List (List Char)) :
    joined (w :: ws) = w ++ behind ws := by
  induction ws generalizing w with
  | nil => simp [joined, behind]
  | cons v vs ih =>
      have hrest := ih v
      unfold joined at hrest ⊢
      rw [List.intercalate_cons_cons, hrest, behind_cons]
      simp

theorem joined_append (h : ws ≠ []) (vs : List (List Char)) :
    joined (ws ++ vs) = joined ws ++ behind vs := by
  obtain ⟨w, us, rfl⟩ := List.exists_cons_of_ne_nil h
  rw [List.cons_append, joined_cons, joined_cons, behind, List.flatMap_append, behind, behind,
    List.append_assoc]

/-- The end of the words is that of the last one. -/
theorem getLast?_joined {l : List Char} (hl : l ≠ []) (ws : List (List Char)) :
    (joined (ws ++ [l])).getLast? = l.getLast? := by
  cases ws with
  | nil => simp [joined]
  | cons w ws =>
      have hspaced : behind [l] = [' '] ++ l := by simp [behind]
      rw [joined_append (List.cons_ne_nil w ws), hspaced, ← List.append_assoc,
        getLast?_append_right hl]

/-- White space ends a word or stands between two. -/
theorem words_append_cons (hc : isSpace c = true) (a s : List Char) :
    words (a ++ c :: s) = words a ++ words s := by
  induction a with
  | nil => simp [words, hc]
  | cons d rest ih =>
      rw [List.cons_append, words, words]
      by_cases hd : isSpace d = true
      · rw [if_pos hd, if_pos hd, ih]
      rw [if_neg hd, if_neg hd]
      cases rest with
      | nil => simp [words, hc]
      | cons e tail =>
          by_cases he : isSpace e = true
          · simp [he, ← ih]
          · rw [List.cons_append] at ih ⊢
            rw [if_neg (by simpa using he), if_neg (by simpa using he), ih]
            have hne := words_ne_nil (List.mem_cons_self (a := e) (l := tail)) (by simpa using he)
            obtain ⟨v, vs, hwords⟩ := List.exists_cons_of_ne_nil hne
            rw [hwords]
            rfl

/-- Blanks behind a text are in no word. -/
theorem words_append_blanks (hb : b.all isBlank = true) (s : List Char) :
    words (s ++ b) = words s := by
  cases b with
  | nil => rw [List.append_nil]
  | cons c rest =>
      simp only [List.all_cons, Bool.and_eq_true] at hb
      have hrest := words_indent hb.2 []
      rw [List.append_nil] at hrest
      rw [words_append_cons (isSpace_of_isBlank hb.1), hrest, words, List.append_nil]

/-- Blanks between two texts separate their words. -/
theorem words_append_gap (hb : b.all isBlank = true) (hne : b ≠ []) (a s : List Char) :
    words (a ++ (b ++ s)) = words a ++ words s := by
  obtain ⟨c, rest, rfl⟩ := List.exists_cons_of_ne_nil hne
  simp only [List.all_cons, Bool.and_eq_true] at hb
  rw [List.cons_append, words_append_cons (isSpace_of_isBlank hb.1), words_indent hb.2]

/-- The last word goes on with what is set behind it. -/
theorem words_concat (hs : s.getLast?.any (!isSpace ·) = true) :
    ∃ I l, words s = I ++ [l] ∧ l.getLast? = s.getLast? ∧
      ∀ c, isSpace c = false → words (s ++ [c]) = I ++ [l ++ [c]] := by
  induction s with
  | nil => exact nomatch hs
  | cons d rest ih =>
      cases rest with
      | nil =>
          have hd : isSpace d = false := by simpa using hs
          exact ⟨[], [d], by simp [words, hd], rfl, fun c hc => by simp [words, hc, hd]⟩
      | cons e tail =>
          rw [List.getLast?_cons_cons] at hs ⊢
          obtain ⟨I, l, hwords, hlast, hmore⟩ := ih hs
          have hlonger (c : Char) (hc : isSpace c = false) :
              words (e :: (tail ++ [c])) = I ++ [l ++ [c]] := hmore c hc
          by_cases hd : isSpace d = true
          · refine ⟨I, l, by rw [words, if_pos hd, hwords], hlast, fun c hc => ?_⟩
            rw [List.cons_append, words, if_pos hd]
            exact hmore c hc
          by_cases he : isSpace e = true
          · refine ⟨[d] :: I, l, ?_, hlast, fun c hc => ?_⟩
            · rw [words, if_neg hd, if_pos (by simpa using he), hwords]
              rfl
            · rw [List.cons_append, List.cons_append, words, if_neg hd, if_pos (by simpa using he),
                hlonger c hc]
              rfl
          · have hskip (t : List Char) : ¬ (e :: t).head?.all isSpace = true := by simpa using he
            cases I with
            | nil =>
                refine ⟨[], d :: l, ?_, ?_, fun c hc => ?_⟩
                · rw [words, if_neg hd, if_neg (hskip _), hwords]
                  rfl
                · rw [List.getLast?_cons, hlast, List.getLast?_cons]
                  rfl
                · rw [List.cons_append, List.cons_append, words, if_neg hd, if_neg (hskip _),
                    hlonger c hc]
                  rfl
            | cons i I =>
                refine ⟨(d :: i) :: I, l, ?_, hlast, fun c hc => ?_⟩
                · rw [words, if_neg hd, if_neg (hskip _), hwords]
                  rfl
                · rw [List.cons_append, List.cons_append, words, if_neg hd, if_neg (hskip _),
                    hlonger c hc]
                  rfl

/-- Words that are joined are found again. -/
theorem words_joined (hws : ∀ w ∈ ws, w ≠ [] ∧ Solid w) : words (joined ws) = ws := by
  induction ws with
  | nil => rfl
  | cons w ws ih =>
      obtain ⟨hne, hsolid⟩ := hws w List.mem_cons_self
      have hrest := ih fun v hv => hws v (List.mem_cons_of_mem w hv)
      cases ws with
      | nil => rw [joined, List.intercalate_singleton, words_eq_singleton hsolid hne]
      | cons v vs =>
          have htext : joined (w :: v :: vs) = w ++ ' ' :: joined (v :: vs) := by
            rw [joined_cons, behind_cons, joined_cons]
          rw [htext, words_append_space hsolid hne, hrest]

end Words

/-! ## Keywords between words -/

/-- Is `w` a keyword of classes? -/
def isRecord (w : List Char) : Bool :=
  w == RecordKey.ofClass.text || w == RecordKey.ofStruct.text

/-- Drops the keywords of classes from the front, as long as a word follows. -/
def dropLeading : List (List Char) → List (List Char)
  | w :: v :: ws => if isRecord w then dropLeading (v :: ws) else w :: v :: ws
  | ws => ws

/-- Drops the word `k` where another one follows.  The word behind one that is dropped stays. -/
def dropBetween (k : List Char) : List (List Char) → List (List Char)
  | w :: v :: ws => if w = k then v :: dropBetween k ws else w :: dropBetween k (v :: ws)
  | ws => ws

/-- What is left of the words of a type. -/
def cleanWords (ws : List (List Char)) : List (List Char) :=
  match dropLeading ws with
  | [] => []
  | w :: vs =>
    w :: dropBetween RecordKey.ofStruct.text (dropBetween RecordKey.ofClass.text vs)

section Keywords

variable {ws : List (List Char)}

theorem isRecord_iff {w : List Char} : isRecord w = true ↔ ∃ k : RecordKey, w = k.text := by
  constructor
  · intro h
    rcases Bool.or_eq_true_iff.mp h with h | h
    · exact ⟨.ofClass, beq_iff_eq.mp h⟩
    · exact ⟨.ofStruct, beq_iff_eq.mp h⟩
  · rintro ⟨k, rfl⟩
    cases k <;> decide

/-- The keywords of classes are modifiers. -/
theorem isRecord_eq_false {w : List Char} (h : w ∉ typeModifiers) : isRecord w = false := by
  rw [Bool.eq_false_iff]
  intro hrecord
  obtain ⟨k, rfl⟩ := isRecord_iff.mp hrecord
  exact h (by cases k <;> decide)

/-- A text is kept if its first word is no keyword. -/
theorem dropRecordKeyword_word {w : List Char} (hw : Solid w) (hkey : isRecord w = false)
    (t : List Char) : dropRecordKeyword (w ++ ' ' :: t) = w ++ ' ' :: t := by
  unfold dropRecordKeyword
  split
  · rename_i rest heq
    obtain rfl : w = "class".toList := eq_of_append_space hw (.of_all (by decide)) heq
    exact absurd hkey (by decide)
  · rename_i rest heq
    obtain rfl : w = "struct".toList := eq_of_append_space hw (.of_all (by decide)) heq
    exact absurd hkey (by decide)
  · rfl

theorem dropRecordKeyword_joined (hws : ∀ w ∈ ws, w ≠ [] ∧ Solid w) :
    dropRecordKeyword (joined ws) = joined (dropLeading ws) := by
  induction ws using dropLeading.induct with
  | case1 w v vs hkey ih =>
      obtain ⟨k, rfl⟩ := isRecord_iff.mp hkey
      have hrest := ih fun u hu => hws u (List.mem_cons_of_mem _ hu)
      have htext : joined (k.text :: v :: vs) = k.text ++ ' ' :: joined (v :: vs) := by
        rw [joined_cons, behind_cons, joined_cons]
      rw [dropLeading, if_pos hkey, htext, ← hrest]
      cases k <;> rfl
  | case2 w v vs hkey =>
      rw [dropLeading, if_neg hkey, joined_cons, behind_cons]
      exact dropRecordKeyword_word (hws w List.mem_cons_self).2 (by simpa using hkey) _
  | case3 ws hshort =>
      have hsame : dropLeading ws = ws := by
        unfold dropLeading
        split
        · exact absurd rfl (hshort _ _ _)
        · rfl
      rw [hsame]
      cases ws with
      | nil => rfl
      | cons w ws =>
        cases ws with
        | nil =>
            rw [joined, List.intercalate_singleton]
            exact dropRecordKeyword_eq_self (hws w List.mem_cons_self).2
        | cons v vs => exact absurd rfl (hshort w v vs)

theorem replaceAll_behind (k : RecordKey) (hws : ∀ w ∈ ws, w ≠ [] ∧ Solid w) :
    replaceAll k.pattern [' '] (behind ws) = behind (dropBetween k.text ws) := by
  have hpattern : k.pattern.head? = some ' ' := rfl
  induction ws using dropBetween.induct k.text with
  | case1 v vs ih =>
      have hrest := ih fun u hu => hws u (List.mem_cons_of_mem _ (List.mem_cons_of_mem v hu))
      have hsolid := (hws v (List.mem_cons_of_mem _ List.mem_cons_self)).2
      have htext : behind (k.text :: v :: vs) = k.pattern ++ (v ++ behind vs) := by
        simp [behind_cons, RecordKey.pattern]
      have hne : k.pattern ≠ [] := List.cons_ne_nil _ _
      rw [htext, replaceAll_of_prefix hne, replaceAll_append hsolid hpattern, hrest, dropBetween,
        if_pos rfl]
      rfl
  | case2 w v vs hkey ih =>
      have hrest := ih fun u hu => hws u (List.mem_cons_of_mem _ hu)
      have hsolid := (hws w List.mem_cons_self).2
      have hno : ¬ k.pattern <+: ' ' :: (w ++ behind (v :: vs)) := by
        rintro ⟨t, ht⟩
        have htail : k.text ++ ' ' :: t = w ++ ' ' :: (v ++ behind vs) := by
          simpa [RecordKey.pattern, behind_cons] using ht
        exact hkey (eq_of_append_space (solid_record k) hsolid htail).symm
      rw [behind_cons, replaceAll_cons hno, replaceAll_append hsolid hpattern, hrest, dropBetween,
        if_neg hkey, behind_cons]
  | case3 ws hshort =>
      have hsame : dropBetween k.text ws = ws := by
        unfold dropBetween
        split
        · exact absurd rfl (hshort _ _ _)
        · rfl
      rw [hsame]
      cases ws with
      | nil => rfl
      | cons w ws =>
        cases ws with
        | nil =>
            have hsolid := (hws w List.mem_cons_self).2
            have htext : behind [w] = ' ' :: w := by simp [behind]
            rw [htext, replaceAll_cons (not_pattern_of_solid hsolid k),
              replaceAll_eq_self hsolid hpattern]
        | cons v vs => exact absurd rfl (hshort w v vs)

theorem mem_of_mem_dropLeading {w : List Char} (hw : w ∈ dropLeading ws) : w ∈ ws := by
  induction ws using dropLeading.induct with
  | case1 u v vs hkey ih =>
      rw [dropLeading, if_pos hkey] at hw
      exact List.mem_cons_of_mem u (ih hw)
  | case2 u v vs hkey => rwa [dropLeading, if_neg hkey] at hw
  | case3 ws hshort =>
      unfold dropLeading at hw
      split at hw
      · exact absurd rfl (hshort _ _ _)
      · exact hw

theorem mem_of_mem_dropBetween {k w : List Char} (hw : w ∈ dropBetween k ws) : w ∈ ws := by
  induction ws using dropBetween.induct k with
  | case1 v vs ih =>
      rw [dropBetween, if_pos rfl] at hw
      rcases List.mem_cons.mp hw with rfl | hw
      · exact List.mem_cons_of_mem k List.mem_cons_self
      · exact List.mem_cons_of_mem k (List.mem_cons_of_mem v (ih hw))
  | case2 u v vs hkey ih =>
      rw [dropBetween, if_neg hkey] at hw
      rcases List.mem_cons.mp hw with rfl | hw
      · exact List.mem_cons_self
      · exact List.mem_cons_of_mem u (ih hw)
  | case3 ws hshort =>
      unfold dropBetween at hw
      split at hw
      · exact absurd rfl (hshort _ _ _)
      · exact hw

/-- **The written form** of a type, word by word. -/
theorem cleanType_eq_joined (s : List Char) :
    cleanType s = joinIndirection (joined (cleanWords (words s))) := by
  have hwords : ∀ w ∈ words s, w ≠ [] ∧ Solid w := fun w hw => solid_of_mem_words hw
  have hlead : ∀ w ∈ dropLeading (words s), w ≠ [] ∧ Solid w :=
    fun w hw => hwords w (mem_of_mem_dropLeading hw)
  have hclass : " class ".toList = RecordKey.ofClass.pattern := rfl
  have hstruct : " struct ".toList = RecordKey.ofStruct.pattern := rfl
  unfold cleanType cleanWords
  dsimp only
  rw [simplify_eq_joined, dropRecordKeyword_joined hwords, hclass, hstruct]
  split
  · rename_i hnil
    rw [hnil]
    rfl
  · rename_i w vs hcons
    rw [hcons] at hlead ⊢
    have hsolid := (hlead w List.mem_cons_self).2
    have hvs : ∀ v ∈ vs, v ≠ [] ∧ Solid v := fun v hv => hlead v (List.mem_cons_of_mem w hv)
    rw [joined_cons, joined_cons, replaceAll_append hsolid rfl, replaceAll_behind _ hvs,
      replaceAll_append hsolid rfl,
      replaceAll_behind _ fun v hv => hvs v (mem_of_mem_dropBetween hv)]

/-! ## The last word -/

theorem dropLeading_cons_concat (w : List Char) (I : List (List Char)) (l : List Char) :
    dropLeading (w :: (I ++ [l])) =
      if isRecord w then dropLeading (I ++ [l]) else w :: (I ++ [l]) := by
  cases I <;> rfl

/-- The last word stays, and what is left before it does not depend on it. -/
theorem dropLeading_concat (I : List (List Char)) :
    ∃ J, ∀ l, dropLeading (I ++ [l]) = J ++ [l] := by
  induction I with
  | nil => exact ⟨[], fun l => rfl⟩
  | cons w I ih =>
      obtain ⟨J, hJ⟩ := ih
      cases hkey : isRecord w with
      | true =>
          exact ⟨J, fun l => by
            rw [List.cons_append, dropLeading_cons_concat, hkey, if_pos rfl, hJ]⟩
      | false =>
          exact ⟨w :: I, fun l => by rw [List.cons_append, dropLeading_cons_concat, hkey]; rfl⟩

theorem dropBetween_cons {k w : List Char} (hw : w ≠ k) (ws : List (List Char)) :
    dropBetween k (w :: ws) = w :: dropBetween k ws := by
  cases ws with
  | nil => rfl
  | cons v vs => rw [dropBetween, if_neg hw]

theorem dropBetween_concat (k : List Char) (I : List (List Char)) :
    ∃ J, ∀ l, dropBetween k (I ++ [l]) = J ++ [l] := by
  induction I using dropBetween.induct k with
  | case1 v I ih =>
      obtain ⟨J, hJ⟩ := ih
      exact ⟨v :: J, fun l => by simp [dropBetween, hJ]⟩
  | case2 w v I hkey ih =>
      obtain ⟨J, hJ⟩ := ih
      exact ⟨w :: J, fun l => by rw [List.cons_append, dropBetween_cons hkey, hJ]; rfl⟩
  | case3 I hshort =>
      match I, hshort with
      | [], _ => exact ⟨[], fun l => rfl⟩
      | [w], _ =>
          by_cases hkey : w = k
          · exact ⟨[], fun l => by simp [dropBetween, hkey]⟩
          · exact ⟨[w], fun l => by simp [dropBetween, hkey]⟩
      | w :: v :: I, hshort => exact absurd rfl (hshort w v I)

theorem cleanWords_concat (I : List (List Char)) : ∃ J, ∀ l, cleanWords (I ++ [l]) = J ++ [l] := by
  obtain ⟨L, hL⟩ := dropLeading_concat I
  cases L with
  | nil => exact ⟨[], fun l => by simp [cleanWords, hL, dropBetween]⟩
  | cons w L =>
      obtain ⟨M, hM⟩ := dropBetween_concat RecordKey.ofClass.text L
      obtain ⟨N, hN⟩ := dropBetween_concat RecordKey.ofStruct.text M
      exact ⟨w :: N, fun l => by simp [cleanWords, hL, hM, hN]⟩

/-- One more word stays behind the last one, if that is no keyword. -/
theorem dropBetween_append {k l : List Char} (hl : l ≠ k) (I : List (List Char)) (m : List Char) :
    dropBetween k (I ++ [l] ++ [m]) = dropBetween k (I ++ [l]) ++ [m] := by
  induction I using dropBetween.induct k with
  | case1 v I ih =>
      simp only [List.cons_append] at ih ⊢
      rw [dropBetween, if_pos rfl, dropBetween, if_pos rfl, ih, List.cons_append]
  | case2 w v I hkey ih =>
      simp only [List.cons_append] at ih ⊢
      rw [dropBetween_cons hkey, dropBetween_cons hkey, ih, List.cons_append]
  | case3 I hshort =>
      match I, hshort with
      | [], _ => simp [dropBetween, hl]
      | [w], _ => by_cases hkey : w = k <;> simp [dropBetween, hkey, hl]
      | w :: v :: I, hshort => exact absurd rfl (hshort w v I)

theorem dropLeading_append {l : List Char} (hl : isRecord l = false) (I : List (List Char))
    (m : List Char) : dropLeading (I ++ [l] ++ [m]) = dropLeading (I ++ [l]) ++ [m] := by
  induction I with
  | nil => simp [dropLeading, hl]
  | cons w I ih =>
      rw [List.cons_append, List.cons_append, dropLeading_cons_concat, dropLeading_cons_concat]
      split
      · exact ih
      · rfl

theorem cleanWords_append {l : List Char} (hl : isRecord l = false) (I : List (List Char))
    (m : List Char) : cleanWords (I ++ [l] ++ [m]) = cleanWords (I ++ [l]) ++ [m] := by
  have hclass : l ≠ RecordKey.ofClass.text := by
    rintro rfl
    exact absurd hl (by decide)
  have hstruct : l ≠ RecordKey.ofStruct.text := by
    rintro rfl
    exact absurd hl (by decide)
  obtain ⟨L, hL⟩ := dropLeading_concat I
  have hlead : dropLeading (I ++ [l] ++ [m]) = L ++ [l] ++ [m] := by
    rw [dropLeading_append hl, hL]
  unfold cleanWords
  rw [hlead, hL]
  cases L with
  | nil => rfl
  | cons w L =>
      obtain ⟨M, hM⟩ := dropBetween_concat RecordKey.ofClass.text L
      dsimp only [List.cons_append]
      rw [dropBetween_append hclass, hM, dropBetween_append hstruct]

/-! ## Keywords among the modifiers -/

/-- The keywords of classes stand only among the modifiers before the name, and there is at most one
of them. -/
def Orderly (ws : List (List Char)) : Prop :=
  ∃ ms vs, ws = ms ++ vs ∧ (∀ m ∈ ms, m ∈ typeModifiers) ∧ (∀ v ∈ vs, isRecord v = false) ∧
    ms.countP isRecord ≤ 1

/-- The words that are no keywords of classes. -/
def unkeyed (ws : List (List Char)) : List (List Char) :=
  ws.filter (!isRecord ·)

theorem unkeyed_append (ws vs : List (List Char)) : unkeyed (ws ++ vs) = unkeyed ws ++ unkeyed vs :=
  List.filter_append ..

theorem unkeyed_eq_self (h : ∀ w ∈ ws, isRecord w = false) : unkeyed ws = ws :=
  List.filter_eq_self.mpr fun w hw => by rw [h w hw]; rfl

theorem isRecord_of_mem_unkeyed {w : List Char} (hw : w ∈ unkeyed ws) : isRecord w = false := by
  simpa using (List.mem_filter.mp hw).2

/-- Without keywords, the words are orderly. -/
theorem Orderly.of_free (h : ∀ w ∈ ws, isRecord w = false) : Orderly ws :=
  ⟨[], ws, rfl, nofun, h, Nat.zero_le 1⟩

/-- A keyword stands behind some modifiers, or there is none. -/
theorem Orderly.cases (h : Orderly ws) :
    (∀ w ∈ ws, isRecord w = false) ∨ ∃ I k J, ws = I ++ RecordKey.text k :: J ∧
      (∀ m ∈ I, m ∈ typeModifiers) ∧ ∀ w ∈ I ++ J, isRecord w = false := by
  obtain ⟨ms, vs, rfl, hms, hvs, hcount⟩ := h
  by_cases hkey : ∃ m ∈ ms, isRecord m = true
  · right
    obtain ⟨m, hm, hrecord⟩ := hkey
    obtain ⟨k, rfl⟩ := isRecord_iff.mp hrecord
    obtain ⟨I, J, rfl⟩ := List.append_of_mem hm
    rw [List.countP_append, List.countP_cons_of_pos hrecord] at hcount
    have hI : I.countP isRecord = 0 := by omega
    have hJ : J.countP isRecord = 0 := by omega
    rw [List.countP_eq_zero] at hI hJ
    refine ⟨I, k, J ++ vs, by simp, fun m hm => hms m (List.mem_append_left _ hm), fun w hw => ?_⟩
    rcases List.mem_append.mp hw with hw | hw
    · simpa using hI w hw
    rcases List.mem_append.mp hw with hw | hw
    · simpa using hJ w hw
    · exact hvs w hw
  · left
    intro w hw
    rcases List.mem_append.mp hw with hw | hw
    · exact Bool.eq_false_iff.mpr fun hrecord => hkey ⟨w, hw, hrecord⟩
    · exact hvs w hw

theorem dropBetween_eq_self {k : List Char} (h : k ∉ ws) : dropBetween k ws = ws := by
  induction ws using dropBetween.induct k with
  | case1 v vs ih => exact absurd List.mem_cons_self h
  | case2 w v vs hkey ih =>
      rw [dropBetween, if_neg hkey, ih fun hmem => h (List.mem_cons_of_mem w hmem)]
  | case3 ws hshort =>
      unfold dropBetween
      split
      · exact absurd rfl (hshort _ _ _)
      · rfl

theorem dropBetween_once {k : List Char} {I J : List (List Char)} (hI : k ∉ I) (hJ : k ∉ J)
    (hne : J ≠ []) : dropBetween k (I ++ k :: J) = I ++ J := by
  obtain ⟨v, J, rfl⟩ := List.exists_cons_of_ne_nil hne
  induction I with
  | nil =>
      rw [List.nil_append, dropBetween, if_pos rfl,
        dropBetween_eq_self fun hmem => hJ (List.mem_cons_of_mem v hmem), List.nil_append]
  | cons w I ih =>
      have hw : w ≠ k := fun heq => hI (heq ▸ List.mem_cons_self)
      rw [List.cons_append, dropBetween_cons hw, ih fun hmem => hI (List.mem_cons_of_mem w hmem),
        List.cons_append]

theorem text_not_mem (k : RecordKey) (h : ∀ w ∈ ws, isRecord w = false) : k.text ∉ ws := by
  intro hmem
  have hno := h _ hmem
  rw [isRecord_iff.mpr ⟨k, rfl⟩] at hno
  cases hno

/-- A first word that is no keyword stays, and what follows is looked through. -/
theorem cleanWords_cons {w : List Char} (hw : isRecord w = false) (ws : List (List Char)) :
    cleanWords (w :: ws) =
      w :: dropBetween RecordKey.ofStruct.text (dropBetween RecordKey.ofClass.text ws) := by
  have hlead : dropLeading (w :: ws) = w :: ws := by
    cases ws with
    | nil => rfl
    | cons v vs => rw [dropLeading, if_neg (by simp [hw])]
  rw [cleanWords, hlead]

/-- Words without keywords stay as they are. -/
theorem cleanWords_eq_self (h : ∀ w ∈ ws, isRecord w = false) : cleanWords ws = ws := by
  cases ws with
  | nil => rfl
  | cons w ws =>
      have hws : ∀ v ∈ ws, isRecord v = false := fun v hv => h v (List.mem_cons_of_mem w hv)
      rw [cleanWords_cons (h w List.mem_cons_self), dropBetween_eq_self (text_not_mem .ofClass hws),
        dropBetween_eq_self (text_not_mem .ofStruct hws)]

/-- A single keyword is dropped, if a word follows it. -/
theorem cleanWords_keyword (k : RecordKey) {I J : List (List Char)} (hne : J ≠ [])
    (h : ∀ w ∈ I ++ J, isRecord w = false) : cleanWords (I ++ k.text :: J) = I ++ J := by
  have hkey : isRecord k.text = true := isRecord_iff.mpr ⟨k, rfl⟩
  cases I with
  | nil =>
      have hlead : dropLeading (k.text :: J) = dropLeading J := by
        obtain ⟨v, J, rfl⟩ := List.exists_cons_of_ne_nil hne
        rw [dropLeading, if_pos hkey]
      have hrest := cleanWords_eq_self h
      rw [List.nil_append, cleanWords] at hrest ⊢
      rw [hlead, hrest, List.nil_append]
  | cons i I =>
      have hrest : ∀ w ∈ I ++ J, isRecord w = false := fun w hw => h w (List.mem_cons_of_mem i hw)
      have hI (j : RecordKey) : j.text ∉ I := fun hmem =>
        text_not_mem j hrest (List.mem_append_left J hmem)
      have hJ (j : RecordKey) : j.text ∉ J := fun hmem =>
        text_not_mem j hrest (List.mem_append_right I hmem)
      rw [List.cons_append, cleanWords_cons (h i List.mem_cons_self)]
      cases k with
      | ofClass =>
          rw [dropBetween_once (hI _) (hJ _) hne, dropBetween_eq_self (text_not_mem _ hrest)]
          rfl
      | ofStruct =>
          have hclass : RecordKey.ofClass.text ∉ I ++ RecordKey.ofStruct.text :: J := by
            intro hmem
            rcases List.mem_append.mp hmem with hmem | hmem
            · exact hI _ hmem
            rcases List.mem_cons.mp hmem with hmem | hmem
            · exact absurd hmem (by decide)
            · exact hJ _ hmem
          rw [dropBetween_eq_self hclass, dropBetween_once (hI _) (hJ _) hne]
          rfl

/-- **The keyword of a class** is dropped among the modifiers, and nothing else is. -/
theorem cleanWords_orderly (h : Orderly ws) (hlast : ∀ l, ws.getLast? = some l → isRecord l = false) :
    cleanWords ws = unkeyed ws := by
  rcases h.cases with hfree | ⟨I, k, J, rfl, -, hfree⟩
  · rw [cleanWords_eq_self hfree, unkeyed_eq_self hfree]
  · have hkey : isRecord k.text = true := isRecord_iff.mpr ⟨k, rfl⟩
    have hne : J ≠ [] := by
      rintro rfl
      have hno := hlast k.text (by simp)
      rw [hkey] at hno
      cases hno
    rw [cleanWords_keyword k hne hfree, unkeyed_append, unkeyed, unkeyed,
      List.filter_cons_of_neg (by simp [hkey]), ← List.filter_append]
    exact (unkeyed_eq_self hfree).symm

end Keywords

/-! ## Types with their marks -/

section Marked

variable {E : Prop} {i x k b : List Char}

/-- The space before a mark at the end is dropped. -/
theorem joinIndirection_space {c : Char} (hc : c = '&' ∨ c = '*') (s : List Char) :
    joinIndirection (s ++ [' ', c]) = s ++ [c] := by
  unfold joinIndirection
  rw [List.reverse_append]
  rcases hc with rfl | rfl <;> simp

/-- Without a mark at its end, a text stays as it is. -/
theorem joinIndirection_unmarked {s : List Char} {c : Char} (h : s.getLast? = some c)
    (hc : c ≠ '&' ∧ c ≠ '*') : joinIndirection s = s := by
  rcases joinIndirection_eq s with heq | ⟨front, mark, rfl, hmark, -⟩
  · exact heq
  · obtain rfl : mark = c := by simpa using h
    rcases hmark with rfl | rfl
    · exact absurd rfl hc.1
    · exact absurd rfl hc.2

/-- A mark that no space stands before stays where it is. -/
theorem joinIndirection_attached {s : List Char} (h : s.getLast? ≠ some ' ') (c : Char) :
    joinIndirection (s ++ [c]) = s ++ [c] := by
  rcases joinIndirection_eq (s ++ [c]) with heq | ⟨front, mark, hs, -, -⟩
  · exact heq
  · have hfront : s = front ++ [' '] := by
      have htail : s ++ [c] = front ++ [' '] ++ [mark] := by simpa using hs
      exact (List.append_inj' htail rfl).1
    rw [hfront] at h
    exact absurd (by simp) h

/-- A type ends in no white space and in no mark. -/
theorem SpelledType.exists_getLast? (h : SpelledType E x) :
    ∃ c, x.getLast? = some c ∧ isSpace c = false ∧ c ≠ '&' ∧ c ≠ '*' := by
  rcases h.getLast? with hlast | hlast | hlast
  · exact ⟨'>', hlast, by decide⟩
  · exact ⟨'~', hlast, by decide⟩
  · cases hc : x.getLast? with
    | none =>
        rw [hc] at hlast
        exact nomatch hlast
    | some c =>
        rw [hc] at hlast
        refine ⟨c, rfl, isSpace_eq_false_of_isNameChar hlast, ?_, ?_⟩ <;>
        · rintro rfl
          exact nomatch hlast

/-- The blanks before a mark are dropped. -/
theorem spaceless_mark {g : List Char} {c : Char} (hg : g.all isBlank = true)
    (hc : c = '&' ∨ c = '*') : spaceless (g ++ [c]) = [c] := by
  have hblanks : g.filter (fun c => !isSpace c) = [] := by
    rw [List.filter_eq_nil_iff]
    intro d hd
    simp [isSpace_of_isBlank (List.all_eq_true.mp hg d hd)]
  have hsolid : isSpace c = false := by rcases hc with rfl | rfl <;> decide
  simp [spaceless, hblanks, hsolid]

/-- **The written form** of a type is that of its name, with the mark behind it. -/
theorem cleanType_marked (hi : i.all isBlank = true) (hx : SpelledType E x) (hk : SpelledMark k)
    (hb : b.all isBlank = true)
    (hlast : k ≠ [] → ∀ l, (words x).getLast? = some l → isRecord l = false) :
    cleanType (i ++ (x ++ (k ++ b))) = joined (cleanWords (words x)) ++ spaceless k := by
  obtain ⟨c, hc, hsolid, hmark⟩ := hx.exists_getLast?
  obtain ⟨I, l, hwords, hl, hmore⟩ := words_concat (s := x) (by rw [hc]; simpa using hsolid)
  obtain ⟨J, hJ⟩ := cleanWords_concat I
  rw [hc] at hl
  have hne : l ≠ [] := by
    rintro rfl
    exact nomatch hl
  have hend : (joined (J ++ [l])).getLast? = some c := by rw [getLast?_joined hne, hl]
  have htext : i ++ (x ++ (k ++ b)) = i ++ ((x ++ k) ++ b) := by simp
  rw [cleanType_eq_joined, htext, words_indent hi, words_append_blanks hb, hwords, hJ]
  cases hk with
  | none =>
      rw [List.append_nil, hwords, hJ, joinIndirection_unmarked hend hmark]
      exact (List.append_nil _).symm
  | @mark g m hg hm =>
      have hm' : isSpace m = false := by rcases hm with rfl | rfl <;> decide
      rw [spaceless_mark hg hm]
      by_cases hnil : g = []
      · -- The mark is part of the last word.
        subst hnil
        have hword : joined (J ++ [l ++ [m]]) = joined (J ++ [l]) ++ [m] := by
          cases J with
          | nil => simp [joined]
          | cons w J =>
              rw [joined_append (List.cons_ne_nil w J), joined_append (List.cons_ne_nil w J)]
              simp [behind]
        have hspace : c ≠ ' ' := by
          rintro rfl
          exact absurd hsolid (by decide)
        rw [List.nil_append, hmore m hm', hJ, hword, joinIndirection_attached]
        rw [hend]
        exact fun h => hspace (Option.some.inj h)
      · -- The mark is a word of its own.
        have hkey : isRecord l = false := hlast (by simp) l (by rw [hwords]; simp)
        have hmarks : words [m] = [[m]] := by simp [words, hm']
        have hjoined : joined (J ++ [l] ++ [[m]]) = joined (J ++ [l]) ++ [' ', m] := by
          rw [joined_append (by simp)]
          simp [behind]
        rw [words_append_gap hg hnil, hmarks, hwords, cleanWords_append hkey, hJ, hjoined,
          joinIndirection_space hm]

end Marked

end CppDoc.Syntax
