import CppDoc.Proofs.Syntax.Conversion
import CppDoc.Proofs.Syntax.Parameters
import CppDoc.Proofs.Syntax.Start
import CppDoc.Proofs.Syntax.TypeSpec
import Mathlib.Data.List.Chain

/-!
# What is kept of a declaration is tidy

The names, types and parameter lists that readers keep neither begin nor end with a blank, and no two
blanks stand side by side in them.

* `Spaced` and `Tidy`: texts of this kind, and those that may end with a blank;
* `tidy_simplify` and `tidy_cleanType`: the written form of a text and of a type;
* `solid_readName`, `tidy_readType` and `tidy_readParameters`: what the readers keep;
* `parameterNames_ne_empty`: the names of parameters are not empty.
-/

namespace CppDoc

namespace Text

/-- The text does not begin with a blank, and no two blanks stand side by side in it. -/
structure Spaced (s : List Char) : Prop where
  head : ∀ c, s.head? = some c → isBlank c = false
  single : s.IsChain fun a b => isBlank a = false ∨ isBlank b = false

/-- The text neither begins nor ends with a blank, and no two blanks stand side by side in it. -/
structure Tidy (s : List Char) : Prop extends Spaced s where
  last : ∀ c, s.getLast? = some c → isBlank c = false

theorem tidy_nil : Tidy [] :=
  ⟨⟨nofun, .nil⟩, nofun⟩

section Tidy

variable {s t : List Char} {c : Char}

/-- A text without blanks is tidy. -/
theorem tidy_of_nonblank (h : ∀ c ∈ s, isBlank c = false) : Tidy s where
  head c hc := h c (List.mem_of_head? hc)
  single := by
    apply List.Pairwise.isChain
    apply List.pairwise_of_forall_mem_list
    exact fun a ha _ _ => .inl (h a ha)
  last c hc := h c (List.mem_of_getLast? hc)

/-- Given texts are looked through. -/
theorem tidy_of_all (h : s.all (!isBlank ·) = true) : Tidy s :=
  tidy_of_nonblank (by simpa using h)

theorem spaced_of_all (hhead : s.head?.all (!isBlank ·) = true)
    (hsingle : s.IsChain fun a b => isBlank a = false ∨ isBlank b = false) : Spaced s where
  head c hc := by simpa [hc] using hhead
  single := hsingle

theorem Spaced.append (hs : Spaced s) (ht : Spaced t) : Spaced (s ++ t) where
  head c hc := by
    rw [List.head?_append, Option.or_eq_some_iff] at hc
    rcases hc with hc | ⟨-, hc⟩
    · exact hs.head c hc
    · exact ht.head c hc
  single := List.isChain_append.mpr ⟨hs.single, ht.single, fun _ _ b hb => .inr (ht.head b hb)⟩

theorem Tidy.append (hs : Tidy s) (ht : Tidy t) : Tidy (s ++ t) where
  toSpaced := hs.toSpaced.append ht.toSpaced
  last c hc := by
    rw [List.getLast?_append, Option.or_eq_some_iff] at hc
    rcases hc with hc | ⟨-, hc⟩
    · exact ht.last c hc
    · exact hs.last c hc

/-- What ends with something tidy is tidy. -/
theorem Spaced.append_tidy (hs : Spaced s) (ht : Tidy t) (hne : t ≠ []) : Tidy (s ++ t) where
  toSpaced := hs.append ht.toSpaced
  last c hc := by
    rw [List.getLast?_append_of_ne_nil _ hne] at hc
    exact ht.last c hc

/-- A blank may follow a tidy text. -/
theorem Tidy.append_blank (hs : Tidy s) (hne : s ≠ []) (c : Char) : Spaced (s ++ [c]) where
  head e he := by
    rw [List.head?_append_of_ne_nil _ hne] at he
    exact hs.head e he
  single := List.isChain_append.mpr
    ⟨hs.single, List.isChain_singleton c, fun a ha _ _ => .inl (hs.last a ha)⟩

/-- Two tidy texts with a space between them. -/
theorem Tidy.append_space (hs : Tidy s) (hs' : s ≠ []) (ht : Tidy t) (ht' : t ≠ []) :
    Tidy (s ++ ' ' :: t) := by
  have hspaced := (hs.append_blank hs' ' ').append_tidy ht ht'
  rwa [List.append_assoc] at hspaced

/-- The beginning of a spaced text is spaced. -/
theorem Spaced.of_append (h : Spaced (s ++ t)) : Spaced s where
  head c hc := h.head c (by rw [List.head?_append, hc]; rfl)
  single := (List.isChain_append.mp h.single).1

/-- What stands behind a blank in a tidy text is tidy, and there is something. -/
theorem Tidy.behind_blank (h : Tidy (s ++ c :: t)) (hc : isBlank c = true) : Tidy t ∧ t ≠ [] := by
  obtain ⟨-, hchain, -⟩ := List.isChain_append.mp h.single
  refine ⟨⟨⟨fun e he => ?_, hchain.tail⟩, fun e he => ?_⟩, ?_⟩
  · have hpair := (List.isChain_cons.mp hchain).1 e he
    rw [hc] at hpair
    simpa using hpair
  · apply h.last
    rw [List.getLast?_append, List.getLast?_cons, he]
    rfl
  · rintro rfl
    have hlast := h.last c (by simp)
    rw [hc] at hlast
    cases hlast

end Tidy

/-! ## Words -/

/-- Words are not empty, and there is no white space in them. -/
theorem solid_of_mem_words {s w : List Char} (hw : w ∈ words s) : w ≠ [] ∧ Syntax.Solid w := by
  induction s generalizing w with
  | nil => cases hw
  | cons d rest ih =>
      rw [words] at hw
      split at hw
      · exact ih hw
      rename_i hd
      have hsolid {v : List Char} (hv : Syntax.Solid v) : Syntax.Solid (d :: v) :=
        .cons (by simpa using hd) hv
      split at hw
      · rcases List.mem_cons.mp hw with rfl | hw
        · exact ⟨List.cons_ne_nil _ _, hsolid (List.forall_mem_nil _)⟩
        · exact ih hw
      split at hw
      · obtain rfl := List.mem_singleton.mp hw
        exact ⟨List.cons_ne_nil _ _, hsolid (List.forall_mem_nil _)⟩
      · rename_i v vs hwords
        rcases List.mem_cons.mp hw with rfl | hw
        · exact ⟨List.cons_ne_nil _ _, hsolid (ih (hwords ▸ List.mem_cons_self)).2⟩
        · exact ih (hwords ▸ List.mem_cons_of_mem v hw)

/-- What is no white space stands in a word. -/
theorem words_ne_nil {s : List Char} {c : Char} (hc : c ∈ s) (hsolid : isSpace c = false) :
    words s ≠ [] := by
  induction s with
  | nil => cases hc
  | cons d rest ih =>
      rw [words]
      split
      · rename_i hd
        rcases List.mem_cons.mp hc with rfl | hc
        · rw [hsolid] at hd
          cases hd
        · exact ih hc
      split
      · exact List.cons_ne_nil _ _
      split <;> exact List.cons_ne_nil _ _

/-- **Single spaces.**  A text with its white space simplified is tidy. -/
theorem tidy_simplify (s : List Char) : Tidy (simplify s) ∧ (words s ≠ [] → simplify s ≠ []) := by
  unfold simplify
  have hsolid (w : List Char) (hw : w ∈ words s) := solid_of_mem_words hw
  generalize words s = ws at hsolid
  induction ws with
  | nil => exact ⟨tidy_nil, fun h => absurd rfl h⟩
  | cons w ws ih =>
      obtain ⟨hne, hw⟩ := hsolid w List.mem_cons_self
      have htidy : Tidy w :=
        tidy_of_nonblank fun c hc => Syntax.isBlank_eq_false_of_isSpace (hw c hc)
      obtain ⟨hrest, hrest'⟩ := ih fun v hv => hsolid v (List.mem_cons_of_mem w hv)
      cases ws with
      | nil => simpa using ⟨htidy, hne⟩
      | cons v vs =>
          rw [List.intercalate_cons_cons, List.append_assoc, List.singleton_append]
          exact ⟨htidy.append_space hne hrest (hrest' (List.cons_ne_nil _ _)), fun _ => by simp⟩

/-- What keywords are replaced by a space in is as tidy as before. -/
theorem isChain_replaceAll {pat : List Char} (hfirst : pat.head? = some ' ')
    (hlast : pat.getLast? = some ' ') {s : List Char}
    (hs : s.IsChain fun a b => isBlank a = false ∨ isBlank b = false) :
    ((replaceAll pat [' '] s).IsChain fun a b => isBlank a = false ∨ isBlank b = false) ∧
      (replaceAll pat [' '] s).head? = s.head? ∧
        (replaceAll pat [' '] s).getLast? = s.getLast? := by
  have hpat : pat ≠ [] := by
    rintro rfl
    cases hfirst
  induction hlen : s.length using Nat.strongRecOn generalizing s with
  | ind n ih =>
      subst hlen
      cases s with
      | nil => exact ⟨.nil, rfl, rfl⟩
      | cons c rest =>
          by_cases hprefix : pat <+: c :: rest
          · obtain ⟨b, hb⟩ := hprefix
            rw [← hb] at hs ⊢
            have hshort : b.length < (c :: rest).length := by
              rw [← hb, List.length_append]
              have := List.length_pos_iff.mpr hpat
              omega
            obtain ⟨-, hchain, hjoin⟩ := List.isChain_append.mp hs
            obtain ⟨hkept, hhead, hend⟩ := ih b.length hshort hchain rfl
            rw [Syntax.replaceAll_of_prefix hpat, List.head?_append_of_ne_nil _ hpat,
              List.getLast?_append, List.getLast?_append, hend, hfirst, hlast]
            refine ⟨List.isChain_append.mpr ⟨List.isChain_singleton _, hkept, ?_⟩, rfl, rfl⟩
            intro x hx y hy
            rw [hhead] at hy
            obtain rfl : ' ' = x := by simpa using hx
            exact hjoin ' ' hlast y hy
          · obtain ⟨hstep, hchain⟩ := List.isChain_cons.mp hs
            obtain ⟨hkept, hhead, hend⟩ := ih rest.length (Nat.lt_succ_self _) hchain rfl
            rw [Syntax.replaceAll_cons hprefix, List.getLast?_cons, List.getLast?_cons, hend]
            exact ⟨List.isChain_cons.mpr ⟨fun y hy => hstep y (hhead ▸ hy), hkept⟩, rfl, rfl⟩

end Text

namespace Syntax

open CppDoc.Text

/-! ## Types -/

/-- What stands behind the keywords of a record is tidy, and there is something. -/
theorem tidy_dropRecordKeyword {s : List Char} (h : Tidy s) (hne : s ≠ []) :
    Tidy (dropRecordKeyword s) ∧ dropRecordKeyword s ≠ [] := by
  induction s using dropRecordKeyword.induct with
  | case1 rest ih =>
      have hbehind := Tidy.behind_blank (s := "class".toList) (c := ' ') (t := rest) h rfl
      rw [dropRecordKeyword]
      exact ih hbehind.1 hbehind.2
  | case2 rest ih =>
      have hbehind := Tidy.behind_blank (s := "struct".toList) (c := ' ') (t := rest) h rfl
      rw [dropRecordKeyword]
      exact ih hbehind.1 hbehind.2
  | case3 s hclass hstruct =>
      rw [dropRecordKeyword]
      · exact ⟨h, hne⟩
      · exact hclass
      · exact hstruct

/-- A keyword that is replaced by a space leaves a tidy text. -/
theorem tidy_replaceAll (pat : List Char) {s : List Char} (hfirst : pat.head? = some ' ')
    (hlast : pat.getLast? = some ' ') (h : Tidy s) (hne : s ≠ []) :
    Tidy (replaceAll pat [' '] s) ∧ replaceAll pat [' '] s ≠ [] := by
  obtain ⟨hsingle, hhead, hend⟩ := isChain_replaceAll hfirst hlast h.single
  refine ⟨⟨⟨fun c hc => h.head c (hhead ▸ hc), hsingle⟩, fun c hc => h.last c (hend ▸ hc)⟩, ?_⟩
  intro hnil
  rw [hnil] at hhead
  exact hne (List.head?_eq_none_iff.mp hhead.symm)

theorem tidy_joinIndirection {s : List Char} (h : Tidy s) (hne : s ≠ []) :
    Tidy (joinIndirection s) ∧ joinIndirection s ≠ [] := by
  rcases joinIndirection_eq s with heq | ⟨front, mark, rfl, hmark, heq⟩
  · rw [heq]
    exact ⟨h, hne⟩
  · rw [heq]
    have hsolid : Tidy [mark] := by
      apply tidy_of_nonblank
      intro c hc
      obtain rfl := List.mem_singleton.mp hc
      rcases hmark with rfl | rfl <;> rfl
    exact ⟨h.toSpaced.of_append.append_tidy hsolid (List.cons_ne_nil _ _), by simp⟩

/-- **The written form** of a type is tidy, and it is empty only if nothing is written. -/
theorem tidy_cleanType (s : List Char) :
    Tidy (cleanType s) ∧ (words s ≠ [] → cleanType s ≠ []) := by
  obtain ⟨hsimple, hsimple'⟩ := tidy_simplify s
  unfold cleanType
  dsimp only
  rcases eq_or_ne (words s) [] with hnone | hsome
  · have hnil : simplify s = [] := by rw [simplify, hnone]; rfl
    rw [hnil]
    exact ⟨tidy_nil, fun h => absurd hnone h⟩
  · obtain ⟨hrecord, hrecord'⟩ := tidy_dropRecordKeyword hsimple (hsimple' hsome)
    obtain ⟨hclass, hclass'⟩ :=
      tidy_replaceAll " class ".toList rfl rfl hrecord hrecord'
    obtain ⟨hstruct, hstruct'⟩ :=
      tidy_replaceAll " struct ".toList rfl rfl hclass hclass'
    obtain ⟨hjoined, hjoined'⟩ := tidy_joinIndirection hstruct hstruct'
    exact ⟨hjoined, fun _ => hjoined'⟩

theorem tidy_readType (s : List Char) : Tidy (readType s).1.toList := by
  rw [readType, String.toList_ofList]
  exact (tidy_cleanType _).1

/-- There are no blanks in a name that is read. -/
theorem solid_readName (s : List Char) : Solid (readName s).1.toList := by
  intro c hc
  rw [readName, String.toList_ofList] at hc
  simpa using (List.mem_filter.mp hc).2

theorem tidy_readName (s : List Char) : Tidy (readName s).1.toList :=
  tidy_of_nonblank fun c hc => isBlank_eq_false_of_isSpace (solid_readName s c hc)

/-- What stands within the first `n` characters is found among those that are taken. -/
theorem words_take_ne_nil {s : List Char} {k n m : Nat} (h : words ((s.drop k).take n) ≠ [])
    (hle : k + n ≤ m) : words (s.take m) ≠ [] := by
  obtain ⟨w, ws, hwords⟩ := List.exists_cons_of_ne_nil h
  have hmem : w ∈ words ((s.drop k).take n) := hwords ▸ List.mem_cons_self
  obtain ⟨hne, hsolid⟩ := solid_of_mem_words hmem
  obtain ⟨c, tail, rfl⟩ := List.exists_cons_of_ne_nil hne
  have hc : c ∈ (s.drop k).take n := mem_of_mem_words hmem c List.mem_cons_self
  rw [List.take_drop] at hc
  have hm : c ∈ s.take m := List.take_subset_take_left s hle (List.mem_of_mem_drop hc)
  exact words_ne_nil hm (hsolid c List.mem_cons_self)

/-- Something that is no white space is taken for a name. -/
theorem words_simpleName {s : List Char} (h : simpleName s ≠ 0) :
    words (s.take (simpleName s)) ≠ [] := by
  have hstart : (s.drop (gap s)).head?.any isNameStart = true := by
    by_contra hno
    exact h (simpleName_eq_zero (by simpa using hno))
  cases hname : s.drop (gap s) with
  | nil =>
      rw [hname] at hstart
      cases hstart
  | cons c rest =>
      have hc : isNameStart c = true := by simpa [hname] using hstart
      have hlt : gap s < simpleName s := lt_simpleName (by simp [hname, identifierLength, hc])
      apply words_take_ne_nil (k := gap s) (n := 1) _ hlt
      rw [hname]
      exact words_ne_nil List.mem_cons_self
        (isSpace_eq_false_of_isNameChar (isNameChar_of_isNameStart hc))

/-- Something that is no white space is taken for a type. -/
theorem words_typeLength {s : List Char} (h : typeLength s ≠ 0) :
    words (s.take (typeLength s)) ≠ [] := by
  have hname := qualifiedName_ne_zero s h
  obtain ⟨blanks, c, rest, -, hc, htake⟩ := take_qualifiedName hname
  have hwords : words ((s.drop (modifiersLength s)).take
      (qualifiedName (s.drop (modifiersLength s)))) ≠ [] := by
    rw [htake]
    exact words_ne_nil (by simp) (isSpace_eq_false_of_beginsName hc)
  apply words_take_ne_nil hwords
  rw [typeLength_eq, if_neg hname] at h ⊢
  have hend := (typeEnd_eq_zero_or_le s _).resolve_left h
  omega

/-! ## Parameters -/

/-- What may follow the name of a parameter keeps it tidy. -/
theorem tidy_readParameterEnd {text : List Char} (h : Tidy text) (hne : text ≠ []) (s : List Char)
    (n : Nat) : Tidy (readParameterEnd s text n).1 ∧ (readParameterEnd s text n).1 ≠ [] := by
  have hbrackets : Tidy "[]".toList := tidy_of_all (by decide)
  unfold readParameterEnd
  split
  · exact ⟨h, hne⟩
  · exact ⟨h.append hbrackets, by simp⟩
  · exact ⟨h, hne⟩

/-- **A parameter** is tidy and not empty. -/
theorem tidy_readParameter {s : List Char} (h : (readParameter s).2 ≠ 0) :
    Tidy (readParameter s).1 ∧ (readParameter s).1 ≠ [] := by
  rw [readParameter_eq] at h ⊢
  dsimp only at h ⊢
  split
  · rename_i hzero
    rw [if_pos hzero] at h
    exact absurd rfl h
  · rename_i htype
    obtain ⟨htidy, hne⟩ := tidy_cleanType (s.take (typeLength s))
    have hne := hne (words_typeLength htype)
    unfold readParameterName
    dsimp only
    split
    · rw [List.append_nil]
      exact tidy_readParameterEnd htidy hne _ _
    · rename_i hname
      obtain ⟨hsimple, hsimple'⟩ := tidy_simplify
        ((s.drop (typeLength s + gap (s.drop (typeLength s)))).take (simpleName
          (s.drop (typeLength s + gap (s.drop (typeLength s))))))
      have hsome := hsimple' (words_simpleName hname)
      exact tidy_readParameterEnd (htidy.append_space hne hsimple hsome) (by simp) _ _

/-- The parameters up to the closing parenthesis. -/
theorem tidy_readParameterTail {s ps : List Char} (h : (readParameterTail s).1 = some ps) :
    Tidy ps ∧ ps ≠ [] := by
  induction hlen : s.length using Nat.strongRecOn generalizing s ps with
  | ind n ih =>
      subst hlen
      rw [readParameterTail_eq] at h
      dsimp only at h
      split at h
      · cases h
      rename_i hzero
      obtain ⟨htidy, hne⟩ := tidy_readParameter hzero
      split at h
      · rename_i hcomma
        obtain ⟨rest, hrest, rfl⟩ := Option.map_eq_some_iff.mp h
        have hshort := length_tail_drop_lt_of_head? hcomma
        obtain ⟨hlater, hlater'⟩ := ih _ hshort hrest rfl
        have hpunctuated : Tidy ((readParameter s).1 ++ [',']) :=
          htidy.append (tidy_of_all (by decide))
        have hspaced := hpunctuated.append_space (by simp) hlater hlater'
        rw [List.append_assoc, List.singleton_append] at hspaced
        simpa using hspaced
      split at h
      · obtain rfl := Option.some.inj h
        exact ⟨htidy.append (tidy_of_all (by decide)), by simp⟩
      · cases h

/-- **Parameter lists** are tidy. -/
theorem tidy_readParameters (s : List Char) : Tidy (readParameters s).1.toList := by
  unfold readParameters
  dsimp only
  split
  · split
    · exact tidy_of_all (s := "()".toList) (by decide)
    · generalize htail : readParameterTail _ = tail
      obtain ⟨_ | ps, m⟩ := tail
      · exact tidy_nil
      · obtain ⟨htidy, -⟩ := tidy_readParameterTail (congrArg Prod.fst htail)
        simp only [Option.map_some, Option.getD_some, String.toList_ofList]
        exact Tidy.append (s := ['(']) (tidy_of_all (by decide)) htidy
  · exact tidy_nil

end Syntax

end CppDoc
