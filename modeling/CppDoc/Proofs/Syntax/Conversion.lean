import CppDoc.Proofs.Syntax.Declaration

/-!
# Names of conversion operators

The name of a conversion operator ends in a type, and a blank stands before that type.  What is read as
a name is kept without white space; what is taken for a type keeps the space behind the keyword, or
has `&` or `*` in its place.  The two ways to keep the name of one conversion never agree.

* `cleanType_member_conversion`: how the name is kept if it is taken for a type;
* `conversionType_ne_conversionName`: it is not the name without white space;
* `typeLength_member_conversion`: when the qualified name is taken for a type.
-/

namespace CppDoc.Syntax

open CppDoc.Text

/-! ## The written form of a type with a space in it -/

/-- A text without white space in front of a space is a word. -/
theorem words_append_space {a : List Char} (ha : Solid a) (hne : a ≠ []) (t : List Char) :
    words (a ++ ' ' :: t) = a :: words t := by
  have hspace : isSpace ' ' = true := by decide
  induction a with
  | nil => exact absurd rfl hne
  | cons c rest ih =>
      have hc : isSpace c = false := ha c List.mem_cons_self
      have hrest : Solid rest := fun d hd => ha d (List.mem_cons_of_mem c hd)
      rw [List.cons_append, words, hc]
      cases rest with
      | nil => simp [words, hspace]
      | cons d tail =>
          have hd : isSpace d = false := hrest d List.mem_cons_self
          have htail := ih hrest (List.cons_ne_nil d tail)
          rw [List.cons_append] at htail ⊢
          simp [hd, htail]

/-- What stands before the first space is told by the text. -/
theorem eq_of_append_space {a b s t : List Char} (ha : Solid a) (hb : Solid b)
    (h : a ++ ' ' :: s = b ++ ' ' :: t) : a = b := by
  have hcut {c : List Char} (hc : Solid c) (u : List Char) :
      (c ++ ' ' :: u).takeWhile (fun x => !isSpace x) = c := by
    have hall : c.all (fun x => !isSpace x) = true :=
      List.all_eq_true.mpr fun x hx => by rw [hc x hx]; rfl
    rw [takeWhile_append_of_boundary fun _ => by rfl, takeWhile_eq_self hall]
  have hwords := congrArg (List.takeWhile fun x => !isSpace x) h
  rwa [hcut ha, hcut hb] at hwords

/-- The keywords are dropped only where they are words of their own. -/
theorem dropRecordKeyword_append_space {a : List Char} (ha : Solid a) (hcolon : ':' ∈ a)
    (t : List Char) : dropRecordKeyword (a ++ ' ' :: t) = a ++ ' ' :: t := by
  unfold dropRecordKeyword
  split
  · rename_i rest heq
    obtain rfl : a = "class".toList := eq_of_append_space ha (.of_all (by decide)) heq
    exact absurd hcolon (by decide)
  · rename_i rest heq
    obtain rfl : a = "struct".toList := eq_of_append_space ha (.of_all (by decide)) heq
    exact absurd hcolon (by decide)
  · rfl

theorem mem_replaceFrom {pat new s : List Char} {k : Nat} {c : Char}
    (h : c ∈ replaceFrom pat new k s) : c ∈ new ∨ c ∈ s := by
  induction s generalizing k with
  | nil => cases k <;> exact nomatch h
  | cons d rest ih =>
      have hrest {k : Nat} (h : c ∈ replaceFrom pat new k rest) : c ∈ new ∨ c ∈ d :: rest :=
        (ih h).imp_right (List.mem_cons_of_mem d)
      cases k with
      | succ k => exact hrest h
      | zero =>
          rw [replaceFrom] at h
          split at h
          · exact (List.mem_append.mp h).elim .inl hrest
          · rcases List.mem_cons.mp h with rfl | h
            · exact .inr List.mem_cons_self
            · exact hrest h

/-- A space stays where a keyword is replaced by one. -/
theorem replaceAll_space (pat t : List Char) :
    ∃ u, replaceAll pat [' '] (' ' :: t) = ' ' :: u ∧ ∀ c ∈ u, c = ' ' ∨ c ∈ t := by
  have hmem {k : Nat} : ∀ c ∈ replaceFrom pat [' '] k t, c = ' ' ∨ c ∈ t := fun c hc =>
    (mem_replaceFrom hc).imp_left List.mem_singleton.mp
  unfold replaceAll
  rw [replaceFrom]
  split
  · exact ⟨_, rfl, hmem⟩
  · exact ⟨_, rfl, hmem⟩

theorem joinIndirection_eq (s : List Char) :
    joinIndirection s = s ∨ ∃ front mark, s = front ++ [' ', mark] ∧ (mark = '&' ∨ mark = '*') ∧
      joinIndirection s = front ++ [mark] := by
  unfold joinIndirection
  split
  · rename_i mark front hreverse
    split
    · rename_i hmark
      refine .inr ⟨front.reverse, mark, ?_, by simpa using hmark, by simp⟩
      rw [← List.reverse_reverse s, hreverse]
      simp
    · exact .inl rfl
  · exact .inl rfl

/-- The text stands behind a space, or is a single mark. -/
def Trails (x : List Char) : Prop :=
  x.head? = some ' ' ∨ x = ['&'] ∨ x = ['*']

theorem joinIndirection_append_space {a : List Char} (ha : Solid a) (t : List Char) :
    ∃ x, joinIndirection (a ++ ' ' :: t) = a ++ x ∧ Trails x ∧ ∀ c ∈ x, c = ' ' ∨ c ∈ t := by
  rcases joinIndirection_eq (a ++ ' ' :: t) with heq | ⟨front, mark, hs, hmark, heq⟩
  · exact ⟨' ' :: t, heq, .inl rfl, fun c hc => List.mem_cons.mp hc⟩
  · rw [heq]
    have hspace : ' ' ∉ a := fun hmem => absurd (ha ' ' hmem) (by decide)
    have hsingle (ht : t = [mark]) :
        ∃ x, a ++ [mark] = a ++ x ∧ Trails x ∧ ∀ c ∈ x, c = ' ' ∨ c ∈ t := by
      refine ⟨[mark], rfl, .inr ?_, fun c hc => .inr (ht ▸ hc)⟩
      rcases hmark with rfl | rfl
      · exact .inl rfl
      · exact .inr rfl
    rcases List.append_eq_append_iff.mp hs with ⟨z, rfl, hz⟩ | ⟨z, rfl, hz⟩
    · cases z with
      | nil =>
          rw [List.append_nil]
          exact hsingle (List.cons.inj hz).2
      | cons d z =>
          obtain ⟨rfl, ht⟩ := List.cons.inj hz
          replace ht : t = z ++ [' ', mark] := ht
          refine ⟨' ' :: (z ++ [mark]), by simp, .inl rfl, fun c hc => ?_⟩
          grind
    · cases z with
      | nil =>
          rw [List.append_nil] at hspace hsingle ⊢
          exact hsingle (List.cons.inj hz).2.symm
      | cons d z =>
          obtain ⟨rfl, -⟩ := List.cons.inj hz
          exact absurd (List.mem_append_right front List.mem_cons_self) hspace

theorem mem_of_mem_words {s w : List Char} (hw : w ∈ words s) : ∀ c ∈ w, c ∈ s := by
  induction s generalizing w with
  | nil => exact nomatch hw
  | cons d rest ih =>
      intro c hc
      have hrest {w : List Char} (hw : w ∈ words rest) (hc : c ∈ w) : c ∈ d :: rest :=
        List.mem_cons_of_mem d (ih hw c hc)
      rw [words] at hw
      split at hw
      · exact hrest hw hc
      split at hw
      · rcases List.mem_cons.mp hw with rfl | hw
        · obtain rfl := List.mem_singleton.mp hc
          exact List.mem_cons_self
        · exact hrest hw hc
      split at hw
      · obtain rfl := List.mem_singleton.mp hw
        obtain rfl := List.mem_singleton.mp hc
        exact List.mem_cons_self
      · rename_i v vs hwords
        rcases List.mem_cons.mp hw with rfl | hw
        · rcases List.mem_cons.mp hc with rfl | hc
          · exact List.mem_cons_self
          · exact hrest (hwords ▸ List.mem_cons_self) hc
        · exact hrest (hwords ▸ List.mem_cons_of_mem v hw) hc

/-- What stands in words joined by single spaces. -/
theorem mem_joined {ws : List (List Char)} {c : Char} (h : c ∈ List.intercalate [' '] ws) :
    c = ' ' ∨ ∃ w ∈ ws, c ∈ w := by
  induction ws with
  | nil => exact nomatch h
  | cons w ws ih =>
      cases ws with
      | nil => exact .inr ⟨w, List.mem_cons_self, by simpa using h⟩
      | cons v vs =>
          rw [List.intercalate_cons_cons, List.append_assoc] at h
          rcases List.mem_append.mp h with h | h
          · exact .inr ⟨w, List.mem_cons_self, h⟩
          rcases List.mem_cons.mp h with h | h
          · exact .inl h
          · obtain hspace | ⟨u, hu, hcu⟩ := ih h
            · exact .inl hspace
            · exact .inr ⟨u, List.mem_cons_of_mem w hu, hcu⟩

theorem mem_simplify {s : List Char} {c : Char} (h : c ∈ simplify s) : c = ' ' ∨ c ∈ s := by
  obtain hspace | ⟨w, hw, hc⟩ := mem_joined h
  · exact .inl hspace
  · exact .inr (mem_of_mem_words hw c hc)

/-- **The written form** of a text behind the first space: there is a space in it as well, or a
mark. -/
theorem cleanType_append_space {a : List Char} (ha : Solid a) (hcolon : ':' ∈ a) {t : List Char}
    (ht : words t ≠ []) :
    ∃ x, cleanType (a ++ ' ' :: t) = a ++ x ∧ Trails x ∧ ∀ c ∈ x, c = ' ' ∨ c ∈ t := by
  have hne : a ≠ [] := List.ne_nil_of_mem hcolon
  have hsimplify : simplify (a ++ ' ' :: t) = a ++ ' ' :: simplify t := by
    obtain ⟨w, ws, hws⟩ := List.exists_cons_of_ne_nil ht
    rw [simplify, simplify, words_append_space ha hne, hws, List.intercalate_cons_cons]
    simp
  obtain ⟨u, hu, humem⟩ := replaceAll_space " class ".toList (simplify t)
  obtain ⟨v, hv, hvmem⟩ := replaceAll_space " struct ".toList u
  obtain ⟨x, hx, htrails, hxmem⟩ := joinIndirection_append_space ha v
  refine ⟨x, ?_, htrails, fun c hc => ?_⟩
  · unfold cleanType
    dsimp only
    rw [hsimplify, dropRecordKeyword_append_space ha hcolon, replaceAll_append ha rfl, hu,
      replaceAll_append ha rfl, hv, hx]
  · rcases hxmem c hc with rfl | hc
    · exact .inl rfl
    · rcases hvmem c hc with rfl | hc
      · exact .inl rfl
      · exact (humem c hc).elim .inl mem_simplify

/-! ## Conversions -/

/-- The declaration of the conversion to a type. -/
def conversion (type : List Char) : Declaration :=
  ⟨[], operatorKeyword ++ ' ' :: type, []⟩

/-- A type to which there is a conversion, if `t` follows its parentheses: it is accepted as a type,
and with the keyword before it as a name. -/
structure ConversionType (type t : List Char) : Prop where
  ne_nil : type ≠ []
  noGap : gap type = 0
  colon_not_mem : ':' ∉ type
  accepted : typeLength (type ++ '(' :: ')' :: t) = type.length
  named : operatorTail (' ' :: (type ++ '(' :: ')' :: t)) = type.length + 1

variable {type t : List Char}

/-- A type begins with a letter or an underscore. -/
theorem ConversionType.start (h : ConversionType type t) : type.head?.any isNameStart = true := by
  obtain ⟨c, rest, rfl⟩ := List.exists_cons_of_ne_nil h.ne_nil
  have hgap : gap (c :: (rest ++ '(' :: ')' :: t)) = 0 := by
    obtain ⟨hblank, hcomment⟩ := gap_cons_eq_zero_iff.mp h.noGap
    refine gap_cons_eq_zero_iff.mpr ⟨hblank, fun hslash => ?_⟩
    cases rest with
    | nil => simp
    | cons d tail => exact hcomment hslash
  have hcolon : c ≠ ':' := by
    rintro rfl
    exact h.colon_not_mem List.mem_cons_self
  cases hstart : isNameStart c with
  | true => exact hstart
  | false =>
      have hzero := h.accepted
      rw [List.cons_append, typeLength_punctuation hgap hstart hcolon] at hzero
      exact nomatch hzero

/-- The name under which a header has the conversion. -/
def conversionName (p : ScopePath) (type : List Char) : String :=
  String.ofList (p.member (operatorKeyword ++ spaceless type))

/-- The qualified name of the conversion if it is taken for a type. -/
def conversionType (p : ScopePath) (type : List Char) : String :=
  String.ofList (cleanType (p.member (operatorKeyword ++ ' ' :: type)))

theorem ScopePath.member_append (p : ScopePath) (m n : List Char) :
    p.member (m ++ n) = p.member m ++ n := by
  simp [member_eq]

theorem ScopePath.member_injective (p : ScopePath) {m n : List Char}
    (h : p.member m = p.member n) : m = n := by
  rw [member_eq, member_eq] at h
  exact (List.cons.inj (List.cons.inj (List.append_cancel_left h)).2).2

/-- **As a type**, the name of a conversion keeps a space or a mark behind the keyword. -/
theorem cleanType_member_conversion (h : ConversionType type t) (p : ScopePath) :
    ∃ x, cleanType (p.member (operatorKeyword ++ ' ' :: type)) = p.member (operatorKeyword ++ x) ∧
      Trails x ∧ ':' ∉ x := by
  have hsolid : Solid (p.member operatorKeyword) := by
    rw [p.member_eq]
    exact p.solid_text.append (.cons (by decide) (.cons (by decide) (.of_all (by decide))))
  have hcolon : ':' ∈ p.member operatorKeyword := by simp [p.member_eq]
  have hwords : words type ≠ [] := by
    obtain ⟨c, rest, rfl⟩ := List.exists_cons_of_ne_nil h.ne_nil
    have hc : isSpace c = false :=
      isSpace_eq_false_of_isNameChar (isNameChar_of_isNameStart h.start)
    rw [words, hc]
    simp only [Bool.false_eq_true, if_false]
    split
    · exact List.cons_ne_nil _ _
    · split <;> exact List.cons_ne_nil _ _
  obtain ⟨x, hx, htrails, hmem⟩ := cleanType_append_space hsolid hcolon hwords
  refine ⟨x, ?_, htrails, fun hx => ?_⟩
  · rw [p.member_append, p.member_append, hx]
  · rcases hmem ':' hx with hspace | hx
    · exact absurd hspace (by decide)
    · exact h.colon_not_mem hx

/-- **The two names differ.** -/
theorem conversionType_ne_conversionName (h : ConversionType type t) (p : ScopePath) :
    conversionType p type ≠ conversionName p type := by
  intro heq
  obtain ⟨x, hx, htrails, -⟩ := cleanType_member_conversion h p
  have hmember := String.ofList_injective heq
  rw [hx] at hmember
  obtain rfl : x = spaceless type := List.append_cancel_left (p.member_injective hmember)
  obtain ⟨c, rest, rfl⟩ := List.exists_cons_of_ne_nil h.ne_nil
  have hstart : isNameStart c = true := h.start
  have hc : isSpace c = false := isSpace_eq_false_of_isNameChar (isNameChar_of_isNameStart hstart)
  have hspaceless : spaceless (c :: rest) = c :: spaceless rest := by simp [spaceless, hc]
  rw [hspaceless] at htrails
  rcases htrails with hhead | hmark | hmark
  · obtain rfl : c = ' ' := Option.some.inj hhead
    exact nomatch hstart
  · obtain rfl := (List.cons.inj hmark).1
    exact nomatch hstart
  · obtain rfl := (List.cons.inj hmark).1
    exact nomatch hstart

/-! ## Scanning conversions -/

private theorem keyword_append (x : List Char) :
    operatorKeyword.isPrefixOf (operatorKeyword ++ x) = true :=
  List.isPrefixOf_iff_prefix.mpr (List.prefix_append _ _)

/-- A conversion is recognised as a member of a path. -/
theorem ConversionType.scopeMember_eq (h : ConversionType type t) :
    scopeMember (operatorKeyword ++ ' ' :: type ++ '(' :: ')' :: t) =
      (operatorKeyword ++ ' ' :: type).length := by
  rw [List.append_assoc, List.cons_append, scopeMember, if_pos (keyword_append _), List.drop_left,
    h.named]
  simp

/-- A conversion is recognised as a name of its own. -/
theorem ConversionType.qualifiedName_eq (h : ConversionType type t) :
    qualifiedName (operatorKeyword ++ ' ' :: type ++ '(' :: ')' :: t) =
      (operatorKeyword ++ ' ' :: type).length := by
  have hstart (x : List Char) : (operatorKeyword ++ x).head?.any isNameStart = true := by
    rw [List.head?_append]
    rfl
  refine qualifiedName_parts (b := []) (hstart _) ?_ (gap_parenthesis _) (scopeChain_parenthesis _)
  have hgap : gap (operatorKeyword ++ ' ' :: type ++ '(' :: ')' :: t) = 0 := by
    rw [List.append_assoc]
    exact gap_eq_zero_of_isNameStart (hstart _)
  rw [List.nil_append, simpleName]
  dsimp only
  rw [hgap, List.drop_zero, List.append_assoc, List.cons_append, dif_pos (keyword_append _),
    List.drop_left, h.named]
  simp

/-- A name behind a leading `::`. -/
theorem qualifiedName_global {s : List Char} (hstart : s.head?.any isNameStart = true)
    (h : qualifiedName s ≠ 0) :
    qualifiedName (':' :: ':' :: s) = qualifiedName s + 2 := by
  have hgap : gap (':' :: ':' :: s) = 0 := gap_punctuation (by decide) _
  have hgap' : gap s = 0 := gap_eq_zero_of_isNameStart hstart
  have hlead : leadingScope s = 0 := by
    rw [leadingScope_of_not_scope, hgap']
    rw [hgap', List.drop_zero]
    rintro ⟨v, rfl⟩
    exact nomatch hstart
  have hlead' : leadingScope (':' :: ':' :: s) = 2 := by
    have hdrop : (':' :: ':' :: s).drop (gap (':' :: ':' :: s)) = ':' :: ':' :: s := by
      rw [hgap, List.drop_zero]
    rw [leadingScope_of_scope hdrop, hgap, hgap']
  have hshift : qualifiedName ([':', ':'] ++ s) = 2 + qualifiedName s :=
    qualifiedName_shift s (by rw [hlead]; exact hlead') h
  rw [Nat.add_comm]
  exact hshift

/-! ## Classes that begin with a modifier -/

/-- The text begins with a type modifier that a digit follows. -/
def Numbered (c : List Char) : Prop :=
  ¬ Unmodified c ∧ (c.dropWhile Char.isLower).head?.any Char.isDigit = true

/-- Identifiers begin with what they may go on with, digits apart. -/
theorem isNameStart_eq_not_isDigit {c : Char} (h : isNameChar c = true) :
    isNameStart c = !c.isDigit := by
  cases hdigit : c.isDigit with
  | false =>
      simp only [isNameChar, Char.isAlphanum, hdigit, Bool.or_false] at h
      exact h
  | true =>
      simp only [Char.isDigit, Bool.and_eq_true, decide_eq_true_eq, UInt32.le_iff_toNat_le] at hdigit
      unfold isNameStart Char.isAlpha Char.isUpper Char.isLower
      simp only [UInt32.le_iff_toNat_le]
      have hunderscore : c ≠ '_' := by
        rintro rfl
        exact absurd hdigit.2 (by decide)
      simp [hunderscore]
      simp at hdigit
      omega

/-- A modifier is measured if no further small letter follows it. -/
theorem modifierLength_of_mem {w y : List Char} (hw : w ∈ typeModifiers)
    (hy : y.head?.any Char.isLower = false) : modifierLength (w ++ y) = w.length := by
  have hlower : ∀ w ∈ typeModifiers, w.all Char.isLower = true ∧ w.takeWhile isBlank = [] ∧ w ≠ [] := by
    decide
  obtain ⟨hall, hblank, hne⟩ := hlower w hw
  have hblanks : (w ++ y).takeWhile isBlank = [] := by
    obtain ⟨c, rest, rfl⟩ := List.exists_cons_of_ne_nil hne
    rw [List.takeWhile_cons] at hblank
    rw [List.cons_append, List.takeWhile_cons]
    split at hblank
    · exact nomatch hblank
    · rename_i hc
      rw [if_neg hc]
  have hword : (w ++ y).takeWhile Char.isLower = w := by
    rw [takeWhile_append_of_boundary fun _ => hy, takeWhile_eq_self hall]
  simp only [modifierLength, hblanks, List.length_nil, List.drop_zero, hword, Nat.zero_add]
  rw [if_pos (by simpa using hw)]

theorem modifiersLength_of_mem {w y : List Char} {c : Char} (hw : w ∈ typeModifiers)
    (hblank : isBlank c = false) (hlower : c.isLower = false) :
    modifierLength (w ++ c :: y) ≠ 0 ∧ modifiersLength (w ++ c :: y) = w.length := by
  have hne : ∀ w ∈ typeModifiers, w.length ≠ 0 := by decide
  have hmodifier : modifierLength (w ++ c :: y) = w.length := modifierLength_of_mem hw hlower
  refine ⟨hmodifier ▸ hne w hw, ?_⟩
  rw [modifiersLength_eq, hmodifier, if_neg (hne w hw), List.drop_left,
    modifiersLength_eq_zero hblank hlower, Nat.add_zero]

theorem head?_dropWhile_not {q : Char → Bool} (s : List Char) :
    (s.dropWhile q).head?.any q = false := by
  induction s with
  | nil => rfl
  | cons c rest ih =>
      cases hc : q c with
      | true => rwa [List.dropWhile_cons_of_pos hc]
      | false => rw [List.dropWhile_cons_of_neg (by simp [hc])]; exact hc

/-- A name with a modifier in front, of which `rest` is left. -/
theorem exists_modifier {c : List Char} (hchars : c.all isNameChar = true) (h : ¬ Unmodified c) :
    ∃ w ∈ typeModifiers, ∃ rest, c = w ++ rest ∧ c.dropWhile Char.isLower = rest ∧
      rest.head?.any Char.isLower = false ∧ rest.all isNameChar = true := by
  have hsplit : c = c.takeWhile Char.isLower ++ c.dropWhile Char.isLower :=
    List.takeWhile_append_dropWhile.symm
  refine ⟨_, Decidable.not_not.mp h, _, hsplit, rfl, head?_dropWhile_not c, ?_⟩
  rw [hsplit, List.all_append, Bool.and_eq_true] at hchars
  exact hchars.2

/-- The modifier in front of a digit is measured, and no name follows it. -/
theorem Numbered.no_name {c : List Char} (h : Numbered c) (hchars : c.all isNameChar = true)
    (x : List Char) : modifierLength (c ++ x) ≠ 0 ∧
      qualifiedName ((c ++ x).drop (modifiersLength (c ++ x))) = 0 := by
  obtain ⟨hmodified, hdigit⟩ := h
  obtain ⟨w, hw, rest, hfirst, hrest, hlower, hchars⟩ := exists_modifier hchars hmodified
  rw [hrest] at hdigit
  obtain ⟨d, tail, rfl⟩ : ∃ d tail, rest = d :: tail := by
    cases rest with
    | nil => cases hdigit
    | cons d tail => exact ⟨d, tail, rfl⟩
  replace hdigit : d.isDigit = true := hdigit
  have hd : isNameChar d = true := List.all_eq_true.mp hchars d List.mem_cons_self
  have hstart : isNameStart d = false := by rw [isNameStart_eq_not_isDigit hd, hdigit]; rfl
  have hother (e : Char) (he : isNameChar e = false) : d ≠ e := by
    rintro rfl
    rw [hd] at he
    cases he
  have hblank := isBlank_eq_false_of_isNameChar hd
  have htext : c ++ x = w ++ d :: (tail ++ x) := by simp [hfirst]
  obtain ⟨hmodifier, hmodifiers⟩ := modifiersLength_of_mem (y := tail ++ x) hw hblank hlower
  have hgap : gap (d :: (tail ++ x)) = 0 :=
    gap_cons_eq_zero_iff.mpr ⟨hblank, fun hslash => absurd hslash (hother '/' rfl)⟩
  rw [htext, hmodifiers, List.drop_left]
  exact ⟨hmodifier, qualifiedName_punctuation hgap hstart (hother ':' rfl)⟩

/-- Behind a modifier and in front of a digit there is no type. -/
theorem typeLength_numbered {p : ScopePath} (h : Numbered p.first) {indent : List Char}
    (hindent : indent.all isBlank = true) (m x : List Char) :
    typeLength (indent ++ (p.member m ++ x)) = 0 := by
  obtain ⟨hmodifier, hname⟩ := h.no_name p.identifier_first.chars (p.memberChain m ++ x)
  rw [ScopePath.member, List.append_assoc, typeLength_eq]
  dsimp only
  rw [modifiersLength_indent hindent, if_neg hmodifier, List.drop_length_add_append, hname,
    if_pos rfl]

/-- A modifier is part of the type that stands behind it. -/
theorem typeLength_behind_modifier {w s u : List Char} (hw : w ∈ typeModifiers) (hne : s ≠ [])
    (hblank : s.head?.any isBlank = false) (hlower : s.head?.any Char.isLower = false)
    (hname : qualifiedName (s ++ '(' :: u) = s.length) :
    typeLength (w ++ s ++ '(' :: u) = (w ++ s).length := by
  obtain ⟨c, rest, rfl⟩ := List.exists_cons_of_ne_nil hne
  have hmodifiers : modifiersLength (w ++ (c :: rest ++ '(' :: u)) = w.length :=
    (modifiersLength_of_mem hw hblank hlower).2
  rw [List.append_assoc, List.length_append]
  exact typeLength_of_qualifiedName hmodifiers hname (by simp)

/-- The chain of members begins with a `::`. -/
theorem ScopePath.memberChain_eq_cons (p : ScopePath) (m : List Char) :
    ∃ x, p.memberChain m = ':' :: x := by
  rw [memberChain]
  cases p.inner with
  | nil => exact ⟨_, rfl⟩
  | cons c cs => exact ⟨_, by rw [chain_cons]⟩

/-- A conversion behind a path that has lost its first identifier. -/
theorem qualifiedName_memberChain (h : ConversionType type t) (p : ScopePath) :
    qualifiedName (p.memberChain (operatorKeyword ++ ' ' :: type) ++ '(' :: ')' :: t) =
      (p.memberChain (operatorKeyword ++ ' ' :: type)).length := by
  have hglobal {s : List Char} (hstart : s.head?.any isNameStart = true) (hne : s.length ≠ 0)
      (hname : qualifiedName (s ++ '(' :: ')' :: t) = s.length) :
      qualifiedName (':' :: ':' :: (s ++ '(' :: ')' :: t)) = s.length + 2 := by
    have hhead : (s ++ '(' :: ')' :: t).head?.any isNameStart = true := by
      cases s with
      | nil => exact nomatch hstart
      | cons c rest => exact hstart
    rw [qualifiedName_global hhead (hname ▸ hne), hname]
  cases hinner : p.inner with
  | nil =>
      have hstart : (operatorKeyword ++ ' ' :: type).head?.any isNameStart = true := by
        rw [List.head?_append]
        rfl
      have hname := hglobal hstart (by simp) h.qualifiedName_eq
      rw [ScopePath.memberChain, hinner]
      exact hname
  | cons c cs =>
      let q : ScopePath :=
        { first := c, inner := cs, identifiers := fun d hd => p.identifier_inner d (hinner ▸ hd) }
      have hname := hglobal (q.identifier_first.append_start _) (q.length_member_ne_zero _)
        (q.qualifiedName_of_scopeMember h.scopeMember_eq (by simp))
      have htext : p.memberChain (operatorKeyword ++ ' ' :: type) =
          ':' :: ':' :: q.member (operatorKeyword ++ ' ' :: type) := by
        rw [ScopePath.memberChain, hinner, chain_cons]
        rfl
      rw [htext]
      exact hname

/-- **The qualified name** of a conversion is taken for a type, unless the name of its class is a
modifier with a digit behind it. -/
theorem typeLength_member_conversion (h : ConversionType type t) {p : ScopePath}
    (hnumbered : ¬ Numbered p.first) :
    typeLength (p.member (operatorKeyword ++ ' ' :: type) ++ '(' :: ')' :: t) =
      (p.member (operatorKeyword ++ ' ' :: type)).length := by
  by_cases hmodified : Unmodified p.first
  · exact p.typeLength_of_scopeMember h.scopeMember_eq (by simp) hmodified
  obtain ⟨w, hw, rest, hfirst, hrest, hlower, hchars⟩ :=
    exists_modifier p.identifier_first.chars hmodified
  cases rest with
  | nil =>
      -- The modifier is the whole name, and leaves a name that begins with `::`.
      obtain ⟨x, hx⟩ := p.memberChain_eq_cons (operatorKeyword ++ ' ' :: type)
      have hname := qualifiedName_memberChain h p
      rw [hx] at hname
      rw [ScopePath.member, hfirst, List.append_nil, hx]
      exact typeLength_behind_modifier hw (List.cons_ne_nil _ _) rfl rfl hname
  | cons d tail =>
      -- Behind the modifier another identifier begins.
      have hd : isNameChar d = true := List.all_eq_true.mp hchars d List.mem_cons_self
      have hstart : isNameStart d = true := by
        rw [isNameStart_eq_not_isDigit hd, Bool.not_eq_true', Bool.eq_false_iff]
        exact fun hdigit => hnumbered ⟨hmodified, by rw [hrest]; exact hdigit⟩
      have hfresh : ¬ operatorKeyword <+: d :: tail := by
        rintro ⟨v, hv⟩
        obtain rfl : 'o' = d := (List.cons.inj hv).1
        cases hlower
      let q : ScopePath :=
        { first := d :: tail, inner := p.inner,
          identifiers := fun c hc => by
            rcases List.mem_cons.mp hc with rfl | hc
            · exact ⟨hstart, hchars, hfresh⟩
            · exact p.identifier_inner c hc }
      have hmember : p.member (operatorKeyword ++ ' ' :: type) =
          w ++ q.member (operatorKeyword ++ ' ' :: type) := by
        rw [ScopePath.member, hfirst, List.append_assoc]
        rfl
      rw [hmember]
      exact typeLength_behind_modifier hw (by simp [ScopePath.member, q])
        (isBlank_eq_false_of_isNameChar hd) hlower
        (q.qualifiedName_of_scopeMember h.scopeMember_eq (by simp))

end CppDoc.Syntax
