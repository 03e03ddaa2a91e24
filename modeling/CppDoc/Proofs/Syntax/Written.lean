import CppDoc.Proofs.Syntax.Indent
import CppDoc.Proofs.Syntax.ScopePath
import CppDoc.Syntax.Word

/-!
# Names as they are kept

The name of a member is kept as it is written, whether it is read as a name or taken for a type: there
is no white space in it that either reading would change.

* `cleanType_eq_self` and `spaceless_eq_self`: a text without white space is kept as it is;
* `readName_member` and `readType_member`: so is the name of a member in front of its parameters.
-/

namespace CppDoc.Syntax

open CppDoc.Text

/-! ## Texts without white space -/

/-- No white space occurs in `s`. -/
def Solid (s : List Char) : Prop :=
  ∀ c ∈ s, isSpace c = false

theorem Solid.of_all {s : List Char} (h : (s.all fun c => !isSpace c) = true) : Solid s := by
  intro c hc
  have hno := List.all_eq_true.mp h c hc
  rwa [Bool.not_eq_true'] at hno

theorem Solid.append {s t : List Char} (hs : Solid s) (ht : Solid t) : Solid (s ++ t) := by
  intro c hc
  rcases List.mem_append.mp hc with hc | hc
  · exact hs c hc
  · exact ht c hc

theorem Solid.cons {c : Char} {s : List Char} (hc : isSpace c = false) (hs : Solid s) :
    Solid (c :: s) := by
  intro d hd
  rcases List.mem_cons.mp hd with rfl | hd
  · exact hc
  · exact hs d hd

theorem spaceless_eq_self {s : List Char} (h : Solid s) : spaceless s = s := by
  apply List.filter_eq_self.mpr
  intro c hc
  rw [h c hc]
  rfl

theorem words_eq_singleton {s : List Char} (h : Solid s) (hne : s ≠ []) : words s = [s] := by
  induction s with
  | nil => exact absurd rfl hne
  | cons c rest ih =>
      have hc : isSpace c = false := h c List.mem_cons_self
      have hrest : Solid rest := fun d hd => h d (List.mem_cons_of_mem c hd)
      rw [words, hc]
      cases rest with
      | nil => rfl
      | cons d tail =>
          have hd : isSpace d = false := hrest d List.mem_cons_self
          have htail := ih hrest (List.cons_ne_nil d tail)
          simp [hd, htail]

theorem simplify_eq_self {s : List Char} (h : Solid s) : simplify s = s := by
  cases s with
  | nil => rfl
  | cons c rest => simp [simplify, words_eq_singleton h (List.cons_ne_nil c rest)]

/-- A space is replaced only where there is one. -/
theorem replaceAll_append {pat new a : List Char} (ha : Solid a) (hpat : pat.head? = some ' ')
    (s : List Char) : replaceAll pat new (a ++ s) = a ++ replaceAll pat new s := by
  unfold replaceAll
  induction a with
  | nil => rfl
  | cons c rest ih =>
      have hno : ¬ pat.isPrefixOf (c :: (rest ++ s)) = true := by
        rw [List.isPrefixOf_iff_prefix]
        rintro ⟨v, hv⟩
        have hhead := congrArg List.head? hv
        rw [List.head?_append, hpat] at hhead
        obtain rfl : ' ' = c := by simpa using hhead
        exact absurd (ha ' ' List.mem_cons_self) (by decide)
      rw [List.cons_append, replaceFrom, if_neg hno, ih fun d hd => ha d (List.mem_cons_of_mem c hd)]
      rfl

theorem replaceAll_eq_self {pat new s : List Char} (hs : Solid s) (hpat : pat.head? = some ' ') :
    replaceAll pat new s = s := by
  have happend : replaceAll pat new (s ++ []) = s ++ [] := replaceAll_append hs hpat []
  rwa [List.append_nil] at happend

theorem dropRecordKeyword_eq_self {s : List Char} (hs : Solid s) : dropRecordKeyword s = s := by
  unfold dropRecordKeyword
  split
  · exact absurd (hs ' ' (by simp)) (by decide)
  · exact absurd (hs ' ' (by simp)) (by decide)
  · rfl

theorem joinIndirection_eq_self {s : List Char} (hs : Solid s) : joinIndirection s = s := by
  unfold joinIndirection
  split
  · rename_i mark front hrev
    have hmem : ' ' ∈ s := by
      rw [← List.mem_reverse, hrev]
      simp
    exact absurd (hs ' ' hmem) (by decide)
  · rfl

/-- **Without white space**, a type is its own written form. -/
theorem cleanType_eq_self {s : List Char} (h : Solid s) : cleanType s = s := by
  unfold cleanType
  dsimp only
  rw [simplify_eq_self h, dropRecordKeyword_eq_self h, replaceAll_eq_self h rfl,
    replaceAll_eq_self h rfl, joinIndirection_eq_self h]

/-! ## Names -/

/-- The characters between the space and the end of ASCII are not white space. -/
private theorem isSpace_eq_false_of_visible {c : Char} (hlow : 0x20 < c.toNat)
    (hhigh : c.toNat < 0x7F) : isSpace c = false := by
  simp only [isSpace, Bool.or_eq_false_iff, Bool.and_eq_false_iff, decide_eq_false_iff_not,
    beq_eq_false_iff_ne]
  omega

theorem isSpace_eq_false_of_isNameChar {c : Char} (h : isNameChar c = true) : isSpace c = false := by
  unfold isNameChar Char.isAlphanum Char.isAlpha Char.isUpper Char.isLower Char.isDigit at h
  simp only [Bool.or_eq_true, Bool.and_eq_true, decide_eq_true_eq, beq_iff_eq, ge_iff_le,
    UInt32.le_iff_toNat_le] at h
  rcases h with ((⟨hlow, hhigh⟩ | ⟨hlow, hhigh⟩) | ⟨hlow, hhigh⟩) | rfl
  · exact isSpace_eq_false_of_visible (Nat.lt_of_lt_of_le (by decide) hlow)
      (Nat.lt_of_le_of_lt hhigh (by decide))
  · exact isSpace_eq_false_of_visible (Nat.lt_of_lt_of_le (by decide) hlow)
      (Nat.lt_of_le_of_lt hhigh (by decide))
  · exact isSpace_eq_false_of_visible (Nat.lt_of_lt_of_le (by decide) hlow)
      (Nat.lt_of_le_of_lt hhigh (by decide))
  · rfl

theorem isBlank_eq_false_of_isSpace {c : Char} (h : isSpace c = false) : isBlank c = false := by
  cases hc : isBlank c with
  | false => rfl
  | true => exact nomatch h.symm.trans (isSpace_of_isBlank hc)

theorem isBlank_eq_false_of_isNameChar {c : Char} (h : isNameChar c = true) : isBlank c = false :=
  isBlank_eq_false_of_isSpace (isSpace_eq_false_of_isNameChar h)

theorem isSpace_eq_false_of_isOperatorChar {c : Char} (h : isOperatorChar c = true) :
    isSpace c = false := by
  simp only [isOperatorChar, Bool.and_eq_true, Bool.or_eq_true, decide_eq_true_eq] at h
  rcases h.1 with ⟨hlow, hhigh⟩ | ⟨hlow, hhigh⟩
  · exact isSpace_eq_false_of_visible (Nat.lt_of_lt_of_le (by decide) hlow)
      (Nat.lt_of_le_of_lt hhigh (by decide))
  · exact isSpace_eq_false_of_visible (Nat.lt_of_lt_of_le (by decide) hlow)
      (Nat.lt_of_le_of_lt hhigh (by decide))

theorem Identifier.solid {c : List Char} (h : Identifier c) : Solid c :=
  fun d hd => isSpace_eq_false_of_isNameChar (List.all_eq_true.mp h.chars d hd)

/-- The symbol of an operator is one or two characters of punctuation. -/
theorem OperatorSymbol.all_isOperatorChar {symbol : List Char} (h : OperatorSymbol symbol) :
    ∀ c ∈ symbol, isOperatorChar c = true := by
  have hlen := h.accepted
  match symbol, h.ne_nil with
  | [c], _ =>
      have hc : isOperatorChar c = true := by
        cases hc : isOperatorChar c with
        | true => rfl
        | false => simp [symbolLength, hc] at hlen
      simpa using hc
  | c :: d :: rest, _ =>
      by_cases hcall : c = '(' ∧ d = ')'
      · obtain ⟨rfl, rfl⟩ := hcall
        have hrest : rest = [] := by simpa [symbolLength] using hlen
        rw [hrest]
        exact List.all_eq_true.mp (by decide)
      · have hvalue : symbolLength (c :: d :: rest ++ ['(']) =
            if isOperatorChar c then (if d != '(' && isOperatorChar d then 2 else 1) else 0 := by
          rw [List.cons_append, List.cons_append]
          unfold symbolLength
          split
          · rename_i heq
            simp_all
          · simp_all
          · simp_all
          · simp_all
        rw [hvalue] at hlen
        simp only [List.length_cons] at hlen
        split at hlen
        · rename_i hc
          split at hlen
          · rename_i hd
            simp only [Bool.and_eq_true] at hd
            have hrest : rest = [] := List.length_eq_zero_iff.mp (by omega)
            simp [hrest, hc, hd.2]
          · omega
        · omega

/-- The name of a member contains no white space. -/
theorem MemberName.solid {m : List Char} (h : MemberName m) : Solid m := by
  cases h with
  | identifier hc => exact hc.solid
  | destructor hc => exact hc.solid.cons rfl
  | operator hsymbol =>
      have hkeyword : Solid operatorKeyword := .of_all (by decide)
      exact hkeyword.append fun c hc =>
        isSpace_eq_false_of_isOperatorChar (hsymbol.all_isOperatorChar c hc)

theorem solid_chain {cs : List (List Char)} (hcs : ∀ c ∈ cs, Identifier c) : Solid (chain cs) := by
  intro d hd
  obtain ⟨c, hc, hmem⟩ := List.mem_flatMap.mp hd
  simp only [List.mem_cons] at hmem
  rcases hmem with rfl | rfl | hmem
  · rfl
  · rfl
  · exact (hcs c hc).solid d hmem

theorem ScopePath.solid_text (p : ScopePath) : Solid p.text :=
  p.identifier_first.solid.append (solid_chain p.identifier_inner)

theorem ScopePath.solid_member (p : ScopePath) {m : List Char} (hm : MemberName m) :
    Solid (p.member m) :=
  p.identifier_first.solid.append
    ((solid_chain p.identifier_inner).append (.cons rfl (.cons rfl hm.solid)))

/-! ## Readers -/

/-- A type is read with the blanks before it, which are dropped. -/
theorem readType_indent {indent s : List Char} (hindent : indent.all isBlank = true)
    (h : typeLength s ≠ 0) :
    readType (indent ++ s) = ((readType s).1, indent.length + (readType s).2) := by
  simp only [readType, typeLength_indent hindent s h, List.take_length_add_append,
    cleanType_indent hindent]

/-- No hyphen joins a word to what follows. -/
theorem hyphenated_cons {c : Char} (hc : c ≠ '-') (s : List Char) : hyphenated (c :: s) = 0 := by
  rw [hyphenated]
  rintro tail heq
  exact hc (List.cons.inj heq).1

/-- A word is read with the blanks before it, which are dropped. -/
theorem readWord_identifier {b w x : List Char} (hb : b.all isBlank = true)
    (hw : Identifier w) (hx : x.head?.any isNameChar = false) (hhyphen : hyphenated x = 0) :
    readWord (b ++ (w ++ x)) = (String.ofList w, (b ++ w).length) := by
  have hgap : gap (b ++ (w ++ x)) = b.length := by
    rw [gap_blanks_append hb, hw.gap_append, Nat.add_zero]
  have hname : simpleName (b ++ (w ++ x)) = (b ++ w).length := by
    have hno := not_prefix_append (by decide) hw.fresh fun _ => hx
    rw [simpleName_eq (by rwa [hgap, List.drop_left]), hgap, List.drop_left,
      identifierLength_word hw.start hw.chars hx, if_neg (Nat.ne_of_gt hw.length_pos), List.length_append]
  have htext : b ++ (w ++ x) = (b ++ w) ++ x := (List.append_assoc ..).symm
  have hkept : simplify (b ++ w) = w := by
    rw [simplify, words_indent hb, ← simplify, simplify_eq_self hw.solid]
  have hne : w.isEmpty = false := List.isEmpty_eq_false_iff.mpr hw.ne_nil
  rw [htext] at hname ⊢
  simp only [readWord, hname, List.drop_left, List.take_left, hhyphen, Nat.add_zero, hkept, hne,
    Bool.false_eq_true, if_false]

theorem readName_parenthesis (t : List Char) : readName ('(' :: t) = ("", 0) := by
  rw [readName, qualifiedName_punctuation (gap_parenthesis t) rfl (by decide)]
  rfl

/-- The mark of a destructor begins neither a name nor a type. -/
theorem readName_tilde (t : List Char) : readName ('~' :: t) = ("", 0) := by
  have hgap : gap ('~' :: t) = 0 := gap_punctuation (by decide) _
  rw [readName, qualifiedName_punctuation hgap rfl (by decide)]
  rfl

theorem readType_tilde (t : List Char) : readType ('~' :: t) = ("", 0) := by
  have hgap : gap ('~' :: t) = 0 := gap_punctuation (by decide) _
  rw [readType, typeLength_punctuation hgap rfl (by decide)]
  rfl

/-- A name without white space is kept as it is. -/
theorem readName_of_solid {s t : List Char} (hs : Solid s)
    (h : qualifiedName (s ++ t) = s.length) : readName (s ++ t) = (String.ofList s, s.length) := by
  simp only [readName, h, List.take_left, spaceless_eq_self hs]

theorem readType_of_solid {s t : List Char} (hs : Solid s) (h : typeLength (s ++ t) = s.length) :
    readType (s ++ t) = (String.ofList s, s.length) := by
  simp only [readType, h, List.take_left, cleanType_eq_self hs]

/-- **The name of a member** is kept as it is written. -/
theorem readName_member (p : ScopePath) {m : List Char} (hm : MemberName m) (t : List Char) :
    readName (p.member m ++ '(' :: t) = (String.ofList (p.member m), (p.member m).length) :=
  readName_of_solid (p.solid_member hm) (p.qualifiedName_member hm t)

/-- **Without a return type**, the name of a member is read as a type, and kept as it is written. -/
theorem readType_member (p : ScopePath) {m : List Char} (hm : MemberName m)
    (hfirst : Unmodified p.first) (t : List Char) :
    readType (p.member m ++ '(' :: t) = (String.ofList (p.member m), (p.member m).length) :=
  readType_of_solid (p.solid_member hm) (p.typeLength_member hm t hfirst)

end CppDoc.Syntax
