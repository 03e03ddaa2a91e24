import CppDoc.Proofs.Syntax.Closing
import CppDoc.Proofs.Syntax.Written
import CppDoc.Proofs.LineEndings.Text

/-!
# Scanners and line endings

The scanners take both characters of a line ending for blanks.  Each recognises as much of a text as of
its `crlf`, and so the readers keep the same names, types and parameters.

* `gap_crlf` and the lemmas behind it: the pieces that names and types are made of;
* `simpleName_crlf`, `qualifiedName_crlf`, `typeLength_crlf`: the circle of names and types;
* `readName_crlf` and so on: what is read has the same value, and takes the same part of the text.
-/

namespace CppDoc.Syntax

open CppDoc.Text

/-! ## Pieces of names -/

section Pieces

variable (s : List Char)

theorem gapFrom_crlf (inComment : Bool) : gapFrom inComment (crlf s) = width s (gapFrom inComment s) := by
  induction s generalizing inComment with
  | nil => simp [crlf, gapFrom]
  | cons c rest ih =>
      by_cases hc : c = '\n'
      · subst hc
        have hline (b : Bool) : gapFrom b ('\n' :: rest) = gapFrom false rest + 1 := by
          cases b <;> simp [gapFrom, isBlank]
        have hreturn (b : Bool) : gapFrom b ('\r' :: '\n' :: crlf rest) = gapFrom false (crlf rest) + 2 := by
          cases b <;> simp [gapFrom, isBlank]
        rw [crlf_feed, hreturn, hline, width_feed, ih]
      · have hslash : ((crlf rest).head? == some '/') = (rest.head? == some '/') := by
          have hhead := head?_crlf_any (p := (· == '/')) rfl rest
          cases rest <;> cases hcrlf : crlf _ <;> simp_all
        rw [crlf_cons hc]
        simp only [gapFrom, ih, hslash]
        split
        · rw [width_cons _ hc]
        · split
          · rw [width_cons _ hc]
          · split
            · rw [width_cons _ hc]
            · rw [width_zero]

theorem gap_crlf : gap (crlf s) = width s (gap s) :=
  gapFrom_crlf s false

theorem identifierLength_crlf : identifierLength (crlf s) = width s (identifierLength s) := by
  cases s with
  | nil => rfl
  | cons c rest =>
      by_cases hc : c = '\n'
      · subst hc
        rfl
      · rw [crlf_cons hc, identifierLength, identifierLength, length_takeWhile_crlf rfl]
        split
        · rw [width_cons _ hc]
        · rw [width_zero]

theorem modifierLength_crlf : modifierLength (crlf s) = width s (modifierLength s) := by
  have hword (t : List Char) : (crlf t).takeWhile Char.isLower = t.takeWhile Char.isLower :=
    takeWhile_crlf_eq rfl t rfl
  have hlength (t : List Char) := length_takeWhile_crlf (p := Char.isLower) rfl t
  simp only [modifierLength, length_takeWhile_crlf (p := isBlank) rfl, drop_crlf, hword]
  split
  · rw [width_add, ← hlength, hword]
  · rw [width_zero]

theorem modifiersLength_crlf : modifiersLength (crlf s) = width s (modifiersLength s) := by
  induction hlen : s.length using Nat.strongRecOn generalizing s with
  | ind n ih =>
      have hzero : width s (modifierLength s) = 0 ↔ modifierLength s = 0 :=
        width_eq_zero_iff fun hs => hs ▸ by decide
      rw [modifiersLength_eq (crlf s), modifiersLength_eq s, modifierLength_crlf]
      by_cases hm : modifierLength s = 0
      · rw [if_pos (hzero.mpr hm), if_pos hm, width_zero]
      · have hle := modifierLength_le s
        rw [if_neg (mt hzero.mp hm), if_neg hm, drop_crlf, width_add,
          ih _ (by rw [List.length_drop]; omega) _ rfl]

theorem width_two_le {c d : Char} (hc : c ≠ '\n') (hd : d ≠ '\n') {n : Nat} (hn : n ≤ 2) :
    width (c :: d :: s) n = n := by
  obtain rfl | rfl | rfl : n = 0 ∨ n = 1 ∨ n = 2 := by omega
  · exact width_zero _
  · rw [width_cons _ hc, width_zero]
  · rw [width_cons _ hc, width_cons _ hd, width_zero]

/-- Line feeds are no part of a symbol. -/
theorem symbolLength_crlf : symbolLength (crlf s) = width s (symbolLength s) := by
  have hfeed : isOperatorChar '\n' = false ∧ isOperatorChar '\r' = false := by decide
  cases s with
  | nil => rfl
  | cons c s =>
    by_cases hc : c = '\n'
    · subst hc
      cases s <;> simp [crlf, symbolLength, hfeed]
    · cases s with
      | nil =>
          rw [crlf_cons hc, crlf]
          simp only [symbolLength]
          split
          · rw [width_cons _ hc, width_zero]
          · rw [width_zero]
      | cons d rest =>
          by_cases hd : d = '\n'
          · subst hd
            rw [crlf_cons hc, crlf_feed]
            have hone (t : List Char) {e : Char} (he : isOperatorChar e = false ∧ e ≠ ')') :
                symbolLength (c :: e :: t) = if isOperatorChar c then 1 else 0 := by
              unfold symbolLength
              split <;> simp_all
            rw [hone _ ⟨hfeed.2, by decide⟩, hone _ ⟨hfeed.1, by decide⟩]
            split
            · rw [width_cons _ hc, width_zero]
            · rw [width_zero]
          · rw [crlf_cons hc, crlf_cons hd]
            have htwo (t : List Char) :
                symbolLength (c :: d :: t) = symbolLength (c :: d :: rest) := by
              by_cases hopen : c = '('
              · by_cases hclose : d = ')' <;> simp [symbolLength, hopen, hclose]
              · simp [symbolLength, hopen]
            rw [htwo, width_two_le _ hc hd (symbolLength_le _)]

theorem indirectionLength_crlf : indirectionLength (crlf s) = width s (indirectionLength s) := by
  cases s with
  | nil => rfl
  | cons c rest =>
      by_cases hc : c = '\n'
      · subst hc
        rfl
      · rw [crlf_cons hc]
        by_cases hreference : c = '&'
        · simp only [indirectionLength, hreference, gap_crlf, width_cons _ (c := '&') (by decide)]
        · by_cases hpointer : c = '*'
          · simp only [indirectionLength, hpointer, gap_crlf, width_cons _ (c := '*') (by decide)]
          · simp [indirectionLength, hreference, hpointer]

end Pieces

/-! ## The circle of names and types -/

/-- The scanner recognises the same part of a text whatever the line endings are. -/
def Scans (f : List Char → Nat) (s : List Char) : Prop :=
  f (crlf s) = width s (f s)

section Names

variable {s : List Char}

theorem scans_operatorTail (htype : Scans typeLength (s.drop (gap s))) : Scans operatorTail s := by
  have hpart : operatorPart (crlf s) = width (s.drop (gap s)) (operatorPart s) := by
    have hzero : width (s.drop (gap s)) (symbolLength (s.drop (gap s))) = 0 ↔
        symbolLength (s.drop (gap s)) = 0 := width_eq_zero_iff fun hs => hs ▸ rfl
    simp only [operatorPart, gap_crlf, drop_crlf, symbolLength_crlf, hzero]
    split
    · exact htype
    · rfl
  have hzero : width (s.drop (gap s)) (operatorPart s) = 0 ↔ operatorPart s = 0 :=
    width_eq_zero_iff fun hs => by rw [operatorPart, hs]; exact operatorPart_nil
  rw [Scans, operatorTail_eq, operatorTail_eq]
  simp only [hpart, hzero, gap_crlf, ← width_add, drop_crlf,
    head?_crlf (c := '(') (by decide) (by decide)]
  split
  · rw [width_zero]
  · split
    · rfl
    · rw [width_zero]

section Operators

variable (hoperators : ∀ t : List Char, t.length < s.length → Scans operatorTail t)

include hoperators

theorem scans_operatorLength : Scans operatorLength s := by
  have hkeyword := isPrefixOf_crlf (w := operatorKeyword) (by decide) s
  by_cases hs : operatorKeyword.isPrefixOf s = true
  · obtain ⟨w, rfl⟩ := List.isPrefixOf_iff_prefix.mp hs
    have htail : Scans operatorTail w := by
      apply hoperators
      rw [List.length_append]
      exact Nat.lt_add_of_pos_left (by decide)
    have hzero : width w (operatorTail w) = 0 ↔ operatorTail w = 0 :=
      width_eq_zero_iff fun hw => by rw [hw, operatorTail_nil]
    have hcrlf : crlf (operatorKeyword ++ w) = operatorKeyword ++ crlf w := by
      rw [crlf_append, crlf_eq_self (by decide)]
    rw [hcrlf] at hkeyword
    rw [Scans, hcrlf, operatorLength, operatorLength, hkeyword, if_pos hs, if_pos hs, List.drop_left,
      List.drop_left, htail]
    by_cases hw : operatorTail w = 0
    · rw [if_pos (hzero.mpr hw), if_pos hw, width_zero]
    · rw [if_neg (mt hzero.mp hw), if_neg hw, width_append, crlf_eq_self (by decide)]
  · rw [Scans, operatorLength, operatorLength, hkeyword, if_neg hs, if_neg hs, width_zero]

theorem scans_simpleName : Scans simpleName s := by
  have hlength : (s.drop (gap s)).length ≤ s.length := List.length_drop ▸ Nat.sub_le _ _
  have hoperator : Scans operatorLength (s.drop (gap s)) :=
    scans_operatorLength fun t ht => hoperators t (Nat.lt_of_lt_of_le ht hlength)
  have hzero : width (s.drop (gap s)) (operatorLength (s.drop (gap s))) = 0 ↔
      operatorLength (s.drop (gap s)) = 0 := width_eq_zero_iff fun hs => hs ▸ rfl
  have hname : width (s.drop (gap s)) (identifierLength (s.drop (gap s))) = 0 ↔
      identifierLength (s.drop (gap s)) = 0 := width_eq_zero_iff fun hs => hs ▸ rfl
  rw [Scans] at hoperator
  rw [Scans, simpleName_eq_operatorLength, simpleName_eq_operatorLength]
  simp only [gap_crlf, drop_crlf, hoperator, identifierLength_crlf, hzero]
  by_cases hn : operatorLength (s.drop (gap s)) = 0
  · simp only [hn, if_true, hname, ← width_add]
    split
    · rw [width_zero]
    · rfl
  · simp only [hn, if_false, hzero, ← width_add]

theorem scans_scopeMember : Scans scopeMember s := by
  have hkeyword := isPrefixOf_crlf (w := operatorKeyword) (by decide) s
  rw [Scans, scopeMember_eq, scopeMember_eq, hkeyword]
  split
  · exact scans_operatorLength hoperators
  · simp only [head?_crlf (c := '~') (by decide) (by decide)]
    split
    · rename_i htilde
      obtain ⟨rest, rfl⟩ := List.head?_eq_some_iff.mp htilde
      have hrest : Scans simpleName rest :=
        scans_simpleName fun t ht => hoperators t (Nat.lt_succ_of_lt ht)
      rw [crlf_cons (by decide), width_cons _ (by decide)]
      exact congrArg (· + 1) hrest
    · exact scans_simpleName hoperators

theorem scans_scopeChain : Scans scopeChain s := by
  induction hlen : s.length using Nat.strongRecOn generalizing s with
  | ind n ih =>
      have hscope := prefix_crlf_iff (w := [':', ':']) (by decide) s
      by_cases hs : [':', ':'] <+: s
      · obtain ⟨b, rfl⟩ := hs
        have hshorter : b.length < ([':', ':'] ++ b).length := by
          rw [List.length_append]
          exact Nat.lt_add_of_pos_left (by decide)
        have hmember : Scans scopeMember b :=
          scans_scopeMember fun t ht => hoperators t (Nat.lt_trans ht hshorter)
        have hzero : width b (scopeMember b) = 0 ↔ scopeMember b = 0 :=
          width_eq_zero_iff fun hb => by rw [hb, scopeMember_nil]
        have hdrop : (b.drop (scopeMember b)).length ≤ b.length := List.length_drop ▸ Nat.sub_le _ _
        have hrest : Scans scopeChain (b.drop (scopeMember b)) :=
          ih _ (hlen ▸ Nat.lt_of_le_of_lt hdrop hshorter)
            (fun t ht => hoperators t (by omega)) rfl
        have hcrlf : crlf ([':', ':'] ++ b) = ':' :: ':' :: crlf b := rfl
        have hcolons : [':', ':'] ++ b = ':' :: ':' :: b := rfl
        rw [Scans] at hmember hrest
        rw [Scans, hcrlf, hcolons, scopeChain_cons, scopeChain_cons, hmember, drop_crlf, hrest]
        by_cases hm : scopeMember b = 0
        · rw [if_pos (hzero.mpr hm), if_pos hm, width_zero]
        · rw [if_neg (mt hzero.mp hm), if_neg hm, Nat.add_right_comm, ← width_add, Nat.add_right_comm,
            width_cons _ (by decide), width_cons _ (by decide)]
      · rw [Scans, scopeChain_eq_zero hs, scopeChain_eq_zero (mt hscope.mp hs), width_zero]

end Operators

theorem scans_leadingScope : Scans leadingScope s := by
  have hscope := prefix_crlf_iff (w := [':', ':']) (by decide) (s.drop (gap s))
  have hdrop : (crlf s).drop (gap (crlf s)) = crlf (s.drop (gap s)) := by rw [gap_crlf, drop_crlf]
  by_cases hs : [':', ':'] <+: s.drop (gap s)
  · obtain ⟨b, hb'⟩ := hs
    have hb : s.drop (gap s) = ':' :: ':' :: b := hb'.symm
    rw [hb] at hdrop
    rw [Scans, leadingScope_of_scope hdrop, leadingScope_of_scope hb, gap_crlf, gap_crlf,
      Nat.add_assoc, Nat.add_assoc, width_add, hb, Nat.add_comm 2, Nat.add_comm 2,
      width_cons _ (by decide), width_cons _ (by decide)]
  · rw [Scans, leadingScope_of_not_scope hs, leadingScope_of_not_scope (by rwa [hdrop, hscope]),
      gap_crlf]

/-- The argument of a template, and what may stand behind a name. -/
theorem scans_templateEnd {l : Nat}
    (hnames : ∀ t : List Char, t.length < s.length → Scans qualifiedName t) :
    templateEnd (crlf s) (width s l) = width s (templateEnd s l) := by
  have hopen := head?_crlf (c := '<') (by decide) (by decide) (s.drop l)
  by_cases hl : (s.drop l).head? = some '<'
  · obtain ⟨b, hb⟩ := List.head?_eq_some_iff.mp hl
    have hname : Scans qualifiedName b := hnames b (length_lt_of_drop_eq_cons hb)
    have hcrlf : (crlf s).drop (width s l) = '<' :: crlf b := by
      rw [drop_crlf, hb, crlf_cons (by decide)]
    have hzero : width b (qualifiedName b) = 0 ↔ qualifiedName b = 0 :=
      width_eq_zero_iff fun hb => by rw [hb, qualifiedName_nil]
    have hclose : (crlf (b.drop (qualifiedName b))).head? = some '>' ↔
        (b.drop (qualifiedName b)).head? = some '>' := head?_crlf (by decide) (by decide) _
    rw [Scans] at hname
    simp only [templateEnd, hcrlf, hb, List.head?_cons, if_true, List.tail_cons, hname, drop_crlf,
      Bool.and_eq_true, decide_eq_true_eq, beq_iff_eq, hclose, Nat.pos_iff_ne_zero, ne_eq, hzero]
    split
    · rename_i hargument
      obtain ⟨rest, hrest⟩ := List.head?_eq_some_iff.mp hargument.2
      have hmark : width b (qualifiedName b + 1) = width b (qualifiedName b) + 1 := by
        rw [width_add, hrest, width_cons _ (by decide), width_zero]
      rw [Nat.add_assoc, Nat.add_assoc, width_add, hb, ← Nat.add_assoc _ 1 1,
        width_cons _ (by decide), hmark]
    · rfl
  · rw [← drop_crlf] at hopen
    rw [templateEnd, templateEnd, if_neg hl, if_neg (mt hopen.mp hl)]

theorem scans_qualifiedName (hoperators : ∀ t : List Char, t.length < s.length → Scans operatorTail t)
    (hnames : ∀ t : List Char, t.length < s.length → Scans qualifiedName t) : Scans qualifiedName s := by
  have hbelow (k : Nat) : ∀ t : List Char, t.length < (s.drop k).length → Scans operatorTail t :=
    fun t ht => hoperators t (Nat.lt_of_lt_of_le ht (List.length_drop ▸ Nat.sub_le _ _))
  have hlead : leadingScope (crlf s) = width s (leadingScope s) := scans_leadingScope
  have hname (k : Nat) : simpleName (crlf (s.drop k)) = width (s.drop k) (simpleName (s.drop k)) :=
    scans_simpleName (hbelow k)
  have hchain (k : Nat) : scopeChain (crlf (s.drop k)) = width (s.drop k) (scopeChain (s.drop k)) :=
    scans_scopeChain (hbelow k)
  have hzero (k : Nat) : width (s.drop k) (simpleName (s.drop k)) = 0 ↔ simpleName (s.drop k) = 0 :=
    width_eq_zero_iff fun hs => by rw [hs, simpleName_nil]
  rw [Scans, qualifiedName_eq, qualifiedName_eq]
  simp only [hlead, drop_crlf, hname, hzero, nameEnd, gap_crlf, ← width_add, hchain,
    scans_templateEnd hnames]
  split
  · rw [width_zero]
  · rfl

theorem scans_typeEnd (l : Nat)
    (hoperators : ∀ t : List Char, t.length < s.length → Scans operatorTail t) :
    typeEnd (crlf s) (width s l) = width s (typeEnd s l) := by
  have hscope := prefix_crlf_iff (w := [':', ':']) (by decide) (s.drop l)
  by_cases hs : [':', ':'] <+: s.drop l
  · obtain ⟨b, hb'⟩ := hs
    have hb : s.drop l = ':' :: ':' :: b := hb'.symm
    have hcrlf : (crlf s).drop (width s l) = ':' :: ':' :: crlf b := by
      rw [drop_crlf, hb]
      rfl
    have hlength : b.length < s.length := by
      have := congrArg List.length hb
      simp only [List.length_drop, List.length_cons] at this
      omega
    have hname : simpleName (crlf b) = width b (simpleName b) :=
      scans_simpleName fun t ht => hoperators t (Nat.lt_trans ht hlength)
    have hzero : width b (simpleName b) = 0 ↔ simpleName b = 0 :=
      width_eq_zero_iff fun hb => by rw [hb, simpleName_nil]
    have hmember : width s l + 2 + width b (simpleName b) = width s (l + 2 + simpleName b) := by
      rw [Nat.add_assoc, Nat.add_assoc, width_add, hb, Nat.add_comm 2, Nat.add_comm 2,
        width_cons _ (by decide), width_cons _ (by decide)]
    rw [typeEnd_of_scope hcrlf, typeEnd_of_scope hb]
    simp only [hname, hzero, hmember, drop_crlf, gap_crlf, indirectionLength_crlf, ← width_add]
    split
    · rw [width_zero]
    · rfl
  · rw [typeEnd_of_not_scope hs, typeEnd_of_not_scope (by rwa [drop_crlf, hscope]), drop_crlf,
      indirectionLength_crlf, width_add]

theorem scans_typeLength (hoperators : ∀ t : List Char, t.length < s.length → Scans operatorTail t)
    (hnames : ∀ t : List Char, t.length ≤ s.length → Scans qualifiedName t) : Scans typeLength s := by
  have hname (k : Nat) :
      qualifiedName (crlf (s.drop k)) = width (s.drop k) (qualifiedName (s.drop k)) :=
    hnames (s.drop k) (List.length_drop ▸ Nat.sub_le _ _)
  have hzero (k : Nat) :
      width (s.drop k) (qualifiedName (s.drop k)) = 0 ↔ qualifiedName (s.drop k) = 0 :=
    width_eq_zero_iff fun hs => by rw [hs, qualifiedName_nil]
  rw [Scans, typeLength_eq, typeLength_eq]
  simp only [modifiersLength_crlf, drop_crlf, hname, hzero, gap_crlf, ← width_add,
    scans_typeEnd _ hoperators]
  split
  · rw [width_zero]
  · rfl

end Names

/-- **Names and types.**  The scanners that refer to each other all recognise the same part of a text
whatever the line endings are. -/
theorem scans_names (s : List Char) :
    Scans simpleName s ∧ Scans qualifiedName s ∧ Scans typeLength s ∧ Scans operatorTail s := by
  induction hlen : s.length using Nat.strongRecOn generalizing s with
  | ind n ih =>
      have hoperators (t : List Char) (ht : t.length < s.length) : Scans operatorTail t :=
        (ih t.length (hlen ▸ ht) t rfl).2.2.2
      have hnames (t : List Char) (ht : t.length ≤ s.length) : Scans qualifiedName t :=
        scans_qualifiedName (fun u hu => hoperators u (Nat.lt_of_lt_of_le hu ht)) fun u hu =>
          (ih u.length (hlen ▸ Nat.lt_of_lt_of_le hu ht) u rfl).2.1
      have htypes (t : List Char) (ht : t.length ≤ s.length) : Scans typeLength t :=
        scans_typeLength (fun u hu => hoperators u (Nat.lt_of_lt_of_le hu ht)) fun u hu =>
          hnames u (Nat.le_trans hu ht)
      exact ⟨scans_simpleName hoperators, hnames s (Nat.le_refl _), htypes s (Nat.le_refl _),
        scans_operatorTail (htypes _ (List.length_drop ▸ Nat.sub_le _ _))⟩

theorem simpleName_crlf (s : List Char) : simpleName (crlf s) = width s (simpleName s) :=
  (scans_names s).1

theorem qualifiedName_crlf (s : List Char) : qualifiedName (crlf s) = width s (qualifiedName s) :=
  (scans_names s).2.1

theorem typeLength_crlf (s : List Char) : typeLength (crlf s) = width s (typeLength s) :=
  (scans_names s).2.2.1

/-! ## Readers -/

/-- The reader gives the same value whatever the line endings are, and takes the same part of the
text. -/
def Rereads {α : Type} (reader : List Char → α × Nat) : Prop :=
  ∀ s, reader (crlf s) = ((reader s).1, width s (reader s).2)

theorem rereads_readName : Rereads readName := fun s => by
  simp only [readName, qualifiedName_crlf, take_crlf, spaceless_crlf]

theorem rereads_readType : Rereads readType := fun s => by
  simp only [readType, typeLength_crlf, take_crlf, cleanType, simplify_crlf]

theorem hyphenated_crlf (s : List Char) : hyphenated (crlf s) = width s (hyphenated s) := by
  induction hlen : s.length using Nat.strongRecOn generalizing s with
  | ind n ih =>
      cases s with
      | nil => simp [crlf, hyphenated]
      | cons c b =>
          by_cases hc : c = '-'
          · subst hc
            have hzero : width b (simpleName b) = 0 ↔ simpleName b = 0 :=
              width_eq_zero_iff fun hb => by rw [hb, simpleName_nil]
            have hrest := ih (b.drop (simpleName b)).length
              (by rw [List.length_drop, ← hlen, List.length_cons]; omega) _ rfl
            rw [crlf_cons (by decide), hyphenated, hyphenated]
            simp only [simpleName_crlf, hzero, drop_crlf, hrest]
            split
            · rw [width_zero]
            · rw [Nat.add_right_comm, ← width_add, Nat.add_right_comm, width_cons _ (by decide)]
          · have hcrlf : hyphenated (crlf (c :: b)) = 0 := by
              by_cases hfeed : c = '\n'
              · subst hfeed
                exact hyphenated_cons (by decide) _
              · rw [crlf_cons hfeed, hyphenated_cons hc]
            rw [hcrlf, hyphenated_cons hc, width_zero]

theorem rereads_readWord : Rereads readWord := fun s => by
  simp only [readWord, simpleName_crlf, drop_crlf, hyphenated_crlf, ← width_add, take_crlf, simplify_crlf]
  split
  · rw [width_zero]
  · rfl

/-- A sign and digits stand on one line. -/
theorem rereads_readValue : Rereads readValue := fun s => by
  simp only [readValue, gap_crlf, drop_crlf]
  generalize hvalue : s.drop (gap s) = value
  have hhead : ((crlf value).head? == some '-') = (value.head? == some '-') := by
    rw [Bool.eq_iff_iff, beq_iff_eq, beq_iff_eq, head?_crlf (by decide) (by decide)]
  rw [hhead]
  generalize hsign : (if (value.head? == some '-') = true then 1 else 0) = sign
  have hmark : width value sign = sign ∧ sign ≤ value.length := by
    subst hsign
    split
    · rename_i hminus
      obtain ⟨rest, rfl⟩ := List.head?_eq_some_iff.mp (beq_iff_eq.mp hminus)
      exact ⟨by rw [width_cons _ (by decide), width_zero], Nat.succ_pos _⟩
    · exact ⟨width_zero value, Nat.zero_le _⟩
  have hdrop : (crlf value).drop sign = crlf (value.drop sign) := by rw [← drop_crlf, hmark.1]
  have hdigits : (crlf (value.drop sign)).takeWhile Char.isDigit = (value.drop sign).takeWhile Char.isDigit :=
    takeWhile_crlf_eq rfl _ rfl
  have hrun := length_takeWhile_crlf (p := Char.isDigit) rfl (value.drop sign)
  rw [hdigits] at hrun
  have hle := (List.takeWhile_sublist (l := value.drop sign) Char.isDigit).length_le
  rw [List.length_drop] at hle
  rw [hdrop, hdigits]
  generalize hn : sign + ((value.drop sign).takeWhile Char.isDigit).length = n
  have hwidth : width value n = n := by rw [← hn, width_add, hmark.1, ← hrun]
  have htake : (crlf value).take n = value.take n := by
    have hline := crlf_take_of_width hwidth (by omega)
    rw [← take_crlf, hwidth] at hline
    exact hline
  split
  · exact rereads_readName s
  · rw [htake, width_add, hvalue, hwidth]

/-- A default value may go on in the next line, and so may what follows it. -/
theorem readParameterEnd_crlf (s text : List Char) (n : Nat) :
    readParameterEnd (crlf s) text (width s n) =
      ((readParameterEnd s text n).1, width s (readParameterEnd s text n).2) := by
  have hshift {m : Nat} : width s (n + m) = width s n + width (s.drop n) m := width_add s n m
  simp only [readParameterEnd, drop_crlf]
  cases hs : s.drop n with
  | nil => rfl
  | cons c value =>
      rw [hs] at hshift
      by_cases hfeed : c = '\n'
      · subst hfeed
        rfl
      · rw [crlf_cons hfeed]
        by_cases hdefault : c = '='
        · subst hdefault
          have hrun := length_takeWhile_crlf (p := fun c => !endsDefault c) rfl value
          simp only [hrun, drop_crlf, gap_crlf, hshift]
          rw [Nat.add_right_comm, ← width_add, Nat.add_right_comm _ 1, width_cons _ hfeed]
        · by_cases hopen : c = '['
          · subst hopen
            cases value with
            | nil => rfl
            | cons d rest =>
                by_cases hd : d = '\n'
                · subst hd
                  rfl
                · rw [crlf_cons hd]
                  by_cases hclose : d = ']'
                  · subst hclose
                    simp only [gap_crlf, hshift]
                    rw [width_cons _ hfeed, width_cons _ hd]
                  · simp [hclose]
          · simp [hdefault, hopen]

theorem readParameterName_crlf (s type : List Char) (n : Nat) :
    readParameterName (crlf s) type (width s n) =
      ((readParameterName s type n).1, width s (readParameterName s type n).2) := by
  have hzero : width (s.drop n) (simpleName (s.drop n)) = 0 ↔ simpleName (s.drop n) = 0 :=
    width_eq_zero_iff fun hs => by rw [hs, simpleName_nil]
  simp only [readParameterName, drop_crlf, simpleName_crlf, take_crlf, simplify_crlf, hzero, gap_crlf,
    ← width_add, readParameterEnd_crlf]

theorem typeLength_nil : typeLength [] = 0 := by
  with_unfolding_all rfl

theorem rereads_readParameter : Rereads readParameter := fun s => by
  have hzero : width s (typeLength s) = 0 ↔ typeLength s = 0 :=
    width_eq_zero_iff fun hs => by rw [hs, typeLength_nil]
  rw [readParameter_eq, readParameter_eq]
  simp only [typeLength_crlf, hzero, take_crlf, cleanType, simplify_crlf, drop_crlf, gap_crlf,
    ← width_add, readParameterName_crlf]
  split
  · rw [width_zero]
  · rfl

theorem readParameter_nil : readParameter [] = ([], 0) := by
  rw [readParameter_eq]
  simp only [typeLength_nil, if_true]

theorem rereads_readParameterTail : Rereads readParameterTail := fun s => by
  induction hlen : s.length using Nat.strongRecOn generalizing s with
  | ind n ih =>
      have hzero : width s (readParameter s).2 = 0 ↔ (readParameter s).2 = 0 :=
        width_eq_zero_iff fun hs => by rw [hs, readParameter_nil]
      have hcomma := head?_crlf (c := ',') (by decide) (by decide) (s.drop (readParameter s).2)
      have hclose := head?_crlf (c := ')') (by decide) (by decide) (s.drop (readParameter s).2)
      rw [readParameterTail_eq, readParameterTail_eq]
      simp only [rereads_readParameter s, hzero, drop_crlf, hcomma, hclose]
      by_cases hp : (readParameter s).2 = 0
      · simp only [if_pos hp, width_zero]
      simp only [if_neg hp]
      by_cases hs : (s.drop (readParameter s).2).head? = some ','
      · obtain ⟨rest, hrest⟩ := List.head?_eq_some_iff.mp hs
        have htail := ih rest.length (hlen ▸ length_lt_of_drop_eq_cons hrest) rest rfl
        rw [if_pos hs, if_pos hs, hrest, crlf_cons (by decide), List.tail_cons, List.tail_cons, htail]
        simp only [Nat.add_assoc, width_add s, hrest, Nat.add_comm 1, width_cons _ (c := ',') (by decide)]
      · rw [if_neg hs, if_neg hs]
        by_cases hs' : (s.drop (readParameter s).2).head? = some ')'
        · obtain ⟨rest, hrest⟩ := List.head?_eq_some_iff.mp hs'
          rw [if_pos hs', if_pos hs']
          simp only [width_add s, hrest, width_cons _ (c := ')') (by decide), width_zero]
        · rw [if_neg hs', if_neg hs']

/-- **Parameter lists** may be broken into lines. -/
theorem rereads_readParameters : Rereads readParameters := fun s => by
  have hopen := head?_crlf (c := '(') (by decide) (by decide) (s.drop (gap s))
  by_cases hs : (s.drop (gap s)).head? = some '('
  · obtain ⟨b, hb⟩ := List.head?_eq_some_iff.mp hs
    have hcrlf : (crlf s).drop (gap (crlf s)) = '(' :: crlf b := by
      rw [gap_crlf, drop_crlf, hb, crlf_cons (by decide)]
    have hinner : (crlf b).drop (gap (crlf b)) = crlf (b.drop (gap b)) := by rw [gap_crlf, drop_crlf]
    have hclose := head?_crlf (c := ')') (by decide) (by decide) (b.drop (gap b))
    have hbehind {m : Nat} : width s (gap s + (m + 1)) = width s (gap s) + (width b m + 1) := by
      rw [width_add, hb, width_cons _ (by decide)]
    rw [readParameters_of_open hcrlf, readParameters_of_open hb, readParameters_eq hinner,
      readParameters_eq rfl, rereads_readParameterTail]
    simp only [hclose, gap_crlf]
    split
    · rename_i hempty
      obtain ⟨rest, hrest⟩ := List.head?_eq_some_iff.mp hempty
      have hone : width b (gap b + 1) = width b (gap b) + 1 := by
        rw [width_add, hrest, width_cons _ (by decide), width_zero]
      rw [show gap b + 2 = gap b + 1 + 1 from rfl, hbehind, hone]
    · simp only [Nat.add_comm 1, Nat.add_right_comm _ 1, ← width_add, hbehind]
  · rw [readParameters_of_not_open hs,
      readParameters_of_not_open (by rwa [gap_crlf, drop_crlf, ne_eq, hopen]), width_zero]

end CppDoc.Syntax
