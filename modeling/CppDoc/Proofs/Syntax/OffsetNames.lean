import CppDoc.Proofs.Syntax.NameSpec
import CppDoc.Proofs.Syntax.OffsetGaps

/-!
# Names and types at offsets

The scanners of names and types that are given an offset find what those of texts find at the head of
the text that stands there.  They call each other with offsets further on, and so the proof goes along
the circle: each scanner is right if those are that it calls on a shorter rest of the text.  The scanner
of operator names stands apart (`MarksOperator`): it takes the keyword at its offset for granted, and
what it looks at begins behind it, perhaps past the end.

* `simpleNameAt_eq` and so on: what the scanners do, without what they carry along to terminate;
* `marks_names`, `marks_simpleName` and `marks_operatorName`: the scanners at offsets and of texts;
* `scanners_advance`: where the scanners may stop.
-/

namespace CppDoc.Syntax

open CppDoc.Text

/-! ## What the scanners do -/

section Steps

variable (text : List Char) (offset : Nat)

theorem simpleNameAt_eq :
    simpleNameAt text offset =
      let k := gapAt text offset
      let stop := if beginsAt text k operatorKeyword then operatorNameAt text k else k
      if k < stop then stop
      else if (letterAt? text k).any isNameStart then runEnd isNameChar text (k + 1)
      else offset := by
  rw [simpleNameAt, simpleNameFrom]
  simp only [apply_ite Subtype.val, dite_eq_ite]
  rfl

theorem scopeChainAt_eq :
    scopeChainAt text offset =
      if beginsAt text offset "::".toList then
        let next :=
          if beginsAt text (offset + 2) operatorKeyword then operatorNameAt text (offset + 2)
          else if letterAt? text (offset + 2) = some '~' then simpleNameAt text (offset + 2 + 1)
          else simpleNameAt text (offset + 2)
        if offset + 2 < next then scopeChainAt text next else offset
      else offset := by
  have hval (k : Nat) : (scopeChainFrom text k).1 = scopeChainAt text k := rfl
  rw [scopeChainAt, scopeChainFrom]
  simp only [hval, apply_ite Subtype.val, apply_dite Subtype.val, dite_eq_ite]
  rfl

theorem qualifiedNameAt_eq :
    qualifiedNameAt text offset =
      let k := leadingScopeAt text offset
      let l := simpleNameAt text k
      if l = k then offset
      else
        let stop := gapAt text (scopeChainAt text (gapAt text l))
        if letterAt? text stop = some '<' then
          let argument := qualifiedNameAt text (stop + 1)
          if stop + 1 < argument && letterAt? text argument = some '>' then argument + 1 else stop
        else stop := by
  rw [qualifiedNameAt, qualifiedNameFrom]
  simp only [apply_ite Subtype.val, dite_eq_ite]
  rfl

theorem typeAt_eq :
    typeAt text offset =
      let k := modifiersAt text offset
      let l := qualifiedNameAt text k
      if l = k then offset
      else
        let m := gapAt text l
        if beginsAt text m "::".toList then
          let member := simpleNameAt text (m + 2)
          if member = m + 2 then offset else indirectionAt text (gapAt text member)
        else indirectionAt text m := by
  rw [typeAt, typeFrom]
  simp only [apply_ite Subtype.val]
  rfl

theorem operatorNameAt_eq :
    operatorNameAt text offset =
      let k := gapAt text (offset + operatorKeyword.length)
      let stop := if symbolAt text k = k then typeAt text k else symbolAt text k
      if k < stop && letterAt? text (gapAt text stop) = some '(' then gapAt text stop
      else offset := by
  rw [operatorNameAt, operatorNameFrom]
  simp only [apply_ite Subtype.val]
  rfl

end Steps

/-! ## Parts of names and types -/

section Parts

variable {text : List Char} {offset : Nat}

theorem ascii_isOperatorChar : Ascii isOperatorChar := by
  intro c hc
  simp only [isOperatorChar, Bool.and_eq_true, Bool.or_eq_true, decide_eq_true_eq, Char.le_def,
    UInt32.le_iff_toNat_le] at hc
  obtain ⟨⟨-, hc⟩ | ⟨-, hc⟩, -⟩ := hc
  · exact Nat.lt_of_le_of_lt hc (by decide)
  · exact Nat.lt_of_le_of_lt hc (by decide)

theorem ascii_isNameChar : Ascii isNameChar := by
  intro c hc
  unfold isNameChar Char.isAlphanum Char.isAlpha Char.isUpper Char.isLower Char.isDigit at hc
  simp only [Bool.or_eq_true, Bool.and_eq_true, decide_eq_true_eq, beq_iff_eq,
    UInt32.le_iff_toNat_le] at hc
  obtain ((⟨-, hc⟩ | ⟨-, hc⟩) | ⟨-, hc⟩) | rfl := hc
  · exact Nat.lt_of_le_of_lt hc (by decide)
  · exact Nat.lt_of_le_of_lt hc (by decide)
  · exact Nat.lt_of_le_of_lt hc (by decide)
  · decide

theorem ascii_isNameStart : Ascii isNameStart := fun c hc =>
  ascii_isNameChar c (by
    simp only [isNameStart, isNameChar, Char.isAlphanum, Bool.or_eq_true] at hc ⊢
    exact hc.imp_left .inl)

theorem beginsAt_scope_iff :
    beginsAt text offset "::".toList = true ↔ [':', ':'] <+: fromOffset text offset :=
  beginsAt_iff (by decide)

/-- The two bytes of a `::`. -/
theorem offsetBehind_add_two {k : Nat} (h : [':', ':'] <+: (fromOffset text offset).drop k) :
    offsetBehind text offset k + 2 = offsetBehind text offset (k + 2) := by
  rw [← fromOffset_offsetBehind] at h
  exact (add_length_eq_offsetBehind (by decide) h).trans (offsetBehind_offsetBehind _ _ _ _)

theorem offsetBehind_succ {c : Char} {k : Nat} (hc : c.toNat < 128)
    (h : ((fromOffset text offset).drop k).head? = some c) :
    offsetBehind text offset k + 1 = offsetBehind text offset (k + 1) := by
  rw [← fromOffset_offsetBehind] at h
  exact (succ_eq_offsetBehind hc h).trans (offsetBehind_offsetBehind _ _ _ _)

theorem marks_leadingScope (text : List Char) (offset : Nat) :
    Marks leadingScopeAt leadingScope text offset := by
  rw [Marks, leadingScopeAt, gapAt_eq]
  by_cases hscope : [':', ':'] <+: (fromOffset text offset).drop (gap (fromOffset text offset))
  · have htwo := offsetBehind_add_two hscope
    have hbegins := hscope
    rw [← fromOffset_offsetBehind, ← beginsAt_scope_iff] at hbegins
    rw [if_pos hbegins, htwo, gapAt_behind]
    obtain ⟨b, hb⟩ := hscope
    have hrest : (fromOffset text offset).drop (gap (fromOffset text offset) + 2) = b := by
      rw [← List.drop_drop, ← hb]
      rfl
    rw [leadingScope_of_scope (b := b) hb.symm, hrest]
  · rw [leadingScope_of_not_scope hscope, if_neg]
    rwa [beginsAt_scope_iff, fromOffset_offsetBehind]

theorem marks_indirection (text : List Char) (offset : Nat) :
    Marks indirectionAt indirectionLength text offset := by
  have hascii : Ascii fun c => c == '&' || c == '*' := by
    intro c hc
    simp only [Bool.or_eq_true, beq_iff_eq] at hc
    rcases hc with rfl | rfl <;> decide
  rw [Marks, indirectionAt, letterAt?_any hascii]
  cases hs : fromOffset text offset with
  | nil => rw [List.head?_nil]; exact (offsetBehind_zero _ _).symm
  | cons c rest =>
      rw [List.head?_cons, Option.any_some]
      have hlength : indirectionLength (c :: rest) =
          if c == '&' || c == '*' then gap rest + 1 else 0 := by
        unfold indirectionLength
        split <;> simp_all
      rw [hlength]
      split
      · rename_i hc
        have hhead : (fromOffset text offset).head? = some c := by rw [hs]; rfl
        rw [succ_eq_offsetBehind (hascii c hc) hhead, gapAt_behind, hs, Nat.add_comm]
        rfl
      · rw [offsetBehind_zero]

/-- But for the symbol `()`, a second character belongs to a symbol if it is punctuation. -/
theorem symbolLength_cons {c : Char} {rest : List Char} (h : ¬ ['(', ')'] <+: c :: rest) :
    symbolLength (c :: rest) =
      if isOperatorChar c then
        if rest.head?.any fun d => d != '(' && isOperatorChar d then 2 else 1
      else 0 := by
  cases rest with
  | nil => simp [symbolLength]
  | cons d rest =>
      have hne : c = '(' → d ≠ ')' := by
        rintro rfl rfl
        exact h ⟨rest, rfl⟩
      rw [symbolLength]
      · rfl
      · intro hc hd
        exact hne hc hd

theorem marks_symbol (text : List Char) (offset : Nat) : Marks symbolAt symbolLength text offset := by
  have hsecond : Ascii fun c => c != '(' && isOperatorChar c := fun c hc =>
    ascii_isOperatorChar c (Bool.and_eq_true _ _ ▸ hc).2
  rw [Marks, symbolAt]
  by_cases hcall : "()".toList <+: fromOffset text offset
  · have htwo := add_length_eq_offsetBehind (by decide) hcall
    obtain ⟨b, hb⟩ := hcall
    have hlength : symbolLength (fromOffset text offset) = 2 := by rw [← hb]; rfl
    rw [if_pos ((beginsAt_iff (by decide)).mpr ⟨b, hb⟩), hlength]
    exact htwo
  · rw [if_neg (mt (beginsAt_iff (by decide)).mp hcall), letterAt?_any ascii_isOperatorChar]
    cases hs : fromOffset text offset with
    | nil => exact (offsetBehind_zero _ _).symm
    | cons c rest =>
        rw [symbolLength_cons (hs ▸ hcall), List.head?_cons, Option.any_some]
        by_cases hc : isOperatorChar c = true
        · have hhead : (fromOffset text offset).head? = some c := by rw [hs]; rfl
          have hrest : (fromOffset text offset).drop 1 = rest := by rw [hs]; rfl
          have hone := succ_eq_offsetBehind (ascii_isOperatorChar c hc) hhead
          rw [if_pos hc, if_pos hc, letterAt?_any hsecond, hone, fromOffset_offsetBehind, hrest]
          split
          · rename_i hd
            obtain ⟨d, hd, hoperator⟩ := (Option.any_eq_true _ _).mp hd
            have htwo := offsetBehind_succ (hsecond d hoperator) (hrest ▸ hd)
            rw [← hone] at htwo
            exact htwo
          · rfl
        · rw [if_neg hc, if_neg hc, offsetBehind_zero]

end Parts

/-! ## The circle of names and types -/

/-- The scanner of operator names answers with the offset it was given, or with the end of what is
behind the keyword, which is taken to stand there. -/
def MarksOperator (text : List Char) (offset : Nat) : Prop :=
  let behind := offset + operatorKeyword.length
  let n := operatorTail (fromOffset text behind)
  operatorNameAt text offset = if n = 0 then offset else offsetBehind text behind n

/-- Operator names of which the part behind the keyword is shorter than `n`. -/
def OperatorsBelow (text : List Char) (n : Nat) : Prop :=
  ∀ offset, (fromOffset text (offset + operatorKeyword.length)).length < n → MarksOperator text offset

section Names

variable {text : List Char} {offset : Nat}

theorem OperatorsBelow.mono {m n : Nat} (h : OperatorsBelow text n) (hle : m ≤ n) :
    OperatorsBelow text m :=
  fun offset hoffset => h offset (Nat.lt_of_lt_of_le hoffset hle)

theorem length_fromOffset_le (text : List Char) (offset k : Nat) :
    (fromOffset text (offsetBehind text offset k)).length ≤ (fromOffset text offset).length := by
  rw [fromOffset_offsetBehind, List.length_drop]
  exact Nat.sub_le _ _

theorem OperatorsBelow.behind (h : OperatorsBelow text (fromOffset text offset).length) (k : Nat) :
    OperatorsBelow text (fromOffset text (offsetBehind text offset k)).length :=
  h.mono (length_fromOffset_le text offset k)

theorem operatorPart_of_nil {s : List Char} (h : s.drop (gap s) = []) : operatorPart s = 0 := by
  simp only [operatorPart, h]
  with_unfolding_all rfl

theorem marks_operatorPart_of_type (htype : Marks typeAt typeLength text (gapAt text offset)) :
    (if symbolAt text (gapAt text offset) = gapAt text offset then typeAt text (gapAt text offset)
      else symbolAt text (gapAt text offset)) =
      offsetBehind text offset
        (gap (fromOffset text offset) + operatorPart (fromOffset text offset)) := by
  have hstays := offsetBehind_stays_iff (f := symbolLength) rfl text offset (gap (fromOffset text offset))
  rw [gapAt_eq] at htype ⊢
  simp only [htype.behind, (marks_symbol text _).behind, hstays, operatorPart]
  split <;> rfl

theorem marks_operatorName_of_type
    (htype : Marks typeAt typeLength text (gapAt text (offset + operatorKeyword.length))) :
    MarksOperator text offset := by
  have hpart := marks_operatorPart_of_type htype
  rw [MarksOperator, operatorNameAt_eq]
  dsimp only
  rw [hpart]
  generalize offset + operatorKeyword.length = behind
  have hletter (k : Nat) : letterAt? text (offsetBehind text behind k) = some '(' ↔
      ((fromOffset text behind).drop k).head? = some '(' := letterAt?_offsetBehind (by decide)
  rw [operatorTail_eq]
  simp only [gapAt_eq text behind, gapAt_behind, lt_offsetBehind_add_iff operatorPart_of_nil, hletter,
    Bool.and_eq_true, decide_eq_true_eq]
  by_cases hpart : operatorPart (fromOffset text behind) = 0
  · rw [if_neg (fun h => h.1 hpart), if_pos (if_pos hpart)]
  · rw [if_neg hpart]
    generalize hl : gap (fromOffset text behind) + operatorPart (fromOffset text behind) = l
    by_cases hopen : ((fromOffset text behind).drop
        (l + gap ((fromOffset text behind).drop l))).head? = some '('
    · rw [if_pos ⟨hpart, hopen⟩, if_pos hopen, if_neg (by omega)]
    · rw [if_neg fun h => hopen h.2, if_neg hopen, if_pos rfl]

theorem runEnd_identifier (text : List Char) (offset : Nat)
    (h : (fromOffset text offset).head?.any isNameStart = true) :
    runEnd isNameChar text (offset + 1) =
        offsetBehind text offset (identifierLength (fromOffset text offset)) ∧
      identifierLength (fromOffset text offset) ≠ 0 := by
  obtain ⟨c, hhead, hc⟩ := (Option.any_eq_true _ _).mp h
  obtain ⟨rest, hrest⟩ := List.head?_eq_some_iff.mp hhead
  rw [runEnd_eq ascii_isNameChar, succ_eq_offsetBehind (ascii_isNameStart c hc) hhead,
    fromOffset_offsetBehind, offsetBehind_offsetBehind, hrest, identifierLength, if_pos hc, Nat.add_comm]
  exact ⟨rfl, Nat.succ_ne_zero _⟩

theorem identifierLength_eq_zero {s : List Char} (h : ¬ s.head?.any isNameStart = true) :
    identifierLength s = 0 := by
  cases s with
  | nil => rfl
  | cons c rest => exact if_neg h

/-- Behind a name there may be a template argument. -/
theorem marks_templateEnd_of_names {l : Nat}
    (hnames : ∀ k, (fromOffset text k).length < (fromOffset text offset).length →
      Marks qualifiedNameAt qualifiedName text k) :
    (let stop := offsetBehind text offset l
      if letterAt? text stop = some '<' then
        let argument := qualifiedNameAt text (stop + 1)
        if stop + 1 < argument && letterAt? text argument = some '>' then argument + 1 else stop
      else stop) = offsetBehind text offset (templateEnd (fromOffset text offset) l) := by
  have hopen : letterAt? text (offsetBehind text offset l) = some '<' ↔
      ((fromOffset text offset).drop l).head? = some '<' := letterAt?_offsetBehind (by decide)
  rw [templateEnd]
  dsimp only
  by_cases hl : ((fromOffset text offset).drop l).head? = some '<'
  · rw [if_pos (hopen.mpr hl), if_pos hl, offsetBehind_succ (by decide) hl]
    obtain ⟨b, hb⟩ := List.head?_eq_some_iff.mp hl
    have hbehind : (fromOffset text offset).drop (l + 1) = b := by
      rw [← List.drop_drop, hb]
      rfl
    have hname : Marks qualifiedNameAt qualifiedName text (offsetBehind text offset (l + 1)) := by
      apply hnames
      rw [fromOffset_offsetBehind, hbehind]
      exact length_lt_of_drop_eq_cons hb
    have hmoves := offsetBehind_moves_iff qualifiedName_nil text offset (l + 1)
    rw [hbehind] at hmoves
    have hclose : letterAt? text (offsetBehind text offset (l + 1 + qualifiedName b)) = some '>' ↔
        (b.drop (qualifiedName b)).head? = some '>' := by
      rw [letterAt?_offsetBehind (by decide), ← List.drop_drop, hbehind]
    simp only [hname.behind, hbehind, hb, List.tail_cons, hmoves, hclose, Bool.and_eq_true,
      decide_eq_true_eq, beq_iff_eq, Nat.pos_iff_ne_zero]
    split
    · rename_i hargument
      have hend : ((fromOffset text offset).drop (l + 1 + qualifiedName b)).head? = some '>' := by
        rw [← List.drop_drop, hbehind]
        exact hargument.2
      rw [offsetBehind_succ (by decide) hend]
      congr 1
      omega
    · rfl
  · rw [if_neg (mt hopen.mp hl), if_neg hl]

section Operators

variable (hoperators : OperatorsBelow text (fromOffset text offset).length)

include hoperators

/-- An operator name with its keyword, which may be missing. -/
theorem marks_operatorLength_of_operators :
    (if beginsAt text offset operatorKeyword then operatorNameAt text offset else offset) =
      offsetBehind text offset (operatorLength (fromOffset text offset)) := by
  by_cases hkeyword : operatorKeyword <+: fromOffset text offset
  · have hbehind := add_length_eq_offsetBehind (by decide) hkeyword
    have hoperator : MarksOperator text offset := by
      apply hoperators
      have hle := hkeyword.length_le
      have hpos : 0 < operatorKeyword.length := by decide
      rw [hbehind, fromOffset_offsetBehind, List.length_drop]
      omega
    rw [MarksOperator, hbehind, fromOffset_offsetBehind] at hoperator
    rw [if_pos ((beginsAt_iff (by decide)).mpr hkeyword), hoperator, offsetBehind_offsetBehind,
      operatorLength, if_pos (List.isPrefixOf_iff_prefix.mpr hkeyword)]
    split
    · rw [offsetBehind_zero]
    · rfl
  · rw [if_neg (mt (beginsAt_iff (by decide)).mp hkeyword), operatorLength,
      if_neg (mt List.isPrefixOf_iff_prefix.mp hkeyword), offsetBehind_zero]

theorem marks_simpleName_of_operators : Marks simpleNameAt simpleName text offset := by
  have hoperator :=
    marks_operatorLength_of_operators (hoperators.behind (gap (fromOffset text offset)))
  have hidentifier := runEnd_identifier text (offsetBehind text offset (gap (fromOffset text offset)))
  rw [fromOffset_offsetBehind, offsetBehind_offsetBehind] at hoperator hidentifier
  rw [Marks, simpleNameAt_eq, simpleName_eq_operatorLength]
  simp only [gapAt_eq text offset, hoperator, letterAt?_any ascii_isNameStart, fromOffset_offsetBehind,
    lt_offsetBehind_add_iff fun hnil => congrArg operatorLength hnil]
  generalize gap (fromOffset text offset) = k at *
  by_cases hzero : operatorLength ((fromOffset text offset).drop k) = 0
  · rw [if_neg fun h => h hzero, if_pos hzero]
    by_cases hstart : ((fromOffset text offset).drop k).head?.any isNameStart = true
    · obtain ⟨hend, hne⟩ := hidentifier hstart
      rw [if_pos hstart, hend, if_neg hne]
    · rw [if_neg hstart, if_pos (identifierLength_eq_zero hstart), offsetBehind_zero]
  · rw [if_pos hzero, if_neg hzero, if_neg hzero]

/-- A member behind `::`. -/
theorem marks_scopeMember_of_operators :
    (if beginsAt text offset operatorKeyword then operatorNameAt text offset
      else if letterAt? text offset = some '~' then simpleNameAt text (offset + 1)
      else simpleNameAt text offset) =
      offsetBehind text offset (scopeMember (fromOffset text offset)) := by
  have hoperator := marks_operatorLength_of_operators hoperators
  rw [scopeMember_eq]
  by_cases hkeyword : beginsAt text offset operatorKeyword = true
  · rw [if_pos hkeyword] at hoperator ⊢
    rw [beginsAt_iff (by decide), ← List.isPrefixOf_iff_prefix] at hkeyword
    rw [if_pos hkeyword, hoperator]
  · have hkeyword' := hkeyword
    rw [beginsAt_iff (by decide), ← List.isPrefixOf_iff_prefix] at hkeyword'
    rw [if_neg hkeyword, if_neg hkeyword']
    simp only [letterAt?_eq_some_iff (c := '~') (by decide)]
    split
    · rename_i htilde
      have hone := succ_eq_offsetBehind (by decide) htilde
      have hname : Marks simpleNameAt simpleName text (offsetBehind text offset 1) :=
        marks_simpleName_of_operators (hoperators.behind 1)
      rw [hone, hname.behind, Nat.add_comm, List.drop_one]
    · exact marks_simpleName_of_operators hoperators

/-- Behind a `::` the members go on behind the one that stands there. -/
theorem marks_scopeChain_of_scope {b : List Char} (hb : fromOffset text offset = ':' :: ':' :: b)
    (hmore : Marks scopeChainAt scopeChain text (offsetBehind text offset (2 + scopeMember b))) :
    Marks scopeChainAt scopeChain text offset := by
  have hscope : [':', ':'] <+: fromOffset text offset := ⟨b, hb.symm⟩
  have htwo : offset + 2 = offsetBehind text offset 2 := add_length_eq_offsetBehind (by decide) hscope
  have hdrop : (fromOffset text offset).drop 2 = b := by
    rw [hb]
    rfl
  have hmember := marks_scopeMember_of_operators (hoperators.behind 2)
  rw [fromOffset_offsetBehind, hdrop, offsetBehind_offsetBehind] at hmember
  have hmoves := offsetBehind_moves_iff scopeMember_nil text offset 2
  rw [hdrop] at hmoves
  have hrest : (fromOffset text offset).drop (2 + scopeMember b) = b.drop (scopeMember b) := by
    rw [← List.drop_drop, hdrop]
  have hscopes := scopeChain_cons b
  rw [← hb] at hscopes
  rw [Marks, scopeChainAt_eq, if_pos (beginsAt_scope_iff.mpr hscope), htwo]
  simp only [hmember, hmoves, hmore.behind, hrest, hscopes]
  by_cases hzero : scopeMember b = 0
  · rw [if_neg fun h => h hzero, if_pos hzero, offsetBehind_zero]
  · rw [if_pos hzero, if_neg hzero, Nat.add_comm 2]

theorem marks_scopeChain_of_operators : Marks scopeChainAt scopeChain text offset := by
  induction hlen : (fromOffset text offset).length using Nat.strongRecOn generalizing offset with
  | ind n ih =>
      by_cases hscope : [':', ':'] <+: fromOffset text offset
      · obtain ⟨b, hb⟩ := hscope
        refine marks_scopeChain_of_scope hoperators hb.symm (ih _ ?_ (hoperators.behind _) rfl)
        have hlength := congrArg List.length hb
        rw [fromOffset_offsetBehind, List.length_drop, ← hlen, ← hlength, List.length_append,
          List.length_cons]
        omega
      · rw [Marks, scopeChainAt_eq, if_neg (mt beginsAt_scope_iff.mp hscope),
          scopeChain_eq_zero hscope, offsetBehind_zero]

theorem marks_qualifiedName_of_names
    (hnames : ∀ k, (fromOffset text k).length < (fromOffset text offset).length →
      Marks qualifiedNameAt qualifiedName text k) : Marks qualifiedNameAt qualifiedName text offset := by
  have hlead : leadingScopeAt text offset =
      offsetBehind text offset (leadingScope (fromOffset text offset)) := marks_leadingScope text offset
  have hname (k : Nat) := (marks_simpleName_of_operators (hoperators.behind k)).behind
  have hchain (k : Nat) := (marks_scopeChain_of_operators (hoperators.behind k)).behind
  have hstays := offsetBehind_stays_iff simpleName_nil text offset
  have htemplate (l : Nat) := marks_templateEnd_of_names (l := l) hnames
  rw [Marks, qualifiedNameAt_eq, qualifiedName_eq]
  dsimp only at htemplate ⊢
  simp only [hlead, hname, hstays, gapAt_behind, hchain, htemplate, nameEnd]
  split
  · rw [offsetBehind_zero]
  · rfl

/-- Behind the name of a type there may be one more member, and an `&` or a `*`. -/
theorem marks_typeEnd_of_operators {l : Nat} :
    (let m := offsetBehind text offset l
      if beginsAt text m "::".toList then
        let member := simpleNameAt text (m + 2)
        if member = m + 2 then offset else indirectionAt text (gapAt text member)
      else indirectionAt text m) = offsetBehind text offset (typeEnd (fromOffset text offset) l) := by
  have hindirection (k : Nat) := (marks_indirection text (offsetBehind text offset k)).behind
  have hbegins : beginsAt text (offsetBehind text offset l) "::".toList = true ↔
      [':', ':'] <+: (fromOffset text offset).drop l := by
    rw [beginsAt_scope_iff, fromOffset_offsetBehind]
  by_cases hscope : [':', ':'] <+: (fromOffset text offset).drop l
  · have htwo := offsetBehind_add_two hscope
    dsimp only
    rw [if_pos (hbegins.mpr hscope)]
    obtain ⟨b, hb⟩ := hscope
    have hdrop : (fromOffset text offset).drop (l + 2) = b := by
      rw [← List.drop_drop, ← hb]
      rfl
    have hname : simpleNameAt text (offsetBehind text offset (l + 2)) =
        offsetBehind text offset (l + 2 + simpleName b) := by
      rw [← hdrop]
      exact (marks_simpleName_of_operators (hoperators.behind (l + 2))).behind
    have hstays := offsetBehind_stays_iff simpleName_nil text offset (l + 2)
    rw [hdrop] at hstays
    rw [typeEnd_of_scope (b := b) hb.symm, htwo, hname]
    simp only [hstays, gapAt_behind, hindirection]
    split
    · rw [offsetBehind_zero]
    · rfl
  · dsimp only
    rw [if_neg (mt hbegins.mp hscope), typeEnd_of_not_scope hscope, hindirection]

theorem marks_type_of_names
    (hnames : ∀ k, (fromOffset text k).length ≤ (fromOffset text offset).length →
      Marks qualifiedNameAt qualifiedName text k) : Marks typeAt typeLength text offset := by
  have hmodifiers : modifiersAt text offset =
      offsetBehind text offset (modifiersLength (fromOffset text offset)) := marks_modifiers text offset
  have hname (k : Nat) : qualifiedNameAt text (offsetBehind text offset k) =
      offsetBehind text offset (k + qualifiedName ((fromOffset text offset).drop k)) :=
    (hnames _ (length_fromOffset_le text offset k)).behind
  have hstays := offsetBehind_stays_iff qualifiedName_nil text offset
  have hend (l : Nat) := marks_typeEnd_of_operators (l := l) hoperators
  rw [Marks, typeAt_eq, typeLength_eq]
  dsimp only at hend ⊢
  simp only [hmodifiers, hname, hstays, gapAt_behind, hend]
  split
  · rw [offsetBehind_zero]
  · rfl

end Operators

end Names

/-- **Names and types.**  At every offset the scanners find what they find at the head of the text that
stands there. -/
theorem marks_names (text : List Char) (offset : Nat) :
    Marks qualifiedNameAt qualifiedName text offset ∧ Marks typeAt typeLength text offset := by
  induction hlen : (fromOffset text offset).length using Nat.strongRecOn generalizing offset with
  | ind n ih =>
      have hoperators : OperatorsBelow text n := fun k hk => by
        refine marks_operatorName_of_type (ih _ (Nat.lt_of_le_of_lt ?_ hk) _ rfl).2
        rw [gapAt_eq]
        exact length_fromOffset_le text _ _
      have hnames (k : Nat) (hk : (fromOffset text k).length ≤ n) :
          Marks qualifiedNameAt qualifiedName text k :=
        marks_qualifiedName_of_names (hoperators.mono hk) fun j hj =>
          (ih _ (Nat.lt_of_lt_of_le hj hk) j rfl).1
      subst hlen
      exact ⟨hnames offset (Nat.le_refl _), marks_type_of_names hoperators hnames⟩

theorem marks_operatorName (text : List Char) (offset : Nat) : MarksOperator text offset :=
  marks_operatorName_of_type (marks_names text _).2

theorem marks_simpleName (text : List Char) (offset : Nat) :
    Marks simpleNameAt simpleName text offset :=
  marks_simpleName_of_operators fun k _ => marks_operatorName text k

/-! ## Progress -/

section Progress

variable {text : List Char} {offset : Nat}

theorem Marks.advances {scan : List Char → Nat → Nat} {f : List Char → Nat}
    (h : Marks scan f text offset) : Advances text offset (scan text offset) := by
  rw [h]
  exact advances_offsetBehind text offset _

/-- An operator name that is found ends behind its keyword, and so in the text. -/
theorem MarksOperator.advances (h : MarksOperator text offset) :
    Advances text offset (operatorNameAt text offset) := by
  rw [MarksOperator] at h
  rw [h]
  by_cases hzero : operatorTail (fromOffset text (offset + operatorKeyword.length)) = 0
  · rw [if_pos hzero]
    exact .inl rfl
  · rw [if_neg hzero]
    have hmoves := (lt_offsetBehind_iff fun hnil => by rw [hnil]; exact operatorTail_nil).mpr hzero
    rcases advances_offsetBehind text (offset + operatorKeyword.length) _ with
      hstay | ⟨-, hle, hboundary⟩
    · exact absurd hstay (Nat.ne_of_gt hmoves)
    · exact .inr ⟨by omega, hle, hboundary⟩

/-- **Progress.**  At every offset, also past the end and inside a character, each scanner answers with
that offset or with a boundary further on in the text.  Gaps are passed over at once: behind a gap there
is none. -/
theorem scanners_advance (text : List Char) (offset : Nat) :
    Advances text offset (simpleNameAt text offset) ∧
      Advances text offset (qualifiedNameAt text offset) ∧
      Advances text offset (operatorNameAt text offset) ∧
      Advances text offset (typeAt text offset) ∧
      offset ≤ gapAt text offset ∧ gapAt text (gapAt text offset) = gapAt text offset := by
  have hidem : gapAt text (gapAt text offset) = gapAt text offset := by
    rw [gapAt_eq text offset, gapAt_behind, gap_drop_gap, Nat.add_zero]
  exact ⟨(marks_simpleName text offset).advances, (marks_names text offset).1.advances,
    (marks_operatorName text offset).advances, (marks_names text offset).2.advances,
    le_gapAt text offset, hidem⟩

end Progress

end CppDoc.Syntax
