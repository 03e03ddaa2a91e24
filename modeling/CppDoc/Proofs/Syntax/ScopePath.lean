import CppDoc.Proofs.Syntax.Lookahead

/-!
# Names as they are written

The names of declarations, and what the scanners make of them.  An **identifier** does not begin with
the keyword of operator names, a **scope path** is a sequence of identifiers with `::` between them,
and a **member name** is what may stand behind the last `::`: an identifier, the name of a destructor,
or the symbol of an operator behind its keyword.

* `simpleName_identifier`, `scopeChain_chain`: an identifier or a path is recognised as a whole;
* `qualifiedName_member` and `typeLength_member`: so is a member name behind its path, up to the
  parenthesis of its parameters.
-/

namespace CppDoc.Syntax

open CppDoc.Text

/-! ## Identifiers -/

/-- The characters of a name are measured whole in front of one that is no such character. -/
theorem identifierLength_word {w x : List Char} (hstart : w.head?.any isNameStart = true)
    (hchars : w.all isNameChar = true) (hx : x.head?.any isNameChar = false) :
    identifierLength (w ++ x) = w.length := by
  cases w with
  | nil => exact nomatch hstart
  | cons d rest =>
      have hd : isNameStart d = true := hstart
      have hrest : rest.all isNameChar = true := by
        rw [List.all_cons, Bool.and_eq_true] at hchars
        exact hchars.2
      have hrun : (rest ++ x).takeWhile isNameChar = rest := by
        rw [takeWhile_append_of_boundary fun _ => hx, takeWhile_eq_self hrest]
      simp [identifierLength, hd, hrun]

/-- An identifier that does not begin with the keyword of operator names. -/
structure Identifier (c : List Char) : Prop where
  start : c.head?.any isNameStart = true
  chars : c.all isNameChar = true
  fresh : ¬ operatorKeyword <+: c

/-- The small letters that the text begins with are no type modifier. -/
def Unmodified (c : List Char) : Prop :=
  c.takeWhile Char.isLower ∉ typeModifiers

/-- Where no identifier goes on, no small letter stands. -/
theorem head?_not_isLower {x : List Char} (hx : x.head?.any isNameChar = false) :
    x.head?.any Char.isLower = false := by
  cases x with
  | nil => rfl
  | cons d rest =>
      cases hd : d.isLower with
      | false => exact hd
      | true => exact nomatch hx.symm.trans (isNameChar_of_isLower hd)

theorem Unmodified.not_mem {c : List Char} (h : Unmodified c) : c ∉ typeModifiers := by
  have hlower : ∀ w ∈ typeModifiers, w.all Char.isLower = true := by decide
  intro hmem
  exact h (by rwa [takeWhile_eq_self (hlower c hmem)])

/-- The first word decides whether a modifier stands at the front. -/
theorem Unmodified.append {c x : List Char} (h : Unmodified c)
    (hx : x.head?.any isNameChar = false) : Unmodified (c ++ x) := by
  rw [Unmodified, takeWhile_append_of_boundary fun _ => head?_not_isLower hx]
  exact h

section Identifier

variable {c x : List Char}

theorem Identifier.ne_nil (h : Identifier c) : c ≠ [] := by
  rintro rfl
  exact nomatch h.start

theorem Identifier.length_pos (h : Identifier c) : 0 < c.length :=
  List.length_pos_iff.mpr h.ne_nil

/-- What begins a name is not punctuation, a blank or the start of a comment. -/
theorem goesOn_eq_false_of_isNameStart {d : Char} (h : isNameStart d = true) : goesOn d = false := by
  cases hd : goesOn d with
  | false => rfl
  | true =>
      simp only [goesOn, isBlank, Bool.or_eq_true, beq_iff_eq] at hd
      rcases hd with (((((((((rfl | rfl) | rfl) | rfl) | rfl) | rfl) | rfl) | rfl) | rfl) | rfl) | rfl
      all_goals cases h

/-- Where a name may begin, names and types that have been read do not go on. -/
theorem follows_of_isNameStart {a x : List Char} (hx : x.head?.any isNameStart = true)
    (ha : a.getLast?.any isNameChar = false) : Follows a x where
  fresh := by
    cases x with
    | nil => rfl
    | cons d rest => exact goesOn_eq_false_of_isNameStart hx
  apart := fun _ => ha

/-- A name is not preceded by a gap of its own. -/
theorem gap_eq_zero_of_isNameStart (h : c.head?.any isNameStart = true) : gap c = 0 :=
  (follows_of_isNameStart (a := []) h rfl).gap_eq

theorem Identifier.append_start (h : Identifier c) (x : List Char) :
    (c ++ x).head?.any isNameStart = true := by
  obtain ⟨d, rest, rfl⟩ := List.exists_cons_of_ne_nil h.ne_nil
  exact h.start

theorem Identifier.gap_append (h : Identifier c) (x : List Char) : gap (c ++ x) = 0 :=
  gap_eq_zero_of_isNameStart (h.append_start x)

theorem simpleName_identifier (h : Identifier c) (hx : x.head?.any isNameChar = false) :
    simpleName (c ++ x) = c.length := by
  have hgap := h.gap_append x
  have hno := not_prefix_append (by decide) h.fresh fun _ => hx
  rw [simpleName_eq (by rwa [hgap, List.drop_zero]), hgap, List.drop_zero,
    identifierLength_word h.start h.chars hx, if_neg (Nat.ne_of_gt h.length_pos), Nat.zero_add]

/-- An identifier that begins with no modifier is none. -/
theorem modifiersLength_identifier (h : Identifier c) (hc : Unmodified c)
    (hx : x.head?.any isNameChar = false) : modifiersLength (c ++ x) = 0 := by
  have hblank : (c ++ x).takeWhile isBlank = [] := by
    have hstart := h.append_start x
    cases hs : c ++ x with
    | nil => rfl
    | cons d rest =>
        have hd : goesOn d = false := goesOn_eq_false_of_isNameStart (by simpa [hs] using hstart)
        simp only [goesOn, Bool.or_eq_false_iff] at hd
        simp [hd]
  have hword : ¬ (c ++ x).takeWhile Char.isLower ∈ typeModifiers := hc.append hx
  rw [modifiersLength_eq, if_pos]
  simp only [modifierLength, hblank, List.length_nil, List.drop_zero]
  rw [if_neg (by simpa using hword)]

end Identifier

/-! ## Scope paths -/

/-- The members of a path behind its first identifier, each behind a `::`. -/
def chain (cs : List (List Char)) : List Char :=
  cs.flatMap fun c => ':' :: ':' :: c

theorem chain_cons (c : List Char) (cs : List (List Char)) (x : List Char) :
    chain (c :: cs) ++ x = ':' :: ':' :: (c ++ (chain cs ++ x)) := by
  simp [chain]

/-- What stands behind an identifier of a path is another one, or what stands behind the path. -/
theorem head?_chain_append {cs : List (List Char)} {x : List Char}
    (hx : x.head?.any isNameChar = false) : (chain cs ++ x).head?.any isNameChar = false := by
  cases cs with
  | nil => exact hx
  | cons c cs => rw [chain_cons]; rfl

theorem scopeMember_identifier {c x : List Char} (h : Identifier c)
    (hx : x.head?.any isNameChar = false) : scopeMember (c ++ x) = c.length := by
  have hno : ¬ operatorKeyword.isPrefixOf (c ++ x) = true := by
    rw [List.isPrefixOf_iff_prefix]
    exact not_prefix_append (by decide) h.fresh fun _ => hx
  have htilde : ¬ ((c ++ x).head? == some '~') = true := by
    have hstart := h.append_start x
    intro heq
    rw [beq_iff_eq.mp heq] at hstart
    exact nomatch hstart
  rw [scopeMember, if_neg hno, if_neg htilde]
  exact simpleName_identifier h hx

/-- **A path** is recognised as a whole, with the members that follow it. -/
theorem scopeChain_chain {cs : List (List Char)} (hcs : ∀ c ∈ cs, Identifier c) {x : List Char}
    (hx : x.head?.any isNameChar = false) :
    scopeChain (chain cs ++ x) = (chain cs).length + scopeChain x := by
  induction cs with
  | nil => simp [chain]
  | cons c cs ih =>
      have hc := hcs c List.mem_cons_self
      have hrest := ih fun d hd => hcs d (List.mem_cons_of_mem _ hd)
      have hlen : (chain (c :: cs)).length = c.length + 2 + (chain cs).length := by
        simp only [chain, List.flatMap_cons, List.length_append, List.length_cons]
      rw [chain_cons, scopeChain_cons, scopeMember_identifier hc (head?_chain_append hx),
        if_neg (Nat.ne_of_gt hc.length_pos), List.drop_left, hrest, hlen]
      omega

/-! ## Operator symbols -/

/-- The symbol of an operator, as it stands between the keyword and the parenthesis. -/
structure OperatorSymbol (symbol : List Char) : Prop where
  ne_nil : symbol ≠ []
  accepted : symbolLength (symbol ++ ['(']) = symbol.length
  noComment : gap symbol = 0

/-- Of the text behind the keyword, two characters tell the symbol. -/
private theorem symbolLength_cons_cons (c d : Char) (s : List Char) :
    symbolLength (c :: d :: s) = symbolLength [c, d] := by
  by_cases hc : c = '(' <;> by_cases hd : d = ')' <;> simp [symbolLength, hc, hd]

theorem OperatorSymbol.symbolLength_append {symbol : List Char} (h : OperatorSymbol symbol)
    (t : List Char) : symbolLength (symbol ++ '(' :: t) = symbol.length := by
  rw [← h.accepted]
  match symbol, h.ne_nil with
  | [c], _ => exact symbolLength_cons_cons c '(' t
  | c :: d :: rest, _ =>
      have hleft := symbolLength_cons_cons c d (rest ++ '(' :: t)
      have hright := symbolLength_cons_cons c d (rest ++ ['('])
      exact hleft.trans hright.symm

theorem OperatorSymbol.gap_append {symbol : List Char} (h : OperatorSymbol symbol)
    (t : List Char) : gap (symbol ++ '(' :: t) = 0 := by
  obtain ⟨c, rest, rfl⟩ := List.exists_cons_of_ne_nil h.ne_nil
  have hgap := h.noComment
  unfold gap at hgap ⊢
  simp only [List.cons_append, gapFrom, Bool.false_eq_true, if_false] at hgap ⊢
  by_cases hblank : isBlank c = true
  · simp [hblank] at hgap
  · rw [if_neg hblank] at hgap ⊢
    cases rest with
    | nil => simp
    | cons d rest =>
        by_cases hcomment : c = '/' ∧ d = '/'
        · simp [hcomment] at hgap
        · simp [hcomment]

theorem operatorTail_symbol {symbol : List Char} (h : OperatorSymbol symbol) (t : List Char) :
    operatorTail (symbol ++ '(' :: t) = symbol.length := by
  have hpos : symbol.length ≠ 0 := mt List.length_eq_zero_iff.mp h.ne_nil
  rw [operatorTail]
  simp [h.gap_append t, h.symbolLength_append t, hpos, gap_parenthesis]

/-! ## Member names -/

/-- What may stand behind the last `::` of the name of a function. -/
inductive MemberName : List Char → Prop
  | identifier {c : List Char} (hc : Identifier c) : MemberName c
  | destructor {c : List Char} (hc : Identifier c) : MemberName ('~' :: c)
  | operator {symbol : List Char} (hsymbol : OperatorSymbol symbol) :
      MemberName (operatorKeyword ++ symbol)

theorem MemberName.ne_nil {m : List Char} (h : MemberName m) : m ≠ [] := by
  cases h with
  | identifier hc => exact hc.ne_nil
  | destructor hc => exact List.cons_ne_nil _ _
  | operator hsymbol => simp [hsymbol.ne_nil]

theorem scopeMember_memberName {m : List Char} (h : MemberName m) (t : List Char) :
    scopeMember (m ++ '(' :: t) = m.length := by
  cases h with
  | identifier hc => exact scopeMember_identifier hc rfl
  | @destructor c hc =>
      have hno : ¬ operatorKeyword.isPrefixOf ('~' :: (c ++ '(' :: t)) = true := by
        rw [List.isPrefixOf_iff_prefix]
        rintro ⟨v, hv⟩
        exact absurd (List.cons.inj hv).1 (by decide)
      rw [List.cons_append, scopeMember, if_neg hno, if_pos (by rfl), List.tail_cons,
        simpleName_identifier hc rfl, List.length_cons]
  | @operator symbol hsymbol =>
      have hpos : symbol.length ≠ 0 := mt List.length_eq_zero_iff.mp hsymbol.ne_nil
      have hprefix : operatorKeyword.isPrefixOf (operatorKeyword ++ symbol ++ '(' :: t) = true := by
        rw [List.isPrefixOf_iff_prefix, List.append_assoc]
        exact List.prefix_append _ _
      rw [scopeMember, if_pos hprefix, List.append_assoc, List.drop_left]
      dsimp only
      rw [operatorTail_symbol hsymbol, if_neg hpos, List.length_append]

/-- The name of an operator is a name of its own. -/
theorem simpleName_operator {symbol : List Char} (h : OperatorSymbol symbol) (t : List Char) :
    simpleName (operatorKeyword ++ symbol ++ '(' :: t) = (operatorKeyword ++ symbol).length := by
  have hpos : symbol.length ≠ 0 := mt List.length_eq_zero_iff.mp h.ne_nil
  have hgap : gap (operatorKeyword ++ symbol ++ '(' :: t) = 0 := by
    apply gap_eq_zero_of_isNameStart
    rw [List.append_assoc, List.head?_append]
    rfl
  have hprefix : operatorKeyword.isPrefixOf (operatorKeyword ++ (symbol ++ '(' :: t)) = true := by
    rw [List.isPrefixOf_iff_prefix]
    exact List.prefix_append _ _
  have hsum : operatorKeyword.length + symbol.length ≠ 0 := by omega
  rw [simpleName]
  dsimp only
  rw [hgap, List.drop_zero, List.append_assoc, dif_pos hprefix, List.drop_left,
    operatorTail_symbol h, if_neg hpos, if_neg hsum, if_neg hsum, Nat.zero_add, List.length_append]

/-! ## Whole names -/

/-- A name in front of a parenthesis, of which the first part is `a` and the chain of members `b`.
-/
theorem qualifiedName_parts {a b t : List Char} (hstart : a.head?.any isNameStart = true)
    (hname : simpleName (a ++ (b ++ '(' :: t)) = a.length) (hgap : gap (b ++ '(' :: t) = 0)
    (hchain : scopeChain (b ++ '(' :: t) = b.length) :
    qualifiedName (a ++ (b ++ '(' :: t)) = a.length + b.length := by
  have hne : a ≠ [] := by
    rintro rfl
    exact nomatch hstart
  have hpos : a.length ≠ 0 := mt List.length_eq_zero_iff.mp hne
  have hhead : (a ++ (b ++ '(' :: t)).head?.any isNameStart = true := by
    obtain ⟨d, rest, rfl⟩ := List.exists_cons_of_ne_nil hne
    exact hstart
  have hbegin := gap_eq_zero_of_isNameStart hhead
  have hlead : leadingScope (a ++ (b ++ '(' :: t)) = 0 := by
    rw [leadingScope_of_not_scope, hbegin]
    rw [hbegin, List.drop_zero]
    rintro ⟨v, hv⟩
    rw [← hv] at hhead
    exact nomatch hhead
  have hend : (a ++ (b ++ '(' :: t)).drop (a.length + b.length) = '(' :: t := by
    rw [← List.drop_drop, List.drop_left, List.drop_left]
  rw [qualifiedName_eq]
  dsimp only
  rw [hlead, List.drop_zero, hname, if_neg hpos, Nat.zero_add, List.drop_left, hgap, Nat.add_zero,
    List.drop_left, hchain]
  simp [nameEnd, templateEnd, hend, gap_parenthesis]

/-- A name in front of a parenthesis is a type as a whole, with the modifiers before it. -/
theorem typeLength_of_qualifiedName {w s t : List Char}
    (hmodifiers : modifiersLength (w ++ (s ++ '(' :: t)) = w.length)
    (hname : qualifiedName (s ++ '(' :: t) = s.length) (hpos : s.length ≠ 0) :
    typeLength (w ++ (s ++ '(' :: t)) = w.length + s.length := by
  have hend : (w ++ (s ++ '(' :: t)).drop (w.length + s.length) = '(' :: t := by
    rw [List.drop_length_add_append, List.drop_left]
  have hno : ¬ [':', ':'] <+: (w ++ (s ++ '(' :: t)).drop (w.length + s.length) := by
    rw [hend]
    rintro ⟨v, hv⟩
    exact absurd (List.cons.inj hv).1 (by decide)
  rw [typeLength_eq]
  dsimp only
  rw [hmodifiers, List.drop_left, hname, if_neg hpos, hend, gap_parenthesis, Nat.add_zero,
    typeEnd_of_not_scope hno, hend]
  rfl

/-- A parenthesis is no member of a path. -/
theorem scopeChain_parenthesis (t : List Char) : scopeChain ('(' :: t) = 0 := by
  apply scopeChain_eq_zero
  rintro ⟨v, hv⟩
  exact absurd (List.cons.inj hv).1 (by decide)

/-- No name begins with punctuation other than a colon. -/
theorem qualifiedName_punctuation {c : Char} {t : List Char} (hgap : gap (c :: t) = 0)
    (hstart : isNameStart c = false) (hcolon : c ≠ ':') : qualifiedName (c :: t) = 0 := by
  have hname : simpleName (c :: t) = 0 := by
    apply simpleName_eq_zero
    rw [hgap]
    exact hstart
  have hlead : leadingScope (c :: t) = 0 := by
    rw [leadingScope_of_not_scope, hgap]
    rw [hgap]
    rintro ⟨v, hv⟩
    exact hcolon (List.cons.inj hv).1.symm
  rw [qualifiedName_eq]
  dsimp only
  rw [hlead, List.drop_zero, hname, if_pos rfl]

/-- No modifier begins with anything but a small letter. -/
theorem modifiersLength_eq_zero {c : Char} {t : List Char} (hblank : isBlank c = false)
    (hlower : c.isLower = false) : modifiersLength (c :: t) = 0 := by
  rw [modifiersLength_eq, if_pos]
  simp only [modifierLength, List.takeWhile_cons, hblank, hlower, List.drop_zero,
    List.length_nil, Bool.false_eq_true, if_false]
  rfl

/-- No type begins with such punctuation either. -/
theorem typeLength_punctuation {c : Char} {t : List Char} (hgap : gap (c :: t) = 0)
    (hstart : isNameStart c = false) (hcolon : c ≠ ':') : typeLength (c :: t) = 0 := by
  have hlower : c.isLower = false := by
    cases hc : c.isLower with
    | false => rfl
    | true =>
        have : isNameStart c = true := by
          unfold isNameStart Char.isAlpha
          simp [hc]
        cases hstart.symm.trans this
  rw [typeLength_eq]
  dsimp only
  rw [modifiersLength_eq_zero (gap_cons_eq_zero_iff.mp hgap).1 hlower, List.drop_zero,
    qualifiedName_punctuation hgap hstart hcolon, if_pos rfl]

theorem qualifiedName_identifier {c : List Char} (h : Identifier c) (t : List Char) :
    qualifiedName (c ++ '(' :: t) = c.length :=
  qualifiedName_parts (b := []) h.start (simpleName_identifier h rfl) (gap_parenthesis t)
    (scopeChain_parenthesis t)

theorem qualifiedName_operator {symbol : List Char} (h : OperatorSymbol symbol) (t : List Char) :
    qualifiedName (operatorKeyword ++ symbol ++ '(' :: t) = (operatorKeyword ++ symbol).length := by
  refine qualifiedName_parts (b := []) ?_ (simpleName_operator h t) (gap_parenthesis t)
    (scopeChain_parenthesis t)
  rw [List.head?_append]
  rfl

/-- The name of a class in front of a parenthesis is taken for a type. -/
theorem typeLength_identifier {c : List Char} (h : Identifier c) (hc : Unmodified c)
    (t : List Char) : typeLength (c ++ '(' :: t) = c.length := by
  have hmodifiers : modifiersLength (c ++ '(' :: t) = 0 := modifiersLength_identifier h hc rfl
  have htype := typeLength_of_qualifiedName (w := []) hmodifiers (qualifiedName_identifier h t)
    (Nat.ne_of_gt h.length_pos)
  rwa [List.length_nil, Nat.zero_add] at htype

/-- A path with at least one identifier: the name of a class. -/
structure ScopePath where
  first : List Char
  inner : List (List Char)
  identifiers : ∀ c ∈ first :: inner, Identifier c

namespace ScopePath

/-- The path as it is written. -/
def text (p : ScopePath) : List Char :=
  p.first ++ chain p.inner

/-- The chain of members behind the first identifier, with the name `m` behind them. -/
def memberChain (p : ScopePath) (m : List Char) : List Char :=
  chain p.inner ++ ':' :: ':' :: m

/-- The name of the member `m` of the class. -/
def member (p : ScopePath) (m : List Char) : List Char :=
  p.first ++ p.memberChain m

/-- The name of a member is the path of its class, `::`, and what stands behind that. -/
theorem member_eq (p : ScopePath) (m : List Char) : p.member m = p.text ++ ':' :: ':' :: m := by
  simp [member, memberChain, text]

theorem identifier_first (p : ScopePath) : Identifier p.first :=
  p.identifiers _ List.mem_cons_self

theorem identifier_inner (p : ScopePath) : ∀ c ∈ p.inner, Identifier c :=
  fun c hc => p.identifiers c (List.mem_cons_of_mem _ hc)

/-- Behind the first identifier of a member name there is no letter. -/
private theorem head?_memberChain (p : ScopePath) (m t : List Char) :
    (p.memberChain m ++ '(' :: t).head?.any isNameChar = false := by
  rw [memberChain, List.append_assoc]
  exact head?_chain_append rfl

private theorem gap_memberChain (p : ScopePath) (m t : List Char) :
    gap (p.memberChain m ++ '(' :: t) = 0 := by
  rw [memberChain, List.append_assoc]
  cases p.inner with
  | nil => simp [chain, gap, gapFrom, isBlank]
  | cons c cs =>
      rw [chain_cons]
      simp [gap, gapFrom, isBlank]

theorem text_ne_nil (p : ScopePath) : p.text ≠ [] := by
  simp [text, p.identifier_first.ne_nil]

theorem length_member_ne_zero (p : ScopePath) (m : List Char) : (p.member m).length ≠ 0 := by
  have := p.identifier_first.length_pos
  rw [member, List.length_append]
  omega

section Member

variable (p : ScopePath) {m t : List Char} (hm : scopeMember (m ++ '(' :: t) = m.length)
  (hne : m ≠ [])

include hm hne

private theorem scopeChain_memberChain :
    scopeChain (p.memberChain m ++ '(' :: t) = (p.memberChain m).length := by
  have hpos : m.length ≠ 0 := mt List.length_eq_zero_iff.mp hne
  rw [memberChain, List.append_assoc, List.length_append, scopeChain_chain p.identifier_inner rfl,
    List.cons_append, List.cons_append, scopeChain_cons, hm, if_neg hpos, List.drop_left,
    scopeChain_parenthesis, List.length_cons, List.length_cons]

/-- What is recognised as a member is recognised behind a path. -/
theorem qualifiedName_of_scopeMember :
    qualifiedName (p.member m ++ '(' :: t) = (p.member m).length := by
  have hfirst := p.identifier_first
  rw [member, List.append_assoc, List.length_append]
  apply qualifiedName_parts hfirst.start
  · exact simpleName_identifier hfirst (p.head?_memberChain m t)
  · exact p.gap_memberChain m t
  · exact p.scopeChain_memberChain hm hne

/-- Such a name is taken for a type. -/
theorem typeLength_of_scopeMember (hfirst : Unmodified p.first) :
    typeLength (p.member m ++ '(' :: t) = (p.member m).length := by
  have hmodifiers : modifiersLength (p.member m ++ '(' :: t) = 0 := by
    rw [member, List.append_assoc]
    exact modifiersLength_identifier p.identifier_first hfirst (p.head?_memberChain m t)
  have htype := typeLength_of_qualifiedName (w := []) hmodifiers
    (p.qualifiedName_of_scopeMember hm hne) (p.length_member_ne_zero m)
  rwa [List.length_nil, Nat.zero_add] at htype

end Member

/-- **Names behind a path** are recognised up to the parenthesis of the parameters. -/
theorem qualifiedName_member (p : ScopePath) {m : List Char} (hm : MemberName m) (t : List Char) :
    qualifiedName (p.member m ++ '(' :: t) = (p.member m).length :=
  p.qualifiedName_of_scopeMember (scopeMember_memberName hm t) hm.ne_nil

theorem typeLength_member (p : ScopePath) {m : List Char} (hm : MemberName m) (t : List Char)
    (hfirst : Unmodified p.first) : typeLength (p.member m ++ '(' :: t) = (p.member m).length :=
  p.typeLength_of_scopeMember (scopeMember_memberName hm t) hm.ne_nil hfirst

end ScopePath

end CppDoc.Syntax
