import CppDoc.Proofs.Manual.Complete
import CppDoc.Proofs.Registry.Ancestors
import CppDoc.Proofs.Registry.Reachable

/-!
# Members of the nearest class

A class has the members of its ancestors, as far as no nearer class has such a member.  Two questions
are answered by going up from a class.

* Which member does a function reimplement?  `overridden` compares the members of the ancestors with
  the function: `NearestAlike`, `overridden_eq_some_iff`.
* Which member does a call in a text mean?  It is looked up by qualified name, in the class itself
  first: `NearestCalled`, `findTarget?_eq_some_iff`.  In a well-formed registry a qualified name is
  that of a member of the class: `called_iff_member`.

`lookup_nearest` has both answers, the second one with what is made of it.
-/

namespace CppDoc

open CppDoc.Text

namespace Registry

variable {reg : Registry}

/-! ## Reimplemented members -/

/-- The function `m` has the member name, the signature and the constness of the function `f`. -/
def Alike (reg : Registry) (f m : FunctionId) : Prop :=
  (reg.function m).member = (reg.function f).member ∧
    (reg.function m).signature = (reg.function f).signature ∧
    (reg.function m).isConst = (reg.function f).isConst

theorem sameMember_iff {f m : FunctionId} :
    sameMember (reg.function f) (reg.function m) = true ↔ reg.Alike f m := by
  simp only [sameMember, Alike, Bool.and_eq_true, beq_iff_eq, and_assoc]

/-- The first of the classes `chain` that has a member like `f` is the class `a`, and the first such
member of `a` is `g`. -/
structure NearestIn (reg : Registry) (chain : List ClassId) (f g : FunctionId) (a : ClassId) :
    Prop where
  chain : ∃ before after, chain = before ++ a :: after ∧
    ∀ b ∈ before, ∀ m ∈ (reg.getClass b).members, ¬reg.Alike f m
  members : ∃ before after, (reg.getClass a).members = before ++ g :: after ∧
    ∀ m ∈ before, ¬reg.Alike f m
  alike : reg.Alike f g

theorem overridden_eq_some_iff {f g : FunctionId} :
    reg.overridden f = some g ↔
      ∃ a, reg.NearestIn (reg.ancestors (reg.function f).owner) f g a := by
  have hnone (b : ClassId) :
      ((reg.getClass b).members.find? fun m => sameMember (reg.function f) (reg.function m)) = none ↔
        ∀ m ∈ (reg.getClass b).members, ¬reg.Alike f m := by
    simp only [List.find?_eq_none, sameMember_iff]
  have hsome (a : ClassId) :
      ((reg.getClass a).members.find? fun m => sameMember (reg.function f) (reg.function m)) =
          some g ↔
        reg.Alike f g ∧ ∃ before after, (reg.getClass a).members = before ++ g :: after ∧
          ∀ m ∈ before, ¬reg.Alike f m := by
    simp only [List.find?_eq_some_iff_append, Bool.not_eq_true', ← Bool.not_eq_true, sameMember_iff]
  unfold overridden
  dsimp only
  rw [List.findSome?_eq_some_iff]
  constructor
  · rintro ⟨before, a, after, hchain, ha, hbefore⟩
    obtain ⟨halike, hmembers⟩ := (hsome a).mp ha
    exact ⟨a, ⟨before, after, hchain, fun b hb => (hnone b).mp (hbefore b hb)⟩, hmembers, halike⟩
  · rintro ⟨a, ⟨before, after, hchain, hbefore⟩, hmembers, halike⟩
    exact ⟨before, a, after, hchain, (hsome a).mpr ⟨halike, hmembers⟩,
      fun b hb => (hnone b).mpr (hbefore b hb)⟩

/-- There is such a member if any ancestor has one. -/
theorem isSome_overridden {f : FunctionId} :
    (reg.overridden f).isSome = true ↔
      ∃ a ∈ reg.ancestors (reg.function f).owner, ∃ m ∈ (reg.getClass a).members,
        reg.Alike f m := by
  unfold overridden
  simp only [List.findSome?_isSome_iff, List.find?_isSome, sameMember_iff]

/-- No function reimplements itself: its class is none of its ancestors. -/
theorem overridden_ne (hreg : reg.WellFormed) {f g : FunctionId} (h : reg.overridden f = some g) :
    g ≠ f := by
  rintro rfl
  obtain ⟨a, ⟨before, after, hchain, -⟩, ⟨first, last, hmembers, -⟩, -⟩ :=
    overridden_eq_some_iff.mp h
  have ha : a ∈ reg.ancestors (reg.function g).owner := by
    rw [hchain]
    exact List.mem_append_right _ List.mem_cons_self
  have hg : g ∈ (reg.getClass a).members := by
    rw [hmembers]
    exact List.mem_append_right _ List.mem_cons_self
  have hclass := hasClass_of_ancestor hreg.parentsExist ha
  exact ne_of_ancestor hreg.parentsExist ha
    (Manual.owner_of_member hreg (getElem?_getClass hclass) hg).2

/-! ## Members by their qualified names -/

/-- The function has the name `name`, qualified with the class `a`. -/
def Called (reg : Registry) (a : ClassId) (name : String) (f : FunctionId) : Prop :=
  reg.HasFunction f ∧ (reg.function f).name = (reg.getClass a).name ++ "::" ++ name

theorem memberPart_qualified (owner : String) {name : String} (hname : ':' ∉ name.toList) :
    memberPart (owner ++ "::" ++ name) = name := by
  have hcut : (owner ++ "::" ++ name).toList = owner.toList ++ ':' :: ':' :: name.toList := by
    simp
  rw [memberPart, hcut, findLast?_member _ hname]
  dsimp only
  rw [← List.drop_drop, List.drop_left]
  exact String.ofList_toList

/-- **Qualified names.**  In a well-formed registry the functions with a qualified name are the
members of the class with the name behind it. -/
theorem called_iff_member (hreg : reg.WellFormed) {a : ClassId} (ha : reg.HasClass a)
    {name : String} (hname : ':' ∉ name.toList) {f : FunctionId} :
    reg.Called a name f ↔ f ∈ (reg.getClass a).members ∧ (reg.function f).member = name := by
  constructor
  · rintro ⟨hf, hqualified⟩
    have hmember : (reg.function f).member = name := by
      rw [Function.member, hqualified, memberPart_qualified _ hname]
    obtain ⟨howner, hlisted⟩ := Manual.mem_members_owner hreg hf
    obtain ⟨c, hc, hnamed⟩ := (hreg.functions f _ (getElem?_function hf)).owner
    obtain rfl := Option.some.inj (hc.symm.trans (getElem?_getClass howner))
    rw [hmember, hqualified, String.append_assoc, String.append_assoc,
      String.append_left_inj] at hnamed
    rw [eq_of_name hreg ha howner hnamed]
    exact ⟨hlisted, hmember⟩
  · rintro ⟨hlisted, hmember⟩
    have hf := (hreg.classes a _ (getElem?_getClass ha)).members f hlisted
    obtain ⟨c, hc, hnamed⟩ := (hreg.functions f _ (getElem?_function hf)).owner
    rw [← (Manual.owner_of_member hreg (getElem?_getClass ha) hlisted).2] at hc
    obtain rfl := Option.some.inj (hc.symm.trans (getElem?_getClass ha))
    exact ⟨hf, by rw [hnamed, hmember]⟩

/-- The first of the classes `chain` that has a function called `name` is the class `a`, and the
function `f` is the first of them to have been declared. -/
structure NearestCalled (reg : Registry) (chain : List ClassId) (name : String) (f : FunctionId)
    (a : ClassId) : Prop where
  chain : ∃ before after, chain = before ++ a :: after ∧ ∀ b ∈ before, ∀ g, ¬reg.Called b name g
  called : reg.Called a name f
  first : ∀ g, g.index < f.index → ¬reg.Called a name g

theorem NearestCalled.mem {chain : List ClassId} {name : String} {f : FunctionId} {a : ClassId}
    (h : reg.NearestCalled chain name f a) : a ∈ chain := by
  obtain ⟨before, after, rfl, -⟩ := h.chain
  exact List.mem_append_right _ List.mem_cons_self

theorem findFunction?_eq_some_iff {a : ClassId} {name : String} {f : FunctionId} :
    reg.findFunction? ((reg.getClass a).name ++ "::" ++ name) = some f ↔
      reg.Called a name f ∧ ∀ g, g.index < f.index → ¬reg.Called a name g := by
  have hread (n : Nat) (hn : n < reg.functions.length) : reg.functions[n] = reg.function ⟨n⟩ := by
    simp [function, hn]
  unfold findFunction?
  constructor
  · intro h
    obtain ⟨n, hn, rfl⟩ := Option.map_eq_some_iff.mp h
    obtain ⟨hlt, hname, hbefore⟩ := List.findIdx?_eq_some_iff_getElem.mp hn
    rw [hread n hlt, beq_iff_eq] at hname
    refine ⟨⟨hlt, hname⟩, fun g hg hcalled => hbefore g.index hg ?_⟩
    rw [hread g.index, beq_iff_eq]
    exact hcalled.2
  · rintro ⟨⟨hlt, hname⟩, hbefore⟩
    refine Option.map_eq_some_iff.mpr ⟨f.index, ?_, rfl⟩
    refine List.findIdx?_eq_some_iff_getElem.mpr ⟨hlt, ?_, fun n hn hfound => ?_⟩
    · rw [hread f.index hlt]
      exact beq_iff_eq.mpr hname
    · rw [hread, beq_iff_eq] at hfound
      exact hbefore ⟨n⟩ hn ⟨Nat.lt_trans hn hlt, hfound⟩

theorem findFunction?_eq_none_iff {a : ClassId} {name : String} :
    reg.findFunction? ((reg.getClass a).name ++ "::" ++ name) = none ↔
      ∀ f, ¬reg.Called a name f := by
  rw [findFunction?, Option.map_eq_none_iff, List.findIdx?_eq_none_iff]
  constructor
  · rintro h f ⟨hf, hname⟩
    have hne := h _ (List.mem_of_getElem? (getElem?_function hf))
    rw [hname, beq_self_eq_true] at hne
    cases hne
  · intro h f hf
    obtain ⟨n, hn⟩ := List.getElem?_of_mem hf
    have hfunction : reg.HasFunction ⟨n⟩ := (List.getElem?_eq_some_iff.mp hn).1
    obtain rfl := Option.some.inj (hn.symm.trans (getElem?_function hfunction))
    exact beq_eq_false_iff_ne.mpr fun hname => h ⟨n⟩ ⟨hfunction, hname⟩

end Registry

namespace Markup

open Registry

variable {reg : Registry}

theorem hasClass_of_scope (hreg : reg.WellFormed) {subject : Subject} {c : ClassId}
    (hsubject : reg.HasSubject subject) (hscope : scope reg subject = some c) : reg.HasClass c := by
  cases subject with
  | function f =>
      obtain rfl := Option.some.inj hscope
      exact (Manual.mem_members_owner hreg hsubject).1
  | classPage c' =>
      obtain rfl := Option.some.inj hscope
      exact hsubject
  | chapter ch => cases hscope

/-- A name without a class is looked up in one class after the other. -/
theorem findTarget?_eq_some_iff {c : ClassId} {name : String} (hname : ':' ∉ name.toList)
    {f : FunctionId} :
    findTarget? reg (some c) name = some f ↔
      ∃ a, reg.NearestCalled (c :: reg.ancestors c) name f a := by
  unfold findTarget?
  rw [if_neg (by simpa using hname), List.findSome?_eq_some_iff]
  simp only [findFunction?_eq_some_iff, findFunction?_eq_none_iff]
  constructor
  · rintro ⟨before, a, after, hchain, ⟨hcalled, hfirst⟩, hbefore⟩
    exact ⟨a, ⟨before, after, hchain, hbefore⟩, hcalled, hfirst⟩
  · rintro ⟨a, ⟨before, after, hchain, hbefore⟩, hcalled, hfirst⟩
    exact ⟨before, a, after, hchain, ⟨hcalled, hfirst⟩, hbefore⟩

theorem findTarget?_eq_none_iff {c : ClassId} {name : String} (hname : ':' ∉ name.toList) :
    findTarget? reg (some c) name = none ↔
      ∀ a ∈ c :: reg.ancestors c, ∀ f, ¬reg.Called a name f := by
  unfold findTarget?
  rw [if_neg (by simpa using hname), List.findSome?_eq_none_iff]
  simp only [findFunction?_eq_none_iff]

/-! ## Calls in a text -/

/-- The word `w` is a call of the function `name`: it begins with a letter and ends in a parenthesis,
apart from punctuation; the name stands before the first parenthesis, and has no colons. -/
structure IsCall (w : List Char) (name : String) : Prop where
  letter : w.head?.any Char.isAlpha = true
  paren : (trimRightIf isTrailing w).getLast? = some '('
  spelled : name.toList = w.takeWhile (· != '(')
  unqualified : ':' ∉ name.toList

theorem trimRightIf_prefix (p : Char → Bool) (w : List Char) : trimRightIf p w <+: w := by
  refine ⟨(w.reverse.takeWhile p).reverse, ?_⟩
  rw [trimRightIf, ← List.reverse_append, List.takeWhile_append_dropWhile, List.reverse_reverse]

/-- What stands before the first parenthesis stands before a later one. -/
theorem takeWhile_ne_paren (front rest : List Char) :
    (front ++ '(' :: rest).takeWhile (· != '(') = front.takeWhile (· != '(') := by
  induction front with
  | nil => rfl
  | cons c front ih => rw [List.cons_append, List.takeWhile_cons, List.takeWhile_cons, ih]

/-- The scheme of a web address ends in a colon, and has no parenthesis. -/
theorem scheme_of_isUrl {w : List Char} (h : isUrl w = true) :
    ∃ scheme rest, w = scheme ++ ':' :: rest ∧ '(' ∉ scheme := by
  unfold isUrl at h
  obtain ⟨hhttp, hrest⟩ := Bool.and_eq_true_iff.mp h
  have hfour : '(' ∉ w.take 4 := by
    intro hmem
    have hlower := List.mem_map_of_mem (f := Char.toLower) hmem
    rw [beq_iff_eq.mp hhttp] at hlower
    exact absurd hlower (by decide)
  split at hrest
  · rename_i hs
    obtain ⟨c, hc, hcs⟩ := (Option.any_eq_true _ _).mp hs
    obtain ⟨tail, htail⟩ := List.head?_eq_some_iff.mp hc
    obtain ⟨rest, hcolon⟩ := List.isPrefixOf_iff_prefix.mp hrest
    rw [htail, List.drop_succ_cons, List.drop_zero] at hcolon
    refine ⟨w.take 4 ++ [c], "//".toList ++ rest, ?_, fun hmem => ?_⟩
    · conv => lhs; rw [← List.take_append_drop 4 w, htail, ← hcolon]
      simp
    · obtain rfl := List.mem_singleton.mp ((List.mem_append.mp hmem).resolve_left hfour)
      exact absurd hcs (by decide)
  · obtain ⟨rest, hcolon⟩ := List.isPrefixOf_iff_prefix.mp hrest
    refine ⟨w.take 4, "//".toList ++ rest, ?_, hfour⟩
    conv => lhs; rw [← List.take_append_drop 4 w, ← hcolon]
    rfl

section Call

variable {w : List Char} {name : String}

theorem IsCall.proper_eq (h : IsCall w name) : proper w = trimRightIf isTrailing w := by
  have hparen := h.paren
  unfold proper
  split
  · rename_i hnil
    rw [hnil] at hparen
    cases hparen
  · rfl

/-- Punctuation at the end is no part of the name. -/
theorem IsCall.callName?_eq (h : IsCall w name) :
    callName? (trimRightIf isTrailing w) = some name.toList := by
  obtain ⟨tail, hw⟩ := trimRightIf_prefix isTrailing w
  obtain ⟨front, hfront⟩ := List.getLast?_eq_some_iff.mp h.paren
  have hname : (trimRightIf isTrailing w).takeWhile (· != '(') = name.toList := by
    calc (trimRightIf isTrailing w).takeWhile (· != '(')
        = front.takeWhile (· != '(') := by rw [hfront, takeWhile_ne_paren]
      _ = w.takeWhile (· != '(') := by
          rw [← hw, hfront, List.append_assoc]
          exact (takeWhile_ne_paren front tail).symm
      _ = name.toList := h.spelled.symm
  have hletter : name.toList.head?.any Char.isAlpha = true := by
    obtain ⟨c, hc, hcalpha⟩ := (Option.any_eq_true _ _).mp h.letter
    obtain ⟨rest, rfl⟩ := List.head?_eq_some_iff.mp hc
    have hcparen : (c != '(') = true := by
      rw [bne_iff_ne]
      rintro rfl
      cases hcalpha
    rw [h.spelled, List.takeWhile_cons, if_pos hcparen]
    exact hcalpha
  rw [callName?, hname, h.paren, hletter]
  rfl

/-- A call is no web address, since a colon stands before the first parenthesis of an address. -/
theorem IsCall.not_isUrl (h : IsCall w name) : isUrl w = false := by
  rw [Bool.eq_false_iff]
  intro hurl
  obtain ⟨scheme, rest, rfl, hscheme⟩ := scheme_of_isUrl hurl
  have hpass : ∀ c ∈ scheme, (c != '(') = true := by
    intro c hc
    rw [bne_iff_ne]
    rintro rfl
    exact hscheme hc
  refine h.unqualified ?_
  rw [h.spelled, List.takeWhile_append_of_pos hpass]
  exact List.mem_append_right _ List.mem_cons_self

theorem resolve_call (reg : Registry) (subject : Subject) (h : IsCall w name) :
    resolve reg subject w = resolveCall reg subject name := by
  unfold resolve
  dsimp only
  rw [h.proper_eq, h.paren, h.callName?_eq]
  dsimp only
  rw [String.ofList_toList]
  rfl

/-- A call is read as a word of plain text that refers to something. -/
theorem readWord_call (d : DocBlock) (rest : List Char) (line n : Nat) {st : State}
    (hst : st.expecting = .text) (h : IsCall w name) :
    readWord d w rest line n st = .ofPair (readReference d w line st) := by
  have hrfc : w ≠ "RFC".toList := by
    rintro rfl
    exact absurd h.paren (by decide)
  have hdirective : (w.head? == some '\\') = false := by
    obtain ⟨c, hc, hcalpha⟩ := (Option.any_eq_true _ _).mp h.letter
    rw [hc, beq_eq_false_iff_ne]
    rintro heq
    obtain rfl := Option.some.inj heq
    cases hcalpha
  rw [readWord, if_neg hrfc, h.not_isUrl, hdirective, readPlain, hst]
  rfl

end Call

/-- **Member lookup.**  In a well-formed registry, whatever cycles its hierarchy has:

* a function reimplements something if and only if an ancestor of its class has a member of its
  member name, signature and constness.  Then it reimplements such a member of the nearest ancestor
  that has one, and never itself;
* a call in the plain text of a documentation that belongs to the class `c` refers to the first
  function of that name in `c` or else in the nearest of its ancestors, which is a member there.  The
  word is linked to it, except on the function itself.  If there is none, the word stays text, and one
  report says so unless the name is `main`. -/
theorem lookup_nearest (hreg : reg.WellFormed) :
    (∀ f, reg.HasFunction f →
      ((reg.overridden f).isSome = true ↔
        ∃ a ∈ reg.ancestors (reg.function f).owner, ∃ m ∈ (reg.getClass a).members,
          reg.Alike f m) ∧
      ∀ g, reg.overridden f = some g →
        (∃ a, reg.NearestIn (reg.ancestors (reg.function f).owner) f g a) ∧ g ≠ f) ∧
    ∀ (d : DocBlock) (c : ClassId) (w rest : List Char) (name : String) (line n : Nat)
        (st : State),
      st.registry = reg → st.expecting = .text → reg.HasSubject d.subject →
      scope reg d.subject = some c → IsCall w name →
      (∃ f a, reg.NearestCalled (c :: reg.ancestors c) name f a ∧
        f ∈ (reg.getClass a).members ∧ (reg.function f).member = name ∧
        readWord d w rest line n st =
          { state := st
            drafts :=
              [if d.subject = .function f then .text (String.ofList w)
                else .content (.functionLink (String.ofList w) (reg.memberRef f))]
            taken := 0 }) ∨
      (∀ a ∈ c :: reg.ancestors c, ∀ f, ¬reg.Called a name f) ∧
        readWord d w rest line n st =
          { state :=
              if name = "main" then st
              else st.report d line (.noLinkTarget name (reg.getClass c).name)
            drafts := [.text (String.ofList w)]
            taken := 0 } := by
  refine ⟨fun f _ => ⟨isSome_overridden, fun g hg =>
    ⟨overridden_eq_some_iff.mp hg, overridden_ne hreg hg⟩⟩, ?_⟩
  intro d c w rest name line n st hst htext hsubject hscope hcall
  have hresolve := resolve_call reg d.subject hcall
  rw [readWord_call d rest line n htext hcall, readReference, hst, hresolve, resolveCall, hscope]
  cases htarget : findTarget? reg (some c) name with
  | some f =>
      obtain ⟨a, hnearest⟩ := (findTarget?_eq_some_iff hcall.unqualified).mp htarget
      have hclass : reg.HasClass a := by
        rcases List.mem_cons.mp hnearest.mem with rfl | habove
        · exact hasClass_of_scope hreg hsubject hscope
        · exact hasClass_of_ancestor hreg.parentsExist habove
      obtain ⟨hmember, hname⟩ :=
        (called_iff_member hreg hclass hcall.unqualified).mp hnearest.called
      refine .inl ⟨f, a, hnearest, hmember, hname, ?_⟩
      by_cases hself : d.subject = .function f
      · simp [hself, Outcome.ofPair]
      · simp [hself, Outcome.ofPair]
  | none =>
      refine .inr ⟨(findTarget?_eq_none_iff hcall.unqualified).mp htarget, ?_⟩
      by_cases hmain : name = "main"
      · simp [hmain, Outcome.ofPair]
      · simp [hmain, Outcome.ofPair]

/-- Two classes that are each other's parents, and a member `bar` of each. -/
def twins : Registry :=
  let site : Location := ⟨⟨0⟩, 1⟩
  let file : SourceFile := ⟨"foo.h", .header, "class A : B;\nclass B : A;\n"⟩
  let declared := (((empty.addFile file).2.declare "void" "A::bar" "()" false site).2.declare
    "void" "B::bar" "()" false site).2
  (declared.editClass ⟨0⟩ fun c => { c with parent := some ⟨1⟩ }).editClass ⟨1⟩
    fun c => { c with parent := some ⟨0⟩ }

theorem wellFormed_twins : twins.WellFormed := by
  have hfile (file : SourceFile) : (empty.addFile file).2.HasFile ⟨0⟩ := Nat.zero_lt_one
  refine Edits.wellFormed (.tail (.single (.setParent ⟨0⟩ ?_)) (.setParent ⟨1⟩ ?_))
    (wellFormed_of_reachable (.call (.call (.call .empty (.addFile _))
      (.declare _ _ _ _ (hfile _))) (.declare _ _ _ _ (hfile _))))
  · unfold HasClass
    decide
  · unfold HasClass
    decide

theorem lookup_nearest_twins :
    let d : DocBlock :=
      { origin := ⟨⟨0⟩, 1⟩, textLine := 1, text := "", subject := .function ⟨0⟩ }
    twins.overridden ⟨1⟩ = some ⟨0⟩ ∧
      (∃ a, twins.NearestIn (twins.ancestors (twins.function ⟨1⟩).owner) ⟨1⟩ ⟨0⟩ a) ∧
      ∃ f a, twins.NearestCalled (⟨0⟩ :: twins.ancestors ⟨0⟩) "bar" f a ∧
        (readWord d "bar().".toList [] 1 1 (.start twins)).drafts =
          [if d.subject = .function f then .text (String.ofList "bar().".toList)
            else .content (.functionLink (String.ofList "bar().".toList) (twins.memberRef f))] := by
  intro d
  have hlength : twins.functions.length = 2 := by decide
  have hfunction (n : Nat) (hn : n < 2) : twins.HasFunction ⟨n⟩ := by
    rw [HasFunction, hlength]
    exact hn
  have hover : twins.overridden ⟨1⟩ = some ⟨0⟩ := by decide +kernel
  have hscope : scope twins d.subject = some ⟨0⟩ := by decide
  have hcall : IsCall "bar().".toList "bar" := ⟨by decide, by decide, by decide, by decide⟩
  obtain ⟨hoverrides, hcalls⟩ := lookup_nearest wellFormed_twins
  refine ⟨hover, ((hoverrides ⟨1⟩ (hfunction 1 (by decide))).2 ⟨0⟩ hover).1, ?_⟩
  obtain ⟨f, a, hnearest, -, -, hread⟩ | ⟨hnone, -⟩ :=
    hcalls d ⟨0⟩ "bar().".toList [] "bar" 1 1 (.start twins) rfl rfl (hfunction 0 (by decide))
      hscope hcall
  · exact ⟨f, a, hnearest, by rw [hread]⟩
  · exact absurd ⟨hfunction 0 (by decide), by decide⟩ (hnone ⟨0⟩ List.mem_cons_self ⟨0⟩)

end Markup

end CppDoc
