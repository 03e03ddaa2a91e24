import CppDoc.Proofs.Manual.Notes
import CppDoc.Proofs.Registry.WellFormed

/-!
# The draft of a block

A block of documentation that is not internal is drafted as one headline, that of its subject, and a
**body** behind it.  The body holds no headline, and its links lead to classes and functions that the
registry speaks of.

* `body_readWord` and `body_readWords`: the words of a block;
* `preamble_eq` and `interpret_eq`: the headline and what follows it;
* `headlines_interpret`: the headlines of a block.
-/

namespace CppDoc

open CppDoc.Registry CppDoc.Text

/-- The headline that an event is. -/
def Event.headline? : Event → Option Headline
  | .headline h => some h
  | .close | .content _ => none

/-- The headline that an item of a draft is. -/
def Draft.headline? : Draft → Option Headline
  | .space => none
  | .event e => e.headline?

/-- The headlines of a draft. -/
def Draft.headlines (drafts : List Draft) : List Headline :=
  drafts.filterMap Draft.headline?

@[simp] theorem Draft.headlines_nil : Draft.headlines [] = [] := rfl

@[simp] theorem Draft.headlines_append (a b : List Draft) :
    Draft.headlines (a ++ b) = Draft.headlines a ++ Draft.headlines b :=
  List.filterMap_append

/-- Does content lead to a class or a function? -/
def Content.isReference : Content → Bool
  | .classLink _ _ => true
  | .functionLink _ _ => true
  | _ => false

namespace Registry

/-- The headline of a subject. -/
def headline (reg : Registry) : Subject → Headline
  | .function f => .function (reg.memberRef f)
  | .classPage c => .classPage (reg.getClass c).name
  | .chapter ch => .chapter (reg.chapter ch).name

@[simp] theorem headline_material (reg : Registry) (s : Subject) :
    reg.material.headline s = reg.headline s := by
  cases s <;> simp [headline]

/-- The registry has the class, or links some class to it. -/
def SpeaksOfClass (reg : Registry) (c : ClassId) : Prop :=
  reg.HasClass c ∨ ∃ d, (reg.getClass d).parent = some c ∨ c ∈ (reg.getClass d).children

/-- The registry has the function, or lists it as a member of some class. -/
def SpeaksOfFunction (reg : Registry) (f : FunctionId) : Prop :=
  reg.HasFunction f ∨ ∃ c, f ∈ (reg.getClass c).members

end Registry

namespace Markup

/-- An item of the body of a block. -/
inductive Body (reg : Registry) : Draft → Prop
  | space : Body reg .space
  | close : Body reg .close
  | plain {c : Content} (h : c.isReference = false) : Body reg (.content c)
  | classLink (text : String) {c : ClassId} (hc : reg.SpeaksOfClass c) :
      Body reg (.content (.classLink text (reg.getClass c).name))
  | functionLink (text : String) {f : FunctionId} (hf : reg.SpeaksOfFunction f) :
      Body reg (.content (.functionLink text (reg.memberRef f)))

section Body

variable {reg reg' : Registry} {x : Draft}

theorem Body.headline?_eq_none (h : Body reg x) : x.headline? = none := by
  cases h <;> rfl

/-- There are no headlines in a body. -/
theorem headlines_of_body {xs : List Draft} (h : ∀ x ∈ xs, Body reg x) : Draft.headlines xs = [] :=
  List.filterMap_eq_nil_iff.mpr fun x hx => (h x hx).headline?_eq_none

/-- A registry speaks of what its material speaks of. -/
theorem speaksOfClass_material (c : ClassId) :
    reg.material.SpeaksOfClass c = reg.SpeaksOfClass c := by
  simp only [SpeaksOfClass, getClass_material, Class.parent_material, Class.children_material,
    HasClass]
  simp [Registry.material]

theorem speaksOfFunction_material (f : FunctionId) :
    reg.material.SpeaksOfFunction f = reg.SpeaksOfFunction f := by
  simp only [SpeaksOfFunction, getClass_material, Class.members_material, HasFunction]
  simp [Registry.material]

theorem Body.of_material (h : Body reg x) (hmaterial : reg.material = reg'.material) :
    Body reg' x := by
  cases h with
  | space => exact .space
  | close => exact .close
  | plain hplain => exact .plain hplain
  | @classLink text c hc =>
      have hname := eq_of_material (fun reg => (reg.getClass c).name)
        (fun reg => by rw [getClass_material]; rfl) hmaterial
      rw [hname]
      refine .classLink text ?_
      rw [← speaksOfClass_material, ← hmaterial, speaksOfClass_material]
      exact hc
  | @functionLink text f hf =>
      rw [eq_of_material (·.memberRef f) (memberRef_material · f) hmaterial]
      refine .functionLink text ?_
      rw [← speaksOfFunction_material, ← hmaterial, speaksOfFunction_material]
      exact hf

/-- A body that is one item. -/
theorem body_singleton (h : Body reg x) : ∀ y ∈ [x], Body reg y := by
  intro y hy
  obtain rfl := List.mem_singleton.mp hy
  exact h

theorem body_nil : ∀ y ∈ ([] : List Draft), Body reg y := by
  intro y hy
  exact nomatch hy

theorem body_append {xs ys : List Draft} (hxs : ∀ x ∈ xs, Body reg x) (hys : ∀ y ∈ ys, Body reg y) :
    ∀ z ∈ xs ++ ys, Body reg z := by
  intro z hz
  rcases List.mem_append.mp hz with hz | hz
  · exact hxs z hz
  · exact hys z hz

theorem body_cons {xs : List Draft} (hx : Body reg x) (hxs : ∀ x ∈ xs, Body reg x) :
    ∀ z ∈ x :: xs, Body reg z :=
  body_append (body_singleton hx) hxs

theorem body_text (reg : Registry) (t : String) : Body reg (.text t) :=
  .plain rfl

end Body

/-! ## What names lead to -/

section Targets

variable {reg : Registry}

theorem hasFunction_of_findFunction? {name : String} {f : FunctionId}
    (h : reg.findFunction? name = some f) : reg.HasFunction f := by
  obtain ⟨n, hn, rfl⟩ := Option.map_eq_some_iff.mp h
  exact (List.findIdx?_eq_some_iff_getElem.mp hn).1

theorem hasFunction_of_findTarget? {within : Option ClassId} {name : String} {f : FunctionId}
    (h : findTarget? reg within name = some f) : reg.HasFunction f := by
  unfold findTarget? at h
  split at h
  · exact hasFunction_of_findFunction? h
  split at h
  · cases h
  · obtain ⟨a, _, ha⟩ := List.exists_of_findSome?_eq_some h
    exact hasFunction_of_findFunction? ha

theorem hasFunction_of_resolve {s : Subject} {w : List Char} {f : FunctionId}
    (h : resolve reg s w = .function f) : reg.HasFunction f := by
  obtain h' | ⟨_, g, h', hg⟩ | ⟨_, _, h', _⟩ | ⟨_, _, h'⟩ := resolve_cases reg s w
  all_goals cases h.symm.trans h'
  exact hasFunction_of_findTarget? hg

theorem hasClass_of_resolve {s : Subject} {w : List Char} {c : ClassId}
    (h : resolve reg s w = .classPage c) : reg.HasClass c := by
  obtain h' | ⟨_, _, h', _⟩ | ⟨_, e, h', he⟩ | ⟨_, _, h'⟩ := resolve_cases reg s w
  all_goals cases h.symm.trans h'
  exact hasClass_of_findClass? he

theorem hasClass_of_firstClass? {s : List Char} {c : ClassId} (h : firstClass? reg s = some c) :
    reg.HasClass c := by
  induction s using firstClass?.induct reg with
  | case1 => simp [firstClass?] at h
  | case2 a rest ha found hfound =>
      rw [firstClass?, if_pos ha, hfound] at h
      obtain rfl := Option.some.inj h
      exact hasClass_of_findClass? hfound
  | case3 a rest ha hnone ih =>
      rw [firstClass?, if_pos ha, hnone] at h
      exact ih h
  | case4 a rest ha ih =>
      rw [firstClass?, if_neg ha] at h
      exact ih h

/-- What a function reimplements is a member of some class. -/
theorem speaksOfFunction_of_overridden {f base : FunctionId} (h : reg.overridden f = some base) :
    reg.SpeaksOfFunction base := by
  obtain ⟨a, _, ha⟩ := List.exists_of_findSome?_eq_some h
  exact .inr ⟨a, List.mem_of_find?_eq_some ha⟩

end Targets

/-! ## Words -/

variable {d : DocBlock} {st : State}

theorem body_readReference (w : List Char) (line : Nat) :
    ∀ x ∈ (readReference d w line st).2, Body st.registry x := by
  simp only [readReference]
  split
  · rename_i f hf
    exact body_singleton (.functionLink _ (.inl (hasFunction_of_resolve hf)))
  · rename_i c hc
    exact body_singleton (.classLink _ (.inl (hasClass_of_resolve hc)))
  · exact body_singleton (body_text _ _)
  · exact body_singleton (body_text _ _)

theorem body_readPlain (w : List Char) (line : Nat) :
    ∀ x ∈ (readPlain d w line st).2, Body st.registry x := by
  unfold readPlain
  split
  · exact body_nil
  · exact body_singleton (.plain rfl)
  · exact body_readReference w line

theorem body_readDirective (w rest : List Char) (line n : Nat) :
    ∀ x ∈ (readDirective d w rest line n st).drafts, Body st.registry x := by
  unfold readDirective
  split
  all_goals first | exact body_nil | exact body_singleton (.plain rfl)

theorem body_readWord (w rest : List Char) (line n : Nat) :
    ∀ x ∈ (readWord d w rest line n st).drafts, Body st.registry x := by
  unfold readWord
  split
  · split
    · exact body_singleton (.plain rfl)
    · exact body_readPlain w line
  split
  · exact body_singleton (.plain rfl)
  split
  · exact body_readDirective w rest line n
  · exact body_readPlain w line

theorem body_readBlanks (blanks : List Char) (last : Nat) :
    ∀ x ∈ (readBlanks d blanks last st).2, Body st.registry x := by
  unfold readBlanks
  split
  · exact body_singleton .close
  split
  · exact body_nil
  · exact body_singleton .space

/-- **The words of a block.**  They are drafted as a body. -/
theorem body_readWords (d : DocBlock) (s : List Char) (line last n : Nat) (st : State) :
    ∀ x ∈ (readWords d s line last n st).2, Body st.registry x := by
  induction hlen : s.length using Nat.strongRecOn generalizing s line last n st with
  | ind k ih =>
      have hblanks : ∀ x ∈ (readBlanks d (s.takeWhile isBlank) last st).2, Body st.registry x :=
        body_readBlanks (s.takeWhile isBlank) last
      have hsame := (notes_readBlanks (d := d) (s.takeWhile isBlank) last st).material
      unfold readWords
      dsimp only
      split
      · exact body_append hblanks (body_singleton .close)
      · rename_i c behind hbehind
        have hrest (taken line last n : Nat) (st : State) :=
          ih _ (hlen ▸ length_behind_word hbehind taken) _ line last n st rfl
        refine body_append (body_append hblanks fun x hx => ?_) fun x hx => ?_
        · exact (body_readWord _ _ _ _ x hx).of_material hsame
        · exact (hrest _ _ _ _ _ x hx).of_material ((notes_readWord _ _ _ _ _).material.trans hsame)

theorem body_conclusion (d : DocBlock) (st : State) :
    ∀ x ∈ (conclusion d st).2, Body st.registry x := by
  unfold conclusion
  split
  · simp only [concludeFunction]
    split
    · exact body_nil
    · rename_i base hbase
      exact body_cons (body_text _ _) (body_cons
        (.functionLink _ (speaksOfFunction_of_overridden hbase)) (body_singleton .close))
  · exact body_nil
  · exact body_nil

/-! ## Headlines -/

section Preamble

variable (reg : Registry)

theorem body_signaturePiece (within : ClassId) (s : String) :
    Body reg (signaturePiece reg within s) := by
  unfold signaturePiece
  split
  · rename_i c hc
    split
    · exact body_text reg s
    · exact .classLink s (.inl (hasClass_of_firstClass? hc))
  · exact body_text reg s

theorem body_parameterDrafts (within : ClassId) (parameters : String) :
    ∀ x ∈ parameterDrafts reg within parameters, Body reg x := by
  unfold parameterDrafts
  split
  · exact body_singleton (body_text reg parameters)
  split
  · exact body_nil
  · rename_i first others _
    refine body_cons (body_signaturePiece reg within _) fun x hx => ?_
    obtain ⟨p, _, hx⟩ := List.mem_flatMap.mp hx
    exact body_cons .space (body_singleton (body_signaturePiece reg within _)) x hx

theorem body_childDrafts {children : List ClassId} (h : ∀ c ∈ children, reg.SpeaksOfClass c) :
    ∀ x ∈ childDrafts (children.map fun c => (reg.getClass c).name), Body reg x := by
  induction children with
  | nil => exact body_nil
  | cons c rest ih =>
      have hc : ∀ text, Body reg (.content (.classLink text (reg.getClass c).name)) :=
        fun text => .classLink text (h c List.mem_cons_self)
      have hrest := ih fun e he => h e (List.mem_cons_of_mem c he)
      cases rest with
      | nil => exact body_singleton (hc _)
      | cons e rest => exact body_cons (hc _) (body_cons .space hrest)

theorem body_functionPreamble (f : FunctionId) :
    ∃ body, functionPreamble reg f = .headline (reg.headline (.function f)) :: body ∧
      ∀ x ∈ body, Body reg x := by
  refine ⟨_, rfl, ?_⟩
  have hconst : ∀ x ∈ (if (reg.function f).isConst then [Draft.text " const"] else []),
      Body reg x := by
    split
    · exact body_singleton (body_text reg _)
    · exact body_nil
  refine body_append (body_append (body_append ?_ ?_) hconst) (body_singleton .close)
  · exact body_cons (body_signaturePiece reg _ _) (body_cons (body_text reg _)
      (body_singleton (body_text reg _)))
  · exact body_parameterDrafts reg _ _

theorem body_classPreamble (c : ClassId) :
    ∃ body, classPreamble reg c = .headline (reg.headline (.classPage c)) :: body ∧
      ∀ x ∈ body, Body reg x := by
  refine ⟨_, rfl, ?_⟩
  refine body_append (body_append (body_append ?_ ?_) ?_) (body_singleton .close)
  · exact body_cons (body_text reg _) (body_cons (body_text reg _) (body_cons (body_text reg _)
      (body_singleton .close)))
  · split
    · exact body_nil
    · rename_i p hp
      exact body_cons (body_text reg _) (body_singleton (.classLink _ (.inr ⟨c, .inl hp⟩)))
  · split
    · exact body_nil
    · have hchildren : ∀ e ∈ (reg.getClass c).children, reg.SpeaksOfClass e :=
        fun e he => .inr ⟨c, .inr he⟩
      exact body_cons .space (body_cons (body_text reg _) (body_childDrafts reg hchildren))

/-- A preamble is the headline of the subject and a body. -/
theorem preamble_eq (s : Subject) :
    ∃ body, preamble reg s = .headline (reg.headline s) :: body ∧ ∀ x ∈ body, Body reg x := by
  cases s with
  | function f => exact body_functionPreamble reg f
  | classPage c => exact body_classPreamble reg c
  | chapter ch => exact ⟨[], rfl, body_nil⟩

/-- **One block.**  It is drafted as the headline of its subject and a body. -/
theorem interpret_eq {id : DocId} (h : (reg.doc id).isInternal = false) :
    ∃ body, (interpret reg id).2 = .headline (reg.headline (reg.doc id).subject) :: body ∧
      ∀ x ∈ body, Body reg x := by
  obtain ⟨tail, htail, hbody⟩ := preamble_eq reg (reg.doc id).subject
  have hchecked := (notes_checkMembers (reg.doc id) reg).material
  have hwords := body_readWords (reg.doc id) (reg.doc id).text.toList (reg.doc id).textLine
    (reg.doc id).textLine 0 (.start (checkMembers (reg.doc id) reg))
  have hread := (notes_readWords (reg.doc id) (reg.doc id).text.toList (reg.doc id).textLine
    (reg.doc id).textLine 0 (.start (checkMembers (reg.doc id) reg))).material.trans hchecked
  simp only [interpret, h, htail]
  refine ⟨_, rfl, body_append (body_append hbody fun x hx => ?_) fun x hx => ?_⟩
  · exact (hwords x hx).of_material hchecked
  · exact (body_conclusion _ _ x hx).of_material hread

theorem interpret_internal {id : DocId} (h : (reg.doc id).isInternal = true) :
    interpret reg id = (reg, []) := by
  simp [interpret, h]

/-- **Headlines.**  A block has one, unless it is internal. -/
theorem headlines_interpret (id : DocId) :
    Draft.headlines (interpret reg id).2 =
      if (reg.doc id).isInternal then [] else [reg.headline (reg.doc id).subject] := by
  cases h : (reg.doc id).isInternal with
  | true => simp [interpret_internal reg h]
  | false =>
      obtain ⟨body, hdraft, hbody⟩ := interpret_eq reg h
      have hnone := headlines_of_body hbody
      rw [hdraft]
      unfold Draft.headlines at hnone ⊢
      rw [List.filterMap_cons, hnone]
      rfl

end Preamble

end Markup

end CppDoc
