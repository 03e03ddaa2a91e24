import CppDoc.Proofs.Lists
import CppDoc.Proofs.Registry.Overload

/-!
# Declarations merge

Functions are declared any number of times, in any order, and each time with other names for their
parameters.  Declarations with the same name, signature and constness are about one function, and no
others are.  What is kept of them is the latest list of parameters, the first return type that is
given, and the first place.

* `Prototype`: one declaration, and `enterAll`: many of them, one after the other;
* `SumsUp`: what a function keeps of its declarations;
* `Merges.enter` for one more declaration, and `Merges.enterAll` for a whole run;
* `declarations_merge`: what becomes of the declarations of a project.
-/

namespace CppDoc

open CppDoc.Syntax

/-- What a declaration says of a function. -/
structure Prototype where
  returnType : String
  name : String
  parameters : String
  isConst : Bool
  origin : Location
  deriving DecidableEq, Repr

/-- What functions are told apart by: a name, a signature and a constness. -/
abbrev Key := String × String × Bool

def Prototype.key (p : Prototype) : Key :=
  (p.name, typesOnly p.parameters, p.isConst)

def Function.key (f : Function) : Key :=
  (f.name, f.signature, f.isConst)

@[simp] theorem Function.key_redeclared (f : Function) (returnType parameters : String) :
    (f.redeclared returnType parameters).key = f.key := rfl

/-- The declarations of one function, in their order. -/
def about (k : Key) (ps : List Prototype) : List Prototype :=
  ps.filter (·.key = k)

/-- What a function keeps of its declarations: the last parameters, the first return type that is
not empty, and the first place. -/
structure SumsUp (ps : List Prototype) (f : Function) : Prop where
  parameters : (about f.key ps).getLast?.map Prototype.parameters = some f.parameters
  returnType : (((about f.key ps).map Prototype.returnType).find? fun t => !t.isEmpty).getD "" =
    f.returnType
  origin : (about f.key ps).head?.map Prototype.origin = some f.origin

/-! ## One more declaration of a function -/

section SumsUp

variable {ps : List Prototype} {p : Prototype} {f : Function}

theorem about_concat_same (h : p.key = f.key) : about f.key (ps ++ [p]) = about f.key ps ++ [p] := by
  simp [about, h]

theorem about_concat_other (h : p.key ≠ f.key) : about f.key (ps ++ [p]) = about f.key ps := by
  simp [about, h]

/-- A single return type is kept, empty or not. -/
theorem find?_returnType (t : String) : (([t].find? fun t => !t.isEmpty).getD "") = t := by
  by_cases ht : t.isEmpty = true
  · obtain rfl := String.isEmpty_iff.mp ht
    rfl
  · simp [ht]

/-- Declarations of other functions do not matter. -/
theorem SumsUp.other (hf : SumsUp ps f) (h : p.key ≠ f.key) : SumsUp (ps ++ [p]) f := by
  constructor <;> rw [about_concat_other h]
  · exact hf.parameters
  · exact hf.returnType
  · exact hf.origin

/-- One more declaration of the function. -/
theorem SumsUp.redeclared (hf : SumsUp ps f) (h : p.key = f.key) :
    SumsUp (ps ++ [p]) (f.redeclared p.returnType p.parameters) where
  parameters := by
    rw [f.key_redeclared, about_concat_same h, List.getLast?_concat]
    rfl
  returnType := by
    have hfirst := hf.returnType
    rw [f.key_redeclared, about_concat_same h, List.map_append, List.find?_append]
    cases hfind : ((about f.key ps).map Prototype.returnType).find? fun t => !t.isEmpty with
    | some t =>
        rw [hfind, Option.getD_some] at hfirst
        have hsome : t.isEmpty = false := by simpa using List.find?_some hfind
        simp [Function.redeclared, ← hfirst, hsome]
    | none =>
        rw [hfind, Option.getD_none] at hfirst
        rw [Option.none_or, List.map_singleton, find?_returnType]
        simp [Function.redeclared, ← hfirst]
  origin := by
    have hfirst := hf.origin
    rw [f.key_redeclared, about_concat_same h, List.head?_append]
    cases hhead : (about f.key ps).head? with
    | some q =>
        rw [hhead] at hfirst
        exact hfirst
    | none =>
        rw [hhead] at hfirst
        exact nomatch hfirst

/-- The first declaration of a function. -/
theorem SumsUp.first (hkey : p.key = f.key) (hnew : p.key ∉ ps.map Prototype.key)
    (hparameters : f.parameters = p.parameters) (hreturns : f.returnType = p.returnType)
    (horigin : f.origin = p.origin) : SumsUp (ps ++ [p]) f := by
  have hnone : about f.key ps = [] := by
    apply List.filter_eq_nil_iff.mpr
    intro q hq hsame
    exact hnew (List.mem_map.mpr ⟨q, hq, (of_decide_eq_true hsame).trans hkey.symm⟩)
  have hone : about f.key (ps ++ [p]) = [p] := by rw [about_concat_same hkey, hnone, List.nil_append]
  constructor <;> rw [hone]
  · rw [hparameters]
    rfl
  · rw [hreturns]
    exact find?_returnType p.returnType
  · rw [horigin]
    rfl

end SumsUp

/-! ## One more declaration in a registry -/

namespace Registry

/-- The functions of a registry, by what they are told apart by. -/
def keys (reg : Registry) : List Key :=
  reg.functions.map Function.key

/-- Enters one declaration. -/
def enter (reg : Registry) (p : Prototype) : Option FunctionId × Registry :=
  reg.declare p.returnType p.name p.parameters p.isConst p.origin

/-- The functions of a registry are those of the declarations `ps`. -/
structure Merges (ps : List Prototype) (reg : Registry) : Prop where
  keys : reg.keys = (ps.map Prototype.key).eraseDups
  distinct : reg.keys.Nodup
  sums : ∀ f ∈ reg.functions, SumsUp ps f

theorem merges_empty : Merges [] empty := by
  constructor <;> simp [Registry.keys, empty]

variable {reg : Registry} {ps : List Prototype} {p : Prototype}

theorem Merges.mem_keys (h : Merges ps reg) {k : Key} :
    k ∈ reg.keys ↔ k ∈ ps.map Prototype.key := by
  rw [h.keys, List.mem_eraseDups]

/-- A function that is found has the key that was asked for. -/
theorem key_of_findOverload? {f : FunctionId}
    (h : reg.findOverload? p.name p.parameters p.isConst = some f) :
    ∃ g, reg.functions[f.index]? = some g ∧ g.key = p.key := by
  obtain ⟨g, hg, hname, hsignature, hconst⟩ := function_of_findOverload? h
  exact ⟨g, hg, by simp [Function.key, Prototype.key, hname, hsignature, hconst]⟩

/-- Where no function is found, none has the key. -/
theorem not_mem_keys_of_findOverload? (h : reg.findOverload? p.name p.parameters p.isConst = none) :
    p.key ∉ reg.keys := by
  intro hmem
  obtain ⟨g, hg, hkey⟩ := List.mem_map.mp hmem
  have hno := List.findIdx?_eq_none_iff.mp (Option.map_eq_none_iff.mp h) g hg
  simp only [Function.key, Prototype.key, Prod.mk.injEq] at hkey
  simp [hkey] at hno

/-- A function that is declared again keeps its key. -/
theorem keys_redeclared (reg : Registry) (f : FunctionId) (returnType parameters : String) :
    (reg.editFunction f (·.redeclared returnType parameters)).keys = reg.keys := by
  apply List.ext_getElem?
  intro i
  by_cases hi : f.index = i <;> simp [Registry.keys, editFunction, hi, Function.comp_def]

/-- What a declaration is about is known under its key from then on. -/
structure Enters (reg : Registry) (p : Prototype) (f : FunctionId) (reg' : Registry) : Prop where
  key : reg'.keys[f.index]? = some p.key
  others : reg.keys <+: reg'.keys

/-- A function that is declared again takes the declaration over. -/
theorem Merges.enter_found (h : Merges ps reg) {f : FunctionId}
    (hfind : reg.findOverload? p.name p.parameters p.isConst = some f) :
    (reg.enter p).1 = some f ∧ Enters reg p f (reg.enter p).2 ∧
      Merges (ps ++ [p]) (reg.enter p).2 := by
  obtain ⟨g, hg, hkey⟩ := key_of_findOverload? hfind
  have hknown : reg.keys[f.index]? = some p.key := by simp [Registry.keys, hg, hkey]
  have hsame := keys_redeclared reg f p.returnType p.parameters
  rw [Registry.enter, declare_of_found hfind]
  refine ⟨rfl, ⟨hsame ▸ hknown, hsame ▸ List.prefix_rfl⟩, ?_, hsame ▸ h.distinct, ?_⟩
  · have hmem := h.mem_keys.mp (List.mem_of_getElem? hknown)
    rw [hsame, h.keys, List.map_append]
    exact (eraseDups_concat_of_mem hmem).symm
  · -- The key tells the function from all others.
    intro g' hg'
    obtain ⟨i, hi⟩ := List.mem_iff_getElem?.mp hg'
    obtain ⟨e, he, rfl⟩ := getElem?_modify_eq_some hi
    have hsums := h.sums e (List.mem_of_getElem? he)
    by_cases hi : f.index = i
    · subst hi
      obtain rfl := Option.some.inj (hg.symm.trans he)
      rw [if_pos rfl]
      exact hsums.redeclared hkey.symm
    · rw [if_neg hi]
      refine hsums.other fun hsame => hi ?_
      have hthere : reg.keys[i]? = some p.key := by simp [Registry.keys, he, hsame]
      exact (List.getElem?_inj (List.getElem?_eq_some_iff.mp hknown).1 h.distinct).mp
        (hknown.trans hthere.symm)

/-- A function that has not been declared before is added behind the others. -/
theorem Merges.enter_new (h : Merges ps reg) {owner : String} (howner : ownerPart? p.name = some owner)
    (hfind : reg.findOverload? p.name p.parameters p.isConst = none) :
    (reg.enter p).1 = some ⟨reg.functions.length⟩ ∧
      Enters reg p ⟨reg.functions.length⟩ (reg.enter p).2 ∧
        Merges (ps ++ [p]) (reg.enter p).2 := by
  have hadded := functions_addFunction howner reg p.returnType p.parameters p.isConst p.origin
  have hnew := not_mem_keys_of_findOverload? hfind
  have hkeys : (reg.enter p).2.keys = reg.keys ++ [p.key] := by
    simp only [Registry.enter, declare, hfind, Registry.keys, hadded.2, List.map_append]
    rfl
  have hid : (reg.enter p).1 = some ⟨reg.functions.length⟩ := by
    simp only [Registry.enter, declare, hfind, hadded.1]
  refine ⟨hid, ⟨?_, hkeys ▸ List.prefix_append _ _⟩, ?_, ?_, ?_⟩
  · rw [hkeys]
    simp [Registry.keys]
  · rw [hkeys, h.keys, List.map_append]
    exact (eraseDups_concat_of_not_mem fun hmem => hnew (h.mem_keys.mpr hmem)).symm
  · rw [hkeys]
    refine List.nodup_append.mpr ⟨h.distinct, by simp, ?_⟩
    intro a ha b hb hab
    obtain rfl := List.mem_singleton.mp hb
    exact hnew (hab ▸ ha)
  · intro g hg
    simp only [Registry.enter, declare, hfind, hadded.2] at hg
    rcases List.mem_append.mp hg with hg | hg
    · exact (h.sums g hg).other fun hsame => hnew (List.mem_map.mpr ⟨g, hg, hsame.symm⟩)
    · obtain rfl := List.mem_singleton.mp hg
      exact .first rfl (fun hmem => hnew (h.mem_keys.mpr hmem)) rfl rfl rfl

/-- **One declaration** is merged with those before it. -/
theorem Merges.enter (h : Merges ps reg) (hname : (ownerPart? p.name).isSome) :
    ∃ f, (reg.enter p).1 = some f ∧ Enters reg p f (reg.enter p).2 ∧
      Merges (ps ++ [p]) (reg.enter p).2 := by
  obtain ⟨owner, howner⟩ := Option.isSome_iff_exists.mp hname
  cases hfind : reg.findOverload? p.name p.parameters p.isConst with
  | some f => exact ⟨f, h.enter_found hfind⟩
  | none => exact ⟨⟨reg.functions.length⟩, h.enter_new howner hfind⟩

/-! ## A run of declarations -/

/-- Enters declarations one after the other, and lists what they are about. -/
def enterAll (reg : Registry) : List Prototype → List (Option FunctionId) × Registry
  | [] => ([], reg)
  | p :: ps =>
    let (f, reg) := reg.enter p
    let (fs, reg) := reg.enterAll ps
    (f :: fs, reg)

/-- **A run** of declarations is merged with those before it, and each of them stays about what it
was about. -/
theorem Merges.enterAll {before : List Prototype} (h : Merges before reg)
    (hnames : ∀ p ∈ ps, (ownerPart? p.name).isSome) :
    Merges (before ++ ps) (reg.enterAll ps).2 ∧ reg.keys <+: (reg.enterAll ps).2.keys ∧
      ∀ (i : Nat) (p : Prototype), ps[i]? = some p → ∃ f : FunctionId,
        (reg.enterAll ps).1[i]? = some (some f) ∧
        (reg.enterAll ps).2.keys[f.index]? = some p.key := by
  induction ps generalizing before reg with
  | nil => exact ⟨by rwa [List.append_nil], List.prefix_rfl, fun i p hp => nomatch hp⟩
  | cons p ps ih =>
      obtain ⟨f, hf, hentered, hstep⟩ := h.enter (hnames p List.mem_cons_self)
      obtain ⟨hmerges, hkept, habout⟩ := ih hstep fun q hq => hnames q (List.mem_cons_of_mem p hq)
      rw [List.append_assoc, List.singleton_append] at hmerges
      refine ⟨hmerges, hentered.others.trans hkept, fun i q hq => ?_⟩
      cases i with
      | zero =>
          obtain rfl := Option.some.inj hq
          obtain ⟨later, hlater⟩ := hkept
          have hkey : ((reg.enter p).2.keys ++ later)[f.index]? = some p.key := by
            rw [List.getElem?_append_left (List.getElem?_eq_some_iff.mp hentered.key).1, hentered.key]
          exact ⟨f, congrArg some hf, hlater ▸ hkey⟩
      | succ i => exact habout i q hq

/-- **Declarations merge.**  In a run of declarations of members, two are about one function just if
they have the same name, signature and constness.  There are no other functions, and each keeps what
its declarations sum up to. -/
theorem declarations_merge {ps : List Prototype}
    (hnames : ∀ p ∈ ps, (ownerPart? p.name).isSome) :
    (∀ (i : Nat) (p : Prototype), ps[i]? = some p → ∃ f : FunctionId,
        (empty.enterAll ps).1[i]? = some (some f) ∧
        ∃ g, (empty.enterAll ps).2.functions[f.index]? = some g ∧ g.key = p.key) ∧
      (∀ (i j : Nat) (p q : Prototype), ps[i]? = some p → ps[j]? = some q →
        ((empty.enterAll ps).1[i]? = (empty.enterAll ps).1[j]? ↔ p.key = q.key)) ∧
      (empty.enterAll ps).2.functions.length = (ps.map Prototype.key).eraseDups.length ∧
      ∀ f ∈ (empty.enterAll ps).2.functions, SumsUp ps f := by
  obtain ⟨hmerges, -, habout⟩ := merges_empty.enterAll hnames
  rw [List.nil_append] at hmerges
  refine ⟨fun i p hp => ?_, fun i j p q hp hq => ?_, ?_, hmerges.sums⟩
  · obtain ⟨f, hf, hkey⟩ := habout i p hp
    rw [keys, List.getElem?_map, Option.map_eq_some_iff] at hkey
    exact ⟨f, hf, hkey⟩
  · obtain ⟨f, hf, hkey⟩ := habout i p hp
    obtain ⟨f', hf', hkey'⟩ := habout j q hq
    rw [hf, hf']
    constructor
    · intro heq
      obtain rfl : f = f' := Option.some.inj (Option.some.inj heq)
      exact Option.some.inj (hkey.symm.trans hkey')
    · intro heq
      have hindex := (List.getElem?_inj (List.getElem?_eq_some_iff.mp hkey).1 hmerges.distinct).mp
        (hkey.trans (heq ▸ hkey'.symm))
      exact congrArg (fun n => some (some (FunctionId.mk n))) hindex
  · have hlength := congrArg List.length hmerges.keys
    rwa [keys, List.length_map] at hlength

private def barPrototypes : List Prototype :=
  [⟨"", "Foo::bar", "(int a)", false, ⟨⟨0⟩, 1⟩⟩, ⟨"int", "Foo::bar", "(int)", true, ⟨⟨0⟩, 2⟩⟩,
    ⟨"int", "Foo::bar", "(int b)", false, ⟨⟨0⟩, 3⟩⟩]

/-- Three declarations of two functions. -/
theorem declarations_merge_bar :
    (empty.enterAll barPrototypes).1[0]? = (empty.enterAll barPrototypes).1[2]? ∧
      (empty.enterAll barPrototypes).1[0]? ≠ (empty.enterAll barPrototypes).1[1]? ∧
      (empty.enterAll barPrototypes).2.functions.length = 2 := by
  have hnames : ∀ p ∈ barPrototypes, (ownerPart? p.name).isSome = true :=
    List.forall_mem_cons.mpr ⟨by decide +kernel, List.forall_mem_cons.mpr ⟨by decide +kernel,
      List.forall_mem_cons.mpr ⟨by decide +kernel, fun _ h => nomatch h⟩⟩⟩
  obtain ⟨-, hsame, hlength, -⟩ := declarations_merge hnames
  refine ⟨(hsame 0 2 _ _ rfl rfl).mpr (by decide +kernel), fun heq => ?_, ?_⟩
  · exact absurd ((hsame 0 1 _ _ rfl rfl).mp heq) (by decide +kernel)
  · rw [hlength]
    decide +kernel

end Registry

end CppDoc
