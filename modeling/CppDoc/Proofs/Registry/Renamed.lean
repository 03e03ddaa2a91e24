import CppDoc.Proofs.Registry.Overload
import CppDoc.Proofs.Syntax.LaidParameters

/-!
# Functions with other parameter names

The names of parameters are no part of a signature.  Two parameter lists with the same types, whatever
the names, the default values and the brackets behind them, have the same signature, and so a
declaration with the one list is about the function that was declared with the other.

A type has a name besides its modifiers.  Where there are modifiers only, as in `(unsigned n)`, the
scanner takes the name of the parameter for that of the type.

* `typesOnly_renamed`: the signatures, and `typesOnly_modifier` where there is a modifier only;
* `declare_renamed`: the function that is declared, and the names of the parameters.
-/

namespace CppDoc.Syntax

open CppDoc.Text

variable {E : Prop}

/-- Lists with the same types have the same written types. -/
theorem written_renamed {ps qs : List (LaidParameter E)} (ho : OrderlyTypes ps)
    (htypes : ps.map LaidParameter.typeWords = qs.map LaidParameter.typeWords) :
    OrderlyTypes qs ∧ ps.map LaidParameter.written = qs.map LaidParameter.written := by
  induction ps generalizing qs with
  | nil =>
      cases qs with
      | nil => exact ⟨nofun, rfl⟩
      | cons q qs => exact nomatch htypes
  | cons p ps ih =>
      cases qs with
      | nil => exact nomatch htypes
      | cons q qs =>
          obtain ⟨hfirst, hrest⟩ := List.cons.inj htypes
          obtain ⟨hwords, hmark⟩ := Prod.mk.inj hfirst
          obtain ⟨horderly, hwritten⟩ := ih (fun r hr => ho r (List.mem_cons_of_mem p hr)) hrest
          have hp := ho p List.mem_cons_self
          have hq : Orderly (words q.type) := hwords ▸ hp
          refine ⟨List.forall_mem_cons.mpr ⟨hq, horderly⟩, ?_⟩
          rw [List.map_cons, List.map_cons, hwritten, p.written_eq hp, q.written_eq hq, writtenType,
            writtenType, hwords, hmark]

/-- **Signatures** do not depend on the names of the parameters. -/
theorem typesOnly_renamed {ps qs : List (LaidParameter E)} (ho : OrderlyTypes ps)
    (htypes : ps.map LaidParameter.typeWords = qs.map LaidParameter.typeWords) :
    typesOnly (laidKept ps) = typesOnly (laidKept qs) := by
  obtain ⟨horderly, hwritten⟩ := written_renamed ho htypes
  cases ps with
  | nil =>
      cases qs with
      | nil => rfl
      | cons q qs => exact nomatch htypes
  | cons p ps =>
      cases qs with
      | nil => exact nomatch htypes
      | cons q qs => rw [typesOnly_laid p ps ho, typesOnly_laid q qs horderly, hwritten]

/-- **A name behind a modifier** alone is part of the signature, and no parameter has it. -/
theorem typesOnly_modifier {m g w : List Char} (hm : m ∈ typeModifiers) (hkey : isRecord m = false)
    (hg : g.all isBlank = true) (hne : g ≠ []) (hw : Identifier w) (hfree : Unmodified w)
    (t : List Char) :
    let kept := String.ofList ('(' :: (joined [m, w] ++ [')']))
    readParameters ('(' :: (m ++ (g ++ w) ++ [')']) ++ t) = (kept, m.length + g.length + w.length + 2) ∧
      typesOnly kept = String.ofList ("( ".toList ++ (joined [m, w] ++ " )".toList)) ∧
      parameterNames kept = [] := by
  have hsolid : ∀ m ∈ typeModifiers, m.all (!isSpace ·) = true ∧ m ≠ [] := by decide
  have hwords : words (m ++ (g ++ w)) = [m, w] := by
    rw [words_append_gap hg hne, words_eq_singleton (.of_all (hsolid m hm).1) (hsolid m hm).2,
      words_eq_singleton hw.solid hw.ne_nil]
    rfl
  have hrecord : isRecord w = false := by
    cases hrecord : isRecord w with
    | false => rfl
    | true =>
        obtain ⟨k, rfl⟩ := isRecord_iff.mp hrecord
        cases k <;> exact absurd (by decide) hfree
  have hname : SpelledName False .word w := .word .none (hw.word False)
  let p : LaidParameter False :=
    { indent := [], type := m ++ (g ++ w), mark := [], space := [], name := [], lead := [],
      ending := .none, blank := ⟨rfl, rfl, rfl⟩,
      spelled := .modifier hm hg (.body (.name hname) hfree) fun hnil => absurd hnil hne,
      marked := .none, named := fun h => absurd rfl h, apart := fun h => absurd rfl h }
  have horderly : OrderlyTypes [p] := by
    refine List.forall_mem_singleton.mpr ?_
    have hall : ∀ v ∈ words p.type, isRecord v = false := by
      rw [hwords]
      simp [hkey, hrecord]
    exact .of_free hall
  have hwritten : p.written = joined [m, w] := by
    have hall : unkeyed [m, w] = [m, w] := unkeyed_eq_self (by simp [hkey, hrecord])
    rw [p.written_eq (horderly p List.mem_cons_self), writtenType, hwords, hall]
    exact List.append_nil _
  have hkept : laidKept [p] = String.ofList ('(' :: (joined [m, w] ++ [')'])) := by
    simp [laidKept, separated, LaidParameter.kept, LaidParameter.nameText, hwritten, p,
      LaidEnding.kept]
  have htext : laidList [p] = '(' :: (m ++ (g ++ w) ++ [')']) := by
    simp [laidList, commas, LaidParameter.text, LaidParameter.front, p, LaidEnding.text]
  have hlead : ([] : List Char).all isBlank = true := rfl
  have hread := (readParameters_laid [p] hlead t).resolve_right fun h => h.1
  have htypes := typesOnly_laid p [] horderly
  have hnames := parameterNames_laid [p] horderly
  rw [List.map_singleton, hwritten] at htypes
  rw [hkept] at hread htypes hnames
  rw [htext] at hread
  refine ⟨hread.trans (Prod.ext rfl ?_), ?_, hnames⟩
  · simp
    omega
  · rw [htypes]
    simp [separated]

/-- So `(unsigned n)` and `(unsigned m)` do not declare the same function. -/
example : typesOnly "(unsigned n)" ≠ typesOnly "(unsigned m)" := by decide +kernel

end CppDoc.Syntax

namespace CppDoc.Registry

open CppDoc.Syntax CppDoc.Text

variable {reg reg' : Registry} {name a b : String} {isConst : Bool} {f : FunctionId}

/-- A function is looked for by the signature of its parameter list. -/
theorem findOverload?_congr (h : typesOnly a = typesOnly b) (reg : Registry) :
    reg.findOverload? name a isConst = reg.findOverload? name b isConst := by
  simp only [findOverload?, h]

/-- **Parameter names do not tell functions apart.**  If two parameter lists are read that have the same
types, they have the same signature; what has been declared with the one is what is declared with the
other from then on; and the names of both are kept. -/
theorem declare_renamed {ps qs : List (LaidParameter True)} {i j s t : List Char} {n m : Nat}
    (hi : i.all isBlank = true) (hj : j.all isBlank = true)
    (hps : readParameters (i ++ (laidList ps ++ s)) = (a, n)) (ha : a ≠ "")
    (hqs : readParameters (j ++ (laidList qs ++ t)) = (b, m)) (hb : b ≠ "")
    (ho : OrderlyTypes ps)
    (htypes : ps.map LaidParameter.typeWords = qs.map LaidParameter.typeWords) :
    typesOnly a = typesOnly b ∧
      parameterNames a = (namesOf ps).map String.ofList ∧
      parameterNames b = (namesOf qs).map String.ofList ∧
      ∀ (reg : Registry) (name owner : String) (isConst : Bool) (type type' : String)
        (origin origin' : Location), ownerPart? name = some owner →
          ∃ f, (reg.declare type name a isConst origin).1 = some f ∧
            ∀ reg', Persists (reg.declare type name a isConst origin).2 reg' →
              (reg'.declare type' name b isConst origin').1 = some f := by
  have hread {rs : List (LaidParameter True)} {l y : List Char} {c : String} {k : Nat}
      (hl : l.all isBlank = true) (hrs : readParameters (l ++ (laidList rs ++ y)) = (c, k))
      (hc : c ≠ "") : laidKept rs = c := by
    rcases readParameters_laid rs hl y with hkept | ⟨-, hrefused⟩
    · exact (congrArg Prod.fst (hkept.symm.trans hrs))
    · rw [hrs] at hrefused
      exact absurd hrefused hc
  obtain rfl := hread hi hps ha
  obtain rfl := hread hj hqs hb
  have hsame := typesOnly_renamed ho htypes
  refine ⟨hsame, parameterNames_laid ps ho, parameterNames_laid qs (written_renamed ho htypes).1, ?_⟩
  intro reg name owner isConst type type' origin origin' hname
  obtain ⟨f, hf, hfound⟩ := findOverload?_declare hname reg type (laidKept ps) isConst origin
  refine ⟨f, hf, fun reg' hpersists => ?_⟩
  have hlater := findOverload?_of_persists hpersists hfound
  rw [findOverload?_congr hsame] at hlater
  rw [declare_of_found hlater]

private theorem word_of {w : List Char} (h : w.head?.any isNameStart = true)
    (hchars : w.all isNameChar = true) : Word True w :=
  ⟨h, hchars, fun _ => trivial⟩

/-- A parameter of the type `Foo`, constant and referred to. -/
private def fooParameter (blanks name : List Char) (hblanks : blanks.all isBlank = true)
    (hname : name ≠ [] → Word True name) : LaidParameter True where
  indent := []
  type := "const".toList ++ ([' '] ++ "Foo".toList)
  mark := blanks ++ ['&']
  space := []
  name := name
  lead := []
  ending := .none
  blank := ⟨rfl, rfl, rfl⟩
  spelled := .modifier (by decide) rfl
    (.body (.name (.word .none (word_of (by decide) (by decide)))) (by unfold Unmodified; decide))
    fun h => nomatch h
  marked := .mark hblanks (.inl rfl)
  named := hname
  apart := fun _ hmark => absurd hmark (by simp)

/-- A number with a default value or without. -/
private def intParameter (space name : List Char) (ending : LaidEnding)
    (hspace : space.all isBlank = true) (hname : name ≠ [] → Word True name ∧ space ≠ []) :
    LaidParameter True where
  indent := [' ']
  type := "int".toList
  mark := []
  space := space
  name := name
  lead := []
  ending := ending
  blank := ⟨rfl, hspace, rfl⟩
  spelled := .body (.name (.word .none (word_of (by decide) (by decide)))) (by unfold Unmodified; decide)
  marked := .none
  named := fun h => (hname h).1
  apart := fun h _ => ⟨by decide, fun hnil => absurd hnil (hname h).2⟩

private def namedFoo : List (LaidParameter True) :=
  [fooParameter [' '] ['a'] rfl fun _ => word_of (by decide) (by decide),
    intParameter [' '] ['b'] (.value ['3'] (by decide)) rfl fun _ =>
      ⟨word_of (by decide) (by decide), by decide⟩]

private def renamedFoo : List (LaidParameter True) :=
  [fooParameter [] ['x'] rfl fun _ => word_of (by decide) (by decide),
    intParameter [] [] .none rfl fun h => absurd rfl h]

/-- A list with two names and a default value, and one with another name and none. -/
theorem declare_renamed_foo :
    typesOnly "(const Foo& a, int b)" = typesOnly "(const Foo& x, int)" ∧
      parameterNames "(const Foo& a, int b)" = ["a", "b"] ∧
      parameterNames "(const Foo& x, int)" = ["x"] ∧
      ∀ (reg : Registry) (name owner : String) (isConst : Bool) (type type' : String)
        (origin origin' : Location), ownerPart? name = some owner →
          ∃ f, (reg.declare type name "(const Foo& a, int b)" isConst origin).1 = some f ∧
            ∀ reg', Persists (reg.declare type name "(const Foo& a, int b)" isConst origin).2 reg' →
              (reg'.declare type' name "(const Foo& x, int)" isConst origin').1 = some f := by
  have hnamed : readParameters ([] ++ (laidList namedFoo ++ [])) = ("(const Foo& a, int b)", 23) := by
    decide +kernel
  have hrenamed : readParameters ([] ++ (laidList renamedFoo ++ [])) = ("(const Foo& x, int)", 18) := by
    decide +kernel
  refine declare_renamed rfl rfl hnamed (by decide) hrenamed (by decide) ?_ (by decide +kernel)
  have hfoo : Orderly ["const".toList, "Foo".toList] := .of_free (by decide)
  have hint : Orderly ["int".toList] := .of_free (by decide)
  exact List.forall_mem_cons.mpr ⟨hfoo, List.forall_mem_singleton.mpr hint⟩

end CppDoc.Registry
