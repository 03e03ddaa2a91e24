import CppDoc.Markup.Reference
import CppDoc.Proofs.Lists
import CppDoc.Proofs.Registry.WellFormed
import CppDoc.Proofs.Syntax.Boundary
import CppDoc.Proofs.Text.Runs

/-!
# Classes that signatures name

A piece of a signature is linked to the first class that is found in it.  What is looked up is, of every
run of letters and digits, the part from its first capital letter on.  An identifier that begins with a
capital letter and has no underscore is looked up as it is written, and one without capital letters is
not looked up.  In others names may hide: a class `Foo` is found in `myFoo` and in `Foo_`, and a class
`Foo_Bar` is never found.

* `firstClass?_eq` and `capitalParts_eq`: what is looked up, run by run and identifier by identifier;
* `NamedIn`: a class that an identifier of the text names;
* `signaturePiece_named`: unless a name hides, the first class that is named is linked, and no other.
-/

namespace CppDoc.Markup

open CppDoc.Registry CppDoc.Syntax CppDoc.Text

/-- The part of a text from its first capital letter on, if it has one. -/
def capitalPart? (w : List Char) : Option (List Char) :=
  match w.dropWhile fun c => !c.isUpper with
  | [] => none
  | c :: rest => some (c :: rest)

/-- What is looked up of a text: of each run of letters and digits, the part from its first capital
letter on. -/
def capitalParts (s : List Char) : List (List Char) :=
  (runsOf Char.isAlphanum s).filterMap capitalPart?

/-- Does a text begin with a capital letter? -/
def isCapitalised (w : List Char) : Bool :=
  w.head?.any Char.isUpper

/-- An identifier in which no name hides: if it has capital letters, it begins with one, and it has no
underscore. -/
def Plain (w : List Char) : Prop :=
  w.any Char.isUpper = true → isCapitalised w = true ∧ '_' ∉ w

instance (w : List Char) : Decidable (Plain w) :=
  inferInstanceAs (Decidable (_ → _))

/-- The class `c` is named by an identifier of the text `s` that begins with a capital letter and stands
between `before` and `after`. -/
structure NamedIn (reg : Registry) (s before : List Char) (c : ClassId) (after : List Char) :
    Prop where
  run : IsRun isNameChar s before (reg.getClass c).name.toList after
  capitalised : isCapitalised (reg.getClass c).name.toList = true
  found : reg.findClass? (reg.getClass c).name = some c

section Parts

variable {c : Char} {w rest : List Char}

/-! ## What is looked up -/

theorem capitalPart?_cons_of_upper (hc : c.isUpper = true) (w : List Char) :
    capitalPart? (c :: w) = some (c :: w) := by
  simp [capitalPart?, hc]

theorem capitalPart?_cons_of_not_upper (hc : c.isUpper = false) (w : List Char) :
    capitalPart? (c :: w) = capitalPart? w := by
  simp [capitalPart?, hc]

theorem capitalPart?_eq_none (hw : w.any Char.isUpper = false) : capitalPart? w = none := by
  induction w with
  | nil => rfl
  | cons c w ih =>
      obtain ⟨hc, hw⟩ := Bool.or_eq_false_iff.mp (List.any_cons ▸ hw)
      rw [capitalPart?_cons_of_not_upper hc, ih hw]

theorem capitalParts_cons_of_upper (hc : c.isUpper = true) (rest : List Char) :
    capitalParts (c :: rest) =
      (c :: rest.takeWhile Char.isAlphanum) :: capitalParts (rest.dropWhile Char.isAlphanum) := by
  rw [capitalParts, runsOf_cons_of_pos (isAlphanum_of_isUpper hc),
    List.filterMap_cons_some (capitalPart?_cons_of_upper hc _)]
  rfl

/-- A character that is no capital letter changes nothing about what is looked up behind it. -/
theorem capitalParts_cons_of_not_upper (hc : c.isUpper = false) (rest : List Char) :
    capitalParts (c :: rest) = capitalParts rest := by
  unfold capitalParts
  cases halnum : c.isAlphanum with
  | false => rw [runsOf_cons_of_neg halnum]
  | true =>
      rw [runsOf_cons_of_pos halnum, List.filterMap_cons, capitalPart?_cons_of_not_upper hc,
        ← List.filterMap_cons]
      -- The run that `c` begins is that at the head of `rest`, if there is one.
      cases rest with
      | nil => simp [capitalPart?]
      | cons d rest =>
          cases hd : d.isAlphanum with
          | true =>
              rw [runsOf_cons_of_pos hd, List.takeWhile_cons_of_pos hd, List.dropWhile_cons_of_pos hd]
          | false =>
              have hnot : ¬ d.isAlphanum = true := by simp [hd]
              rw [List.takeWhile_cons_of_neg hnot, List.dropWhile_cons_of_neg hnot,
                List.filterMap_cons_none rfl]

/-- **What is looked up**, run by run. -/
theorem firstClass?_eq (reg : Registry) (s : List Char) :
    firstClass? reg s = (capitalParts s).findSome? fun w => reg.findClass? (String.ofList w) := by
  induction s using firstClass?.induct reg with
  | case1 => simp [firstClass?, capitalParts]
  | case2 c rest hc id hfound =>
      rw [firstClass?, if_pos hc, hfound, capitalParts_cons_of_upper hc,
        List.findSome?_cons, hfound]
  | case3 c rest hc hnone ih =>
      rw [firstClass?, if_pos hc, hnone, capitalParts_cons_of_upper hc, List.findSome?_cons, hnone,
        ← ih]
  | case4 c rest hc ih =>
      rw [firstClass?, if_neg hc, capitalParts_cons_of_not_upper (by simpa using hc), ih]

/-- **What is looked up**, identifier by identifier. -/
theorem capitalParts_eq (s : List Char) :
    capitalParts s = (runsOf isNameChar s).flatMap capitalParts := by
  rw [capitalParts, runsOf_refine (fun _ => isNameChar_of_isAlphanum) s, List.filterMap_flatMap]
  rfl

/-- A plain identifier is looked up as it is written, or not at all. -/
theorem capitalParts_plain (hne : w ≠ []) (hname : ∀ c ∈ w, isNameChar c = true) (h : Plain w) :
    capitalParts w = if isCapitalised w then [w] else [] := by
  cases hany : w.any Char.isUpper with
  | true =>
      obtain ⟨hcapital, hunder⟩ := h hany
      have hall : ∀ c ∈ w, c.isAlphanum = true := fun c hc => by
        have := hname c hc
        rw [isNameChar, Bool.or_eq_true, beq_iff_eq] at this
        exact this.resolve_right fun heq => hunder (heq ▸ hc)
      obtain ⟨c, rest, rfl⟩ := List.exists_cons_of_ne_nil hne
      rw [if_pos hcapital, capitalParts, runsOf_all hne hall,
        List.filterMap_cons_some (capitalPart?_cons_of_upper hcapital rest), List.filterMap_nil]
  | false =>
      have hnone : isCapitalised w = false := by
        cases w with
        | nil => rfl
        | cons c rest => exact (Bool.or_eq_false_iff.mp (List.any_cons ▸ hany)).1
      rw [if_neg (by simp [hnone]), capitalParts, List.filterMap_eq_nil_iff]
      intro v hv
      obtain ⟨before, after, hrun⟩ := exists_isRun hv
      refine capitalPart?_eq_none ?_
      rw [List.any_eq_false] at hany ⊢
      exact fun c hc => hany c (by rw [hrun.split]; simp [hc])

end Parts

/-! ## Classes that are named -/

section Named

variable {reg : Registry} {s before after w : List Char} {c : ClassId}

theorem name_of_findClass? (h : reg.findClass? (String.ofList w) = some c) :
    (reg.getClass c).name = String.ofList w := by
  obtain ⟨e, he, hname⟩ := getElem?_of_findClass? h
  rw [getClass, List.getD_eq_getElem?_getD, he]
  exact hname

/-- An identifier that is looked up names a class if one is found. -/
theorem namedIn_of_findClass? (hrun : IsRun isNameChar s before w after)
    (hcapital : isCapitalised w = true) (hfound : reg.findClass? (String.ofList w) = some c) :
    NamedIn reg s before c after := by
  have hname := name_of_findClass? hfound
  refine ⟨?_, ?_, by rw [hname, hfound]⟩
  · rwa [hname, String.toList_ofList]
  · rwa [hname, String.toList_ofList]

/-- No name hides in the text: an identifier that is not plain is no name of a class, and no part of it
that is looked up is one. -/
def Unhidden (reg : Registry) (s : List Char) : Prop :=
  ∀ w ∈ runsOf isNameChar s,
    Plain w ∨ ∀ v ∈ w :: capitalParts w, reg.findClass? (String.ofList v) = none

/-- **Identifiers.**  If no name hides, the identifiers that begin with a capital letter are looked up,
and nothing else is found. -/
theorem firstClass?_of_unhidden (h : Unhidden reg s) :
    firstClass? reg s = (runsOf isNameChar s).findSome? fun w =>
      if isCapitalised w then reg.findClass? (String.ofList w) else none := by
  rw [firstClass?_eq, capitalParts_eq]
  refine findSome?_flatMap_eq fun w hw => ?_
  obtain ⟨before, after, hrun⟩ := exists_isRun hw
  rcases h w hw with hplain | hnone
  · rw [capitalParts_plain hrun.ne_nil hrun.all hplain]
    split
    · rw [List.findSome?_cons, List.findSome?_nil]
      cases reg.findClass? (String.ofList w) <;> rfl
    · rfl
  · obtain ⟨hself, hparts⟩ := List.forall_mem_cons.mp hnone
    rw [hself, ite_self]
    exact List.findSome?_eq_none_iff.mpr hparts

/-- The class that is found is named. -/
theorem exists_namedIn (h : Unhidden reg s) (hc : firstClass? reg s = some c) :
    ∃ before after, NamedIn reg s before c after := by
  rw [firstClass?_of_unhidden h] at hc
  obtain ⟨w, hw, hfound⟩ := List.exists_of_findSome?_eq_some hc
  obtain ⟨before, after, hrun⟩ := exists_isRun hw
  split at hfound
  · rename_i hcapital
    exact ⟨before, after, namedIn_of_findClass? hrun hcapital hfound⟩
  · cases hfound

/-- The first class that is named is found. -/
theorem firstClass?_of_namedIn (h : Unhidden reg s) (hc : NamedIn reg s before c after)
    (hfirst : ∀ d front back, ¬ NamedIn reg before front d back) : firstClass? reg s = some c := by
  rw [firstClass?_of_unhidden h, runsOf_eq_of_isRun hc.run, List.findSome?_append]
  have hnone : ((runsOf isNameChar before).findSome? fun w =>
      if isCapitalised w then reg.findClass? (String.ofList w) else none) = none := by
    refine List.findSome?_eq_none_iff.mpr fun w hw => ?_
    obtain ⟨front, back, hrun⟩ := exists_isRun hw
    split
    · rename_i hcapital
      refine Option.eq_none_iff_forall_not_mem.mpr fun d hd => ?_
      exact hfirst d front back (namedIn_of_findClass? hrun hcapital hd)
    · rfl
  rw [hnone, Option.none_or, List.findSome?_cons, if_pos hc.capitalised, String.ofList_toList,
    hc.found]

end Named

/-- **Links of signatures.**  Of a piece of a signature, the parts of its runs of letters and digits from
their first capital letters on are looked up one after another.  If no name hides, the piece is linked
only to a class that one of its identifiers names, and if an identifier that begins with a capital letter
names a class, the first such class is the one that is linked, unless the piece belongs to it. -/
theorem signaturePiece_named (reg : Registry) (within : ClassId) (s : String) :
    (firstClass? reg s.toList =
      (capitalParts s.toList).findSome? fun w => reg.findClass? (String.ofList w)) ∧
    (Unhidden reg s.toList →
      (∀ text name, signaturePiece reg within s = .content (.classLink text name) →
        text = s ∧ ∃ c before after, NamedIn reg s.toList before c after ∧ c ≠ within ∧
          name = (reg.getClass c).name) ∧
      ∀ c before after, NamedIn reg s.toList before c after →
        (∀ d front back, ¬ NamedIn reg before front d back) →
        signaturePiece reg within s =
          if c = within then .text s else .content (.classLink s (reg.getClass c).name)) := by
  refine ⟨firstClass?_eq reg s.toList, fun h => ⟨fun text name hlink => ?_, ?_⟩⟩
  · cases hfound : firstClass? reg s.toList with
    | none =>
        simp only [signaturePiece, hfound] at hlink
        cases hlink
    | some c =>
        simp only [signaturePiece, hfound] at hlink
        by_cases hwithin : c = within
        · rw [if_pos hwithin] at hlink
          cases hlink
        · rw [if_neg hwithin] at hlink
          obtain ⟨rfl, rfl⟩ := Content.classLink.inj (Event.content.inj (Draft.event.inj hlink))
          obtain ⟨before, after, hnamed⟩ := exists_namedIn h hfound
          exact ⟨rfl, c, before, after, hnamed, hwithin, rfl⟩
  · intro c before after hc hfirst
    rw [signaturePiece, firstClass?_of_namedIn h hc hfirst]

/-- The classes `Foo` and `Bar`. -/
def fooBar : Registry :=
  ((Registry.empty.classNamed "Foo").2.classNamed "Bar").2

/-- A class that is named as a template argument, before a name in which no class hides. -/
theorem signaturePiece_named_foo :
    Unhidden fooBar "const List<Foo> myList".toList ∧
      NamedIn fooBar "const List<Foo> myList".toList "const List<".toList ⟨0⟩ "> myList".toList ∧
      (∀ d front back, ¬ NamedIn fooBar "const List<".toList front d back) ∧
      signaturePiece fooBar ⟨1⟩ "const List<Foo> myList" =
        .content (.classLink "const List<Foo> myList" "Foo") := by
  have hunhidden : Unhidden fooBar "const List<Foo> myList".toList := by
    unfold Unhidden
    decide +kernel
  have hnamed : NamedIn fooBar "const List<Foo> myList".toList "const List<".toList ⟨0⟩
      "> myList".toList := by
    refine ⟨⟨by decide +kernel, by decide +kernel, List.all_eq_true.mp (by decide +kernel), ?_, ?_⟩,
      by decide +kernel, by decide +kernel⟩
    · exact fun c hc => Option.some.inj hc ▸ rfl
    · exact fun c hc => Option.some.inj hc ▸ rfl
  have hnone : ∀ d front back, ¬ NamedIn fooBar "const List<".toList front d back := by
    intro d front back hd
    have hruns : runsOf isNameChar "const List<".toList = ["const".toList, "List".toList] := by
      decide +kernel
    have hmem := mem_runsOf_of_isRun hd.run
    rw [hruns, List.mem_cons, List.mem_singleton] at hmem
    rcases hmem with hconst | hlist
    · exact absurd hd.capitalised (by rw [hconst]; decide)
    · have hfound := hd.found
      rw [← String.ofList_toList (s := (fooBar.getClass d).name), hlist] at hfound
      exact absurd hfound (by
        rw [show fooBar.findClass? (String.ofList "List".toList) = none by decide +kernel]
        exact (Option.some_ne_none d).symm)
  refine ⟨hunhidden, hnamed, hnone, ?_⟩
  exact ((signaturePiece_named fooBar ⟨1⟩ "const List<Foo> myList").2 hunhidden).2 ⟨0⟩ _ _ hnamed hnone

/-- A class that hides in an identifier is found, and one with an underscore is not. -/
example :
    firstClass? fooBar "myFoo".toList = some ⟨0⟩ ∧ firstClass? fooBar "Foo_".toList = some ⟨0⟩ ∧
      firstClass? (Registry.empty.classNamed "Foo_Bar").2 "Foo_Bar".toList = none := by
  decide +kernel

end CppDoc.Markup
