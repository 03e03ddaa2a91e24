import CppDoc.Proofs.Syntax.LaidParameters
import CppDoc.Proofs.Syntax.ModifierWords

/-!
# Parameter lists make the round trip

A parameter is given by its parts: the modifiers of its type, a path that may have a template argument
and a further member, a mark, a name, and a default value or brackets, with blanks between them.  A list
of such parameters is read up to the parenthesis that closes it, and it is kept in its canonical form.
The signature of what is kept consists of the types, and its names are those of the parameters.

* `ParameterParts.text` and `ParameterParts.canonical`: a parameter as it is laid out and as it is kept;
* `ParameterParts.laid`: it is a parameter that the readers know;
* `parameters_roundTrip`: a whole list.
-/

namespace CppDoc.Syntax

open CppDoc.Text

/-- A parameter in its parts, with the blanks around them.  Each modifier has the blanks behind it, and
a mark those before it. -/
structure ParameterParts where
  indent : List Char
  modifiers : List (List Char × List Char)
  path : ScopePath
  argument : Option ScopePath
  member : Option { w : List Char // Identifier w }
  mark : Option (List Char × Mark)
  space : List Char
  name : Option { w : List Char // Identifier w }
  lead : List Char
  ending : LaidEnding
  blank : indent.all isBlank = true ∧ space.all isBlank = true ∧ lead.all isBlank = true
  known : ∀ m ∈ modifiers, m.1 ∈ typeModifiers ∧ m.2.all isBlank = true ∧ m.2 ≠ []
  once : (modifiers.map Prod.fst).countP isRecord ≤ 1
  unmodified : Unmodified path.first
  markBlank : ∀ m ∈ mark, m.1.all isBlank = true
  /-- Blanks, a mark or the end of template arguments stand between a type and its name. -/
  apart : name ≠ none → mark = none → space = [] → argument ≠ none ∧ member = none

namespace ParameterParts

variable (p : ParameterParts)

/-- The template argument between its brackets. -/
def argumentText : List Char :=
  (p.argument.map fun a => '<' :: (a.text ++ ['>'])).getD []

/-- The further member behind its `::`. -/
def memberText : List Char :=
  (p.member.map fun m => ':' :: ':' :: m.1).getD []

/-- The name of the type. -/
def stem : List Char :=
  p.path.text ++ (p.argumentText ++ p.memberText)

/-- The type as it is laid out, without its mark. -/
def type : List Char :=
  p.modifiers.flatMap (fun m => m.1 ++ m.2) ++ p.stem

/-- The mark with the blanks before it. -/
def markText : List Char :=
  (p.mark.map fun m => m.1 ++ m.2.text).getD []

/-- The name, empty if there is none. -/
def nameText : List Char :=
  (p.name.map Subtype.val).getD []

/-- The parameter as it is laid out. -/
def text : List Char :=
  p.indent ++ (p.type ++ (p.markText ++ (p.space ++ (p.nameText ++ (p.lead ++ p.ending.text)))))

/-- The type in its canonical form: its modifiers without the keyword of a class, and its name with the
mark, with single spaces between them. -/
def canonicalType : List Char :=
  joined (unkeyed (p.modifiers.map Prod.fst) ++ [p.stem]) ++ (p.mark.map fun m => m.2.text).getD []

/-- The parameter in its canonical form, without a default value. -/
def canonical : List Char :=
  p.canonicalType ++ ((p.name.map fun n => ' ' :: n.1).getD [] ++ p.ending.kept)

/-! ## A type in its parts is a type -/

/-- The name of the type, up to its mark. -/
theorem spelledBody_stem : SpelledBody False p.stem := by
  obtain ⟨k, hk, hpath⟩ := p.path.spelledName
  cases hargument : p.argument with
  | none =>
      cases hmember : p.member with
      | none =>
          have htext : p.stem = p.path.text := by
            simp [stem, argumentText, memberText, hargument, hmember]
          exact htext ▸ .name hpath
      | some m =>
          have hinner : ∀ c ∈ p.path.inner ++ [m.1], Identifier c := by
            intro c hc
            rcases List.mem_append.mp hc with hc | hc
            · exact p.path.identifier_inner c hc
            · exact List.mem_singleton.mp hc ▸ m.2
          obtain ⟨j, -, hname⟩ := spelledName_chain .none p.path.identifier_first hinner
          have htext : p.stem = p.path.first ++ chain (p.path.inner ++ [m.1]) := by
            simp [stem, argumentText, memberText, hargument, hmember, ScopePath.text, chain]
          exact htext ▸ .name hname
  | some a =>
      obtain ⟨j, hj, hinner⟩ := a.spelledName
      have hclosed : SpelledName False .closed (p.path.text ++ ('<' :: (a.text ++ ['>']))) :=
        .closed (g := []) (h := []) hpath hk rfl rfl hinner rfl fun _ => rfl
      cases hmember : p.member with
      | none =>
          have htext : p.stem = p.path.text ++ ('<' :: (a.text ++ ['>'])) := by
            simp [stem, argumentText, memberText, hargument, hmember]
          exact htext ▸ .name hclosed
      | some m =>
          have htext : p.stem =
              (p.path.text ++ ('<' :: (a.text ++ ['>']))) ++ ([] ++ ':' :: ':' :: ([] ++ m.1)) := by
            simp [stem, argumentText, memberText, hargument, hmember]
          exact htext ▸ .member hclosed rfl rfl (m.2.word False) (.inl rfl)

/-- The first identifier decides whether a modifier stands at the front. -/
theorem unmodified_stem : Unmodified p.stem := by
  have hbehind : (chain p.path.inner ++ (p.argumentText ++ p.memberText)).head?.any isNameChar =
      false := by
    apply head?_chain_append
    unfold argumentText memberText
    cases p.argument <;> cases p.member <;> rfl
  have htext : p.stem = p.path.first ++ (chain p.path.inner ++ (p.argumentText ++ p.memberText)) := by
    simp [stem, ScopePath.text]
  rw [htext]
  exact p.unmodified.append hbehind

theorem solid_stem : Solid p.stem := by
  have hargument : Solid p.argumentText := by
    unfold argumentText
    cases p.argument with
    | none => exact nofun
    | some a => exact (a.solid_text.append (.of_all (by decide))).cons rfl
  have hmember : Solid p.memberText := by
    unfold memberText
    cases p.member with
    | none => exact nofun
    | some m => exact (m.2.solid.cons rfl).cons rfl
  exact p.path.solid_text.append (hargument.append hmember)

/-- The modifiers with the blanks behind them. -/
def laidFront : List LaidModifier :=
  p.modifiers.pmap (fun m hm => ⟨m.1, m.2, hm.1, hm.2.1, hm.2.2⟩) p.known

theorem type_eq_laid : p.type = laidModifiers p.laidFront ++ p.stem := by
  simp [type, laidModifiers, laidFront, List.flatMap_def, List.map_pmap, List.pmap_eq_map]

theorem spelled_type : SpelledType False p.type :=
  p.type_eq_laid ▸ (SpelledType.body p.spelledBody_stem p.unmodified_stem).behind_laid p.laidFront

/-- The words of a type are its modifiers and its name. -/
theorem words_type : words p.type = p.modifiers.map Prod.fst ++ [p.stem] := by
  have hwords : p.laidFront.map LaidModifier.word = p.modifiers.map Prod.fst := by
    simp [laidFront, List.map_pmap, List.pmap_eq_map]
  rw [type_eq_laid, words_laid, hwords, words_eq_singleton p.solid_stem p.spelledBody_stem.ne_nil]

theorem isRecord_stem : isRecord p.stem = false :=
  isRecord_eq_false p.unmodified_stem.not_mem

/-- What is kept of the type. -/
theorem writtenType_eq : writtenType p.type p.markText = p.canonicalType := by
  have hstem : unkeyed [p.stem] = [p.stem] := unkeyed_eq_self (by simpa using p.isRecord_stem)
  have hmark : spaceless p.markText = (p.mark.map fun m => m.2.text).getD [] := by
    unfold markText
    cases hm : p.mark with
    | none => rfl
    | some m =>
        have hblank := p.markBlank m hm
        obtain ⟨b, mark⟩ := m
        cases mark with
        | reference => exact spaceless_mark hblank (.inl rfl)
        | pointer => exact spaceless_mark hblank (.inr rfl)
  rw [writtenType, p.words_type, unkeyed_append, hstem, hmark]
  rfl

/-- A type ends in a letter or in its template argument. -/
theorem getLast?_type :
    p.type.getLast? ≠ some '~' ∧
      (p.argument ≠ none ∧ p.member = none → p.type.getLast? = some '>') := by
  have hletter {o : Option Char} (h : o.any isNameChar = true) : o ≠ some '~' := by
    rintro rfl
    exact nomatch h
  rw [type, getLast?_append_right p.spelledBody_stem.ne_nil]
  cases hmember : p.member with
  | some m =>
      have htext : p.stem = (p.path.text ++ (p.argumentText ++ [':', ':'])) ++ m.1 := by
        simp [stem, memberText, hmember]
      rw [htext, getLast?_append_right m.2.ne_nil]
      exact ⟨hletter (m.2.word False).getLast?, fun h => nomatch h.2⟩
  | none =>
      cases hargument : p.argument with
      | none =>
          have htext : p.stem = p.path.text := by
            simp [stem, argumentText, memberText, hargument, hmember]
          rw [htext]
          exact ⟨hletter p.path.getLast?_text, fun h => absurd rfl h.1⟩
      | some a =>
          have htext : p.stem = (p.path.text ++ '<' :: a.text) ++ ['>'] := by
            simp [stem, argumentText, memberText, hargument, hmember]
          rw [htext, getLast?_append_right (List.cons_ne_nil _ _)]
          exact ⟨by decide, fun _ => rfl⟩

/-- **A parameter in its parts** is one that the readers know. -/
def laid : LaidParameter False where
  indent := p.indent
  type := p.type
  mark := p.markText
  space := p.space
  name := p.nameText
  lead := p.lead
  ending := p.ending
  blank := p.blank
  spelled := p.spelled_type
  marked := by
    unfold markText
    cases hm : p.mark with
    | none => exact .none
    | some m =>
        have hblank := p.markBlank m hm
        obtain ⟨b, mark⟩ := m
        cases mark with
        | reference => exact .mark hblank (.inl rfl)
        | pointer => exact .mark hblank (.inr rfl)
  named := by
    unfold nameText
    cases p.name with
    | none => exact fun h => absurd rfl h
    | some n => exact fun _ => n.2.word False
  apart := by
    intro hname hmark
    have hnamed : p.name ≠ none := by
      intro hnone
      simp [nameText, hnone] at hname
    have hunmarked : p.mark = none := by
      cases hm : p.mark with
      | none => rfl
      | some m =>
          obtain ⟨b, mark⟩ := m
          cases mark <;> simp [markText, hm, Mark.text] at hmark
    exact ⟨p.getLast?_type.1, fun hspace => p.getLast?_type.2 (p.apart hnamed hunmarked hspace)⟩

theorem text_laid : p.laid.text = p.text := by
  simp [LaidParameter.text, LaidParameter.front, laid, text]

theorem orderly_laid : Orderly (words p.laid.type) := by
  refine ⟨p.modifiers.map Prod.fst, [p.stem], p.words_type, ?_, by simpa using p.isRecord_stem,
    p.once⟩
  intro m hm
  obtain ⟨n, hn, rfl⟩ := List.mem_map.mp hm
  exact (p.known n hn).1

theorem written_laid : p.laid.written = p.canonicalType :=
  (p.laid.written_eq p.orderly_laid).trans p.writtenType_eq

theorem kept_laid : p.laid.kept = p.canonical := by
  have hname : p.laid.nameText = (p.name.map fun n => ' ' :: n.1).getD [] := by
    have hsame : p.laid.name = p.nameText := rfl
    rw [LaidParameter.nameText, hsame, nameText]
    cases p.name with
    | none => rfl
    | some n => simp [n.2.ne_nil]
  rw [LaidParameter.kept, written_laid, hname]
  rfl

end ParameterParts

/-- The names that are given. -/
theorem namesOf_laid (ps : List ParameterParts) :
    namesOf (ps.map ParameterParts.laid) = ps.filterMap fun p => p.name.map Subtype.val := by
  induction ps with
  | nil => rfl
  | cons p ps ih =>
      have hname : p.laid.name = p.nameText := rfl
      rw [List.map_cons, namesOf_cons, ih, hname, ParameterParts.nameText]
      cases hn : p.name with
      | none => simp [hn]
      | some n => simp [hn, n.2.ne_nil]

/-- **Parameter lists make the round trip.**  A list of parameters is read up to the parenthesis that
closes it and is kept in its canonical form; the types and the names are read off that again. -/
theorem parameters_roundTrip (p : ParameterParts) (ps : List ParameterParts) {lead : List Char}
    (hlead : lead.all isBlank = true) (t : List Char) :
    let printed := '(' :: (commas ((p :: ps).map ParameterParts.text) ++ [')'])
    let kept := String.ofList ('(' :: (separated ((p :: ps).map ParameterParts.canonical) ++ [')']))
    readParameters (lead ++ (printed ++ t)) = (kept, (lead ++ printed).length) ∧
      typesOnly kept = String.ofList
        ("( ".toList ++ (separated ((p :: ps).map ParameterParts.canonicalType) ++ " )".toList)) ∧
      parameterNames kept =
        (p :: ps).filterMap fun p => p.name.map fun n => String.ofList n.1 := by
  have htexts : (p :: ps).map ParameterParts.text =
      ((p :: ps).map ParameterParts.laid).map LaidParameter.text := by
    simp [Function.comp_def, ParameterParts.text_laid]
  have hkept : (p :: ps).map ParameterParts.canonical =
      ((p :: ps).map ParameterParts.laid).map LaidParameter.kept := by
    simp [Function.comp_def, ParameterParts.kept_laid]
  have htypes : (p :: ps).map ParameterParts.canonicalType =
      ((p :: ps).map ParameterParts.laid).map LaidParameter.written := by
    simp [Function.comp_def, ParameterParts.written_laid]
  have horderly : OrderlyTypes ((p :: ps).map ParameterParts.laid) := by
    intro q hq
    obtain ⟨r, -, rfl⟩ := List.mem_map.mp hq
    exact r.orderly_laid
  have hread := (readParameters_laid ((p :: ps).map ParameterParts.laid) hlead t).resolve_right
    fun h => h.1
  have hsignature := typesOnly_laid p.laid (ps.map ParameterParts.laid) horderly
  have hnames := parameterNames_laid ((p :: ps).map ParameterParts.laid) horderly
  rw [namesOf_laid, List.map_filterMap] at hnames
  dsimp only
  rw [htexts, hkept, htypes, List.length_append]
  refine ⟨hread, hsignature, hnames.trans ?_⟩
  congr 1
  funext q
  cases q.name <;> rfl

private def sizes : ParameterParts where
  indent := ['\n']
  modifiers := [("class".toList, "  ".toList), ("const".toList, ['\t'])]
  path := ⟨"std".toList, ["vector".toList], by
    simp only [List.mem_cons, List.not_mem_nil, or_false, forall_eq_or_imp, forall_eq]
    exact ⟨⟨by decide, by decide, by decide⟩, ⟨by decide, by decide, by decide⟩⟩⟩
  argument := some ⟨"int".toList, [], by simpa using ⟨by decide, by decide, by decide⟩⟩
  member := none
  mark := some ([' '], .reference)
  space := []
  name := some ⟨"sizes".toList, by decide, by decide, by decide⟩
  lead := [' ']
  ending := .value " 0".toList (by decide)
  blank := by decide
  known := by decide
  once := by decide
  unmodified := by
    unfold Unmodified
    decide
  markBlank := by decide
  apart := by decide

/-- A reference to a vector, with a name and a default value. -/
theorem parameters_roundTrip_sizes :
    readParameters " (\nclass  const\tstd::vector<int> &sizes = 0) x".toList =
        ("(const std::vector<int>& sizes)", 44) ∧
      typesOnly "(const std::vector<int>& sizes)" = "( const std::vector<int>& )" ∧
      parameterNames "(const std::vector<int>& sizes)" = ["sizes"] := by
  have hlead : [' '].all isBlank = true := rfl
  have h := parameters_roundTrip sizes [] hlead " x".toList
  have hkept : String.ofList ('(' :: (separated ([sizes].map ParameterParts.canonical) ++ [')'])) =
      "(const std::vector<int>& sizes)" := by decide +kernel
  have htext : [' '] ++ ('(' :: (commas ([sizes].map ParameterParts.text) ++ [')']) ++ " x".toList) =
      " (\nclass  const\tstd::vector<int> &sizes = 0) x".toList := by decide +kernel
  have hlength : ([' '] ++ '(' :: (commas ([sizes].map ParameterParts.text) ++ [')'])).length = 44 := by
    decide +kernel
  have htypes : String.ofList ("( ".toList ++
      (separated ([sizes].map ParameterParts.canonicalType) ++ " )".toList)) =
        "( const std::vector<int>& )" := by decide +kernel
  have hnames : ([sizes].filterMap fun p => p.name.map fun n => String.ofList n.1) = ["sizes"] := by
    decide +kernel
  dsimp only at h
  rwa [hkept, htext, hlength, htypes, hnames] at h

end CppDoc.Syntax
