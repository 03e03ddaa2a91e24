import CppDoc.Proofs.Reading.Documented

/-!
# Directives and their prose

A directive for a function has the signature of the function and, behind it, the text about it.  Where
the signature ends is found in that text: the word `const` is taken for a part of the signature, and a
line comment for a gap.  A text that begins with neither changes nothing about what is read of the
signature, and no part of it is lost.

* `Trailer`: what may stand behind the parameters of a signature, and `Trailer.read`: what is left of it;
* `directive_binds`: the function of a directive, and its text;
* `directive_takes_const`: a text that begins with `const` makes the function another one.
-/

namespace CppDoc.Comment

open CppDoc.Header CppDoc.Registry CppDoc.Syntax CppDoc.Text

/-! ## Prose -/

/-- Behind the blanks at its head, a text begins neither with `const` nor with a line comment. -/
def IsProse (s : List Char) : Prop :=
  ¬ "const".toList <+: s.dropWhile isBlank ∧ ¬ "//".toList <+: s.dropWhile isBlank

/-- The end of the comment does not complete a word that the text has only begun. -/
theorem not_prefix_closing {w s : List Char} (hw : '*' ∉ w) (h : ¬ w <+: s) (rest : List Char) :
    ¬ w <+: s ++ (closing.toList ++ rest) := by
  intro hpre
  rcases List.prefix_or_prefix_of_prefix hpre (List.prefix_append _ _) with hin | ⟨u, rfl⟩
  · exact h hin
  · cases u with
    | nil => exact h (by simp)
    | cons c u =>
        obtain ⟨v, hv⟩ := (List.prefix_append_right_inj s).mp hpre
        obtain rfl : c = '*' := (List.cons.inj hv).1
        exact hw (by simp)

/-- The white space of a text may be dropped in two steps. -/
theorem trimLeft_dropWhile_isBlank (s : List Char) : trimLeft (s.dropWhile isBlank) = trimLeft s := by
  have hblanks := all_isSpace (List.all_takeWhile (p := isBlank) (l := s))
  have hsplit := List.takeWhile_append_dropWhile (p := isBlank) (l := s)
  calc trimLeft (s.dropWhile isBlank)
      = trimLeft (s.takeWhile isBlank ++ s.dropWhile isBlank) :=
        (List.dropWhile_append_of_pos (List.all_eq_true.mp hblanks)).symm
    _ = trimLeft s := by rw [hsplit]

/-- Prose is read from behind its blanks on. -/
theorem IsProse.read {s : List Char} (h : IsProse s) (rest : List Char) :
    writtenConst (s ++ (closing.toList ++ rest)) = false ∧
      afterConst (s ++ (closing.toList ++ rest)) =
        s.dropWhile isBlank ++ (closing.toList ++ rest) := by
  have hsplit : s ++ (closing.toList ++ rest) =
      s.takeWhile isBlank ++ (s.dropWhile isBlank ++ (closing.toList ++ rest)) := by
    rw [← List.append_assoc (s.takeWhile isBlank), List.takeWhile_append_dropWhile]
  have hcomment := not_prefix_closing (by decide) h.2 rest
  have hgap : gap (s.dropWhile isBlank ++ (closing.toList ++ rest)) = 0 := by
    cases hs : s.dropWhile isBlank with
    | nil => exact gap_punctuation (by decide) _
    | cons c tail =>
        have hc : isBlank c = false := by
          have := List.head?_dropWhile_not isBlank s
          rwa [hs] at this
        rw [hs] at hcomment
        refine gap_cons_eq_zero_iff.mpr ⟨hc, fun heq hslash => hcomment ?_⟩
        obtain ⟨u, hu⟩ := List.head?_eq_some_iff.mp hslash
        exact ⟨u, by rw [List.cons_append, heq]; exact congrArg (List.cons '/') hu.symm⟩
  rw [hsplit]
  exact afterConst_of_not_const List.all_takeWhile hgap (not_prefix_closing (by decide) h.1 rest)

/-! ## Behind the parameters -/

/-- What a directive has behind the parameters of its signature: the word `const` if it is written,
white space, the text, and the end of the comment. -/
inductive Trailer (isConst : Bool) (text : List Char) : List Char → Prop
  | intro {gap separator rest : List Char} (hgap : gap.all isBlank = true)
      (hseparator : separator.all isSpace = true) (hapart : separator ≠ [])
      (hprose : isConst = false → IsProse (separator ++ text)) :
      Trailer isConst text
        (constText isConst gap ++ (separator ++ (text ++ (closing.toList ++ rest))))

/-- **Trailers.**  The word `const` is read if it is written, and the text is left whole. -/
theorem Trailer.read {isConst : Bool} {text behind : List Char} (h : Trailer isConst text behind)
    (hopen : StaysOpen text) :
    writtenConst behind = isConst ∧ ∃ body rest, StaysOpen body ∧ trimLeft body = trimLeft text ∧
      afterConst behind = body ++ (closing.toList ++ rest) := by
  obtain ⟨hgap, hseparator, hapart, hprose⟩ := h
  rename_i gap separator rest
  have hspaced := hopen.indent hseparator
  have htrim : trimLeft (separator ++ text) = trimLeft text :=
    List.dropWhile_append_of_pos fun c hc => List.all_eq_true.mp hseparator c hc
  cases isConst with
  | true =>
      have hhead : (separator ++ (text ++ (closing.toList ++ rest))).head?.any isSpace = true := by
        obtain ⟨c, tail, rfl⟩ := List.exists_cons_of_ne_nil hapart
        exact List.all_eq_true.mp hseparator c List.mem_cons_self
      have hread := afterConst_of_const hgap hhead
      simp only [constText, if_true, List.append_assoc]
      exact ⟨hread.1, separator ++ text, rest, hspaced, htrim, by rw [hread.2, List.append_assoc]⟩
  | false =>
      have hread := (hprose rfl).read rest
      have hsuffix := List.dropWhile_suffix (l := separator ++ text) isBlank
      rw [List.append_assoc] at hread
      refine ⟨hread.1, (separator ++ text).dropWhile isBlank, rest, ?_, ?_, hread.2⟩
      · exact fun hoccurs => hspaced (hoccurs.trans hsuffix.isInfix)
      · rw [trimLeft_dropWhile_isBlank, htrim]

/-! ## Binding -/

/-- The registry after a comment about a function: the text has been attached, or there is none. -/
theorem settle_about {f : FunctionId} (textLine line : Nat) (text : String) (r : Reading) :
    Persists r.registry
        (settle line { binding := .about (.function f), textLine, text } r).registry ∧
      (settle line { binding := .about (.function f), textLine, text } r).registry.functions.length =
        r.registry.functions.length ∧
      (text ≠ "" → r.registry.HasFunction f →
        Attaches r.registry
          (settle line { binding := .about (.function f), textLine, text } r).registry f text) := by
  by_cases htext : text.isEmpty = true
  · simp only [settle, htext, if_true]
    exact ⟨persists_report _ _ _, rfl, fun hne => absurd (String.isEmpty_iff.mp htext) hne⟩
  · simp only [settle, htext, Bool.false_eq_true, if_false]
    exact ⟨persists_attachDoc _ _, length_functions_attachDoc _ _,
      fun _ hf => attaches_attachDoc hf rfl⟩

section Directive

variable {signature behind : List Char} {name parameters : String}
  (h : IsSignature signature behind name parameters) {indent : List Char}
  (hindent : indent.all isBlank = true) {s : State}
  (hrest : s.reading.skipGap.cursor.rest = "\\fn ".toList ++ (indent ++ (signature ++ behind)))
  (tree : FileTree)

include h hindent hrest

/-- A directive declares its function, and then what is left of the comment is settled. -/
theorem scanComment_directive :
    ∃ (returnType : String) (origin : Location) (f : FunctionId) (line textLine : Nat)
        (text : String) (r : Reading),
      s.reading.registry.declare returnType name parameters (writtenConst behind) origin =
        (some f, r.registry) ∧
      (∀ body rest, StaysOpen body → afterConst behind = body ++ (closing.toList ++ rest) →
        text = String.ofList (trimLeft body)) ∧
      (scanComment tree s).2.reading.registry =
        (settle line { binding := .about (.function f), textLine, text } r).registry := by
  obtain ⟨returnType, origin, f, reg, c, hdeclared, hc, hread⟩ :=
    readComment_directive h hindent (r := s.reading.skipGap.line.2) hrest tree
      s.reading.skipGap.line.1
  generalize hr : ({ s.reading.skipGap.line.2 with registry := reg, cursor := c } : Reading) = r
    at hread
  have hreg : (readBody r).2.registry = reg := by
    rw [← hr]
    rfl
  refine ⟨returnType, origin, f, s.reading.skipGap.line.1, (readBody r).1.1, (readBody r).1.2,
    (readBody r).2, ?_, ?_, ?_⟩
  · rw [hreg]
    exact hdeclared
  · intro body rest hopen hbody
    have hleft : r.cursor.rest = body ++ (closing.toList ++ rest) := by rw [← hr, ← hbody, ← hc]
    obtain ⟨textLine, c', -, htext⟩ := readBody_eq hopen hleft
    rw [htext]
  · simp only [scanComment, hread]
    rfl

/-- **Directives.**  A directive is about the function of its signature, which is const if the word
is read behind the parameters.  No other function is added. -/
theorem function_scanComment_directive :
    let before := s.reading.registry
    let after := (scanComment tree s).2.reading.registry
    let found := before.findOverload? name parameters (writtenConst behind)
    let f := found.getD ⟨before.functions.length⟩
    (∃ g, after.functions[f.index]? = some g ∧ g.name = name ∧
        g.signature = typesOnly parameters ∧ g.isConst = writtenConst behind) ∧
      after.functions.length = before.functions.length + (if found.isSome then 0 else 1) ∧
      ∀ body rest, StaysOpen body → afterConst behind = body ++ (closing.toList ++ rest) →
        trimLeft body ≠ [] → Attaches before after f (String.ofList (trimLeft body)) := by
  obtain ⟨owner, howner⟩ := h.hasOwner
  obtain ⟨returnType, origin, f, line, textLine, text, r, hdeclared, htext, hafter⟩ :=
    scanComment_directive h hindent hrest tree
  obtain ⟨rfl, hlength, hfound, hdocs⟩ := declare_spec howner hdeclared
  have hhas := hasFunction_declare s.reading.registry (congrArg Prod.fst hdeclared)
  rw [hdeclared] at hhas
  obtain ⟨hpersists, hsame, hattaches⟩ := settle_about textLine line text r
  rw [← hafter] at hpersists hsame hattaches
  refine ⟨function_of_findOverload? (findOverload?_of_persists hpersists hfound), ?_, ?_⟩
  · rw [hsame, hlength]
  · intro body rest hopen hbody hne
    obtain rfl := htext body rest hopen hbody
    have hattached := hattaches (fun hempty => hne (String.ofList_injective hempty)) hhas
    exact ⟨hdocs ▸ hattached.block, hdocs ▸ hattached.doc⟩

end Directive

section Member

variable {p : ScopePath} {d : Declaration} (h : IsReadable p d) (hcolon : ':' ∉ d.name)
  {indent : List Char} (hindent : indent.all isBlank = true) {s : State}

include h hcolon hindent

/-- **Prose does not interfere.**  Whatever the text of a directive is, the directive is about the
function with the name, the signature and the constness that are written, and the text is attached
to it without the white space before it.  Later comments do not change that. -/
theorem directive_binds {isConst : Bool} {text behind : List Char}
    (htrailer : Trailer isConst text behind) (hopen : StaysOpen text) {reg : Registry}
    (hreg : reg.WellFormed) {file : FileId} (hfile : reg.HasFile file) {tree : FileTree}
    (hcomment : Reaches tree reg file s)
    (hrest : s.reading.skipGap.cursor.rest =
      "\\fn ".toList ++ (indent ++ (d.outOfClass p ++ behind))) :
    let before := s.reading.registry
    let after := (scanComment tree s).2.reading.registry
    let found := before.findOverload? (d.qualifiedName p) d.parameters isConst
    let f := found.getD ⟨before.functions.length⟩
    (∃ g, after.functions[f.index]? = some g ∧ g.name = d.qualifiedName p ∧
        g.signature = typesOnly d.parameters ∧ g.isConst = isConst) ∧
      after.functions.length = before.functions.length + (if found.isSome then 0 else 1) ∧
      (trimLeft text ≠ [] → Attaches before after f (String.ofList (trimLeft text))) ∧
      Persists after (scan tree reg file).1 := by
  obtain ⟨rfl, body, rest, hbody, htrim, hleft⟩ := htrailer.read hopen
  have hsignature := isSignature_outOfClass h hcolon behind
  obtain ⟨hfunction, hlength, hattaches⟩ :=
    function_scanComment_directive hsignature hindent hrest tree
  refine ⟨hfunction, hlength, ?_, persists_scanComment ⟨hreg, hfile⟩ hcomment⟩
  rw [← htrim]
  exact hattaches body rest hbody hleft

/-- **The exception.**  A text that begins with `const` makes the directive one about a const
function. -/
theorem directive_takes_const {blanks text : List Char} (hblanks : blanks.all isBlank = true)
    (hrest : s.reading.skipGap.cursor.rest =
      "\\fn ".toList ++ (indent ++ (d.outOfClass p ++ (blanks ++ ("const".toList ++ text)))))
    (tree : FileTree) :
    ∃ (f : FunctionId) (g : Function),
      (scanComment tree s).2.reading.registry.functions[f.index]? = some g ∧
      g.name = d.qualifiedName p ∧ g.signature = typesOnly d.parameters ∧ g.isConst = true := by
  have hsignature := isSignature_outOfClass h hcolon (blanks ++ ("const".toList ++ text))
  have hread := function_scanComment_directive hsignature hindent hrest tree
  rw [writtenConst_of_const hblanks] at hread
  exact ⟨_, hread.1⟩

end Member

private def countSource : Registry :=
  (empty.addFile
    { path := "foo.cpp", kind := .source,
      text := "/*! \\fn int Foo::bar() in constant time. */\n" }).2

private def countComment : State :=
  { reading := (Reading.begin countSource ⟨0⟩).past opening, failure := none }

private def fooScope : ScopePath where
  first := "Foo".toList
  inner := []
  identifiers := identifiers_foo

private theorem isReadable_bar : IsReadable fooScope ⟨"int ".toList, "bar".toList, []⟩ where
  name := .identifier ⟨rfl, rfl, by decide⟩
  returns := .inr ⟨"bar".toList, rfl, by decide, .of_not_mem (by decide) (by decide), rfl,
    by decide +kernel⟩
  arguments := ⟨.of_not_mem (by decide) (by decide), by decide, by decide⟩

/-- A directive whose text has the word `const` in it. -/
theorem directive_binds_bar :
    Attaches countComment.reading.registry
      (scanComment .empty countComment).2.reading.registry ⟨0⟩ "in constant time. " := by
  have hreg : countSource.WellFormed := (Edits.single (.addFile _)).wellFormed wellFormed_empty
  have hfile : countSource.HasFile ⟨0⟩ := Nat.zero_lt_one
  have hcomment : Reaches .empty countSource ⟨0⟩ countComment := ⟨by decide, .start _⟩
  have htrailer : Trailer false "in constant time. ".toList
      (constText false [] ++ (" ".toList ++
        ("in constant time. ".toList ++ (closing.toList ++ "\n".toList)))) :=
    ⟨rfl, rfl, by decide, fun _ => ⟨by decide, by decide⟩⟩
  have hrest : countComment.reading.skipGap.cursor.rest =
      "\\fn ".toList ++ ([] ++ ((⟨"int ".toList, "bar".toList, []⟩ : Declaration).outOfClass fooScope ++
        (constText false [] ++ (" ".toList ++
          ("in constant time. ".toList ++ (closing.toList ++ "\n".toList)))))) := by
    decide
  exact (directive_binds isReadable_bar (by decide) rfl htrailer (.of_not_mem (by decide)) hreg hfile
    hcomment hrest).2.2.1 (by decide)

end CppDoc.Comment
