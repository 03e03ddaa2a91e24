import CppDoc.Proofs.Reading.Documented
import CppDoc.Proofs.Syntax.Conversion

/-!
# Conversions in headers and in comments

A header reads the name of a conversion operator as a name, which loses its white space.  Out of its
class the same text is taken for a type, which keeps the space behind the keyword.  The two names
differ, so that a comment about a conversion is not about the function of the header.

* `scanMember_conversion`: what a header enters for a conversion;
* `isSignature_conversionType`: what a comment reads of it;
* `conversion_documented_apart`: the comment adds another function of the same class;
* `conversion_documented_numbered`: it finds the one of the header if the path of the class does not
  begin a type.
-/

namespace CppDoc.Header

open CppDoc.Syntax CppDoc.Text

theorem argumentList_nil : ArgumentList [] :=
  ⟨.of_not_mem (by decide) (by decide), by decide, by decide⟩

theorem conversion_inClass_append (type t : List Char) :
    (conversion type).inClass ++ t = operatorKeyword ++ ' ' :: type ++ '(' :: ')' :: t := by
  simp [conversion, Declaration.inClass, Declaration.parameterText]

theorem conversion_outOfClass_append (p : ScopePath) (type t : List Char) :
    (conversion type).outOfClass p ++ t =
      p.member (operatorKeyword ++ ' ' :: type) ++ '(' :: ')' :: t := by
  simp [conversion, Declaration.outOfClass, Declaration.parameterText]

theorem spaceless_conversion (type : List Char) :
    spaceless (operatorKeyword ++ ' ' :: type) = operatorKeyword ++ spaceless type := by
  have hkeyword : spaceless operatorKeyword = operatorKeyword := by decide
  have hspace : isSpace ' ' = true := by decide
  rw [spaceless, List.filter_append, ← spaceless, hkeyword]
  simp [spaceless, hspace]

/-- **Headers.**  A header enters a conversion under its name without white space. -/
theorem scanMember_conversion {p : ScopePath} {type t : List Char} (h : ConversionType type t)
    {r : Reading} (htext : (skipToMember r).cursor.rest = (conversion type).inClass ++ t) :
    ∃ origin, (scanMember (String.ofList p.text) r).2.registry =
      (r.registry.declare "" (conversionName p type) (conversion type).parameters (writtenConst t)
        origin).2 := by
  rw [conversion_inClass_append] at htext
  have hcolon : ':' ∉ operatorKeyword ++ spaceless type := by
    intro hmem
    rcases List.mem_append.mp hmem with hmem | hmem
    · exact absurd hmem (by decide)
    · exact h.colon_not_mem ((List.mem_filter.mp hmem).1)
  have hoperator : (skipToMember r).line.2.lookingAt "operator " = true := by
    change "operator ".toList.isPrefixOf (skipToMember r).cursor.rest = true
    have hword : "operator ".toList = operatorKeyword ++ [' '] := by decide
    rw [htext, hword, List.isPrefixOf_iff_prefix]
    exact ⟨type ++ '(' :: ')' :: t, by simp⟩
  have hread : readName (skipToMember r).line.2.cursor.rest =
      (String.ofList (operatorKeyword ++ spaceless type), (operatorKeyword ++ ' ' :: type).length) := by
    change readName (skipToMember r).cursor.rest = _
    simp only [readName, htext, h.qualifiedName_eq, List.take_left, spaceless_conversion]
  have hbehind : ((skipToMember r).line.2.cursor.skip (operatorKeyword ++ ' ' :: type).length).rest =
      '(' :: ([] ++ ')' :: t) := by
    change (skipToMember r).cursor.rest.drop _ = _
    rw [htext, List.drop_left]
    rfl
  obtain ⟨c, hdeclared⟩ := scanDeclarator_parameters (p := p) hcolon argumentList_nil
    (r := { (skipToMember r).line.2 with
      cursor := (skipToMember r).line.2.cursor.skip (operatorKeyword ++ ' ' :: type).length })
    hbehind "" (skipToMember r).line.1
  have hne := isEmpty_ofList (List.append_ne_nil_of_left_ne_nil (by decide : operatorKeyword ≠ [])
    (spaceless type))
  refine ⟨⟨(skipToMember r).file, (skipToMember r).line.1⟩, ?_⟩
  simp only [scanMember]
  rw [if_pos hoperator]
  simp only [read_eq hread, hne, hdeclared]
  simp only [Bool.false_eq_true, if_false, if_true, registry_skipMemberTail]
  rw [← registry_skipToMember r]
  rfl

end CppDoc.Header

namespace CppDoc.Comment

open CppDoc.Header CppDoc.Registry CppDoc.Syntax CppDoc.Text

/-! ## Signatures of conversions -/

section Signature

variable {type behind : List Char} (h : ConversionType type behind) (p : ScopePath)

include h

/-- Both names have the class for their owner. -/
theorem ownerPart?_conversionName :
    ownerPart? (conversionName p type) = some (String.ofList p.text) := by
  rw [conversionName, p.member_eq]
  refine ownerPart?_member p.text_ne_nil fun hmem => ?_
  rcases List.mem_append.mp hmem with hmem | hmem
  · exact absurd hmem (by decide)
  · exact h.colon_not_mem ((List.mem_filter.mp hmem).1)

theorem ownerPart?_conversionType :
    ownerPart? (conversionType p type) = some (String.ofList p.text) := by
  obtain ⟨x, hx, -, hcolon⟩ := cleanType_member_conversion h p
  rw [conversionType, hx, p.member_eq]
  refine ownerPart?_member p.text_ne_nil fun hmem => ?_
  rcases List.mem_append.mp hmem with hmem | hmem
  · exact absurd hmem (by decide)
  · exact hcolon hmem

/-- **Comments.**  A conversion out of its class is the signature of a function whose name keeps the
white space of a type. -/
theorem isSignature_conversionType (hnumbered : ¬ Numbered p.first) :
    IsSignature ((conversion type).outOfClass p) behind (conversionType p type)
      (conversion type).parameters where
  read := by
    intro indent hindent
    have htype := typeLength_member_conversion h hnumbered
    have hlen := p.length_member_ne_zero (operatorKeyword ++ ' ' :: type)
    have hread : readType (p.member (operatorKeyword ++ ' ' :: type) ++ '(' :: ')' :: behind) =
        (conversionType p type, (p.member (operatorKeyword ++ ' ' :: type)).length) := by
      simp only [readType, htype, List.take_left]
      rfl
    have hindented := readType_indent hindent (htype ▸ hlen)
    have hqualified : isQualified (conversionType p type) = true := by
      obtain ⟨x, hx, -⟩ := cleanType_member_conversion h p
      rw [conversionType, hx]
      exact isQualified_member p _
    have hparameters := argumentList_nil.readParameters_append behind
    rw [hread] at hindented
    rw [List.nil_append] at hparameters
    refine ⟨"", ?_⟩
    rw [conversion_outOfClass_append]
    simp only [Signature.read, hindented, List.drop_length_add_append, List.drop_left,
      readName_parenthesis, List.drop_zero, hparameters, hqualified]
    rfl
  qualified := by
    obtain ⟨x, hx, -⟩ := cleanType_member_conversion h p
    rw [conversionType, hx]
    exact isQualified_member p _
  hasParameters := argumentList_nil.readable
  hasOwner := ⟨_, ownerPart?_conversionType h p⟩

omit h p in
/-- Blanks are dropped from a name, wherever they stand. -/
theorem spaceless_member_conversion (p : ScopePath) (type : List Char) {indent : List Char}
    (hindent : indent.all isBlank = true) :
    spaceless (indent ++ p.member (operatorKeyword ++ ' ' :: type)) =
      p.member (operatorKeyword ++ spaceless type) := by
  have hblanks : spaceless indent = [] := by
    apply List.filter_eq_nil_iff.mpr
    intro c hc
    rw [isSpace_of_isBlank (List.all_eq_true.mp hindent c hc)]
    decide
  have happend (s t : List Char) : spaceless (s ++ t) = spaceless s ++ spaceless t :=
    List.filter_append s t
  have hpath : Solid (p.text ++ "::".toList) :=
    p.solid_text.append (.cons rfl (.cons rfl fun _ hc => nomatch hc))
  have hmember (m : List Char) : p.member m = p.text ++ "::".toList ++ m := by simp [p.member_eq]
  rw [happend, hblanks, List.nil_append, hmember, happend, spaceless_eq_self hpath,
    spaceless_conversion, ← hmember]

/-- A path that does not begin a type leaves the conversion its name. -/
theorem isSignature_conversionName (hnumbered : Numbered p.first) :
    IsSignature ((conversion type).outOfClass p) behind (conversionName p type)
      (conversion type).parameters where
  read := by
    intro indent hindent
    have hnone := typeLength_numbered hnumbered hindent (operatorKeyword ++ ' ' :: type)
      ('(' :: ')' :: behind)
    have htype : readType (indent ++ (p.member (operatorKeyword ++ ' ' :: type) ++
        '(' :: ')' :: behind)) = ("", 0) := by
      simp only [readType, hnone]
      rfl
    have hname := p.qualifiedName_of_scopeMember h.scopeMember_eq (by simp)
    have hlen := p.length_member_ne_zero (operatorKeyword ++ ' ' :: type)
    have hindented := qualifiedName_indent hindent _ (hname ▸ hlen)
    have hread : readName (indent ++ (p.member (operatorKeyword ++ ' ' :: type) ++
        '(' :: ')' :: behind)) = (conversionName p type,
          indent.length + (p.member (operatorKeyword ++ ' ' :: type)).length) := by
      simp only [readName, hindented, hname, List.take_length_add_append, List.take_left,
        spaceless_member_conversion p type hindent]
      rfl
    have hnamed : (conversionName p type).isEmpty = false :=
      isEmpty_ofList (mt List.length_eq_zero_iff.mpr (p.length_member_ne_zero _))
    have hparameters := argumentList_nil.readParameters_append behind
    rw [List.nil_append] at hparameters
    refine ⟨"", ?_⟩
    rw [conversion_outOfClass_append]
    simp only [Signature.read, htype, List.drop_zero, hread, List.drop_length_add_append,
      List.drop_left, hparameters, hnamed, Bool.false_and]
    rfl
  qualified := isQualified_member p _
  hasParameters := argumentList_nil.readable
  hasOwner := ⟨_, ownerPart?_conversionName h p⟩

end Signature

/-! ## Documented conversions -/

section Documented

variable {p : ScopePath} {type t : List Char} (h : ConversionType type t) {reg : Registry}
  (hreg : reg.WellFormed) {header : FileId} (hheader : reg.HasFile header) {r : Reading}
  (hmember : Header.Reaches reg header (String.ofList p.text) r)
  (hdeclared : (skipToMember r).cursor.rest = (conversion type).inClass ++ t) {reg' : Registry}
  (hedits : Edits (Header.scan reg header) reg') {source : FileId} (hsource : reg'.HasFile source)
  {tree : FileTree} {s : State} (hcomment : Reaches tree reg' source s) {text behind : List Char}
  (h' : ConversionType type behind) (hopen : StaysOpen text)
  (hbegins : text.head?.any beginsText = true)

include h hreg hheader hmember hdeclared hedits hsource hcomment h' hopen hbegins

/-- **Two functions.**  A comment about a conversion that a header declares is attached to another
function than that of the header.  Both are members of the class. -/
theorem conversion_documented_apart (hnumbered : ¬ Numbered p.first) {isConst : Bool}
    (hdocuments : Documents ((conversion type).outOfClass p) isConst text behind
      s.reading.skipGap.cursor.rest) :
    let after := (scanComment tree s).2.reading.registry
    ∃ (origin : Location) (f f' : FunctionId) (g g' : Function),
      r.registry.declare "" (conversionName p type) (conversion type).parameters (writtenConst t)
        origin = (some f, (scanMember (String.ofList p.text) r).2.registry) ∧
      Attaches s.reading.registry after f' (String.ofList text) ∧ f' ≠ f ∧
      after.functions[f.index]? = some g ∧ g.name = conversionName p type ∧
      after.functions[f'.index]? = some g' ∧ g'.name = conversionType p type ∧
      (after.getClass g.owner).name = String.ofList p.text ∧
      (after.getClass g'.owner).name = String.ofList p.text ∧
      Persists after (scan tree reg' source).1 := by
  obtain ⟨origin, hentered⟩ := scanMember_conversion h hdeclared
  have hsignature := isSignature_conversionType h' p hnumbered
  obtain ⟨f, hfirst, hthere⟩ := findOverload?_later hreg hheader hmember hedits hsource hcomment
    (ownerPart?_conversionName h p) hentered
  obtain ⟨returnType, origin', f', block, hf', hsubject, htext, hregistry⟩ :=
    scanComment_documents hsignature hopen hbegins hdocuments tree
  have hattached := attaches_of_declare hf' hsubject
  rw [← hregistry, htext] at hattached
  obtain ⟨f'', hf'', hfound⟩ := findOverload?_declare (ownerPart?_conversionType h' p)
    s.reading.registry returnType (conversion type).parameters isConst origin'
  obtain rfl : f' = f'' := Option.some.inj (hf'.symm.trans hf'')
  have hsound := sound_of_edits hreg hheader hedits hsource
  have hcommented := hcomment.leads_before.trans (leads_scanComment tree s)
  have hpersists := ((leads_scanComment tree s).edits (hcomment.leads_before.sound hsound)).persists
  have hkept := persists_attachDoc
    (s.reading.registry.declare returnType (conversionType p type) (conversion type).parameters
      isConst origin').2 block
  rw [← hregistry] at hkept
  obtain ⟨g, hg, hname, -⟩ := function_of_findOverload? (findOverload?_of_persists hpersists hthere)
  obtain ⟨g', hg', hname', -⟩ := function_of_findOverload? (findOverload?_of_persists hkept hfound)
  have hafter := (hcommented.sound hsound).wellFormed
  refine ⟨origin, f, f', g, g', hfirst, hattached, ?_, hg, hname, hg', hname', ?_, ?_,
    persists_scanComment hsound hcomment⟩
  · rintro rfl
    obtain rfl := Option.some.inj (hg.symm.trans hg')
    exact conversionType_ne_conversionName h p (hname'.symm.trans hname)
  · exact name_owner hafter hg (hname ▸ ownerPart?_conversionName h p)
  · exact name_owner hafter hg' (hname' ▸ ownerPart?_conversionType h p)

/-- **One function.**  Where the name of the class is no beginning of a type, a comment about a
conversion finds the function of the header. -/
theorem conversion_documented_numbered (hnumbered : Numbered p.first)
    (hdocuments : Documents ((conversion type).outOfClass p) (writtenConst t) text behind
      s.reading.skipGap.cursor.rest) :
    ∃ (origin : Location) (f : FunctionId),
      r.registry.declare "" (conversionName p type) (conversion type).parameters (writtenConst t)
        origin = (some f, (scanMember (String.ofList p.text) r).2.registry) ∧
      Attaches s.reading.registry (scanComment tree s).2.reading.registry f (String.ofList text) ∧
      (scanComment tree s).2.reading.registry.functions.length =
        s.reading.registry.functions.length ∧
      Persists (scanComment tree s).2.reading.registry (scan tree reg' source).1 := by
  obtain ⟨origin, hentered⟩ := scanMember_conversion h hdeclared
  exact ⟨origin, documents_entered hreg hheader hmember hedits hsource hcomment
    (isSignature_conversionName h' p hnumbered) hentered hdocuments hopen hbegins⟩

end Documented

private def intHeader : Registry :=
  (empty.addFile
    { path := "foo.h", kind := .header,
      text := "class Foo \x7b\n  operator int();\n\x7d;\n" }).2

private def intBody : Reading :=
  (openClass (firstClass intHeader ⟨0⟩)).2

private def intSource : Registry :=
  ((Header.scan intHeader ⟨0⟩).addFile
    { path := "foo.cpp", kind := .source,
      text := "/*! \\fn Foo::operator int()\n  Converts. */\n" }).2

private def intComment : State :=
  { reading := (Reading.begin intSource ⟨1⟩).past opening, failure := none }

private def intScope : ScopePath where
  first := "Foo".toList
  inner := []
  identifiers := identifiers_foo

/-- The conversion to an integer is declared in a header and documented by a directive. -/
theorem conversion_documented_apart_int :
    ∃ f f' : FunctionId, f' ≠ f ∧
      Attaches intComment.reading.registry (scanComment .empty intComment).2.reading.registry f'
        "Converts. " := by
  have hreg : intHeader.WellFormed := (Edits.single (.addFile _)).wellFormed wellFormed_empty
  have hheader : intHeader.HasFile ⟨0⟩ := Nat.zero_lt_one
  have hmember : Header.Reaches intHeader ⟨0⟩ (String.ofList intScope.text) intBody :=
    ⟨by decide +kernel, _, intBody, .start _, Prod.ext (by decide +kernel) rfl, .start _⟩
  have hdeclared : (skipToMember intBody).cursor.rest =
      (conversion "int".toList).inClass ++ ";\n\x7d;\n".toList := by decide +kernel
  have hsource : 1 < intSource.files.length := by decide +kernel
  have hcomment : Reaches .empty intSource ⟨1⟩ intComment := ⟨by decide +kernel, .start _⟩
  have htype (t : List Char) (ht : t = ";\n\x7d;\n".toList ∨ t = "\n  Converts. */\n".toList) :
      ConversionType "int".toList t := by
    rcases ht with rfl | rfl <;>
      exact ⟨by decide, by decide, by decide, by decide +kernel, by decide +kernel⟩
  have hdocuments : Documents ((conversion "int".toList).outOfClass intScope) false
      "Converts. ".toList "\n  Converts. */\n".toList
      intComment.reading.skipGap.cursor.rest := by
    have hrest : intComment.reading.skipGap.cursor.rest =
        "\\fn ".toList ++ ([] ++ ((conversion "int".toList).outOfClass intScope ++
          (constText false [] ++ ("\n  ".toList ++
            ("Converts. ".toList ++ (closing.toList ++ "\n".toList)))))) := by decide +kernel
    rw [hrest]
    have hindent : ([] : List Char).all isBlank = true := rfl
    have hseparator : "\n  ".toList.all isBlank = true := by decide
    exact .directive hindent hindent hseparator (fun h => nomatch h)
  obtain ⟨_, f, f', _, _, -, hattached, hne, -⟩ :=
    conversion_documented_apart (htype _ (.inl rfl)) hreg hheader hmember hdeclared
      (.single (.addFile _)) hsource hcomment (htype _ (.inr rfl)) (.of_not_mem (by decide)) rfl
      (fun h => absurd h.2 (by decide)) hdocuments
  exact ⟨f, f', hne, hattached⟩

end CppDoc.Comment
