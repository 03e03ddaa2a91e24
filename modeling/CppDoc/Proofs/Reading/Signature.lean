import CppDoc.Comment
import CppDoc.Proofs.Reading.Member
import CppDoc.Proofs.Registry.Overload

/-!
# Signatures in comments

What the reader of a documented function takes off a text depends on the text alone: `Signature.read`
says what, and `scanFunction_eq` that the reader enters just that.

* `IsSignature`: the texts from which the name and the parameters of a function are read;
* `scanFunction_of_isSignature`: the function that is found is the one that the signature declares;
* `isSignature_outOfClass`: a member that is written out of its class has such a signature.
-/

namespace CppDoc.Comment

open CppDoc.Header CppDoc.Registry CppDoc.Syntax CppDoc.Text

/-! ## Signatures -/

/-- What is read of a signature, and the text behind it. -/
structure Signature where
  returnType : String
  name : String
  parameters : String
  isConst : Bool
  rest : List Char

namespace Signature

/-- The signature at the head of a text. -/
def read (s : List Char) : Signature :=
  let type := readType s
  let s := s.drop type.2
  let name := readName s
  let s := s.drop name.2
  let bare := name.1.isEmpty && "(".toList.isPrefixOf s && isQualified type.1
  let parameters := readParameters s
  let s := s.drop parameters.2
  let named := if bare then ("", type.1) else (type.1, name.1)
  { returnType := named.1
    name := named.2
    parameters := parameters.1
    isConst := writtenConst s
    rest := afterConst s }

/-- Finds or adds the function of a signature that stands on `line`. -/
def bind (sig : Signature) (line : Nat) (r : Reading) : Binding × Reading :=
  let (found, r) :=
    if isQualified sig.name && !sig.parameters.isEmpty then
      r.declare sig.returnType sig.name sig.parameters sig.isConst line
    else (none, r)
  match found with
  | some f => (.about (.function f), r)
  | none => (.unbound, r.report line .unreadableFunction)

end Signature

/-- **Signatures.**  The reader of a function finds or adds the function of the signature that comes
next, and moves behind the signature. -/
theorem scanFunction_eq (r : Reading) :
    ∃ (line : Nat) (c : Cursor), c.rest = (Signature.read r.cursor.rest).rest ∧
      scanFunction r = (Signature.read r.cursor.rest).bind line { r with cursor := c } := by
  obtain ⟨c, hc, hconst⟩ :=
    readConst_skipGap (((r.read readType).2.line.2.read readName).2.read readParameters).2
  refine ⟨(r.read readType).2.line.1, c, hc, ?_⟩
  simp only [scanFunction, hconst]
  rfl

/-! ## Signatures that find functions -/

/-- A qualified name with parameters is declared. -/
theorem Signature.bind_eq {sig : Signature} {r : Reading} {line : Nat} {f : FunctionId}
    {reg : Registry} (hname : isQualified sig.name = true) (hparameters : sig.parameters ≠ "")
    (hdeclared : r.registry.declare sig.returnType sig.name sig.parameters sig.isConst
      ⟨r.file, line⟩ = (some f, reg)) :
    sig.bind line r = (.about (.function f), { r with registry := reg }) := by
  have hsome : sig.parameters.isEmpty = false := by rwa [String.isEmpty_eq_false_iff]
  simp only [bind, hname, hsome, Reading.declare, hdeclared]
  rfl

/-- In front of `behind`, the text is the signature of a function of that name with these
parameters, indented or not. -/
structure IsSignature (text behind : List Char) (name parameters : String) : Prop where
  read : ∀ indent : List Char, indent.all isBlank = true →
    ∃ returnType, Signature.read (indent ++ (text ++ behind)) =
      { returnType, name, parameters, isConst := writtenConst behind, rest := afterConst behind }
  qualified : isQualified name = true
  hasParameters : parameters ≠ ""
  hasOwner : ∃ owner, ownerPart? name = some owner

/-- **Signatures.**  The function of a signature is the one that the signature declares. -/
theorem scanFunction_of_isSignature {text behind : List Char} {name parameters : String}
    (h : IsSignature text behind name parameters) {r : Reading} {indent : List Char}
    (hindent : indent.all isBlank = true) (htext : r.cursor.rest = indent ++ (text ++ behind)) :
    ∃ (returnType : String) (origin : Location) (f : FunctionId) (reg : Registry) (c : Cursor),
      r.registry.declare returnType name parameters (writtenConst behind) origin = (some f, reg) ∧
      c.rest = afterConst behind ∧
      scanFunction r = (.about (.function f), { r with registry := reg, cursor := c }) := by
  obtain ⟨returnType, hread⟩ := h.read indent hindent
  obtain ⟨owner, howner⟩ := h.hasOwner
  obtain ⟨line, c, hc, hscan⟩ := scanFunction_eq r
  rw [htext, hread] at hc hscan
  obtain ⟨f, hf, -⟩ := findOverload?_declare howner r.registry returnType parameters
    (writtenConst behind) ⟨r.file, line⟩
  refine ⟨returnType, ⟨r.file, line⟩, f, _, c, Prod.ext hf rfl, hc, ?_⟩
  rw [hscan]
  exact Signature.bind_eq h.qualified h.hasParameters (Prod.ext hf rfl)

/-! ## Signatures of members -/

/-- A name behind the path of its class is qualified. -/
theorem isQualified_member (p : ScopePath) (m : List Char) :
    isQualified (String.ofList (p.member m)) = true := by
  obtain ⟨c, rest, hc⟩ := List.exists_cons_of_ne_nil p.identifier_first.ne_nil
  have hstart : isNameStart c = true := by
    have := p.identifier_first.start
    rwa [hc] at this
  have hcolon : c ≠ ':' := by
    rintro rfl
    exact nomatch hstart
  simp [isQualified, ScopePath.member, ScopePath.memberChain, hc, hcolon]

/-- The signature of a member is read up to the parenthesis that closes its parameters. -/
private theorem read_outOfClass {p : ScopePath} {d : Declaration} (h : IsReadable p d)
    {indent : List Char} (hindent : indent.all isBlank = true) (t : List Char) :
    ∃ returnType, Signature.read (indent ++ (d.outOfClass p ++ t)) =
      { returnType, name := d.qualifiedName p, parameters := d.parameters,
        isConst := writtenConst t, rest := afterConst t } := by
  have hbehind : ('(' :: (d.arguments ++ ')' :: t)).drop (d.arguments.length + 2) = t := by
    rw [List.drop_succ_cons, ← List.drop_drop, List.drop_left]
    rfl
  have hparameters := h.arguments.readParameters_append t
  have hlen := p.length_member_ne_zero d.name
  rw [d.outOfClass_append]
  rcases h.returns with ⟨hnone, hfirst⟩ | ⟨x, hx, hreturns⟩
  · -- The name stands in the place of the type, and is recovered from there.
    refine ⟨"", ?_⟩
    have hread := readType_member p h.name hfirst (d.arguments ++ ')' :: t)
    have htype := p.typeLength_member h.name (d.arguments ++ ')' :: t) hfirst
    have hindented := readType_indent hindent (htype ▸ hlen)
    rw [hread] at hindented
    rw [hnone, List.nil_append]
    simp only [Signature.read, hindented, List.drop_length_add_append, List.drop_left,
      readName_parenthesis, List.drop_zero, hparameters, hbehind, isQualified_member]
    rfl
  · have hstart : (p.member d.name ++ '(' :: (d.arguments ++ ')' :: t)).head?.any isNameStart = true := by
      rw [ScopePath.member, List.append_assoc]
      exact p.identifier_first.append_start _
    have htype := hreturns.typeLength_append hx hstart
    have hread : readType (d.returns ++ (p.member d.name ++ '(' :: (d.arguments ++ ')' :: t))) =
        (String.ofList (cleanType d.returns), d.returns.length) := by
      simp only [readType, htype, List.take_left]
    have hpos := mt List.length_eq_zero_iff.mp hreturns.ne_nil
    have hindented := readType_indent hindent (htype ▸ hpos)
    have hnamed := isEmpty_ofList (mt List.length_eq_zero_iff.mpr hlen)
    rw [hread] at hindented
    refine ⟨String.ofList (cleanType d.returns), ?_⟩
    simp only [Signature.read, hindented, List.drop_length_add_append, List.drop_left,
      readName_member p h.name, hparameters, hbehind, hnamed, Bool.false_and]
    rfl

/-- **Members out of their class.**  A member that is written out of its class is the signature of a
function with its qualified name. -/
theorem isSignature_outOfClass {p : ScopePath} {d : Declaration} (h : IsReadable p d)
    (hcolon : ':' ∉ d.name) (behind : List Char) :
    IsSignature (d.outOfClass p) behind (d.qualifiedName p) d.parameters where
  read := fun _ hindent => read_outOfClass h hindent behind
  qualified := isQualified_member p d.name
  hasParameters := h.arguments.readable
  hasOwner := ⟨_, d.ownerPart?_qualifiedName hcolon p⟩

end CppDoc.Comment
