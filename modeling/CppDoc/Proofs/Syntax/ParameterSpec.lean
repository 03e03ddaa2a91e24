import CppDoc.Proofs.Syntax.Parameters
import CppDoc.Proofs.Syntax.TypeSpec

/-!
# Parameter lists as they are printed

A parameter is printed as its type, a name if it has one, and a default value or brackets.  What is
kept of it is the type in its written form with the name and the brackets, and the signature of a list
consists of the types alone.

* `ParameterSpec.text` and `ParameterSpec.kept`: a parameter as it is printed and as it is kept;
* `listText`, `listKept` and `signatureOf`: a list in its parentheses, and its signature;
* `Separates`: what stands behind a parameter.
-/

namespace CppDoc.Syntax

open CppDoc.Text

/-- What may stand behind the type and the name of a parameter. -/
inductive Ending where
  | none
  | value (text : List Char) (closed : text.all (fun c => !endsDefault c) = true)
  | brackets

namespace Ending

/-- The blanks before the ending. -/
def lead : Ending → List Char
  | .value _ _ => [' ']
  | _ => []

/-- The ending without the blanks before it. -/
def body : Ending → List Char
  | .none => []
  | .value v _ => '=' :: ' ' :: v
  | .brackets => ['[', ']']

/-- The ending as it is printed. -/
def text (e : Ending) : List Char :=
  e.lead ++ e.body

/-- The ending as it is kept. -/
def kept : Ending → List Char
  | .brackets => ['[', ']']
  | _ => []

end Ending

/-- A parameter: its type, perhaps a name, and an ending. -/
structure ParameterSpec where
  type : TypeSpec
  name : Option Name
  ending : Ending

namespace ParameterSpec

/-- The name as it is printed and kept. -/
def nameText (p : ParameterSpec) : List Char :=
  (p.name.map fun n => ' ' :: n.text).getD []

/-- The parameter as it is printed. -/
def text (p : ParameterSpec) : List Char :=
  p.type.text ++ (p.nameText ++ p.ending.text)

/-- The parameter as it is kept. -/
def kept (p : ParameterSpec) : List Char :=
  p.type.written ++ (p.nameText ++ p.ending.kept)

end ParameterSpec

/-! ## One parameter -/

section Parameter

variable {s type text x y t : List Char} {n : Nat} {c : Char}

/-- No name stands behind the type. -/
theorem readParameterName_none (hs : s.drop n = x) (hgap : gap x = 0) (hname : simpleName x = 0) :
    readParameterName s type n = readParameterEnd s type n := by
  simp only [readParameterName, hs, hname, if_true, List.append_nil, Nat.add_zero, hgap]

/-- Does `c` stand behind a parameter? -/
def Separates (c : Char) : Prop :=
  c = ',' ∨ c = ')'

theorem Separates.gap_eq (h : Separates c) (t : List Char) : gap (c :: t) = 0 := by
  rcases h with rfl | rfl <;> exact gap_punctuation (by decide) _

theorem Separates.endsDefault (h : Separates c) : endsDefault c = true := by
  rcases h with rfl | rfl <;> rfl

/-- Where no name goes on, none begins. -/
theorem head?_not_isNameStart (hx : x.head?.any isNameChar = false) :
    x.head?.any isNameStart = false := by
  cases x with
  | nil => rfl
  | cons d rest =>
      cases hd : isNameStart d with
      | false => exact hd
      | true => exact nomatch hx.symm.trans (isNameChar_of_isNameStart hd)

end Parameter

/-! ## Lists -/

/-- Parameters with a comma and a space between them. -/
def separated (l : List (List Char)) : List Char :=
  List.intercalate ", ".toList l

theorem separated_cons (x y : List Char) (l : List (List Char)) :
    separated (x :: y :: l) = x ++ ',' :: ' ' :: separated (y :: l) := by
  simp [separated, List.intercalate_cons_cons]

/-- A parameter list as it is printed. -/
def listText (ps : List ParameterSpec) : List Char :=
  '(' :: (separated (ps.map ParameterSpec.text) ++ [')'])

/-- A parameter list as it is kept. -/
def listKept (ps : List ParameterSpec) : String :=
  String.ofList ('(' :: (separated (ps.map ParameterSpec.kept) ++ [')']))

/-! ## Signatures -/

/-- The types of the parameters. -/
def signatureOf (ps : List ParameterSpec) : String :=
  if ps.isEmpty then "()"
  else String.ofList ("( ".toList ++ separated (ps.map (·.type.written)) ++ " )".toList)

/-- What stands behind a text without the character is not found in it. -/
theorem after?_append {d : Char} {u : List Char} (hu : d ∉ u) (s : List Char) :
    after? d (u ++ s) = after? d s := by
  induction u with
  | nil => rfl
  | cons c rest ih =>
      obtain ⟨hc, hrest⟩ := not_or.mp (mt List.mem_cons.mpr hu)
      rw [List.cons_append, after?, if_neg fun h => hc h.symm, ih hrest]

theorem typeList_eq (s : List Char) :
    typeList s =
      if typeLength s = 0 then []
      else cleanType (s.take (typeLength s)) ::
        (((after? ',' (s.drop (typeLength s))).map typeList).getD []) := by
  rw [typeList]
  dsimp only
  split
  · rfl
  · split <;> rename_i h <;> simp [h]

end CppDoc.Syntax
