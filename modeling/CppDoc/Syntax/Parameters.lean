import CppDoc.Syntax.Type

/-!
# Parameter lists

A parameter list is kept as the text `(type name, type, …)`: default values are dropped and a
trailing `[]` stays with its parameter.

* `readParameters` reads a list off the text of a declaration;
* `typesOnly` drops the names from the kept text, which gives the signature that tells overloads
  apart;
* `parameterNames` lists the names in it.
-/

namespace CppDoc.Syntax

open CppDoc.Text

/-- Does `c` end the default value of a parameter? -/
def endsDefault (c : Char) : Bool :=
  c == ',' || c == ')'

/-- Reads one parameter: a type, perhaps a name, and a default value or brackets.  Gives its text and
its length, which is 0 if no type stands there. -/
def readParameter (s : List Char) : List Char × Nat :=
  let n := typeLength s
  if n = 0 then ([], 0)
  else
    let type := cleanType (s.take n)
    let n := n + gap (s.drop n)
    let m := simpleName (s.drop n)
    let name := if m = 0 then [] else ' ' :: simplify ((s.drop n).take m)
    let n := n + m
    let n := n + gap (s.drop n)
    match s.drop n with
    | '=' :: value =>
      let k := (value.takeWhile fun c => !endsDefault c).length
      (type ++ name, n + (k + 1 + gap (value.drop k)))
    | '[' :: ']' :: rest => (type ++ name ++ "[]".toList, n + (gap rest + 2))
    | _ => (type ++ name, n)

/-- Reads the parameters up to the closing parenthesis.  Gives their text, or nothing if they
cannot be read, and the number of characters looked at. -/
def readParameterTail (s : List Char) : Option (List Char) × Nat :=
  let (parameter, n) := readParameter s
  if n = 0 then (none, 0)
  else if h : (s.drop n).head? = some ',' then
    let (tail, k) := readParameterTail (s.drop n).tail
    (tail.map (parameter ++ ", ".toList ++ ·), n + 1 + k)
  else if (s.drop n).head? = some ')' then (some (parameter ++ [')']), n + 1)
  else (none, n)
termination_by s.length
decreasing_by exact length_tail_drop_lt_of_head? h

/-- Reads a parameter list.  The text is empty if there is none or it cannot be read; then the
count tells how far the reader got. -/
def readParameters (s : List Char) : String × Nat :=
  let n := gap s
  match s.drop n with
  | '(' :: rest =>
    let k := gap rest
    match rest.drop k with
    | ')' :: _ => ("()", n + k + 2)
    | parameters =>
      let (tail, m) := readParameterTail parameters
      ((tail.map fun t => String.ofList ('(' :: t)).getD "", n + 1 + k + m)
  | _ => ("", 0)

/-- The types at the head of `s` and behind each comma that follows, up to the first place where no
type stands. -/
def typeList (s : List Char) : List (List Char) :=
  let n := typeLength s
  if n = 0 then []
  else
    let rest :=
      match _h : after? ',' (s.drop n) with
      | some rest => typeList rest
      | none => []
    cleanType (s.take n) :: rest
termination_by s.length
decreasing_by
  have := length_lt_of_after? _h
  simp only [List.length_drop] at this
  omega

/-- The signature of a parameter list: its types without the names. -/
def typesOnly (parameters : String) : String :=
  if parameters = "()" then parameters
  else
    match typeList (parameters.toList.drop 1) with
    | [] => " )"
    | types => String.ofList ("( ".toList ++ List.intercalate ", ".toList types ++ " )".toList)

/-- The names behind the types that `typeList` finds. -/
def nameList (s : List Char) : List (List Char) :=
  let n := typeLength s
  if n = 0 then []
  else
    let tail := s.drop n
    let m := simpleName tail
    let rest :=
      match _h : after? ',' tail with
      | some rest => nameList rest
      | none => []
    if m = 0 then rest else simplify (tail.take m) :: rest
termination_by s.length
decreasing_by
  have := length_lt_of_after? _h
  simp only [tail, List.length_drop] at this
  omega

/-- The names of the named parameters of a list, in order. -/
def parameterNames (parameters : String) : List String :=
  if parameters = "()" then []
  else (nameList (parameters.toList.drop 1)).map String.ofList

end CppDoc.Syntax
