import CppDoc.Markup.Reference

/-!
# Preambles

Each block of documentation begins with a headline: the signature of a function, the name and the
relatives of a class, or the name of a chapter.
-/

namespace CppDoc.Markup

open CppDoc.Text

/-- A parameter list cut behind each comma. -/
def pieces : List Char → List (List Char)
  | [] => []
  | c :: rest =>
    if c = ',' then [c] :: pieces rest
    else
      match pieces rest with
      | [] => [[c]]
      | p :: ps => (c :: p) :: ps

/-- A parameter list with links to the classes it names. -/
def parameterDrafts (reg : Registry) (within : ClassId) (parameters : String) : List Draft :=
  if parameters = "()" then [.text parameters]
  else
    match pieces parameters.toList with
    | [] => []
    | first :: others =>
      signaturePiece reg within (String.ofList first) ::
        others.flatMap fun p =>
          [.space, signaturePiece reg within (String.ofList (trimLeft p))]

/-- The headline of a function: its signature. -/
def functionPreamble (reg : Registry) (id : FunctionId) : List Draft :=
  let f := reg.function id
  [.headline (.function (reg.memberRef id)), signaturePiece reg f.owner f.returnType, .text " ",
      .text f.name] ++
    parameterDrafts reg f.owner f.parameters ++ (if f.isConst then [.text " const"] else []) ++
    [.close]

/-- The children of a class, in one sentence. -/
def childDrafts : List String → List Draft
  | [] => []
  | [name] => [.content (.classLink (name ++ ".") name)]
  | name :: others => .content (.classLink (name ++ ",") name) :: .space :: childDrafts others

/-- The headline of a class: its name, and a paragraph on its parent and its children. -/
def classPreamble (reg : Registry) (id : ClassId) : List Draft :=
  let c := reg.getClass id
  let parent :=
    match c.parent with
    | none => []
    | some p =>
      let name := (reg.getClass p).name
      [.text "Inherits ", .content (.classLink (name ++ ".") name)]
  let children :=
    if c.children.isEmpty then []
    else
      [.space, .text "Inherited by "] ++
        childDrafts (c.children.map fun d => (reg.getClass d).name)
  [.headline (.classPage c.name), .text "Class ", .text c.name, .text ".", .close] ++ parent ++
    children ++ [.close]

/-- The headline of a subject. -/
def preamble (reg : Registry) : Subject → List Draft
  | .function f => functionPreamble reg f
  | .classPage c => classPreamble reg c
  | .chapter ch => [.headline (.chapter (reg.chapter ch).name)]

end CppDoc.Markup
