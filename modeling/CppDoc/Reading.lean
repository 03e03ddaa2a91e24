import CppDoc.Cursor
import CppDoc.Registry.Basic
import CppDoc.Syntax.Gap

/-!
# Reading a file

A file is read from its start to its end, and what is found is entered into the registry.  `Reading`
is the state of that: the registry, the file, and the cursor in its text.

`iterate` repeats a step for as long as the step asks for it and has taken characters off the text,
so that every loop over a text ends.
-/

namespace CppDoc

/-- Repeats a step on a state for as long as it asks for more and has made the state smaller. -/
def iterate {σ : Type} (size : σ → Nat) (step : σ → Bool × σ) (s : σ) : σ :=
  let next := step s
  if _h : next.1 = true ∧ size next.2 < size s then iterate size step next.2 else next.2
termination_by size s
decreasing_by exact _h.2

/-- The characters left of a text. -/
def Cursor.left (c : Cursor) : Nat :=
  c.rest.length

/-- The cursor behind the blanks and comments that follow it. -/
def Cursor.skipGap (c : Cursor) : Cursor :=
  c.skip (Syntax.gap c.rest)

/-- A file being read. -/
structure Reading where
  registry : Registry
  file : FileId
  cursor : Cursor
  deriving Repr

namespace Reading

/-- Begins to read a file of the registry. -/
def begin (reg : Registry) (file : FileId) : Reading :=
  { registry := reg, file, cursor := Cursor.ofText (reg.file file).text.toList }

/-- The characters left of the file. -/
def left (r : Reading) : Nat :=
  r.cursor.left

/-- Is nothing left of the file? -/
def atEnd (r : Reading) : Bool :=
  r.cursor.atEnd

/-- Does `pat` come next? -/
def lookingAt (r : Reading) (pat : String) : Bool :=
  r.cursor.lookingAt pat

/-- Moves the cursor. -/
def move (r : Reading) (f : Cursor → Cursor) : Reading :=
  { r with cursor := f r.cursor }

/-- Moves over one character. -/
def step (r : Reading) : Reading :=
  r.move Cursor.step

/-- Moves over blanks and comments. -/
def skipGap (r : Reading) : Reading :=
  r.move Cursor.skipGap

/-- Moves behind the next `pat`. -/
def past (r : Reading) (pat : String) : Reading :=
  r.move (·.past pat)

/-- Reads a value. -/
def read {α : Type} (r : Reading) (reader : List Char → α × Nat) : α × Reading :=
  let (value, c) := r.cursor.read reader
  (value, { r with cursor := c })

/-- The line of what comes next. -/
def line (r : Reading) : Nat × Reading :=
  let (n, c) := r.cursor.line
  (n, { r with cursor := c })

/-- Reports a problem on a line of the file. -/
def report (r : Reading) (line : Nat) (problem : Problem) : Reading :=
  { r with registry := r.registry.report ⟨r.file, line⟩ problem }

/-- Reports a problem on the line of what comes next. -/
def reportHere (r : Reading) (problem : Problem) : Reading :=
  let (line, r) := r.line
  r.report line problem

/-- Finds or adds the class of a name. -/
def classNamed (r : Reading) (name : String) : ClassId × Reading :=
  let (id, reg) := r.registry.classNamed name
  (id, { r with registry := reg })

/-- Enters the declaration of a function. -/
def declare (r : Reading) (returnType name parameters : String) (isConst : Bool) (line : Nat) :
    Option FunctionId × Reading :=
  let (f, reg) := r.registry.declare returnType name parameters isConst ⟨r.file, line⟩
  (f, { r with registry := reg })

end Reading

end CppDoc
