import CppDoc.Registry.Basic

/-!
# The class hierarchy

Classes are declared with the names of their parents.  `buildHierarchy` links each class to the
class of that name, once all of them are known.

* `ancestors` walks the links upwards.  They may form a cycle, so the walk keeps the classes that it
  has not met and stops at the first one that it has;
* `overridden` is the nearest function of an ancestor that a function reimplements.
-/

namespace CppDoc

open CppDoc.Text

/-- The name of a parent without its template arguments. -/
def baseName (parentName : String) : String :=
  String.ofList (trim (parentName.toList.takeWhile (· != '<')))

namespace Registry

/-- Adds `child` to the children of `parent`, before the first one with a greater name. -/
def addChild (reg : Registry) (parent child : ClassId) : Registry :=
  let name := (reg.getClass child).name
  reg.editClass parent fun c =>
    if c.children.contains child then c
    else
      let precedes (other : ClassId) : Bool := !(name < (reg.getClass other).name)
      { c with
        children := c.children.takeWhile precedes ++ child :: c.children.dropWhile precedes }

/-- Links a class to its parent, or reports that the parent is unknown. -/
def linkParent (reg : Registry) (id : ClassId) : Registry :=
  let c := reg.getClass id
  let base := baseName c.parentName
  if base.isEmpty then reg
  else
    match reg.findClass? base with
    | some parent => (reg.editClass id fun c => { c with parent := some parent }).addChild parent id
    | none => reg.reportAt c.origin (.unknownParent c.name c.parentName)

/-- Links every class to its parent.  Nothing happens the second time. -/
def buildHierarchy (reg : Registry) : Registry :=
  if reg.hierarchyBuilt then reg
  else reg.classIds.foldl linkParent { reg with hierarchyBuilt := true }

/-- The classes met on the way up from the parent `next`, as long as they are among `fresh`. -/
def ancestorsAmong (reg : Registry) (fresh : List ClassId) (next : Option ClassId) :
    List ClassId :=
  match next with
  | none => []
  | some p =>
    if _h : p ∈ fresh then p :: ancestorsAmong reg (fresh.erase p) (reg.getClass p).parent else []
termination_by fresh.length
decreasing_by
  have := List.length_erase_of_mem _h
  have := List.length_pos_of_mem _h
  omega

/-- The ancestors of a class, nearest first; the class itself is none of them. -/
def ancestors (reg : Registry) (id : ClassId) : List ClassId :=
  reg.ancestorsAmong (reg.classIds.erase id) (reg.getClass id).parent

/-- Does `g` reimplement `f`, or would if their classes were related? -/
def sameMember (f g : Function) : Bool :=
  g.member == f.member && g.signature == f.signature && g.isConst == f.isConst

/-- The nearest function of an ancestor that the function reimplements. -/
def overridden (reg : Registry) (id : FunctionId) : Option FunctionId :=
  let f := reg.function id
  (reg.ancestors f.owner).findSome? fun a =>
    (reg.getClass a).members.find? fun m => sameMember f (reg.function m)

end Registry

end CppDoc
