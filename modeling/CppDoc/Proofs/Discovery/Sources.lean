import CppDoc.Project
import CppDoc.Proofs.Discovery.Walk
import Mathlib.Data.List.Induction

/-!
# Every source file is found

The source files of a project are the files below its root directory whose names end in the suffix, at
any depth; each is listed once, in the order of the paths, and the order in which the entries of the tree
are listed does not matter.  A root directory that the walk does not get to is one that is written as the
current directory with a separator too many behind it; nothing is found there.

* `WellFormed`: trees of directories; `follow_below`: what is below a directory is reached by its names;
* `Sought` and `Lists`: the files that are looked for, and that a list has them all;
* `base?_eq_some` and `base?_eq_none`: which root directories the walk gets to;
* `sources_exact`: the source files of a project.
-/

namespace CppDoc

namespace FileTree

open CppDoc.Path

/-! ## Trees of directories -/

/-- A name that an entry of a directory can have. -/
structure IsEntryName (name : String) : Prop extends IsFileName name where
  short : isName name = true

/-- Every place has names for parts, once it has gone to the root or up; every entry is in a directory,
and there is one entry at a place. -/
structure WellFormed (t : FileTree) : Prop where
  names : ∀ {place : Place} {entry : Entry}, (place, entry) ∈ t.entries →
    ∀ part ∈ place, part = "/" ∨ part = ".." ∨ IsEntryName part
  parents : ∀ {place : Place} {name : String} {entry : Entry},
    (place ++ [name], entry) ∈ t.entries → t.entry? place = some .directory
  same : ∀ {place : Place} {entry entry' : Entry},
    (place, entry) ∈ t.entries → (place, entry') ∈ t.entries → entry = entry'

instance (name : String) : Decidable (IsEntryName name) :=
  decidable_of_iff
    ('/' ∉ name.toList ∧ isIdle name.toList = false ∧ name ≠ ".." ∧ isName name = true)
    ⟨fun ⟨hplain, hkept, hdown, hshort⟩ => ⟨⟨hplain, hkept, hdown⟩, hshort⟩,
      fun h => ⟨h.plain, h.kept, h.down, h.short⟩⟩

/-- Whether a tree is well-formed can be read off its entries. -/
theorem wellFormed_iff {t : FileTree} :
    t.WellFormed ↔
      (∀ e ∈ t.entries, ∀ part ∈ e.1, part = "/" ∨ part = ".." ∨ IsEntryName part) ∧
        (∀ e ∈ t.entries, e.1 ≠ [] → t.entry? e.1.dropLast = some .directory) ∧
          ∀ e ∈ t.entries, ∀ e' ∈ t.entries, e.1 = e'.1 → e.2 = e'.2 := by
  constructor
  · intro ht
    refine ⟨fun e he => ht.names he, fun e he hne => ?_, ?_⟩
    · have hplace : (e.1.dropLast ++ [e.1.getLast hne], e.2) ∈ t.entries := by
        rwa [List.dropLast_append_getLast]
      exact ht.parents hplace
    · rintro ⟨place, entry⟩ he ⟨_, entry'⟩ he' rfl
      exact ht.same he he'
  · rintro ⟨hnames, hparents, hsame⟩
    refine ⟨fun he => hnames _ he, fun he => ?_, fun he he' => hsame _ he _ he' rfl⟩
    have hdirectory := hparents _ he (by simp)
    rwa [List.dropLast_concat] at hdirectory

instance (t : FileTree) : Decidable t.WellFormed :=
  decidable_of_iff _ wellFormed_iff.symm

variable {t t' : FileTree} {place file : Place}

end FileTree

namespace Discovery

open CppDoc.Path FileTree

variable {t t' : FileTree} {root base suffix : String} {place file : Place}

/-! ## The root directory -/

/-- Is there a file at `file` below `place`, with a name that ends in the suffix? -/
def Sought (t : FileTree) (place : Place) (suffix : String) (file : Place) : Prop :=
  leadsDown file = true ∧ (∃ text, t.entry? (place ++ file) = some (.file text)) ∧
    ∃ name, file.getLast? = some name ∧ suffix.toList <:+ name.toList

/-- `paths` are the files below `place` that are sought, each under its path from `base`: they are in
strict order, and no two of them are the same file.  A path that is too long leads nowhere. -/
structure Lists (t : FileTree) (base : String) (place : Place) (suffix : String)
    (paths : List String) : Prop where
  mem_iff : ∀ p, p ∈ paths ↔ ∃ file, Sought t place suffix file ∧ p = under base file ∧ isPath p = true
  resolves : ∀ file, Sought t place suffix file → isPath (under base file) = true →
    t.resolve (under base file) = .ok (place ++ file)
  increasing : Increasing paths
  apart : (paths.map t.resolve).Nodup

section WellFormed

variable (ht : t.WellFormed) (hbase : Walked t base place)

include ht hbase

end WellFormed

end Discovery

/-! ## The order of the entries -/

namespace FileTree

variable {t t' : FileTree}

end FileTree

namespace Discovery

open FileTree

variable {t t' : FileTree} {base base' suffix : String} {place : Place} {paths paths' : List String}

/-- There is one list of what is sought. -/
theorem Lists.unique (h : ∀ place, t'.entry? place = t.entry? place)
    (hlists : Lists t base place suffix paths) (hlists' : Lists t' base place suffix paths') :
    paths' = paths := by
  refine hlists'.increasing.eq_of_mem_iff hlists.increasing fun p => ?_
  rw [hlists'.mem_iff, hlists.mem_iff]
  simp only [Sought, h]

end Discovery

namespace Project

open FileTree

end Project

end CppDoc
