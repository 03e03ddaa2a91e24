import CppDoc.Path
import CppDoc.Registry.Basic

/-!
# The headers of a registry

A header is kept under the path that it was read from, and looked for by the name that a comment gives
it.  The search answers for every path that ends in the name, so a header that has been read for a name
is found by it again, in whatever directory it was looked for.

* `Path.Names` and `Path.names_join`: which paths a name stands for;
* `findHeader?_isSome_iff`: what the search finds;
* `Gathers`: files are only added, and a header only under a path that is new.
-/

namespace CppDoc

/-- Does `name` stand for a file with this path? -/
def Path.Names (name path : String) : Prop :=
  path = name ∨ '/' :: name.toList <:+ path.toList

/-- A name stands for the file that it leads to from any directory. -/
theorem Path.names_join (dir name : String) : Names name (join dir name) := by
  unfold join
  split
  · exact .inl rfl
  split
  · rename_i hslash
    -- the separator is the last character of the directory
    obtain ⟨front, hfront⟩ := List.getLast?_eq_some_iff.mp (eq_of_beq hslash)
    refine .inr ⟨front, ?_⟩
    rw [String.toList_append, hfront]
    simp
  · exact .inr ⟨dir.toList, by simp⟩

namespace Registry

/-- The paths of the headers, in the order in which they were read. -/
def headerPaths (reg : Registry) : List String :=
  (reg.files.filter (·.kind == .header)).map SourceFile.path

theorem mem_headerPaths {reg : Registry} {path : String} :
    path ∈ reg.headerPaths ↔ ∃ f ∈ reg.files, f.kind = .header ∧ f.path = path := by
  simp [headerPaths, and_assoc]

/-- **The search** finds something if and only if the name stands for one of the headers. -/
theorem findHeader?_isSome_iff {reg : Registry} {name : String} :
    (reg.findHeader? name).isSome ↔ ∃ path ∈ reg.headerPaths, Path.Names name path := by
  have hmatch (f : SourceFile) :
      (f.kind == .header && (f.path == name || ('/' :: name.toList).isSuffixOf f.path.toList)) = true ↔
        f.kind = .header ∧ Path.Names name f.path := by
    simp [Path.Names, List.isSuffixOf_iff_suffix]
  simp only [findHeader?, Option.isSome_map, List.findIdx?_isSome, List.any_eq_true, hmatch,
    mem_headerPaths]
  constructor
  · rintro ⟨f, hf, hkind, hnames⟩
    exact ⟨f.path, ⟨f, hf, hkind, rfl⟩, hnames⟩
  · rintro ⟨path, ⟨f, hf, hkind, rfl⟩, hnames⟩
    exact ⟨f, hf, hkind, hnames⟩

/-! ## Files that are added -/

/-- `reg'` has the files of `reg`, and no header twice if `reg` has none twice. -/
structure Gathers (reg reg' : Registry) : Prop where
  files : reg.files <+: reg'.files
  nodup : reg.headerPaths.Nodup → reg'.headerPaths.Nodup

/-- What changes no file. -/
theorem Gathers.of_files_eq {reg reg' : Registry} (h : reg'.files = reg.files) : Gathers reg reg' where
  files := h ▸ List.prefix_rfl
  nodup := by
    unfold headerPaths
    rw [h]
    exact id

theorem Gathers.refl (reg : Registry) : Gathers reg reg :=
  .of_files_eq rfl

theorem Gathers.trans {a b c : Registry} (hab : Gathers a b) (hbc : Gathers b c) : Gathers a c where
  files := hab.files.trans hbc.files
  nodup := fun h => hbc.nodup (hab.nodup h)

/-- What is found stays found. -/
theorem Gathers.finds {reg reg' : Registry} (h : Gathers reg reg') {name : String}
    (hfound : (reg.findHeader? name).isSome) : (reg'.findHeader? name).isSome := by
  obtain ⟨path, hpath, hnames⟩ := findHeader?_isSome_iff.mp hfound
  obtain ⟨f, hf, hkind, rfl⟩ := mem_headerPaths.mp hpath
  have hthere : f.path ∈ reg'.headerPaths := mem_headerPaths.mpr ⟨f, h.files.subset hf, hkind, rfl⟩
  exact findHeader?_isSome_iff.mpr ⟨f.path, hthere, hnames⟩

variable (reg : Registry)

theorem headerPaths_addFile (file : SourceFile) :
    (reg.addFile file).2.headerPaths =
      reg.headerPaths ++ if file.kind = .header then [file.path] else [] := by
  by_cases hkind : file.kind = .header <;> simp [headerPaths, addFile, hkind]

/-- A source file is added. -/
theorem gathers_addSource (path text : String) :
    Gathers reg (reg.addFile { path, kind := .source, text }).2 where
  files := List.prefix_append _ _
  nodup := by
    rw [headerPaths_addFile]
    simp

/-- **A header is added** that has been looked for by name, and not found. -/
theorem gathers_addHeader {name : String} (hnone : (reg.findHeader? name).isSome = false)
    (dir text : String) :
    Gathers reg (reg.addFile { path := Path.join dir name, kind := .header, text }).2 where
  files := List.prefix_append _ _
  nodup := fun hnodup => by
    rw [headerPaths_addFile, if_pos rfl, List.nodup_append]
    have hfresh : Path.join dir name ∉ reg.headerPaths := fun hmem => by
      have hfound := findHeader?_isSome_iff.mpr ⟨_, hmem, Path.names_join dir name⟩
      rw [hnone] at hfound
      exact nomatch hfound
    refine ⟨hnodup, by simp, ?_⟩
    rintro path hpath _ hnew rfl
    obtain rfl : path = Path.join dir name := List.mem_singleton.mp hnew
    exact hfresh hpath

/-- The header that is added is found by its name. -/
theorem findHeader?_addHeader (dir name text : String) :
    ((reg.addFile { path := Path.join dir name, kind := .header, text }).2.findHeader? name).isSome := by
  have hthere : Path.join dir name ∈
      (reg.addFile { path := Path.join dir name, kind := .header, text }).2.headerPaths := by
    rw [headerPaths_addFile]
    simp
  exact findHeader?_isSome_iff.mpr ⟨_, hthere, Path.names_join dir name⟩

/-! ## Operations that add no file -/

theorem files_classNamed (name : String) : (reg.classNamed name).2.files = reg.files := by
  unfold classNamed
  split <;> rfl

theorem files_declare (returnType name parameters : String) (isConst : Bool) (origin : Location) :
    (reg.declare returnType name parameters isConst origin).2.files = reg.files := by
  unfold declare
  split
  · rfl
  · unfold addFunction
    split
    · rfl
    · exact files_classNamed reg _

theorem files_attachDoc (block : DocBlock) : (reg.attachDoc block).2.files = reg.files := by
  unfold attachDoc
  cases block.subject <;> rfl

end Registry

end CppDoc
