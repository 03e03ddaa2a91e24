import CppDoc.Project
import CppDoc.Proofs.Reading.Comment

/-!
# What a project enters

The source files of a project are scanned one after another, together with the headers that their
comments name, and then the classes are linked.  All that the files say is there by then, and nothing
of the manual is.

* `entries_scanAll`: what scanning the sources enters;
* `wellFormed_scan` and `undone_scan`: what the manual of a project starts from;
* `small`: a project of one source file and one header.
-/

namespace CppDoc

open CppDoc.Registry

/-! ## Scanning the sources -/

theorem entries_scanSourceFile (tree : FileTree) {reg : Registry} (hreg : reg.WellFormed)
    (path : String) : Entries reg (Comment.scanSourceFile tree reg path).1 := by
  unfold Comment.scanSourceFile
  split
  · rename_i text _
    have hadd : Entries reg (reg.addFile { path, kind := .source, text }).2 := .single (.addFile _)
    have hfile : (reg.addFile { path, kind := .source, text }).2.HasFile
        (reg.addFile { path, kind := .source, text }).1 := by simp [HasFile, Registry.addFile]
    have hscan := Comment.entries_scan tree (hadd.edits.wellFormed hreg) hfile
    dsimp only
    split
    all_goals
      rename_i hresult
      rw [hresult] at hscan
      exact hadd.trans hscan
  · exact .refl reg

/-- **Sources.**  Scanning them one after another enters what each of them says. -/
theorem entries_scanAll {tree : FileTree} {reg reg' : Registry} {paths : List String}
    (hreg : reg.WellFormed) (h : Project.scanAll tree reg paths = .ok reg') : Entries reg reg' := by
  induction paths generalizing reg with
  | nil =>
      obtain rfl := Except.ok.inj h
      exact .refl reg
  | cons path rest ih =>
      have hfirst := entries_scanSourceFile tree hreg path
      unfold Project.scanAll at h
      split at h
      · exact nomatch h
      · rename_i next id hnext
        rw [hnext] at hfirst
        exact hfirst.trans (ih (hfirst.edits.wellFormed hreg) h)

/-! ## Linking the classes -/

theorem undone_linkParent {reg : Registry} (h : reg.Undone) (id : ClassId) :
    (reg.linkParent id).Undone := by
  simp only [linkParent]
  split
  · exact h
  split
  · rename_i parent _
    have hset : (reg.editClass id fun c => { c with parent := some parent }).Undone :=
      undone_editClass h id fun _ => rfl
    unfold addChild
    refine undone_editClass hset parent fun c => ?_
    split <;> rfl
  · unfold reportAt
    split <;> exact h

/-- Linking the classes marks none of them. -/
theorem undone_buildHierarchy {reg : Registry} (h : reg.Undone) : reg.buildHierarchy.Undone := by
  unfold buildHierarchy
  split
  · exact h
  · have hbuilt : Undone { reg with hierarchyBuilt := true } := h
    exact List.foldlRecOn _ _ hbuilt fun reg' hreg' id _ => undone_linkParent hreg' id

/-! ## The whole scan -/

namespace Project

variable {p : Project} {t : FileTree} {reg : Registry}

/-- A scan that does not fail has entered what the sources say, and linked the classes. -/
theorem scan_eq (h : p.scan t = .ok reg) :
    ∃ entered, Entries .empty entered ∧ reg = entered.buildHierarchy := by
  simp only [scan, bind, Except.bind, pure, Except.pure] at h
  split at h
  · exact nomatch h
  · split at h
    · exact nomatch h
    · rename_i entered hentered
      exact ⟨entered, entries_scanAll wellFormed_empty hentered, (Except.ok.inj h).symm⟩

theorem wellFormed_scan (h : p.scan t = .ok reg) : reg.WellFormed := by
  obtain ⟨entered, hentries, rfl⟩ := scan_eq h
  have hentered := hentries.edits.wellFormed wellFormed_empty
  exact (leads_buildHierarchy entered hentered).wellFormed hentered

/-- The manual is still to be drafted. -/
theorem undone_scan (h : p.scan t = .ok reg) : reg.Undone := by
  obtain ⟨entered, hentries, rfl⟩ := scan_eq h
  have hempty : Registry.empty.Undone := fun c hc => nomatch hc
  exact undone_buildHierarchy (hentries.undone hempty)

/-- A run drafts the manual of what has been scanned. -/
theorem run_eq {final : Registry} {events : List Event} (h : p.run t = .ok (final, events)) :
    ∃ reg, p.scan t = .ok reg ∧ final = (Manual.events reg).1 ∧ events = (Manual.events reg).2 := by
  unfold run at h
  cases hscan : p.scan t with
  | error e =>
      rw [hscan] at h
      exact nomatch h
  | ok reg =>
      rw [hscan] at h
      have hresult : Manual.events reg = (final, events) := Except.ok.inj h
      exact ⟨reg, rfl, (congrArg Prod.fst hresult).symm, (congrArg Prod.snd hresult).symm⟩

/-! ## A small project -/

/-- What is read off a result is read off a success. -/
theorem exists_of_toOption_map {ε α β : Type} {result : Except ε α} {f : α → β} {b : β}
    (h : result.toOption.map f = some b) : ∃ a, result = .ok a ∧ f a = b := by
  cases result with
  | error e => exact nomatch h
  | ok a => exact ⟨a, rfl, Option.some.inj h⟩

/-- The files of a project of one source file and one header. -/
def smallTree (header source : String) : FileTree :=
  ⟨[(["src"], .directory), (["src", "foo.cpp"], .file (some source)),
    (["src", "foo.h"], .file (some header))]⟩

/-- A project of one source file. -/
def small : Project :=
  { root := "src", suffix := ".cpp" }

theorem sources_small (header source : String) :
    small.sources (smallTree header source) = .ok ["src/foo.cpp"] := by
  have hroot : (smallTree header source).isDirectory "src" = true := by rfl
  have hfound : Discovery.candidates (smallTree header source) "src" ".cpp" = ["src/foo.cpp"] := by
    rfl
  have hfile : ["src/foo.cpp"].filter (smallTree header source).isFile = ["src/foo.cpp"] := by rfl
  have hdiscover : Discovery.discover (smallTree header source) "src" ".cpp" = ["src/foo.cpp"] := by
    rw [Discovery.discover, hfound, hfile, List.mergeSort_singleton, Discovery.dropRepeats]
  simp [sources, small, hroot, hdiscover]

/-- What is known of the small project. -/
theorem scan_small (header source : String) :
    small.scan (smallTree header source) =
      (scanAll (smallTree header source) .empty ["src/foo.cpp"]).map Registry.buildHierarchy := by
  simp only [scan, sources_small, bind, Except.bind, pure, Except.pure]
  cases scanAll (smallTree header source) .empty ["src/foo.cpp"] <;> rfl

/-- What comes of the small project. -/
theorem run_small (header source : String) :
    small.run (smallTree header source) =
      (scanAll (smallTree header source) .empty ["src/foo.cpp"]).map
        fun reg => Manual.events reg.buildHierarchy := by
  rw [run, scan_small]
  cases scanAll (smallTree header source) .empty ["src/foo.cpp"] <;> rfl

end Project

end CppDoc
