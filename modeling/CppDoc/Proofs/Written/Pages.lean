import CppDoc.Proofs.Manual.Layout
import CppDoc.Proofs.Page.Split
import CppDoc.Proofs.Page.Store
import Mathlib.Data.List.Flatten
import Mathlib.Data.List.Perm.Subperm

/-!
# The pages of a manual

A manual has a page for each chapter and each class that has a section, and the page is called after
it in small letters.  Where two of these names agree in small letters, two pages have the same file
name, or one page serves two classes; otherwise each of them has a file of its own, and all the files
are there once they have been written.

* `titled`: the chapters and classes that have a section; `titles`: the names of their pages;
* `begun_sections`: the pages of a manual, chapter by chapter and class by class;
* `run_pages`: the pages of a project;
* `pages_collide`: pages that are lost.
-/

namespace CppDoc.Manual

open CppDoc.Registry

/-- The chapters and classes that have a section, in the order in which the sweep reaches them. -/
def titled (reg : Registry) : List Subject :=
  (visited reg).filter fun s => !(sections reg s).isEmpty

/-- The names of their pages, without an extension. -/
def titles (reg : Registry) : List String :=
  (titled reg).map fun s => (reg.headline s).page

/-! ## Section by section -/

/-- A function does not turn the page of its class. -/
theorem begun_functions {name : String} {hs : List Headline}
    (h : ∀ g ∈ hs, ∃ f, g = .function f ∧ g.page = name) : begun (some name) hs = [] := by
  induction hs with
  | nil => rfl
  | cons g rest ih =>
      obtain ⟨f, rfl, hpage⟩ := h g List.mem_cons_self
      have hstay : Html.turns (some name) (.function f) = false := by
        rw [← hpage]
        simp [Html.turns, Headline.page]
      have hrest := ih fun g hg => h g (List.mem_cons_of_mem _ hg)
      rw [begun, hstay, hpage, hrest]
      rfl

section Sections

variable {reg : Registry}

/-- Behind the first section there are only functions. -/
theorem function_of_mem_others {s first : Subject} {others : List Subject} (hs : s ∈ visited reg)
    (h : sections reg s = first :: others) : ∀ x ∈ others, ∃ f, x = .function f := by
  cases s with
  | function f => exact absurd (List.mem_eraseDups.mp hs) (function_not_mem_itinerary f)
  | classPage c => exact function_of_mem_tail h
  | chapter ch =>
      have hnone : others = [] := by
        simp only [sections, ownSection] at h
        split at h
        · exact (List.cons.inj h).2.symm
        · cases h
      intro x hx
      rw [hnone] at hx
      exact absurd hx List.not_mem_nil

variable (hreg : reg.WellFormed)

include hreg

/-- The sections of a chapter or a class stand on its page. -/
theorem page_of_mem_sections {s x : Subject} (hs : s ∈ visited reg) (hx : x ∈ sections reg s) :
    (reg.headline x).page = (reg.headline s).page := by
  cases s with
  | function f => exact absurd (List.mem_eraseDups.mp hs) (function_not_mem_itinerary f)
  | chapter ch => rw [mem_ownSection hx]
  | classPage c => exact page_of_home (home_of_mem_class hreg hx)

/-- **One stop.**  A chapter or class that has a section begins one page at most, its own. -/
theorem begun_stop {s first : Subject} {others : List Subject} (hs : s ∈ visited reg)
    (h : sections reg s = first :: others) (current : Option String) (rest : List Headline) :
    begun current ((first :: others).map reg.headline ++ rest) =
      (if Html.turns current (reg.headline first) then [(reg.headline s).page] else []) ++
        begun (some (reg.headline s).page) rest := by
  have hpage {x : Subject} (hx : x ∈ first :: others) :
      (reg.headline x).page = (reg.headline s).page :=
    page_of_mem_sections hreg hs (h ▸ hx)
  have hothers : ∀ g ∈ others.map reg.headline,
      ∃ f, g = .function f ∧ g.page = (reg.headline s).page := by
    intro g hg
    obtain ⟨x, hx, rfl⟩ := List.mem_map.mp hg
    obtain ⟨f, rfl⟩ := function_of_mem_others hs h x hx
    exact ⟨_, rfl, hpage (List.mem_cons_of_mem first hx)⟩
  have hlast : (others.map reg.headline).foldl (fun _ g => some g.page)
      (some (reg.headline s).page) = some (reg.headline s).page := by
    refine List.foldlRecOn _ _ (motive := (· = some (reg.headline s).page)) rfl
      fun _ _ g hg => ?_
    obtain ⟨f, -, hsame⟩ := hothers g hg
    rw [hsame]
  rw [List.map_cons, List.cons_append, begun, hpage List.mem_cons_self, begun_append,
    begun_functions hothers, hlast, List.nil_append]

/-- **All stops.**  The pages that are begun are those of the stops that have a section, each at
most once. -/
theorem begun_sections {stops : List Subject} (hstops : ∀ s ∈ stops, s ∈ visited reg)
    (current : Option String) :
    (begun current ((stops.flatMap (sections reg)).map reg.headline)).Sublist
      ((stops.filter fun s => !(sections reg s).isEmpty).map fun s => (reg.headline s).page) := by
  induction stops generalizing current with
  | nil => exact List.nil_sublist _
  | cons s rest ih =>
      have hs := hstops s List.mem_cons_self
      have hrest := ih fun t ht => hstops t (List.mem_cons_of_mem s ht)
      rw [List.flatMap_cons, List.map_append]
      cases h : sections reg s with
      | nil =>
          rw [List.filter_cons_of_neg (by simp [h])]
          exact hrest current
      | cons first others =>
          rw [begun_stop hreg hs h, List.filter_cons_of_pos (by simp [h]), List.map_cons]
          split
          · exact (hrest _).cons_cons _
          · exact (hrest _).cons _

end Sections

/-! ## Whole manuals -/

section Manuals

variable {reg : Registry} (hreg : reg.WellFormed) (hundone : reg.Undone)

include hreg hundone

theorem headlines_manual :
    Event.headlines (events reg).2 = ((visited reg).flatMap (sections reg)).map reg.headline :=
  headlines_events (sweepable_of_wellFormed hreg hundone)

/-- The pages of a manual are those of its chapters and classes, each at most once. -/
theorem begun_events : (begun none (Event.headlines (events reg).2)).Sublist (titles reg) := by
  rw [headlines_manual hreg hundone]
  exact begun_sections hreg (fun _ hs => hs) none

/-- Each chapter and each class that has a section stands on a page. -/
theorem titles_begun : ∀ name ∈ titles reg, name ∈ begun none (Event.headlines (events reg).2) := by
  intro name hname
  obtain ⟨s, hs, rfl⟩ := List.mem_map.mp hname
  obtain ⟨hvisited, hsections⟩ := List.mem_filter.mp hs
  obtain ⟨first, others, h⟩ := List.exists_cons_of_ne_nil (l := sections reg s)
    (by simpa using hsections)
  have hfirst : first ∈ sections reg s := h ▸ List.mem_cons_self
  have hheadline : reg.headline first ∈ Event.headlines (events reg).2 := by
    rw [headlines_manual hreg hundone]
    exact List.mem_map_of_mem (List.mem_flatMap.mpr ⟨s, hvisited, hfirst⟩)
  rw [← page_of_mem_sections hreg hvisited hfirst]
  exact (page_mem_begun hheadline).resolve_right nofun

/-- If their names differ in small letters, each of them begins a page of its own. -/
theorem begun_eq_titles (h : (titles reg).Nodup) :
    begun none (Event.headlines (events reg).2) = titles reg := by
  have hsublist := begun_events hreg hundone
  have hsubset : titles reg ⊆ begun none (Event.headlines (events reg).2) :=
    fun name hname => titles_begun hreg hundone name hname
  exact hsublist.eq_of_length_le (h.subperm hsubset).length_le

end Manuals

/-! ## Files -/

/-- Pages with different names have different files. -/
theorem fileName_injective (format : Format) : Function.Injective format.fileName := by
  intro a b h
  unfold Format.fileName at h
  exact String.append_left_inj _ |>.mp (String.append_left_inj _ |>.mp h)

/-- The file of a page is a file of the directory that the pages are written into. -/
theorem isFileName_fileName (format : Format) {name : String} (h : '/' ∉ name.toList) :
    Path.IsFileName (format.fileName name) := by
  have hchars : (format.fileName name).toList =
      name.toList ++ '.' :: format.extension.toList := by
    simp [Format.fileName]
  have hextension : '/' ∉ '.' :: format.extension.toList ∧ 2 ≤ format.extension.toList.length := by
    cases format <;> decide
  have hlong : 3 ≤ (format.fileName name).toList.length := by
    rw [hchars, List.length_append, List.length_cons]
    omega
  refine ⟨?_, ?_, ?_⟩
  · rw [hchars, List.mem_append, not_or]
    exact ⟨h, hextension.1⟩
  · unfold Path.isIdle
    rw [Bool.or_eq_false_iff]
    constructor
    · rw [List.isEmpty_eq_false_iff, ← List.length_pos_iff]
      omega
    · apply beq_false_of_ne
      intro hdot
      rw [hdot] at hlong
      simp at hlong
  · intro hup
    rw [hup] at hlong
    exact absurd hlong (by decide)

theorem eq_of_mem_files {format : Format} {name file : String} (h : file ∈ format.files name) :
    file = format.fileName name := by
  unfold Format.files at h
  split at h
  · exact absurd h List.not_mem_nil
  · exact List.mem_singleton.mp h

/-- The pages that have a file have one each. -/
theorem nodup_files (format : Format) {names : List String} (h : names.Nodup) :
    (names.flatMap format.files).Nodup := by
  refine List.pairwise_flatMap.mpr ⟨fun name _ => ?_, ?_⟩
  · unfold Format.files
    split <;> simp
  · refine h.imp fun hne file hfile other hother hsame => hne ?_
    rw [eq_of_mem_files hfile, eq_of_mem_files hother] at hsame
    exact fileName_injective format hsame

/-! ## Projects -/

/-- **Pages.**  The pages of a project are those of the chapters and classes that have a section, each
at most once.  If the names of these differ in small letters, each of them has a page of its own, the
files of the pages have different names, and if no name contains a separator, each page is there once
the pages have been written. -/
theorem run_pages {p : Project} {t : FileTree} {final : Registry} {events : List Event}
    (hrun : p.run t = .ok (final, events)) :
    ∃ reg, p.scan t = .ok reg ∧ (titled reg).Nodup ∧ ∀ (format : Format) (owner : Owner),
      ((format.pages owner events).map Page.name).Sublist ((titles reg).flatMap format.files) ∧
      (∀ file ∈ (titles reg).flatMap format.files,
        file ∈ (format.pages owner events).map Page.name) ∧
      ((titles reg).Nodup →
        (format.pages owner events).map Page.name = (titles reg).flatMap format.files ∧
        ((format.pages owner events).map Page.name).Nodup ∧
        ((∀ name ∈ titles reg, '/' ∉ name.toList) →
          ∀ (output : String) (before after : FileTree),
            CommandLine.writePages output before (format.pages owner events) = (after, none) →
            ∀ page ∈ format.pages owner events,
              after.read (Path.join output page.name) = .text page.content)) := by
  obtain ⟨reg, hscan, rfl, rfl⟩ := Project.run_eq hrun
  have hreg := Project.wellFormed_scan hscan
  have hundone := Project.undone_scan hscan
  have hnodup : (titled reg).Nodup := (nodup_eraseDups _).filter _
  refine ⟨reg, hscan, hnodup, fun format owner => ⟨?_, ?_, fun happart => ?_⟩⟩
  · rw [names_pages]
    exact (begun_events hreg hundone).flatMap format.files
  · rw [names_pages]
    intro file hfile
    obtain ⟨name, hname, hfile⟩ := List.mem_flatMap.mp hfile
    exact List.mem_flatMap.mpr ⟨name, titles_begun hreg hundone name hname, hfile⟩
  · have hnames : (format.pages owner (Manual.events reg).2).map Page.name =
        (titles reg).flatMap format.files := by
      rw [names_pages, begun_eq_titles hreg hundone happart]
    have hdistinct := nodup_files format happart
    rw [← hnames] at hdistinct
    refine ⟨hnames, hdistinct, fun hplain output before after hwritten page hpage => ?_⟩
    refine (CommandLine.stored_writePages (fun other hother => ?_) hdistinct hwritten page
      hpage).read
    have hfile : other.name ∈ (titles reg).flatMap format.files := by
      rw [← hnames]
      exact List.mem_map_of_mem hother
    obtain ⟨name, hname, hfile⟩ := List.mem_flatMap.mp hfile
    rw [eq_of_mem_files hfile]
    exact isFileName_fileName format (hplain name hname)

theorem run_pages_foo :
    ∃ final events reg, Project.small.run fooTree = .ok (final, events) ∧
      final.diagnostics = [] ∧ Project.small.scan fooTree = .ok reg ∧ titles reg = ["foo"] ∧
      ∀ (format : Format) (owner : Owner),
        (format.pages owner events).map Page.name = ["foo"].flatMap format.files ∧
        ∀ (output : String) (before after : FileTree),
          CommandLine.writePages output before (format.pages owner events) = (after, none) →
          ∀ page ∈ format.pages owner events,
            after.read (Path.join output page.name) = .text page.content := by
  have htitles : (Project.small.scan fooTree).toOption.map titles = some ["foo"] := by
    rw [fooTree, Project.scan_small]
    decide +kernel
  obtain ⟨final, events, hrun, hquiet⟩ := run_foo
  obtain ⟨reg, hscan, _, hpages⟩ := run_pages hrun
  obtain ⟨scanned, hscanned, hfoo⟩ := Project.exists_of_toOption_map htitles
  obtain rfl : reg = scanned := Except.ok.inj (hscan.symm.trans hscanned)
  refine ⟨final, events, reg, hrun, hquiet, hscan, hfoo, fun format owner => ?_⟩
  have happart := (hpages format owner).2.2
  rw [hfoo] at happart
  obtain ⟨hnames, _, hkept⟩ := happart (by decide)
  exact ⟨hnames, hkept (by decide)⟩

/-- The names of the pages of a result, in each format. -/
def pageNames (result : Registry × List Event) : List (List String) :=
  [Format.html, Format.markdown, Format.json].map fun format =>
    (format.pages ⟨"", ""⟩ result.2).map Page.name

/-- The tree after the web pages of a result have been written into the current directory, and the
complaint about a page that could not be written. -/
def publish (result : Registry × List Event) : FileTree × Option String :=
  CommandLine.writePages "." ⟨[(["/"], .directory)]⟩ (Format.html.pages ⟨"", ""⟩ result.2)

/-- **Lost pages.**  Two classes whose names differ only in the size of their letters have pages of
one name.  Two chapters whose names contain separators have pages with different names, but these are
paths to the same file.  Nothing is reported. -/
theorem pages_collide :
    ((Project.small.run (Project.smallTree
        "class Foo \x7b\n  void bar();\n\x7d;\nclass FOO \x7b\n  void bar();\n\x7d;\n"
        ("#include \"foo.h\"\n/*! \\class Foo foo.h\n  A foo.\n*/\n" ++
          "/*! \\fn void Foo::bar()\n  \\internal Hidden.\n*/\n" ++
          "/*! \\class FOO foo.h\n  Another foo.\n*/\n" ++
          "/*! \\fn void FOO::bar()\n  \\internal Hidden.\n*/\n"))).toOption.map
      fun result => (result.1.diagnostics, pageNames result)) =
      some ([], [["foo.html", "foo.html"], ["foo.md", "foo.md"], ["foo.json", "foo.json"]]) ∧
    ((Project.small.run (Project.smallTree
        "class Foo \x7b\n  void bar();\n\x7d;\nclass Baz \x7b\n  void bar();\n\x7d;\n"
        ("#include \"foo.h\"\n/*! \\chapter // a\nb\n  \\introduces Foo\n*/\n" ++
          "/*! \\chapter //// a\nb\n  \\introduces Baz\n*/\n" ++
          "/*! \\class Foo foo.h\n  \\internal Hidden.\n*/\n" ++
          "/*! \\fn void Foo::bar()\n  \\internal Hidden.\n*/\n" ++
          "/*! \\class Baz foo.h\n  \\internal Hidden.\n*/\n" ++
          "/*! \\fn void Baz::bar()\n  \\internal Hidden.\n*/\n"))).toOption.map
      fun result => (result.1.diagnostics, (pageNames result).head?,
        (publish result).1.entries.map Prod.fst, (publish result).2)) =
      some ([], some ["// a b.html", "//// a b.html"], [["/"], ["/", " a b.html"]], none) := by
  rw [Project.run_small, Project.run_small]
  constructor <;> decide +kernel

end CppDoc.Manual
