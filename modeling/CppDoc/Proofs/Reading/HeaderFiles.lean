import CppDoc.Proofs.Reading.Enclosed
import Mathlib.Logic.Relation

/-!
# Headers are read once

A header is read for a comment that names it for a class, unless a header that goes by the name has been
read before.  So no header is read twice, whatever files are read one after the other; and a comment
that does not report its header as missing leaves a registry in which the header is found by the name
that the comment gives it, from then on.

* `Run` and `Run.gathers`: what one call adds to a registry;
* `Accounted` and `accounted_scanComment`: the header of one comment is found, or reported;
* `headers_read_once`: both together, for every sequence of calls.
-/

namespace CppDoc.Comment

open CppDoc.Registry CppDoc.Syntax Reading

/-! ## Calls -/

/-- One call that reads files, and the registry that it leaves. -/
inductive Run (reg : Registry) : Registry → Prop
  | addSource (path text : String) : Run reg (reg.addFile { path, kind := .source, text }).2
  | scan (tree : FileTree) {file : FileId} (hfile : reg.HasFile file) :
      Run reg (Comment.scan tree reg file).1
  | scanSourceFile (tree : FileTree) (path : String) : Run reg (scanSourceFile tree reg path).1

theorem gathers_scanSourceFile (tree : FileTree) (reg : Registry) (path : String) :
    Gathers reg (scanSourceFile tree reg path).1 := by
  unfold scanSourceFile
  split
  · rename_i text _
    have hadd := gathers_addSource reg path text
    have hscan := gathers_scan tree (reg.addFile { path, kind := .source, text }).2
      (reg.addFile { path, kind := .source, text }).1
    dsimp only
    split
    all_goals
      rename_i heq
      rw [heq] at hscan
      exact hadd.trans hscan
  · exact .refl reg

/-- **A step.**  A call only adds files, and no header twice. -/
theorem Run.gathers {reg reg' : Registry} (h : Run reg reg') : Gathers reg reg' := by
  cases h with
  | addSource path text => exact gathers_addSource reg path text
  | scan tree _ => exact gathers_scan tree reg _
  | scanSourceFile tree path => exact gathers_scanSourceFile tree reg path

/-- What calls make of a registry, one after the other. -/
def Runs : Registry → Registry → Prop :=
  Relation.ReflTransGen Run

/-- **A run.** -/
theorem Runs.gathers {reg reg' : Registry} (h : Runs reg reg') : Gathers reg reg' := by
  induction h with
  | refl => exact .refl reg
  | tail _ last ih => exact ih.trans last.gathers

/-! ## The header of a comment -/

/-- A header that a comment names for a class is found in `reg'`, or it has been reported since `reg`
that it is missing. -/
def Accounted (className header : String) (reg reg' : Registry) : Prop :=
  (reg'.findHeader? header).isSome ∨
    ∃ path, ∃ d ∈ reg'.diagnostics.drop reg.diagnostics.length,
      d.problem = .headerNotFound path className

section Accounted

variable {className header : String} {reg reg' later : Registry}

/-- The header stays found, or reported. -/
theorem Accounted.onward (h : Accounted className header reg reg') (hfiles : later.files = reg'.files)
    (hreports : reg'.diagnostics <+: later.diagnostics) : Accounted className header reg later := by
  rcases h with hfound | ⟨path, d, hd, hproblem⟩
  · exact .inl ((Gathers.of_files_eq hfiles).finds hfound)
  · exact .inr ⟨path, d, (hreports.drop _).subset hd, hproblem⟩

/-- A report that is added to those of `reg`, and perhaps to others, is a later one. -/
theorem accounted_report (hreports : reg.diagnostics <+: reg'.diagnostics) (site : Location)
    (path : String) :
    Accounted className header reg (reg'.report site (.headerNotFound path className)) := by
  refine .inr ⟨path, ⟨site, _⟩, ?_, rfl⟩
  rw [Registry.report, List.drop_append_of_le_length hreports.length_le]
  exact List.mem_append_right _ (List.mem_singleton_self _)

end Accounted

private theorem diagnostics_classNamed (reg : Registry) (name : String) :
    (reg.classNamed name).2.diagnostics = reg.diagnostics := by
  unfold Registry.classNamed
  split <;> rfl

private theorem diagnostics_attachDoc (reg : Registry) (block : DocBlock) :
    (reg.attachDoc block).2.diagnostics = reg.diagnostics := by
  unfold attachDoc
  cases block.subject <;> rfl

/-- **Names of headers.**  A header that is required is found by its name then, or it is missing. -/
theorem findHeader?_requireHeader {tree : FileTree} {className header : String} {line : Nat}
    {r r' : Reading} (h : requireHeader tree className header line r = .ok r') :
    (r'.registry.findHeader? header).isSome ∨
      ∃ path, r' = r.report line (.headerNotFound path className) := by
  obtain ⟨hfound, rfl⟩ | ⟨-, path, rfl, ⟨-, rfl⟩ | ⟨text, -, rfl⟩⟩ := requireHeader_cases h
  · exact .inl hfound
  · exact .inr ⟨_, rfl⟩
  · exact .inl ((Header.gathers_scan _ _).finds (findHeader?_addHeader _ _ _ _))

/-- What a directive about a class says has been entered: its header is accounted for. -/
theorem accounted_enter {tree : FileTree} {line nameLine : Nat} {name header : String}
    {r r' : Reading} {binding : Binding} (hheader : ".h".toList <:+ header.toList)
    (h : (Tokens.classPage name header).enter tree line nameLine r = .ok (binding, r')) :
    Accounted name header r.registry r'.registry := by
  have hsuffix : (!".h".toList.isSuffixOf header.toList) = false := by
    simpa [List.isSuffixOf_iff_suffix] using hheader
  have hunnamed : r.registry.diagnostics <+:
      (if name.isEmpty then r.report line .unnamedClass else r).registry.diagnostics := by
    split
    · exact List.prefix_append _ _
    · exact List.prefix_rfl
  simp only [Tokens.enter, hsuffix, Bool.false_eq_true, if_false] at h
  generalize (if name.isEmpty then r.report line .unnamedClass else r) = r₁ at h hunnamed
  have hnamed : (r₁.classNamed name).2.registry.diagnostics = r₁.registry.diagnostics :=
    diagnostics_classNamed r₁.registry name
  have hincluded (b : Bool) : r.registry.diagnostics <+: (if b then (r₁.classNamed name).2
      else (r₁.classNamed name).2.report line (.headerNotIncluded header)).registry.diagnostics := by
    refine hunnamed.trans ?_
    rw [← hnamed]
    split
    · exact List.prefix_rfl
    · exact List.prefix_append _ _
  split at h
  · cases h
  · rename_i r₃ hrequired
    have hafter : Accounted name header r.registry r₃.registry := by
      rcases findHeader?_requireHeader hrequired with hfound | ⟨path, rfl⟩
      · exact .inl hfound
      · exact accounted_report (hincluded _) _ path
    obtain ⟨-, rfl⟩ := Prod.mk.inj (Except.ok.inj h)
    split
    · exact hafter.onward rfl (List.prefix_append _ _)
    · exact hafter

theorem files_settle (line : Nat) (found : Finding) (r : Reading) :
    (settle line found r).registry.files = r.registry.files := by
  unfold settle
  split
  · rfl
  · split
    · rfl
    · split
      · exact files_attachDoc _ _
      · rfl

theorem diagnostics_settle (line : Nat) (found : Finding) (r : Reading) :
    r.registry.diagnostics <+: (settle line found r).registry.diagnostics := by
  unfold settle
  split
  · exact List.prefix_rfl
  · split
    · exact List.prefix_append _ _
    · split
      · exact diagnostics_attachDoc _ _ ▸ List.prefix_rfl
      · exact List.prefix_rfl

/-- **One comment.**  When a comment names a header for a class and reading it does not fail, the header
is accounted for. -/
theorem accounted_scanComment {tree : FileTree} {s : State} {name header : String} {rest : List Char}
    (hread : Tokens.read? (skipGap s.reading.cursor.rest) = some (.classPage name header, rest))
    (hheader : ".h".toList <:+ header.toList) (hfailure : (scanComment tree s).2.failure = none) :
    Accounted name header s.reading.registry (scanComment tree s).2.reading.registry := by
  obtain ⟨nameLine, c, -, hcomment⟩ := readComment_tokens (r := s.reading.skipGap.line.2) hread tree
    s.reading.skipGap.line.1
  unfold scanComment at hfailure ⊢
  dsimp only at hfailure ⊢
  rw [hcomment] at hfailure ⊢
  cases hentered : (Tokens.classPage name header).enter tree s.reading.skipGap.line.1 nameLine
      { s.reading.skipGap.line.2 with cursor := c } with
  | error e =>
      rw [hentered] at hfailure
      cases hfailure
  | ok p =>
      have hafter := accounted_enter hheader hentered
      have hsettled : Accounted name header s.reading.registry
          (settle s.reading.skipGap.line.1 (withBody p).1 (withBody p).2).registry :=
        hafter.onward (files_settle _ _ (withBody p).2) (diagnostics_settle _ _ (withBody p).2)
      exact hsettled

/-- **Headers.**  Whatever files are read one after the other, no two headers have the same path.  When
a comment that names a header for a class neither fails nor reports the header as missing, the header is
found by this name, then and from the end of the scan on. -/
theorem headers_read_once {reg : Registry} (hreg : Runs .empty reg) :
    reg.headerPaths.Nodup ∧
      ∀ {tree : FileTree} {file : FileId} {s : State} {name header : String} {rest : List Char},
        Reaches tree reg file s →
        Tokens.read? (skipGap s.reading.cursor.rest) = some (.classPage name header, rest) →
        ".h".toList <:+ header.toList →
        (scanComment tree s).2.failure = none →
        (∀ d ∈ (scanComment tree s).2.reading.registry.diagnostics.drop
            s.reading.registry.diagnostics.length, ∀ path, d.problem ≠ .headerNotFound path name) →
        ((scanComment tree s).2.reading.registry.findHeader? header).isSome ∧
          ∀ {later : Registry}, Runs (scan tree reg file).1 later → (later.findHeader? header).isSome := by
  refine ⟨hreg.gathers.nodup List.nodup_nil, ?_⟩
  intro tree file s name header rest hreaches hread hheader hfailure hreports
  have hfound : ((scanComment tree s).2.reading.registry.findHeader? header).isSome := by
    rcases accounted_scanComment hread hheader hfailure with hfound | ⟨path, d, hd, hproblem⟩
    · exact hfound
    · exact absurd hproblem (hreports d hd path)
  refine ⟨hfound, fun {later} hlater => ?_⟩
  obtain ⟨r, hleads, hend⟩ := hreaches.leads_after
  exact (hend ▸ hlater.gathers).finds (hleads.gathers.finds hfound)

private def fooTree : FileTree :=
  ⟨[(["src"], .directory),
    (["src", "foo.h"], .file (some "class Foo \x7b\n  void bar();\n\x7d;\n"))]⟩

private def fooText : String :=
  "#include \"foo.h\"\n/*! \\class Foo foo.h\n  Foos. */\n/*! \\class Foo foo.h\n  Foos again. */\n"

private def fooFile : Registry :=
  (empty.addFile { path := "src/foo.cpp", kind := .source, text := fooText }).2

private def fooState : State :=
  { reading := (Reading.begin fooFile ⟨0⟩).past opening, failure := none }

/-- A header that is named in two comments is read from beside the source file. -/
theorem headers_read_once_foo :
    (scan fooTree fooFile ⟨0⟩).1.headerPaths = ["src/foo.h"] ∧
      (scan fooTree fooFile ⟨0⟩).1.headerPaths.Nodup ∧
        ((scanComment fooTree fooState).2.reading.registry.findHeader? "foo.h").isSome ∧
          ((scan fooTree fooFile ⟨0⟩).1.findHeader? "foo.h").isSome := by
  have hfile : Runs .empty fooFile := .single (.addSource "src/foo.cpp" fooText)
  have hscan : Runs .empty (scan fooTree fooFile ⟨0⟩).1 := hfile.tail (.scan fooTree Nat.zero_lt_one)
  have hreaches : Reaches fooTree fooFile ⟨0⟩ fooState := ⟨by decide +kernel, .start _⟩
  have hread : Tokens.read? (skipGap fooState.reading.cursor.rest) =
      some (.classPage "Foo" "foo.h",
        "\n  Foos. */\n/*! \\class Foo foo.h\n  Foos again. */\n".toList) := by decide +kernel
  have hfailure : (scanComment fooTree fooState).2.failure = none := by decide +kernel
  have hreports : (scanComment fooTree fooState).2.reading.registry.diagnostics.drop
      fooState.reading.registry.diagnostics.length = [] := by decide +kernel
  have hfound := (headers_read_once hfile).2 hreaches hread (by decide) hfailure
    (by rw [hreports]; exact fun _ hd => absurd hd List.not_mem_nil)
  exact ⟨by decide +kernel, (headers_read_once hscan).1, hfound.1, hfound.2 .refl⟩

end CppDoc.Comment
