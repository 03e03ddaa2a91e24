import CppDoc.Proofs.LineEndings.Header
import CppDoc.Proofs.LineEndings.Tree
import CppDoc.Proofs.Syntax.Tidy
import CppDoc.Project

/-!
# Comments and line endings

The comments of a source file are about the same things whatever the line endings are, and what is kept
of them is their text with the line endings of the file.

* `mirrors_readBody`: the text of a comment;
* `answers_scanFunction`, `answers_readHeaderName`: what the directives read;
* `Parallel`: two results, with what has been entered before a failure;
* `parallel_readComment` and `Comment.scan_crlf`: a comment, and all comments of a file;
* `Project.scan_crlf`: a whole scan.
-/

namespace CppDoc

open CppDoc.Text Reading

/-- Two results, of which the second one comes from texts with the other line endings. -/
inductive Parallel {ε α : Type} (E : ε → ε → Prop) (R : α → α → Prop) : Except ε α → Except ε α → Prop
  | error {e e' : ε} (h : E e e') : Parallel E R (.error e) (.error e')
  | ok {a a' : α} (h : R a a') : Parallel E R (.ok a) (.ok a')

namespace Comment

open CppDoc.Syntax

variable {text : List Char} {r r' : Reading}

/-! ## Functions -/

/-- The text of a comment has the line endings of the file. -/
theorem mirrors_readBody (h : Mirrors text r r') :
    (readBody r').1 = ((readBody r).1.1, crlfText (readBody r).1.2) ∧
      Mirrors text (readBody r).2 (readBody r').2 := by
  obtain ⟨-, hbody, hmoved⟩ := h.line.mirrors.cutAt closing (by decide)
  refine ⟨?_, hmoved⟩
  simp only [readBody, Cursor.textUntil, h.line.answer, hbody, trimLeft_crlf, crlfText,
    String.toList_ofList]

/-- A function that is declared on a condition, or reported. -/
private theorem answers_declared {c : Bool} (returnType name parameters : String) (isConst : Bool)
    (line : Nat) (h : Mirrors text r r') :
    let found (r : Reading) := if c then r.declare returnType name parameters isConst line else (none, r)
    let bound (r : Reading) : Binding × Reading := match (found r).1 with
      | some f => (.about (.function f), (found r).2)
      | none => (.unbound, (found r).2.report line .unreadableFunction)
    Answers text (bound r) (bound r') := by
  intro found bound
  have hfound : Answers text (found r) (found r') :=
    .ite rfl (fun _ => h.declare _ _ _ _ _) fun _ => ⟨rfl, h⟩
  simp only [bound, hfound.answer]
  cases (found r).1 with
  | some f => exact ⟨rfl, hfound.mirrors⟩
  | none => exact ⟨rfl, hfound.mirrors.report _ _⟩

theorem answers_scanFunction (h : Mirrors text r r') : Answers text (scanFunction r) (scanFunction r') := by
  have htype := h.read rereads_readType
  have hline := htype.mirrors.line
  have hname := hline.mirrors.read rereads_readName
  have hparameters := hname.mirrors.read rereads_readParameters
  have hconst := Header.answers_readConst hparameters.mirrors.skipGap
  simp only [scanFunction, htype.answer, hline.answer, hname.answer, hparameters.answer, hconst.answer,
    hname.mirrors.lookingAt "(" (by decide)]
  exact answers_declared _ _ _ _ _ hconst.mirrors

/-! ## Classes and chapters -/

/-- What is kept of a word stands on one line. -/
theorem oneLine_simplify (s : List Char) : OneLine (simplify s) := by
  have hsolid {c : Char} (hc : c ∈ simplify s) : c = ' ' ∨ isSpace c = false := by
    obtain hspace | ⟨w, hw, hcw⟩ := mem_joined hc
    · exact .inl hspace
    · exact .inr ((solid_of_mem_words hw).2 c hcw)
  refine ⟨fun hfeed => ?_, fun hreturn => ?_⟩
  · exact (hsolid hfeed).elim (nomatch ·) (nomatch ·)
  · exact (hsolid hreturn).elim (nomatch ·) (nomatch ·)

theorem oneLine_readWord (s : List Char) : OneLine (readWord s).1.toList := by
  simp only [readWord]
  split
  · exact ⟨List.not_mem_nil, List.not_mem_nil⟩
  · rw [String.toList_ofList]
    exact oneLine_simplify _

/-- **Names of headers** are the same, and stand on one line. -/
theorem answers_readHeaderName (h : Mirrors text r r') :
    Answers text (readHeaderName r) (readHeaderName r') ∧ OneLine (readHeaderName r).1.toList := by
  have hword := h.read rereads_readWord
  refine iterate_related (R := fun s s' : String × Reading => Answers text s s' ∧ OneLine s.1.toList)
    ?_ (fun _ _ _ _ hs ht => hs.1.mirrors.left_lt_iff ht.1.mirrors)
    ⟨hword, oneLine_readWord r.cursor.rest⟩
  rintro ⟨name, s⟩ ⟨name', s'⟩ ⟨⟨hname, hs⟩, hline⟩
  obtain rfl : name' = name := hname
  replace hs : Mirrors text s s' := hs
  have hlines (p : String) (hp : OneLine p.toList) (t : Reading) :
      OneLine (name' ++ p ++ (t.read readWord).1).toList := by
    rw [String.toList_append, String.toList_append]
    exact (hline.append hp).append (oneLine_readWord t.cursor.rest)
  simp only [hs.lookingAt "." (by decide), hs.lookingAt "/" (by decide)]
  by_cases hdot : s.lookingAt "." = true
  · have hword := (hs.step hdot (by decide)).read rereads_readWord
    simp only [hdot, Bool.true_or, if_true, hword.answer]
    exact ⟨trivial, ⟨rfl, hword.mirrors⟩, hlines "." (by decide) _⟩
  · by_cases hslash : s.lookingAt "/" = true
    · have hword := (hs.step hslash (by decide)).read rereads_readWord
      simp only [hdot, hslash, Bool.or_true, if_true, hword.answer, Bool.false_eq_true, if_false]
      exact ⟨trivial, ⟨rfl, hword.mirrors⟩, hlines "/" (by decide) _⟩
    · simp only [hdot, hslash, Bool.or_self, Bool.false_eq_true, if_false]
      exact ⟨trivial, ⟨rfl, hs⟩, hline⟩

/-- An inclusion stands on one line. -/
theorem includes_crlf {header : String} (h : OneLine header.toList) (text : String) :
    includes (crlfText text) header = includes text header := by
  have hpat (a b : String) (ha : OneLine a.toList) (hb : OneLine b.toList) :
      occurs (a ++ header ++ b).toList (crlf text.toList) = occurs (a ++ header ++ b).toList text.toList := by
    rw [String.toList_append, String.toList_append]
    exact occurs_crlf ((ha.append h).append hb) _
  rw [includes, includes, toList_crlfText, hpat _ _ (by decide) (by decide),
    hpat _ _ (by decide) (by decide)]

variable (tree : FileTree)

/-- A header that is read and scanned. -/
theorem scanHeaderFile_crlf (reg : Registry) (path : String) :
    scanHeaderFile tree.crlf reg.crlf path =
      (scanHeaderFile tree reg path).map fun (found, reg) => (found, reg.crlf) := by
  rw [scanHeaderFile, scanHeaderFile, tree.read_crlf]
  cases tree.read path with
  | missing => rfl
  | unreadable => rfl
  | text s =>
      have hadded := Registry.addFile_crlf reg { path, kind := .header, text := s }
      simp only [SourceFile.crlf] at hadded
      simp only [ReadResult.crlf, hadded, Header.scan_crlf, Except.map]

/-- The same header is required, and it is scanned alike. -/
theorem parallel_requireHeader (className header : String) (line : Nat) (h : Mirrors text r r') :
    Parallel Eq (Mirrors text) (requireHeader tree className header line r)
      (requireHeader tree.crlf className header line r') := by
  have hfound : r'.registry.findHeader? header = r.registry.findHeader? header := by
    rw [h.registry, Registry.findHeader?_crlf]
  have hpath : (r'.registry.file r'.file).path = (r.registry.file r.file).path := by
    rw [h.registry, h.file, Registry.path_crlf]
  have hscan (path : String) := scanHeaderFile_crlf tree r.registry path
  rw [← h.registry] at hscan
  simp only [requireHeader, bind, Except.bind, pure, Except.pure, hfound, hpath, hscan]
  split
  · exact .ok h
  · cases scanHeaderFile tree r.registry (Path.join (Path.parent (r.registry.file r.file).path) header) with
    | error e => exact .error rfl
    | ok p =>
        have hscanned := h.enter (Eq.refl p.2.crlf)
        exact .ok (.ite rfl (fun _ => hscanned) fun _ => hscanned.report _ _)

theorem parallel_scanClassDirective (line : Nat) (h : Mirrors text r r') :
    Parallel (Answers text) (Answers text) (scanClassDirective tree line r)
      (scanClassDirective tree.crlf line r') := by
  have hname := h.read rereads_readName
  unfold scanClassDirective
  generalize r.read readName = p at hname ⊢
  generalize r'.read readName = p' at hname ⊢
  obtain ⟨className, r₁⟩ := p
  obtain ⟨className', r₁'⟩ := p'
  obtain ⟨hsame, hr₁⟩ := hname
  obtain rfl : className = className' := hsame.symm
  have hnamed := Mirrors.ite (b := className.isEmpty) rfl (fun _ => hr₁.report line .unnamedClass)
    fun _ => hr₁
  dsimp only at hnamed ⊢
  generalize ite (className.isEmpty = true) (r₁.report line .unnamedClass) r₁ = r₂ at hnamed ⊢
  generalize ite (className.isEmpty = true) (r₁'.report line .unnamedClass) r₁' = r₂' at hnamed ⊢
  have hclass := hnamed.classNamed className
  obtain ⟨hheader, hline⟩ := answers_readHeaderName hclass.mirrors.skipGap
  generalize readHeaderName (r₂.classNamed className).2.skipGap = p at hheader hline ⊢
  generalize readHeaderName (r₂'.classNamed className).2.skipGap = p' at hheader ⊢
  rw [hheader.answer, hclass.answer]
  split
  · exact .ok ⟨rfl, hheader.mirrors.report _ _⟩
  have hincluded : includes (p'.2.registry.file p'.2.file).text p.1 =
      includes (p.2.registry.file p.2.file).text p.1 := by
    rw [hheader.mirrors.registry, hheader.mirrors.file, Registry.file_crlf]
    exact includes_crlf hline _
  have hreported := Mirrors.ite hincluded (fun _ => hheader.mirrors)
    fun _ => hheader.mirrors.report line (.headerNotIncluded p.1)
  generalize ite (includes (p.2.registry.file p.2.file).text p.1 = true) _ _ = r₃ at hreported ⊢
  generalize ite (includes (p'.2.registry.file p'.2.file).text p.1 = true) _ _ = r₃' at hreported ⊢
  have hrequired := parallel_requireHeader tree className p.1 line hreported
  generalize requireHeader tree className p.1 line r₃ = q at hrequired ⊢
  generalize requireHeader tree.crlf className p.1 line r₃' = q' at hrequired ⊢
  cases hrequired with
  | error h => exact .error ⟨h.symm, hreported⟩
  | ok h =>
      refine .ok ⟨rfl, .ite ?_ (fun _ => h.report _ _) fun _ => h⟩
      rw [h.registry]
      rfl

theorem answers_scanChapterDirective (h : Mirrors text r r') :
    Answers text (scanChapterDirective r) (scanChapterDirective r') := by
  have hname := h.read rereads_readWord
  simp only [scanChapterDirective, hname.answer]
  generalize (r.read readWord).1 = name
  have hreported := Mirrors.ite (b := name.isEmpty) rfl
    (fun _ => hname.mirrors.reportHere .unnamedChapter) fun _ => hname.mirrors
  generalize ite (name.isEmpty = true) ((r.read readWord).2.reportHere _) _ = s at hreported ⊢
  generalize ite (name.isEmpty = true) ((r'.read readWord).2.reportHere _) _ = s' at hreported ⊢
  have hchapter : s'.registry.addChapter name =
      ((s.registry.addChapter name).1, (s.registry.addChapter name).2.crlf) := by
    rw [hreported.registry]
    rfl
  have hadded := hreported.entered hchapter
  exact ⟨congrArg (fun id => Binding.about (.chapter id)) hadded.answer, hadded.mirrors⟩

/-! ## Comments -/

/-- What was read of a comment, with the other line endings. -/
def Finding.crlf (found : Finding) : Finding :=
  { found with text := crlfText found.text }

/-- The same was read of a comment, with the line endings of the file. -/
def Reads (text : List Char) (p p' : Finding × Reading) : Prop :=
  p'.1 = p.1.crlf ∧ Mirrors text p.2 p'.2

theorem reads_withBody {found found' : Binding × Reading} (h : Answers text found found') :
    Reads text (withBody found) (withBody found') := by
  obtain ⟨hbody, hbehind⟩ := mirrors_readBody h.mirrors
  refine ⟨?_, hbehind⟩
  simp only [withBody, hbody, h.answer]
  rfl

/-- **What is read of a comment** is about the same thing. -/
theorem parallel_readComment (line : Nat) (h : Mirrors text r r') :
    Parallel (Answers text) (Reads text) (readComment tree line r) (readComment tree.crlf line r') := by
  simp only [readComment, h.lookingAt "\\fn " (by decide), h.lookingAt "\\chapter " (by decide), h.lookingAt "\\class " (by decide),
    h.lookingAt "\\nodoc" (by decide)]
  split
  · exact .ok (reads_withBody (answers_scanFunction (h.past " " (by decide))))
  split
  · exact .ok (reads_withBody (answers_scanChapterDirective (h.past " " (by decide))))
  split
  · have hclass := parallel_scanClassDirective tree line (h.past " " (by decide))
    generalize scanClassDirective tree line (r.past " ") = q at hclass ⊢
    generalize scanClassDirective tree.crlf line (r'.past " ") = q' at hclass ⊢
    cases hclass with
    | error h => exact .error h
    | ok h => exact .ok (reads_withBody h)
  split
  · exact .ok ⟨rfl, h⟩
  · obtain ⟨hbody, hbehind⟩ := mirrors_readBody h
    have hfunction := answers_scanFunction hbehind
    simp only [hbody]
    exact .ok ⟨by rw [hfunction.answer]; rfl, hfunction.mirrors⟩

/-- What was read is attached alike. -/
theorem mirrors_settle (line : Nat) (found : Finding) (h : Mirrors text r r') :
    Mirrors text (settle line found r) (settle line found.crlf r') := by
  have hempty : found.crlf.text.isEmpty = found.text.isEmpty := isEmpty_crlfText found.text
  have hbinding : found.crlf.binding = found.binding := rfl
  simp only [settle, hbinding, hempty]
  split
  · exact h
  · refine .ite rfl (fun _ => h.report _ _) fun _ => ?_
    split
    · rename_i subject _
      refine h.enter ?_
      rw [h.registry, h.file]
      exact congrArg Prod.snd (r.registry.attachDoc_crlf ⟨⟨r.file, line⟩, found.textLine, found.text, subject⟩)
    · exact h

/-- Two readings of the comments of a file, which have failed in the same way if they have failed. -/
def Follows (text : List Char) (s s' : State) : Prop :=
  s'.failure = s.failure ∧ Mirrors text s.reading s'.reading

/-- **Comments** follow each other at the same places. -/
theorem follows_scanComment {s s' : State} (h : Follows text s s') :
    (scanComment tree.crlf s').1 = (scanComment tree s).1 ∧
      Follows text (scanComment tree s).2 (scanComment tree.crlf s').2 := by
  have hline := h.2.skipGap.line
  have hcomment := parallel_readComment tree s.reading.skipGap.line.1 hline.mirrors
  simp only [scanComment, hline.answer]
  generalize readComment tree s.reading.skipGap.line.1 _ = q at hcomment ⊢
  generalize readComment tree.crlf s.reading.skipGap.line.1 _ = q' at hcomment ⊢
  cases hcomment with
  | error h => exact ⟨rfl, congrArg some h.answer, h.mirrors⟩
  | @ok found _ h =>
      obtain ⟨hfound, hbehind⟩ := h
      have hnext := (mirrors_settle s.reading.skipGap.line.1 found.1 hbehind).past opening (by decide)
      simp only [hfound]
      exact ⟨congrArg (!·) hnext.atEnd, rfl, hnext⟩

theorem mirrors_reportUndocumented (h : Mirrors text r r') :
    Mirrors text (reportUndocumented r) (reportUndocumented r') := by
  obtain ⟨hfound, -, hbehind⟩ := h.cutAt "::" (by decide)
  exact .ite hfound (fun _ => hbehind.reportHere _) fun _ => h

/-- **Source files.**  The same is entered for a file, whatever its line endings are, and the scan fails
in the same way if it fails. -/
theorem scan_crlf (reg : Registry) (file : FileId) :
    scan tree.crlf reg.crlf file = ((scan tree reg file).1.crlf, (scan tree reg file).2) := by
  have hbegun := mirrors_begin reg file
  have hfirst := hbegun.past opening (by decide)
  rw [scan, scan]
  simp only [hfirst.atEnd]
  split
  · exact Prod.ext (mirrors_reportUndocumented hbegun).registry rfl
  · have hloop : Follows (reg.file file).text.toList
        (iterate (fun s => s.reading.left) (scanComment tree) ⟨(begin reg file).past opening, none⟩)
        (iterate (fun s => s.reading.left) (scanComment tree.crlf)
          ⟨(begin reg.crlf file).past opening, none⟩) :=
      iterate_related (fun _ _ h => follows_scanComment tree h)
        (fun _ _ _ _ hs ht => hs.2.left_lt_iff ht.2) ⟨rfl, hfirst⟩
    exact Prod.ext hloop.2.registry hloop.1

theorem scanSourceFile_crlf (reg : Registry) (path : String) :
    scanSourceFile tree.crlf reg.crlf path =
      ((scanSourceFile tree reg path).1.crlf, (scanSourceFile tree reg path).2) := by
  rw [scanSourceFile, scanSourceFile, tree.read_crlf]
  cases tree.read path with
  | missing => rfl
  | unreadable => rfl
  | text s =>
      have hadded := Registry.addFile_crlf reg { path, kind := .source, text := s }
      simp only [SourceFile.crlf] at hadded
      simp only [ReadResult.crlf, hadded, scan_crlf]
      cases hscan : scan tree (reg.addFile { path, kind := .source, text := s }).2
          (reg.addFile { path, kind := .source, text := s }).1 with
      | mk reg' failure => cases failure <;> rfl

end Comment

namespace Project

variable (p : Project) (t : FileTree)

theorem scanAll_crlf (reg : Registry) (paths : List String) :
    scanAll t.crlf reg.crlf paths = (scanAll t reg paths).map Registry.crlf := by
  induction paths generalizing reg with
  | nil => rfl
  | cons path rest ih =>
      rw [scanAll, scanAll, Comment.scanSourceFile_crlf]
      rcases Comment.scanSourceFile t reg path with ⟨next, e | id⟩
      · rfl
      · exact ih next

/-- **Scans.**  Of two projects that differ in line endings only, the same is known. -/
theorem scan_crlf : p.scan t.crlf = (p.scan t).map Registry.crlf := by
  have hsources : p.sources t.crlf = p.sources t := by
    rw [sources, sources, t.isDirectory_crlf, Discovery.discover_crlf]
  have hempty : Registry.empty.crlf = Registry.empty := rfl
  simp only [scan, bind, Except.bind, pure, Except.pure, hsources]
  cases p.sources t with
  | error e => rfl
  | ok paths =>
      have hscanned := scanAll_crlf t .empty paths
      rw [hempty] at hscanned
      simp only [hscanned]
      cases scanAll t .empty paths with
      | error e => rfl
      | ok reg => exact congrArg Except.ok (Registry.buildHierarchy_crlf reg)

end Project

end CppDoc
