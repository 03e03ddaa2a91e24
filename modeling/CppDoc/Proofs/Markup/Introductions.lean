import CppDoc.Manual
import CppDoc.Proofs.Manual.Alike
import CppDoc.Proofs.Markup.Tokens
import CppDoc.Proofs.Registry.WellFormed
import Mathlib.Data.List.Induction
import Mathlib.Data.List.Nodup

/-!
# The classes that chapters introduce

In the documentation of a chapter, the plain words behind `\introduces` name classes, up to the end of
the paragraph.  Each of them is an **introduction**, which names a class at a place.

* `introductions`: the introductions of a block, by its text alone;
* `repeats`: the reports that a second introduction of a name calls for, and every later one;
* `Introduces`: what some introductions have made of a registry, with `Introduces.trans` and one lemma
  for each way a registry is changed;
* `introduces_interpret`: one block;
* `introductions_noticed`: a sequence of blocks, in which no class is introduced twice unnoticed;
* `chapter_diagnosed`: a chapter that introduces nothing.
-/

namespace CppDoc

open CppDoc.Registry CppDoc.Text

/-- Is it said of a name that it is mentioned in another place as well? -/
def Problem.isRepeat : Problem → Bool
  | .alsoMentioned _ _ _ => true
  | _ => false

/-- Is the subject a chapter? -/
def Subject.isChapter : Subject → Bool
  | .chapter _ => true
  | _ => false

theorem Subject.exists_chapter {s : Subject} (h : s.isChapter = true) : ∃ ch, s = .chapter ch := by
  cases s with
  | chapter ch => exact ⟨ch, rfl⟩
  | function f => cases h
  | classPage c => cases h

namespace Markup

/-! ## Introductions -/

/-- A name that a block about `subject` introduces at a place. -/
structure Introduction where
  subject : Subject
  name : String
  site : Location
  deriving DecidableEq, Repr

/-- The name in a word between the names of classes. -/
def className (w : List Char) : String :=
  String.ofList (trimRightIf (fun c => c == ',' || c == '.') w)

/-- Is the word `w` neither a link nor a directive? -/
def isPlain (w behind : List Char) : Bool :=
  if w = "RFC".toList then (rfcNumber? behind).isNone else !isUrl w && w.head? != some '\\'

/-- Do the words behind `w` name classes? -/
def opensNames (d : DocBlock) (w : List Char) : Bool :=
  d.subject.isChapter && decide (w = "\\introduces".toList)

/-- What a word introduces, which stands on `line` where words name classes or where they do not. -/
def introduced (d : DocBlock) (naming : Bool) (w behind : List Char) (line : Nat) :
    List Introduction :=
  if naming && isPlain w behind then [⟨d.subject, className w, ⟨d.origin.file, line⟩⟩] else []

/-- What some words introduce, the blanks before which begin on `line`.  A blank line ends a list of
names. -/
def introducedAll (d : DocBlock) (line : Nat) (naming : Bool) : List Token → List Introduction
  | [] => []
  | t :: rest =>
    let naming := naming && decide (lineFeeds t.blanks < 2)
    let site := line + lineFeeds t.blanks
    let behind := site + lineFeeds (t.behind.take (takenLength t.word t.behind))
    introduced d naming t.word t.behind site ++
      introducedAll d behind (naming || opensNames d t.word) rest

/-- What a block introduces. -/
def introductions (d : DocBlock) : List Introduction :=
  if d.isInternal then [] else introducedAll d d.textLine false (tokens d.text.toList)

/-- Where a name is introduced first. -/
def firstSite (words : List Introduction) (name : String) : Option Location :=
  (words.find? (·.name == name)).map (·.site)

/-- The reports that an introduction calls for.  If its name has been introduced before, there are two
of them: one where it stands, which says where the name was introduced first, and one there. -/
def repeatReports (reg : Registry) (earlier : List Introduction) (i : Introduction) :
    List Diagnostic :=
  match firstSite earlier i.name with
  | none => []
  | some first =>
    [⟨i.site, .alsoMentioned i.name (reg.file first.file).path first.line⟩,
      ⟨first, .alsoMentioned i.name (reg.file i.site.file).path i.site.line⟩]

/-- The reports that one introduction after another calls for, behind `earlier` ones. -/
def repeats (reg : Registry) (earlier : List Introduction) : List Introduction → List Diagnostic
  | [] => []
  | i :: rest => repeatReports reg earlier i ++ repeats reg (earlier ++ [i]) rest

theorem firstSite_append (a b : List Introduction) (name : String) :
    firstSite (a ++ b) name = (firstSite a name).or (firstSite b name) := by
  simp only [firstSite, List.find?_append, Option.map_or]

theorem repeats_append (reg : Registry) (earlier a b : List Introduction) :
    repeats reg earlier (a ++ b) = repeats reg earlier a ++ repeats reg (earlier ++ a) b := by
  induction a generalizing earlier with
  | nil => simp only [List.nil_append, repeats, List.append_nil]
  | cons i a ih =>
      simp only [List.cons_append, repeats, ih, List.append_assoc, List.nil_append]

/-- Reports name files by their paths, which belong to the material. -/
theorem repeats_material {reg reg' : Registry} (h : reg.material = reg'.material)
    (earlier words : List Introduction) : repeats reg earlier words = repeats reg' earlier words := by
  have hfile (f : FileId) : reg.file f = reg'.file f :=
    eq_of_material (·.file f) (fun _ => rfl) h
  induction words generalizing earlier with
  | nil => rfl
  | cons i rest ih => simp only [repeats, repeatReports, hfile, ih]

/-- Where no name is reported, none comes twice. -/
theorem nodup_of_repeats {reg : Registry} {words : List Introduction}
    (h : repeats reg [] words = []) : (words.map (·.name)).Nodup := by
  induction words using List.reverseRecOn with
  | nil => exact List.nodup_nil
  | append_singleton words i ih =>
      obtain ⟨hbefore, hlast⟩ := List.append_eq_nil_iff.mp ((repeats_append reg [] words [i]) ▸ h)
      have hnew : i.name ∉ words.map (·.name) := by
        intro hmem
        obtain ⟨j, hj, hname⟩ := List.mem_map.mp hmem
        obtain ⟨first, hfirst⟩ : ∃ first, words.find? (·.name == i.name) = some first :=
          Option.isSome_iff_exists.mp (List.find?_isSome.mpr ⟨j, hj, by simp [hname]⟩)
        simp [repeats, repeatReports, firstSite, hfirst] at hlast
      rw [List.map_append, List.nodup_append]
      refine ⟨ih hbefore, by simp, fun a ha b hb hab => hnew ?_⟩
      obtain rfl : b = i.name := by simpa using hb
      exact hab ▸ ha

/-! ## What introductions make of a registry -/

/-- The registry has noted where each of the introductions names its class first, and nothing else. -/
def Recalls (reg : Registry) (words : List Introduction) : Prop :=
  ∀ name, reg.mentions.lookup name = firstSite words name

/-- The introductions `words` have been made.  Their names have been noted, and reported where they had
been noted before; the classes of these names stand in the lists of their chapters; and the names
of no class have been reported. -/
structure Introduces (words : List Introduction) (reg reg' : Registry) : Prop where
  material : reg'.material = reg.material
  recalls : ∀ {earlier}, Recalls reg earlier → Recalls reg' (earlier ++ words)
  classes : ∀ ch c, c ∈ (reg'.chapter ch).classes ↔ c ∈ (reg.chapter ch).classes ∨
    ch.index < reg.chapters.length ∧
      ∃ i ∈ words, i.subject = .chapter ch ∧ reg.findClass? i.name = some c
  reports : ∀ {earlier}, Recalls reg earlier → ∃ added,
    reg'.diagnostics = reg.diagnostics ++ added ∧
      added.filter (·.problem.isRepeat) = repeats reg earlier words ∧
      ∀ i ∈ words, reg.findClass? i.name = none → ⟨i.site, .unknownClass i.name⟩ ∈ added

/-- Introductions declare no classes. -/
theorem Introduces.findClass? {words : List Introduction} {a b : Registry}
    (h : Introduces words a b) (name : String) : b.findClass? name = a.findClass? name :=
  eq_of_material (·.findClass? name) (findClass?_material · name) h.material

theorem Introduces.trans {words words' : List Introduction} {a b c : Registry}
    (h : Introduces words a b) (h' : Introduces words' b c) : Introduces (words ++ words') a c where
  material := h'.material.trans h.material
  recalls hrecalls := by
    rw [← List.append_assoc]
    exact h'.recalls (h.recalls hrecalls)
  classes ch e := by
    rw [h'.classes, h.classes, length_chapters_of_material h.material]
    simp only [h.findClass?, List.mem_append, or_and_right, exists_or, and_or_left, or_assoc]
  reports hrecalls := by
    obtain ⟨added, hadded, hrepeats, hunknown⟩ := h.reports hrecalls
    obtain ⟨added', hadded', hrepeats', hunknown'⟩ := h'.reports (h.recalls hrecalls)
    refine ⟨added ++ added', by rw [hadded', hadded, List.append_assoc], ?_, ?_⟩
    · rw [List.filter_append, hrepeats, hrepeats', repeats_append, repeats_material h.material]
    · intro i hi hnone
      rcases List.mem_append.mp hi with hi | hi
      · exact List.mem_append_left _ (hunknown i hi hnone)
      · exact List.mem_append_right _ (hunknown' i hi ((h.findClass? i.name).trans hnone))

/-- Nothing is introduced. -/
theorem Introduces.refl (reg : Registry) : Introduces [] reg reg where
  material := rfl
  recalls hrecalls := by rwa [List.append_nil]
  classes ch c := by simp
  reports _ := ⟨[], (List.append_nil _).symm, rfl, nofun⟩

/-- Another report introduces nothing. -/
theorem introduces_report (reg : Registry) (site : Location) {problem : Problem}
    (hproblem : problem.isRepeat = false) : Introduces [] reg (reg.report site problem) where
  material := rfl
  recalls hrecalls := by rwa [List.append_nil]
  classes ch c := by simp [Registry.chapter, Registry.report]
  reports _ := ⟨[⟨site, problem⟩], rfl, by simp [hproblem, repeats], nofun⟩

/-- Nor does the mark of a function. -/
theorem introduces_markOverload (reg : Registry) (f : FunctionId) :
    Introduces [] reg (reg.editFunction f fun g => { g with overload := true }) where
  material := material_markOverload reg f
  recalls hrecalls := by rwa [List.append_nil]
  classes ch c := by simp [Registry.chapter, Registry.editFunction]
  reports _ := ⟨[], (List.append_nil _).symm, rfl, nofun⟩

/-- Mentioning a name reports it where it has been mentioned before, and notes it otherwise. -/
theorem mention_introduction {reg : Registry} {earlier : List Introduction}
    (hrecalls : Recalls reg earlier) (i : Introduction) :
    Recalls (reg.mention i.name i.site) (earlier ++ [i]) ∧
      (reg.mention i.name i.site).diagnostics = reg.diagnostics ++ repeatReports reg earlier i := by
  have hlookup := hrecalls i.name
  unfold Registry.mention repeatReports
  cases hfirst : firstSite earlier i.name with
  | none =>
      rw [hfirst] at hlookup
      simp only [hlookup, List.append_nil, and_true]
      intro name
      rw [List.lookup_append, hrecalls name, firstSite_append]
      congr 1
      by_cases hname : name = i.name
      · simp [firstSite, hname]
      · have hne : (i.name == name) = false := by simpa using Ne.symm hname
        have hne' : (name == i.name) = false := by simpa using hname
        simp [firstSite, List.lookup_cons, hne, hne']
  | some first =>
      rw [hfirst] at hlookup
      simp only [hlookup]
      refine ⟨fun name => ?_, ?_⟩
      · rw [firstSite_append, ← hrecalls name]
        by_cases hname : name = i.name
        · simp [Registry.report, hname, hlookup]
        · have hne : (i.name == name) = false := by simpa using Ne.symm hname
          simp [Registry.report, firstSite, hne]
      · simp only [Registry.report, List.append_assoc]
        rfl

/-- What chapters introduce when one of them introduces one more class. -/
theorem mem_introduce (reg : Registry) (own ch : ChapterId) (c e : ClassId) :
    e ∈ ((reg.editChapter own (·.introduce c)).chapter ch).classes ↔
      e ∈ (reg.chapter ch).classes ∨ ch.index < reg.chapters.length ∧ own = ch ∧ c = e := by
  have hmem (f : Chapter) : e ∈ (f.introduce c).classes ↔ e ∈ f.classes ∨ c = e := by
    unfold Chapter.introduce
    split
    · rename_i hcontains
      have hc : c ∈ f.classes := List.contains_iff_mem.mp hcontains
      exact ⟨.inl, fun h => h.elim id fun heq => heq ▸ hc⟩
    · rw [List.mem_append, List.mem_singleton, eq_comm]
  by_cases hown : own = ch
  · subst hown
    rw [chapter_editChapter]
    split
    · rename_i hlt
      simp [hmem, hlt]
    · rename_i hge
      simp [hge]
  · have hne : own.index ≠ ch.index := fun hindex => hown (congrArg ChapterId.mk hindex)
    simp [Registry.chapter, Registry.editChapter, hne, hown]

section Name

variable {reg : Registry} {i : Introduction} {own : ChapterId} {c : ClassId}

theorem chapters_mention (reg : Registry) (name : String) (site : Location) :
    (reg.mention name site).chapters = reg.chapters := by
  unfold Registry.mention
  split <;> rfl

theorem filter_repeatReports (reg : Registry) (earlier : List Introduction) (i : Introduction) :
    (repeatReports reg earlier i).filter (·.problem.isRepeat) = repeatReports reg earlier i := by
  unfold repeatReports
  split <;> rfl

/-- A name that names a class. -/
theorem introduces_known (hsubject : i.subject = .chapter own)
    (hclass : reg.findClass? i.name = some c) :
    Introduces [i] reg ((reg.mention i.name i.site).editChapter own (·.introduce c)) where
  material := (material_introduce _ own c).trans (material_mention reg i.name i.site)
  recalls hrecalls := (mention_introduction hrecalls i).1
  classes ch e := by
    rw [mem_introduce]
    simp [Registry.chapter, chapters_mention, hsubject, hclass]
  reports hrecalls := by
    refine ⟨_, (mention_introduction hrecalls i).2, ?_, ?_⟩
    · rw [filter_repeatReports, repeats, repeats, List.append_nil]
    · intro j hj hnone
      rw [List.mem_singleton.mp hj, hclass] at hnone
      cases hnone

/-- A name that names none. -/
theorem introduces_unknown (hclass : reg.findClass? i.name = none) :
    Introduces [i] reg ((reg.mention i.name i.site).report i.site (.unknownClass i.name)) where
  material := material_mention reg i.name i.site
  recalls hrecalls := (mention_introduction hrecalls i).1
  classes ch e := by simp [Registry.chapter, Registry.report, chapters_mention, hclass]
  reports {earlier} hrecalls := by
    refine ⟨repeatReports reg earlier i ++ [⟨i.site, .unknownClass i.name⟩], ?_, ?_, ?_⟩
    · rw [← List.append_assoc, ← (mention_introduction hrecalls i).2]
      rfl
    · rw [List.filter_append, filter_repeatReports, repeats, repeats]
      rfl
    · intro j hj _
      rw [List.mem_singleton.mp hj]
      exact List.mem_append_right _ (List.mem_singleton.mpr rfl)

end Name

/-! ## Words -/

/-- Whether words name classes, in a state that a block has come to. -/
structure Names (d : DocBlock) (naming : Bool) (st : State) : Prop where
  expecting : st.expecting = .classes ↔ naming = true
  chapter : naming = true → d.subject.isChapter = true

/-- In plain text they do not. -/
theorem names_text (d : DocBlock) {st : State} (h : st.expecting = .text) : Names d false st :=
  ⟨by simp [h], nofun⟩

/-- A part of a block has been read, which makes the introductions `words`.  `naming` says whether
words name classes behind it, and `opens` whether it names the directive that says so. -/
structure Reads (d : DocBlock) (words : List Introduction) (naming opens : Bool) (st st' : State) :
    Prop where
  introduces : Introduces words st.registry st'.registry
  names : Names d naming st'
  flag : st'.introduces = (st.introduces || opens)

section Words

variable {d : DocBlock} {naming : Bool} {st : State}

theorem Reads.trans {words words' : List Introduction} {naming naming' opens opens' : Bool}
    {a b c : State} (h : Reads d words naming opens a b) (h' : Reads d words' naming' opens' b c) :
    Reads d (words ++ words') naming' (opens || opens') a c where
  introduces := h.introduces.trans h'.introduces
  names := h'.names
  flag := by rw [h'.flag, h.flag, Bool.or_assoc]

/-- Nothing is introduced, and the registry stays as it is. -/
theorem reads_nothing {st' : State} (h : Names d naming st') (hregistry : st'.registry = st.registry)
    (hflag : st'.introduces = st.introduces) : Reads d [] naming false st st' where
  introduces := hregistry ▸ .refl _
  names := h
  flag := hflag.trans (Bool.or_false _).symm

/-- Nothing is introduced, and something else is reported. -/
theorem reads_report (h : Names d naming st) (line : Nat) (problem : Problem)
    (hproblem : problem.isRepeat = false) : Reads d [] naming false st (st.report d line problem) where
  introduces := introduces_report _ _ hproblem
  names := ⟨h.expecting, h.chapter⟩
  flag := (Bool.or_false _).symm

/-- **The name of a class** is introduced. -/
theorem introduces_readClassName {own : ChapterId} (hsubject : d.subject = .chapter own)
    (w : List Char) (line : Nat) (st : State) :
    Introduces [⟨d.subject, className w, ⟨d.origin.file, line⟩⟩] st.registry
      (readClassName d w line st).registry := by
  have hsame : (st.registry.mention (className w) ⟨d.origin.file, line⟩).findClass? (className w) =
      st.registry.findClass? (className w) :=
    eq_of_material (·.findClass? (className w)) (findClass?_material · _)
      (material_mention _ _ _)
  cases hclass : st.registry.findClass? (className w) with
  | some c =>
      have hread : readClassName d w line st =
          { st with
            registry := (st.registry.mention (className w) ⟨d.origin.file, line⟩).editChapter own
              (·.introduce c) } := by
        have hfound := hsame.trans hclass
        rw [className] at hfound
        simp only [readClassName, hsubject, hfound, className]
      rw [hread]
      exact introduces_known hsubject hclass
  | none =>
      have hread : readClassName d w line st =
          { st with
            registry := (st.registry.mention (className w) ⟨d.origin.file, line⟩).report
              ⟨d.origin.file, line⟩ (.unknownClass (className w)) } := by
        have hfound := hsame.trans hclass
        rw [className] at hfound
        simp only [readClassName, hsubject, hfound, className]
      rw [hread]
      exact introduces_unknown hclass

/-- Directives change what words mean. -/
theorem reads_expect (h : Names d naming st) (line : Nat) (directive : String) {next : Expecting}
    {naming' : Bool} (hnext : next = .classes ↔ naming' = true)
    (hchapter : naming' = true → d.subject.isChapter = true) :
    Reads d [] naming' false st (st.expect d line directive next) := by
  unfold State.expect
  split
  · exact reads_nothing ⟨hnext, hchapter⟩ rfl rfl
  · have hreport := reads_report h line (.directiveNegated directive) rfl
    exact ⟨hreport.introduces, ⟨hnext, hchapter⟩, hreport.flag⟩

/-- The end of a paragraph ends a list of names. -/
theorem reads_endParagraph (h : Names d naming st) (line : Nat) :
    Reads d [] false false st (endParagraph d line st).1 := by
  unfold endParagraph
  dsimp only
  split
  · have hreport := reads_report h line .directiveHanging rfl
    exact ⟨hreport.introduces, names_text d rfl, hreport.flag⟩
  · exact reads_nothing (names_text d rfl) rfl rfl

theorem reads_readArgument (h : Names d naming st) (w : List Char) (line : Nat) :
    Reads d [] false false st (readArgument d w line st).1 := by
  unfold readArgument
  dsimp only
  split
  · exact reads_nothing (names_text d rfl) rfl rfl
  split
  · exact reads_nothing (names_text d rfl) rfl rfl
  · have hreport := reads_report h line (.unknownArgument (argumentName w)) rfl
    exact ⟨hreport.introduces, names_text d rfl, hreport.flag⟩

theorem reads_readReference (h : Names d naming st) (w : List Char) (line : Nat) :
    Reads d [] naming false st (readReference d w line st).1 := by
  simp only [readReference]
  split
  · exact reads_nothing h rfl rfl
  · exact reads_nothing h rfl rfl
  · exact reads_nothing h rfl rfl
  · rename_i problem hproblem
    obtain hnone | ⟨_, _, hfound, _⟩ | ⟨_, _, hfound, _⟩ | ⟨_, _, hfound⟩ :=
      resolve_cases st.registry d.subject w
    · cases hproblem.symm.trans hnone
    all_goals cases hproblem.symm.trans hfound
    exact reads_report h line _ rfl

/-- Behind the name of a class, words name classes as before. -/
theorem names_readClassName (h : Names d naming st) (w : List Char) (line : Nat) :
    Names d naming (readClassName d w line st) ∧
      (readClassName d w line st).introduces = st.introduces := by
  unfold readClassName
  dsimp only
  split
  · split <;> exact ⟨⟨h.expecting, h.chapter⟩, rfl⟩
  · exact ⟨⟨h.expecting, h.chapter⟩, rfl⟩

/-- A word that is no link and no directive. -/
theorem reads_readPlain (h : Names d naming st) (w : List Char) (line : Nat) :
    Reads d (if naming then [⟨d.subject, className w, ⟨d.origin.file, line⟩⟩] else []) naming false st
      (readPlain d w line st).1 := by
  have htext (hne : st.expecting ≠ .classes) : naming = false :=
    Bool.eq_false_iff.mpr fun hnaming => hne (h.expecting.mpr hnaming)
  unfold readPlain
  cases hexpecting : st.expecting with
  | classes =>
      obtain rfl := h.expecting.mp hexpecting
      obtain ⟨own, hsubject⟩ := Subject.exists_chapter (h.chapter rfl)
      obtain ⟨hnames, hflag⟩ := names_readClassName h w line
      exact ⟨introduces_readClassName hsubject w line st, hnames, hflag.trans (Bool.or_false _).symm⟩
  | argument =>
      obtain rfl := htext (by simp [hexpecting])
      exact reads_readArgument h w line
  | text =>
      obtain rfl := htext (by simp [hexpecting])
      exact reads_readReference h w line

theorem reads_readOverload (h : Names d naming st) (line n : Nat) :
    Reads d [] naming false st (readOverload d line n st) := by
  have hfirst (st' : State) (hst' : Reads d [] naming false st st') :
      Reads d [] naming false st
        (if 1 < n then st'.report d line .overloadNotFirst else st') := by
    split
    · exact hst'.trans (reads_report hst'.names line _ rfl)
    · exact hst'
  unfold readOverload
  apply hfirst
  split
  · rename_i f _
    dsimp only
    split
    · exact ⟨introduces_report _ _ rfl, ⟨h.expecting, h.chapter⟩, (Bool.or_false _).symm⟩
    · exact ⟨introduces_markOverload st.registry f, ⟨h.expecting, h.chapter⟩, (Bool.or_false _).symm⟩
  · exact reads_report h line _ rfl

/-- A directive that announces an argument, which only functions have. -/
theorem reads_argument (h : Names d naming st) (line : Nat) :
    Reads d [] naming false st
      (match functionOf? d.subject with
        | some _ => st.expect d line "\\a" .argument
        | none => st.report d line .argumentOutsideFunction) := by
  cases hd : d.subject with
  | function f =>
      have hnone : naming = false := by
        cases naming with
        | false => rfl
        | true => simpa [hd, Subject.isChapter] using h.chapter rfl
      subst hnone
      exact reads_expect h line "\\a" (by simp) fun hnext => by cases hnext
  | classPage c => exact reads_report h line _ rfl
  | chapter ch => exact reads_report h line _ rfl

/-- The directive behind which words name classes, in the documentation of a chapter. -/
theorem reads_introduces (h : Names d naming st) (line : Nat) :
    Reads d [] (naming || d.subject.isChapter) true st
      { (match d.subject with
          | .chapter _ => st.expect d line "\\introduces" .classes
          | _ => st.report d line .introductionOutsideChapter) with introduces := true } := by
  have houtside : Reads d [] (naming || false) true st
      { st.report d line .introductionOutsideChapter with introduces := true } := by
    have hreport := reads_report h line .introductionOutsideChapter rfl
    rw [Bool.or_false]
    exact ⟨hreport.introduces, ⟨h.expecting, h.chapter⟩, (Bool.or_true _).symm⟩
  cases hd : d.subject with
  | chapter ch =>
      have hchapter : (naming || Subject.isChapter (.chapter ch)) = true := Bool.or_true _
      rw [hchapter]
      have hnext : Expecting.classes = .classes ↔ true = true := by simp
      have hexpect := reads_expect h line "\\introduces" hnext fun _ => by rw [hd]; rfl
      exact ⟨hexpect.introduces, ⟨hexpect.names.expecting, hexpect.names.chapter⟩,
        (Bool.or_true _).symm⟩
  | function f => exact houtside
  | classPage c => exact houtside

/-- **A directive** introduces nothing itself. -/
theorem reads_readDirective (h : Names d naming st) (w rest : List Char) (line n : Nat) :
    Reads d [] (naming || opensNames d w) (decide (w = "\\introduces".toList)) st
      (readDirective d w rest line n st).state := by
  have hword {name : String} (hw : String.ofList w = name) : w = name.toList := by
    rw [← hw, String.toList_ofList]
  have hno {name : String} (hw : ¬ String.ofList w = name) : w ≠ name.toList :=
    fun heq => hw (by rw [heq, String.ofList_toList])
  have hother (hw : w ≠ "\\introduces".toList) : (naming || opensNames d w) = naming ∧
      decide (w = "\\introduces".toList) = false := by
    rw [opensNames, decide_eq_false hw, Bool.and_false, Bool.or_false]
    exact ⟨rfl, rfl⟩
  unfold readDirective
  split
  case h_1 hw =>
    obtain ⟨hnaming, hflag⟩ := hother (by rw [hword hw]; decide)
    rw [hnaming, hflag]
    exact reads_argument h line
  case h_2 hw =>
    obtain rfl := hword hw
    rw [opensNames, decide_eq_true rfl, Bool.and_true]
    exact reads_introduces h line
  case h_3 hw =>
    obtain ⟨hnaming, hflag⟩ := hother (by rw [hword hw]; decide)
    rw [hnaming, hflag]
    exact reads_readOverload h line n
  case h_10 _ hw _ _ _ _ _ _ _ =>
    obtain ⟨hnaming, hflag⟩ := hother (hno hw)
    rw [hnaming, hflag]
    exact reads_report h line _ rfl
  -- The other directives take a text and leave the state as it is.
  all_goals
    rename_i hw
    obtain ⟨hnaming, hflag⟩ := hother (by rw [hword hw]; decide)
    rw [hnaming, hflag]
    exact reads_nothing h rfl rfl

/-- **A word** introduces a class if it is plain and words name classes. -/
theorem reads_readWord (h : Names d naming st) (w rest : List Char) (line n : Nat) :
    Reads d (introduced d naming w rest line) (naming || opensNames d w)
      (decide (w = "\\introduces".toList)) st (readWord d w rest line n st).state := by
  have hother (hw : w.head? ≠ some '\\') : (naming || opensNames d w) = naming ∧
      decide (w = "\\introduces".toList) = false := by
    have hne : w ≠ "\\introduces".toList := by
      rintro rfl
      exact hw rfl
    rw [opensNames, decide_eq_false hne, Bool.and_false, Bool.or_false]
    exact ⟨rfl, rfl⟩
  have hplain (hisPlain : isPlain w rest = true) : introduced d naming w rest line =
      if naming then [⟨d.subject, className w, ⟨d.origin.file, line⟩⟩] else [] := by
    rw [introduced, hisPlain, Bool.and_true]
  have hnone (hisPlain : isPlain w rest = false) : introduced d naming w rest line = [] := by
    rw [introduced, hisPlain, Bool.and_false]
    rfl
  unfold readWord
  split
  · rename_i hrfc
    obtain ⟨hnaming, hflag⟩ := hother (by rw [hrfc]; decide)
    rw [hnaming, hflag]
    cases hnumber : rfcNumber? rest with
    | some number =>
        rw [hnone (by rw [isPlain, if_pos hrfc, hnumber]; rfl)]
        exact reads_nothing h rfl rfl
    | none =>
        rw [hplain (by rw [isPlain, if_pos hrfc, hnumber]; rfl)]
        exact reads_readPlain h w line
  rename_i hrfc
  split
  · rename_i hurl
    obtain ⟨hnaming, hflag⟩ := hother (head?_of_isUrl hurl)
    rw [hnaming, hflag, hnone (by rw [isPlain, if_neg hrfc, hurl]; rfl)]
    exact reads_nothing h rfl rfl
  rename_i hurl
  split
  · rename_i hhead
    rw [hnone (by rw [isPlain, if_neg hrfc, bne, hhead]; simp)]
    exact reads_readDirective h w rest line n
  · rename_i hhead
    obtain ⟨hnaming, hflag⟩ := hother (by simpa using hhead)
    rw [hnaming, hflag, hplain (by rw [isPlain, if_neg hrfc]; simpa [hurl] using hhead)]
    exact reads_readPlain h w line

/-- A blank line ends a list of names. -/
theorem reads_readBlanks (h : Names d naming st) (blanks : List Char) (last : Nat) :
    Reads d [] (naming && decide (lineFeeds blanks < 2)) false st
      (readBlanks d blanks last st).1 := by
  unfold readBlanks
  split
  · rename_i hbreak
    rw [decide_eq_false (Nat.not_lt.mpr hbreak), Bool.and_false]
    exact reads_endParagraph h last
  · rename_i hbreak
    rw [decide_eq_true (Nat.not_le.mp hbreak), Bool.and_true]
    split <;> exact reads_nothing h rfl rfl

end Words

/-! ## Blocks -/

/-- Is there a word that says that names of classes follow? -/
def mentionsIntroduction (ts : List Token) : Bool :=
  ts.any (·.word = "\\introduces".toList)

section Blocks

variable {d : DocBlock} {naming : Bool}

/-- **The words of a text** make its introductions. -/
theorem reads_readRest {p : Progress} (h : Names d naming p.state) (s : List Char) :
    Reads d (introducedAll d p.line naming (tokens s)) false (mentionsIntroduction (tokens s)) p.state
      (readRest d p s).1 := by
  induction s using text_induction generalizing p naming with
  | blank s hs =>
      have hblanks := reads_readBlanks h s p.last
      have hend := hblanks.trans (reads_endParagraph hblanks.names p.last)
      rw [tokens_blank hs, readRest_blank d p hs]
      exact hend
  | word b w rest hb hw hrest ih =>
      have hblanks := reads_readBlanks h b p.last
      have hword := reads_readWord hblanks.names w rest (p.line + lineFeeds b) (p.count + 1)
      have htoken := hblanks.trans hword
      rw [tokens_word hb hw hrest, readRest_word d p hb hw hrest]
      exact htoken.trans (ih (p := (readToken d p ⟨b, w, rest⟩).1) hword.names)

/-- What is said behind a text introduces nothing. -/
theorem introduces_conclusion (d : DocBlock) (st : State) :
    Introduces [] st.registry (conclusion d st).1.registry := by
  have hreports (names : List String) (st : State) : Introduces [] st.registry
      (names.foldl (fun st name => st.report d d.origin.line (.undocumentedArgument name))
        st).registry := by
    induction names generalizing st with
    | nil => exact .refl _
    | cons name rest ih =>
        have hfirst : Introduces [] st.registry
            (st.report d d.origin.line (.undocumentedArgument name)).registry :=
          introduces_report _ _ rfl
        exact hfirst.trans (ih _)
  unfold conclusion
  split
  · exact hreports _ st
  · dsimp only
    split
    · exact .refl _
    · exact introduces_report _ _ rfl
  · exact .refl _

theorem introduces_checkMembers (d : DocBlock) (reg : Registry) :
    Introduces [] reg (checkMembers d reg) := by
  unfold checkMembers
  split
  · split
    · exact introduces_report reg _ rfl
    · exact .refl reg
  · exact .refl reg

/-- **One block** makes its introductions. -/
theorem introduces_interpret (reg : Registry) (id : DocId) :
    Introduces (introductions (reg.doc id)) reg (interpret reg id).1 := by
  simp only [interpret, introductions]
  generalize reg.doc id = d
  split
  · exact .refl reg
  have hwords := reads_readRest (d := d)
    (p := ⟨d.textLine, d.textLine, 0, .start (checkMembers d reg)⟩) (names_text d rfl) d.text.toList
  have hall := (introduces_checkMembers d reg).trans
    (hwords.introduces.trans (introduces_conclusion d _))
  rwa [List.append_nil] at hall

end Blocks

/-! ## Sequences of blocks -/

/-- **A sequence of blocks** makes the introductions of each. -/
theorem introduces_draftEach (reg : Registry) (ids : List DocId) :
    Introduces (ids.flatMap fun id => introductions (reg.doc id)) reg
      (Manual.draftEach interpret reg ids).1 := by
  induction ids generalizing reg with
  | nil => exact .refl reg
  | cons id rest ih =>
      have hfirst := introduces_interpret reg id
      have hdoc (id' : DocId) : (interpret reg id).1.doc id' = reg.doc id' :=
        eq_of_material (·.doc id') (doc_material · id') hfirst.material
      have hrest := ih (interpret reg id).1
      simp only [hdoc] at hrest
      exact hfirst.trans hrest

/-- **Introductions** in a sequence of blocks, before which nothing has been introduced.  The place
where each name is introduced first is remembered.  Every later introduction of the name is reported at
both places, and nothing else is reported in that way.  So if there is no such report, no name is
introduced twice, and no class by two chapters. -/
theorem introductions_noticed {reg : Registry} (hmentions : reg.mentions = [])
    (hclasses : ∀ ch, (reg.chapter ch).classes = []) (ids : List DocId) :
    let words := ids.flatMap fun id => introductions (reg.doc id)
    let final := (Manual.draftEach interpret reg ids).1
    (∀ name, final.mentions.lookup name = firstSite words name) ∧
      ∃ added, final.diagnostics = reg.diagnostics ++ added ∧
        added.filter (·.problem.isRepeat) = repeats reg [] words ∧
        ((∀ e ∈ added, e.problem.isRepeat = false) →
          (words.map (·.name)).Nodup ∧
            ∀ ch ch' c, c ∈ (final.chapter ch).classes → c ∈ (final.chapter ch').classes →
              ch = ch') := by
  intro words final
  have hall : Introduces words reg final := introduces_draftEach reg ids
  have hnothing : Recalls reg [] := fun name => by rw [hmentions]; rfl
  obtain ⟨added, hadded, hrepeats, -⟩ := hall.reports hnothing
  refine ⟨hall.recalls hnothing, added, hadded, hrepeats, fun hunnoticed => ?_⟩
  have hnone : added.filter (·.problem.isRepeat) = [] :=
    List.filter_eq_nil_iff.mpr fun e he => by simp [hunnoticed e he]
  have hnodup : (words.map (·.name)).Nodup := nodup_of_repeats (hrepeats.symm.trans hnone)
  have hintroduced (ch : ChapterId) (c : ClassId) (hc : c ∈ (final.chapter ch).classes) :
      ∃ i ∈ words, i.subject = .chapter ch ∧ reg.findClass? i.name = some c := by
    have hmem := (hall.classes ch c).mp hc
    rw [hclasses] at hmem
    obtain hmem | ⟨-, hmem⟩ := hmem
    · cases hmem
    · exact hmem
  refine ⟨hnodup, fun ch ch' c hc hc' => ?_⟩
  obtain ⟨i, hi, hsubject, hclass⟩ := hintroduced ch c hc
  obtain ⟨i', hi', hsubject', hclass'⟩ := hintroduced ch' c hc'
  -- A class has one name, and the name has been introduced once.
  obtain ⟨e, he, hname⟩ := getElem?_of_findClass? hclass
  obtain ⟨e', he', hname'⟩ := getElem?_of_findClass? hclass'
  obtain rfl : e = e' := Option.some.inj (he.symm.trans he')
  obtain rfl : i = i' := List.inj_on_of_nodup_map hnodup hi hi' (hname.symm.trans hname')
  exact Subject.chapter.inj (hsubject.symm.trans hsubject')

/-- Two chapters that introduce the same class. -/
theorem introductions_noticed_foo :
    let guide : DocBlock :=
      { origin := ⟨⟨0⟩, 3⟩, textLine := 4, text := "\\introduces Foo", subject := .chapter ⟨0⟩ }
    let manual : DocBlock :=
      { origin := ⟨⟨0⟩, 7⟩, textLine := 8, text := "\\introduces Foo", subject := .chapter ⟨1⟩ }
    let reg : Registry :=
      { Registry.empty with
        files := [⟨"foo.cpp", .source, ""⟩]
        classes := [Class.placeholder "Foo"]
        chapters := [⟨"guide", [], some ⟨0⟩⟩, ⟨"manual", [], some ⟨1⟩⟩]
        docs := [guide, manual] }
    let final := (Manual.draftEach interpret reg [⟨0⟩, ⟨1⟩]).1
    (∀ name, final.mentions.lookup name = if name = "Foo" then some ⟨⟨0⟩, 4⟩ else none) ∧
      ∃ added, final.diagnostics = [] ++ added ∧
        added.filter (·.problem.isRepeat) =
          [⟨⟨⟨0⟩, 8⟩, .alsoMentioned "Foo" "foo.cpp" 4⟩, ⟨⟨⟨0⟩, 4⟩, .alsoMentioned "Foo" "foo.cpp" 8⟩] := by
  intro guide manual reg final
  have hname : tokens " Foo".toList = [⟨" ".toList, "Foo".toList, []⟩] :=
    tokens_last (b := " ".toList) (w := "Foo".toList) (s := []) (by decide)
      (isWord_of_all (by decide) (by decide)) rfl
  have htokens : tokens "\\introduces Foo".toList =
      [⟨[], "\\introduces".toList, " Foo".toList⟩, ⟨" ".toList, "Foo".toList, []⟩] := by
    have hcut : tokens ([] ++ ("\\introduces".toList ++ " Foo".toList)) =
        ⟨[], "\\introduces".toList, " Foo".toList⟩ ::
          tokens (Token.rest ⟨[], "\\introduces".toList, " Foo".toList⟩) :=
      tokens_word (by decide) (isWord_of_all (by decide) (by decide))
        (fun c hc => by cases hc; decide)
    have hrest : Token.rest ⟨[], "\\introduces".toList, " Foo".toList⟩ = " Foo".toList := by decide
    rwa [hrest, hname] at hcut
  have hwords : [⟨0⟩, ⟨1⟩].flatMap (fun id => introductions (reg.doc id)) =
      [⟨.chapter ⟨0⟩, "Foo", ⟨⟨0⟩, 4⟩⟩, ⟨.chapter ⟨1⟩, "Foo", ⟨⟨0⟩, 8⟩⟩] := by
    have hguide : introductions guide = [⟨.chapter ⟨0⟩, "Foo", ⟨⟨0⟩, 4⟩⟩] := by
      simp only [introductions, guide, htokens]
      decide
    have hmanual : introductions manual = [⟨.chapter ⟨1⟩, "Foo", ⟨⟨0⟩, 8⟩⟩] := by
      simp only [introductions, manual, htokens]
      decide
    have hboth : introductions guide ++ (introductions manual ++ []) =
        [⟨.chapter ⟨0⟩, "Foo", ⟨⟨0⟩, 4⟩⟩, ⟨.chapter ⟨1⟩, "Foo", ⟨⟨0⟩, 8⟩⟩] := by
      rw [hguide, hmanual]
      rfl
    exact hboth
  have hclasses (ch : ChapterId) : (reg.chapter ch).classes = [] := by
    obtain ⟨_ | _ | n⟩ := ch <;> rfl
  obtain ⟨hfirst, added, hadded, hrepeats, -⟩ :=
    introductions_noticed (rfl : reg.mentions = []) hclasses [⟨0⟩, ⟨1⟩]
  rw [hwords] at hfirst hrepeats
  refine ⟨fun name => (hfirst name).trans ?_, added, hadded, hrepeats⟩
  by_cases hfoo : name = "Foo"
  · subst hfoo
    rfl
  · have hne : ("Foo" == name) = false := by simpa using Ne.symm hfoo
    simp [firstSite, hne, hfoo]

/-! ## Chapters that introduce nothing -/

/-- Something has been mentioned, as if it had been introduced. -/
theorem exists_recalls (reg : Registry) : ∃ earlier, Recalls reg earlier := by
  refine ⟨reg.mentions.map fun entry => ⟨default, entry.1, entry.2⟩, fun name => ?_⟩
  unfold firstSite
  induction reg.mentions with
  | nil => rfl
  | cons entry rest ih =>
      obtain ⟨first, site⟩ := entry
      by_cases hname : name = first
      · simp [hname]
      · have hne : (first == name) = false := by simpa using Ne.symm hname
        have hne' : (name == first) = false := by simpa using hname
        simp only [List.lookup_cons, hne', List.map_cons, List.find?_cons, hne]
        exact ih

/-- A block introduces classes for its subject. -/
theorem subject_introductions {d : DocBlock} {i : Introduction} (hi : i ∈ introductions d) :
    i.subject = d.subject := by
  have hone {naming : Bool} {w behind : List Char} {line : Nat}
      (hi : i ∈ introduced d naming w behind line) : i.subject = d.subject := by
    unfold introduced at hi
    split at hi
    · rw [List.mem_singleton.mp hi]
    · cases hi
  have hall (ts : List Token) (line : Nat) (naming : Bool)
      (hi : i ∈ introducedAll d line naming ts) : i.subject = d.subject := by
    induction ts generalizing line naming with
    | nil => cases hi
    | cons t rest ih =>
        rcases List.mem_append.mp hi with hi | hi
        · exact hone hi
        · exact ih _ _ hi
  unfold introductions at hi
  split at hi
  · cases hi
  · exact hall _ _ _ hi

/-- Blanks are read silently where no argument is expected. -/
theorem readBlanks_silent (d : DocBlock) {st : State} (h : st.expecting ≠ .argument)
    (blanks : List Char) (last : Nat) :
    (readBlanks d blanks last st).1.registry = st.registry ∧
      ((readBlanks d blanks last st).1.expecting = st.expecting ∨
        (readBlanks d blanks last st).1.expecting = .text) := by
  unfold readBlanks
  split
  · simp [endParagraph, h]
  · split <;> exact ⟨rfl, .inl rfl⟩

/-- A text whose only word is the directive is read silently. -/
theorem readRest_introduces {d : DocBlock} {ch : ChapterId} (hsubject : d.subject = .chapter ch)
    {p : Progress} (htext : p.state.expecting = .text) {s : List Char}
    (hwords : (tokens s).map (·.word) = ["\\introduces".toList]) :
    (readRest d p s).1.registry = p.state.registry := by
  obtain ⟨⟨b, w, behind⟩, htokens, hword⟩ := List.map_eq_singleton_iff.mp hwords
  obtain ⟨after, hafter, hread⟩ := readRest_tokens d p s
  obtain rfl : w = "\\introduces".toList := hword
  -- The state behind the directive.
  obtain ⟨hbefore, hstill⟩ := readBlanks_silent d (by rw [htext]; decide) b p.last
  have hexpecting : (readBlanks d b p.last p.state).1.expecting = .text :=
    hstill.elim (·.trans htext) id
  have hstate : (readTokens d p (tokens s)).1.state =
      { (readBlanks d b p.last p.state).1 with expecting := .classes, introduces := true } := by
    rw [htokens]
    simp only [readTokens, readToken]
    rw [readWord, if_neg (by decide), if_neg (by decide), if_pos (by decide)]
    simp only [readDirective, String.ofList_toList, hsubject, State.expect, hexpecting, if_pos,
      Outcome.ofPair]
  have hsilent : (readTokens d p (tokens s)).1.state.expecting ≠ .argument := by
    rw [hstate]
    exact fun h => by cases h
  obtain ⟨hbehind, hend⟩ := readBlanks_silent d hsilent after (readTokens d p (tokens s)).1.last
  have hnone : (readBlanks d after (readTokens d p (tokens s)).1.last
      (readTokens d p (tokens s)).1.state).1.expecting ≠ .argument := by
    rcases hend with hend | hend
    · rw [hend, hstate]
      exact fun h => by cases h
    · rw [hend]
      exact fun h => by cases h
  rw [hread, readRest_blank d _ hafter]
  simp only [endParagraph, if_neg hnone]
  rw [hbehind, hstate]
  exact hbefore

/-- **A chapter** whose list of classes is empty in the end.  If it does not say that it introduces
classes, that is reported; and each name that it introduces is reported, since there is no class of
that name.  But nothing is reported if all it says is that it introduces classes. -/
theorem chapter_diagnosed {reg : Registry} {id : DocId} {ch : ChapterId}
    (hsubject : (reg.doc id).subject = .chapter ch) (hvisible : (reg.doc id).isInternal = false)
    (hchapter : ch.index < reg.chapters.length)
    (hempty : ((interpret reg id).1.chapter ch).classes = []) :
    let d := reg.doc id
    let words := tokens d.text.toList
    ∃ added, (interpret reg id).1.diagnostics = reg.diagnostics ++ added ∧
      (mentionsIntroduction words = false → ⟨d.origin, .chapterWithoutIntroduction⟩ ∈ added) ∧
      (∀ i ∈ introductions d, ⟨i.site, .unknownClass i.name⟩ ∈ added) ∧
      ((mentionsIntroduction words = true → introductions d ≠ []) → added ≠ []) ∧
      (words.map (·.word) = ["\\introduces".toList] → added = []) := by
  intro d words
  have hunknown : ∀ i ∈ introductions d, reg.findClass? i.name = none := by
    intro i hi
    by_contra hsome
    obtain ⟨c, hc⟩ := Option.ne_none_iff_exists'.mp hsome
    have hmem := ((introduces_interpret reg id).classes ch c).mpr
      (.inr ⟨hchapter, i, hi, (subject_introductions hi).trans hsubject, hc⟩)
    rw [hempty] at hmem
    cases hmem
  have hchecked : checkMembers d reg = reg := by simp only [checkMembers, d, hsubject]
  have hreads := reads_readRest (d := d) (p := ⟨d.textLine, d.textLine, 0, .start reg⟩)
    (names_text d rfl) d.text.toList
  have hsilent := readRest_introduces (d := d) hsubject
    (p := ⟨d.textLine, d.textLine, 0, .start reg⟩) rfl (s := d.text.toList)
  generalize hq : readRest d ⟨d.textLine, d.textLine, 0, .start reg⟩ d.text.toList = q at hreads hsilent
  have hdrafted : (interpret reg id).1 =
      if q.1.introduces then q.1.registry else q.1.registry.report d.origin .chapterWithoutIntroduction := by
    have hwords : readWords d d.text.toList d.textLine d.textLine 0 (.start (checkMembers d reg)) = q := by
      rw [hchecked]
      exact hq
    simp only [interpret, hvisible, Bool.false_eq_true, if_false]
    rw [hwords]
    simp only [conclusion, hsubject]
    split <;> rfl
  have hall : introductions d = introducedAll d d.textLine false words := by
    simp only [introductions, d, words, hvisible, Bool.false_eq_true, if_false]
  obtain ⟨earlier, hearlier⟩ := exists_recalls reg
  obtain ⟨added, (hadded : q.1.registry.diagnostics = reg.diagnostics ++ added), -, hreported⟩ :=
    hreads.introduces.reports hearlier
  have hnames : ∀ i ∈ introductions d, ⟨i.site, .unknownClass i.name⟩ ∈ added :=
    fun i hi => hreported i (hall ▸ hi) (hunknown i hi)
  have hflag : q.1.introduces = mentionsIntroduction words := hreads.flag.trans (Bool.false_or _)
  cases hmentions : mentionsIntroduction words with
  | true =>
      rw [hflag, hmentions, if_pos rfl] at hdrafted
      refine ⟨added, hdrafted ▸ hadded, (fun h => by cases h), hnames, fun hnamed => ?_, fun hsingle => ?_⟩
      · obtain ⟨i, hi⟩ := List.exists_mem_of_ne_nil _ (hnamed rfl)
        exact List.ne_nil_of_mem (hnames i hi)
      · rw [hsilent hsingle] at hadded
        exact List.self_eq_append_right.mp hadded
  | false =>
      rw [hflag, hmentions, if_neg (by decide)] at hdrafted
      refine ⟨added ++ [⟨d.origin, .chapterWithoutIntroduction⟩], ?_, ?_, ?_, ?_, fun hsingle => ?_⟩
      · rw [hdrafted, ← List.append_assoc, ← hadded]
        rfl
      · exact fun _ => List.mem_append_right _ (List.mem_singleton.mpr rfl)
      · exact fun i hi => List.mem_append_left _ (hnames i hi)
      · exact fun _ => by simp
      · obtain ⟨t, ht, hword⟩ := List.map_eq_singleton_iff.mp hsingle
        rw [ht] at hmentions
        simp [mentionsIntroduction, hword] at hmentions

/-- A chapter that says that it introduces classes, and no more. -/
theorem chapter_diagnosed_guide :
    let d : DocBlock :=
      { origin := default, textLine := 1, text := "\\introduces\n", subject := .chapter ⟨0⟩ }
    let reg : Registry :=
      { Registry.empty with chapters := [⟨"guide", [], some ⟨0⟩⟩], docs := [d] }
    ((interpret reg ⟨0⟩).1.chapter ⟨0⟩).classes = [] ∧ (interpret reg ⟨0⟩).1.diagnostics = [] := by
  intro d reg
  have hempty : ((interpret reg ⟨0⟩).1.chapter ⟨0⟩).classes = [] := by
    refine List.eq_nil_iff_forall_not_mem.mpr fun c hc => ?_
    obtain hc | ⟨-, i, -, -, hc⟩ := ((introduces_interpret reg ⟨0⟩).classes ⟨0⟩ c).mp hc
    · cases hc
    · cases hc
  have htokens : tokens "\\introduces\n".toList = [⟨[], "\\introduces".toList, "\n".toList⟩] :=
    tokens_last (b := []) (w := "\\introduces".toList) (s := "\n".toList) (by decide)
      (isWord_of_all (by decide) (by decide)) (by decide)
  have hwords : (tokens d.text.toList).map (·.word) = ["\\introduces".toList] := by
    simp only [d, htokens, List.map_cons, List.map_nil]
  obtain ⟨added, hadded, -, -, -, hnone⟩ :=
    chapter_diagnosed (rfl : (reg.doc ⟨0⟩).subject = .chapter ⟨0⟩) (by decide) (by decide) hempty
  rw [hnone hwords] at hadded
  exact ⟨hempty, hadded⟩

end Markup

end CppDoc
