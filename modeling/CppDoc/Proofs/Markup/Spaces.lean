import CppDoc.Proofs.Manual.Spaces
import CppDoc.Proofs.Markup.Tokens
import CppDoc.Proofs.Reading.Comment

/-!
# No doubled spaces

Whatever the files of a project look like, and however its comments are spaced, the headlines and
paragraphs that are written of it are tidy: none of them begins or ends with a blank, and no two
blanks stand side by side in one.

* `neat_preamble`, `neat_readRest` and `neat_conclusion`: the drafts of a block;
* `Surveyed`: the registries that come of reading files, linking classes and drafting;
* `texts_tidy`: the texts of every block of documentation.
-/

namespace CppDoc.Markup

open CppDoc.Text CppDoc.Registry

variable {reg : Registry}

/-! ## Signatures -/

/-- Nothing is named where nothing is written. -/
theorem signaturePiece_empty (within : ClassId) : signaturePiece reg within "" = .text "" := by
  have hnone : firstClass? reg "".toList = none := by
    rw [show "".toList = [] from rfl, firstClass?]
  simp only [signaturePiece, hnone]

/-- A piece of a signature shows what is written there, linked or not. -/
theorem item_signaturePiece (within : ClassId) {s : String} (hs : Tidy s.toList) (hne : s ≠ "")
    (p : Ending) : Item p (signaturePiece reg within s) .solid := by
  unfold signaturePiece
  split
  · split
    · exact .tidy p rfl hs hne
    · exact .tidy p rfl hs hne
  · exact .tidy p rfl hs hne

theorem neat_signaturePiece (within : ClassId) {s : String} (hs : Tidy s.toList) :
    Neat [signaturePiece reg within s] := by
  rcases eq_or_ne s "" with rfl | hne
  · rw [signaturePiece_empty]
    exact neat_text hs
  · exact fun p _ => ⟨.solid, nofun, .cons (item_signaturePiece within hs hne p) (.nil _)⟩

/-- The text is tidy but for what it begins with. -/
structure EndsTidy (s : List Char) : Prop where
  single : s.IsChain fun a b => isBlank a = false ∨ isBlank b = false
  last : ∀ c, s.getLast? = some c → isBlank c = false

/-- Without the white space that it begins with, the text is tidy. -/
theorem EndsTidy.trimLeft {s : List Char} (h : EndsTidy s) : Tidy (trimLeft s) := by
  have hsuffix : Text.trimLeft s <:+ s := List.dropWhile_suffix isSpace
  refine ⟨⟨fun c hc => ?_, h.single.suffix hsuffix⟩, fun c hc => h.last c ?_⟩
  · have hsolid := List.head?_dropWhile_not isSpace s
    rw [show s.dropWhile isSpace = Text.trimLeft s from rfl, hc] at hsolid
    exact Syntax.isBlank_eq_false_of_isSpace (by simpa using hsolid)
  · obtain ⟨before, hbefore⟩ := hsuffix
    rw [← hbefore, List.getLast?_append, hc]
    rfl

/-- The pieces of a parameter list are parts of it that are not empty. -/
theorem flatten_pieces (s : List Char) : (pieces s).flatten = s ∧ [] ∉ pieces s := by
  induction s with
  | nil => exact ⟨rfl, List.not_mem_nil⟩
  | cons c rest ih =>
      obtain ⟨hflat, hne⟩ := ih
      unfold pieces
      split
      · simp [hflat, hne]
      split
      · rename_i hnil
        rw [hnil] at hflat
        simp [← hflat]
      · rename_i p ps hpieces
        rw [hpieces] at hflat hne
        simp_all

/-- A piece ends with a comma, or where the parameter list ends. -/
theorem endsTidy_pieces {s : List Char} (h : EndsTidy s) : ∀ p ∈ pieces s, EndsTidy p := by
  induction s with
  | nil => exact nofun
  | cons c rest ih =>
      have hrest := ih ⟨h.single.tail, fun d hd => h.last d (by rw [List.getLast?_cons, hd]; rfl)⟩
      obtain ⟨hflat, hne⟩ := flatten_pieces rest
      unfold pieces
      split
      · rename_i hcomma
        rw [List.forall_mem_cons]
        refine ⟨⟨List.isChain_singleton c, fun d hd => ?_⟩, hrest⟩
        obtain rfl : c = d := by simpa using hd
        rw [hcomma]
        rfl
      split
      · rename_i hnil
        rw [hnil] at hflat
        obtain rfl : [] = rest := hflat
        rw [List.forall_mem_singleton]
        exact h
      · rename_i p ps hpieces
        rw [hpieces] at hflat hne hrest
        rw [List.forall_mem_cons] at hrest ⊢
        refine ⟨⟨?_, fun d hd => ?_⟩, hrest.2⟩
        · have hsingle := h.single
          rw [← hflat, List.flatten_cons, ← List.cons_append] at hsingle
          exact hsingle.left_of_append
        · obtain ⟨e, p, rfl⟩ := List.exists_cons_of_ne_nil fun hnil => hne (hnil ▸ List.mem_cons_self)
          rw [List.getLast?_cons_cons] at hd
          exact hrest.1.last d hd

theorem neat_parameterDrafts (within : ClassId) {parameters : String}
    (h : Tidy parameters.toList) : Neat (parameterDrafts reg within parameters) := by
  unfold parameterDrafts
  split
  · exact neat_text h
  obtain ⟨hflat, hne⟩ := flatten_pieces parameters.toList
  have htidy := endsTidy_pieces ⟨h.single, h.last⟩
  split
  · exact neat_nil
  · rename_i first others hpieces
    rw [hpieces] at hflat hne htidy
    rw [List.forall_mem_cons] at htidy
    have hfirst : Tidy first := by
      refine ⟨⟨fun c hc => h.head c ?_, htidy.1.single⟩, htidy.1.last⟩
      rw [← hflat, List.flatten_cons, List.head?_append, hc]
      rfl
    rw [← List.singleton_append]
    refine (neat_signaturePiece within (by rwa [String.toList_ofList])).append ?_
    refine neat_flatMap fun p hp => neat_space.append (neat_signaturePiece within ?_)
    rw [String.toList_ofList]
    exact (htidy.2 p hp).trimLeft

/-! ## Headlines -/

/-- **Functions.**  There is a space before the name if there is something before it. -/
theorem neat_functionPreamble (h : reg.Tidy) (id : FunctionId) :
    Neat (functionPreamble reg id) := by
  have hf := h.function id
  have hconst : Neat (if (reg.function id).isConst then [.text " const"] else []) := by
    split
    · exact fun p _ => ⟨.solid, nofun, .cons (.behindBlank p (t := "const")
        (tidy_of_all (by decide)) (by decide)) (.nil _)⟩
    · exact neat_nil
  have hname : Neat [.headline (.function (reg.memberRef id)),
      signaturePiece reg (reg.function id).owner (reg.function id).returnType, .text " ",
      .text (reg.function id).name] := by
    intro p hp
    have hbegin : Item p (.headline (.function (reg.memberRef id))) .unbegun := .boundary hp rfl
    rcases eq_or_ne (reg.function id).returnType "" with hnone | hsome
    · -- Nothing has been shown before the name, so that there is no space either.
      obtain ⟨q, hq, hname⟩ := neat_text hf.name .unbegun nofun
      rw [hnone, signaturePiece_empty]
      exact ⟨q, hq, .cons hbegin (.cons (.nothing _) (.cons (.blank _) hname))⟩
    · have htype (p : Ending) : Item p
          (signaturePiece reg (reg.function id).owner (reg.function id).returnType) .solid :=
        item_signaturePiece _ hf.returnType hsome p
      have hname : Item .loose (.text (reg.function id).name) .solid :=
        .tidy _ rfl hf.name (hf.named hsome)
      exact ⟨.solid, nofun,
        .cons hbegin (.cons (htype _) (.cons (.blank _) (.cons hname (.nil _))))⟩
  exact ((hname.append (neat_parameterDrafts _ hf.parameters)).append hconst).append
    (neat_boundary rfl)

/-- A name with a mark behind it. -/
theorem tidy_marked {name mark : String} (hname : Spaced name.toList) (hmark : Tidy mark.toList)
    (hne : mark ≠ "") : Tidy (name ++ mark).toList ∧ name ++ mark ≠ "" := by
  rw [String.toList_append]
  exact ⟨hname.append_tidy hmark (by simpa using hne), by simp [hne]⟩

/-- The names of the children stand between their commas and a full stop. -/
theorem items_childDrafts {names : List String} (hne : names ≠ [])
    (h : ∀ name ∈ names, Spaced name.toList) (p : Ending) :
    Items p (childDrafts names) .solid := by
  induction names generalizing p with
  | nil => exact absurd rfl hne
  | cons name others ih =>
      rw [List.forall_mem_cons] at h
      cases others with
      | nil =>
          have hstop : Tidy ".".toList := tidy_of_all (by decide)
          obtain ⟨hmarked, hne'⟩ := tidy_marked h.1 hstop (by decide)
          exact .cons (.tidy p rfl hmarked hne') (.nil _)
      | cons other others =>
          have hcomma : Tidy ",".toList := tidy_of_all (by decide)
          obtain ⟨hmarked, hne'⟩ := tidy_marked h.1 hcomma (by decide)
          exact .cons (.tidy p rfl hmarked hne')
            (.cons (.space _) (ih (List.cons_ne_nil _ _) h.2 _))

/-- **Classes.**  The name of a class stands between a space and a full stop. -/
theorem neat_classPreamble (h : reg.Tidy) (id : ClassId) : Neat (classPreamble reg id) := by
  have hdot : Tidy ".".toList := tidy_of_all (by decide)
  have hend : Neat [.close] := neat_boundary rfl
  have htitle : Neat [.headline (.classPage (reg.getClass id).name), .text "Class ",
      .text (reg.getClass id).name, .text ".", .close] := by
    intro p hp
    have hclass : Item .unbegun (.text "Class ") .loose :=
      .spaced _ (spaced_of_all (by decide) (by decide)) (by decide)
    have hname : Item .loose (.text (reg.getClass id).name) .loose := by
      rcases eq_or_ne (reg.getClass id).name "" with hnone | hsome
      · rw [hnone]
        exact .nothing _
      · exact .spaced _ (h.getClass id) hsome
    refine ⟨.unbegun, nofun, .cons (.boundary hp rfl) (.cons hclass (.cons hname ?_))⟩
    exact .cons (.tidy _ rfl hdot (by decide)) (.cons (.boundary nofun rfl) (.nil _))
  have hchildren : Neat (if (reg.getClass id).children.isEmpty then []
      else [.space, .text "Inherited by "] ++
        childDrafts ((reg.getClass id).children.map fun d => (reg.getClass d).name)) := by
    split
    · exact neat_nil
    · rename_i hsome
      intro p _
      have hnames : ∀ name ∈ (reg.getClass id).children.map fun d => (reg.getClass d).name,
          Spaced name.toList := by
        intro name hname
        obtain ⟨d, -, rfl⟩ := List.mem_map.mp hname
        exact h.getClass d
      have hne : ((reg.getClass id).children.map fun d => (reg.getClass d).name) ≠ [] := by
        simpa using hsome
      have hlead : Item p (.text "Inherited by ") .loose :=
        .spaced _ (spaced_of_all (by decide) (by decide)) (by decide)
      exact ⟨.solid, nofun, .cons (.space p) (.cons hlead (items_childDrafts hne hnames _))⟩
  refine ((htitle.append ?parent).append hchildren).append hend
  case parent =>
    split
    · exact neat_nil
    · rename_i p _
      obtain ⟨hmarked, hne⟩ := tidy_marked (h.getClass p) hdot (by decide)
      exact neat_introduced (spaced_of_all (by decide) (by decide)) (by decide) rfl hmarked hne

theorem neat_preamble (h : reg.Tidy) (s : Subject) : Neat (preamble reg s) := by
  cases s with
  | function f => exact neat_functionPreamble h f
  | classPage c => exact neat_classPreamble h c
  | chapter ch => exact neat_boundary rfl

/-! ## Words -/

section Words

variable {d : DocBlock} {w : List Char}

/-- Content that shows a word. -/
theorem neat_word {c : Content} (hw : IsWord w) (hc : c.inline? = some (String.ofList w)) :
    Neat [.content c] :=
  neat_tidy hc (by rw [String.toList_ofList]; exact tidy_of_nonblank hw.solid)
    (by simpa using hw.ne_nil)

theorem neat_endParagraph (line : Nat) (st : State) : Neat (endParagraph d line st).2 :=
  neat_boundary rfl

theorem neat_readPlain (hw : IsWord w) (line : Nat) (st : State) :
    Neat (readPlain d w line st).2 := by
  unfold readPlain
  split
  · exact neat_nil
  · exact neat_word hw rfl
  · simp only [readReference]
    split <;> exact neat_word hw rfl

theorem neat_readDirective (hw : IsWord w) (rest : List Char)
    (line n : Nat) (st : State) : Neat (readDirective d w rest line n st).drafts := by
  unfold readDirective
  split
  case h_10 => exact neat_word hw rfl
  all_goals first | exact neat_nil | exact neat_boundary rfl

/-- There are no blanks in a number. -/
theorem tidy_rfcTitle (number : Nat) : Tidy ("RFC " ++ toString number).toList := by
  have hdigits : (toString number).toList = Nat.toDigits 10 number := String.toList_ofList
  have hlead : Spaced "RFC ".toList := spaced_of_all (by decide) (by decide)
  rw [String.toList_append, hdigits]
  refine hlead.append_tidy (tidy_of_nonblank fun c hc => ?_) Nat.toDigits_ne_nil
  have hdigit := Nat.isDigit_of_mem_toDigits (by decide) (by decide) hc
  cases hblank : isBlank c with
  | false => rfl
  | true =>
      simp only [isBlank, Bool.or_eq_true, beq_iff_eq] at hblank
      rcases hblank with ((rfl | rfl) | rfl) | rfl <;> exact absurd hdigit (by decide)

theorem neat_readWord (hw : IsWord w) (rest : List Char)
    (line n : Nat) (st : State) : Neat (readWord d w rest line n st).drafts := by
  unfold readWord
  split
  · split
    · exact neat_tidy rfl (tidy_rfcTitle _) (by simp)
    · exact neat_readPlain hw line st
  split
  · exact neat_word hw rfl
  split
  · exact neat_readDirective hw rest line n st
  · exact neat_readPlain hw line st

theorem neat_readBlanks (blanks : List Char) (last : Nat) (st : State) :
    Neat (readBlanks d blanks last st).2 := by
  unfold readBlanks
  split
  · exact neat_endParagraph last st
  · split
    · exact neat_nil
    · exact neat_space

/-- **The words of a block.**  They are shown one by one, with a space asked for between two. -/
theorem neat_readRest (d : DocBlock) (p : Progress) (s : List Char) : Neat (readRest d p s).2 := by
  induction s using text_induction generalizing p with
  | blank s hs =>
      rw [readRest_blank d p hs]
      exact (neat_readBlanks s p.last p.state).append (neat_endParagraph p.last _)
  | word b w rest hb hw hrest ih =>
      rw [readRest_word d p hb hw hrest]
      have htoken : Neat (readToken d p ⟨b, w, rest⟩).2 :=
        (neat_readBlanks b p.last p.state).append (neat_readWord hw rest _ _ _)
      exact htoken.append (ih _)

end Words

/-! ## Blocks -/

theorem neat_conclusion {d : DocBlock} {st : State} (h : st.registry.Tidy) :
    Neat (conclusion d st).2 := by
  unfold conclusion
  split
  · rename_i f
    simp only [concludeFunction]
    split
    · exact neat_nil
    · rename_i base _
      have hcall : Tidy "().".toList := tidy_of_all (by decide)
      obtain ⟨hmarked, hne⟩ := tidy_marked (h.function base).name.toSpaced hcall (by decide)
      exact (neat_introduced (spaced_of_all (by decide) (by decide)) (by decide) rfl hmarked
        hne).append (neat_boundary rfl)
  · exact neat_nil
  · exact neat_nil

/-- What is shown of a registry is part of its material. -/
theorem tidy_of_material {reg reg' : Registry} (h : reg.Tidy) (hsame : reg'.material = reg.material) :
    reg'.Tidy := by
  have hmaterial (reg : Registry) : reg.material.Tidy = reg.Tidy := by
    refine propext ⟨fun h => ⟨fun c hc => ?_, fun f hf => ?_⟩, fun h => ⟨?_, ?_⟩⟩
    · exact h.classes c.material (List.mem_map_of_mem hc)
    · obtain ⟨hname, htype, hparameters, hnamed⟩ := h.functions f.material (List.mem_map_of_mem hf)
      exact ⟨hname, htype, hparameters, hnamed⟩
    · exact List.forall_mem_map.mpr h.classes
    · refine List.forall_mem_map.mpr fun f hf => ?_
      obtain ⟨hname, htype, hparameters, hnamed⟩ := h.functions f hf
      exact ⟨hname, htype, hparameters, hnamed⟩
  rw [eq_of_material Registry.Tidy hmaterial hsame]
  exact h

/-- **Blocks.**  The draft of a block is neat, and drafting it leaves what is shown as it is. -/
theorem neat_interpret (h : reg.Tidy) (id : DocId) :
    (interpret reg id).1.Tidy ∧ Neat (interpret reg id).2 := by
  refine ⟨tidy_of_material h (notes_interpret reg id).material, ?_⟩
  have hchecked := (notes_checkMembers (reg.doc id) reg).material
  have hread := (notes_readWords (reg.doc id) (reg.doc id).text.toList (reg.doc id).textLine
    (reg.doc id).textLine 0 (.start (checkMembers (reg.doc id) reg))).material.trans hchecked
  have hbody := neat_readRest (reg.doc id)
    ⟨(reg.doc id).textLine, (reg.doc id).textLine, 0, .start (checkMembers (reg.doc id) reg)⟩
    (reg.doc id).text.toList
  simp only [interpret]
  split
  · exact neat_nil
  · exact ((neat_preamble h _).append hbody).append (neat_conclusion (tidy_of_material h hread))

/-! ## Registries -/

/-- The registries that come of reading files, linking classes and drafting blocks, in any order. -/
inductive Surveyed : Registry → Prop
  | empty : Surveyed .empty
  | addFile {reg : Registry} (before : Surveyed reg) (file : SourceFile) :
      Surveyed (reg.addFile file).2
  | scanHeader {reg : Registry} (before : Surveyed reg) (file : FileId) :
      Surveyed (Header.scan reg file)
  | scanComments {reg : Registry} (before : Surveyed reg) (tree : FileTree) (file : FileId) :
      Surveyed (Comment.scan tree reg file).1
  | buildHierarchy {reg : Registry} (before : Surveyed reg) : Surveyed reg.buildHierarchy
  | interpret {reg : Registry} (before : Surveyed reg) (id : DocId) :
      Surveyed (Markup.interpret reg id).1

/-- What is kept of the files is tidy. -/
theorem Surveyed.tidy (h : Surveyed reg) : reg.Tidy := by
  induction h with
  | empty => exact tidy_empty
  | addFile _ file ih => exact ⟨ih.classes, ih.functions⟩
  | scanHeader _ file ih => exact Header.tidy_scan ih file
  | scanComments _ tree file ih => exact Comment.tidy_scan tree ih file
  | buildHierarchy _ ih => exact tidy_buildHierarchy ih
  | interpret _ id ih => exact (neat_interpret ih id).1

/-- **No doubled spaces.**  Whatever files have been read, every headline and every paragraph that is
written of a block of documentation is tidy. -/
theorem texts_tidy (h : Surveyed reg) (id : DocId) :
    ∀ t ∈ Event.texts (Spacing.closed.settle (interpret reg id).2).2, Tidy t :=
  (neat_interpret h.tidy id).2.texts

/-- A comment and a signature with many blanks. -/
theorem texts_tidy_size :
    let reg := (Comment.scan ⟨[]⟩ (Registry.empty.addFile
      { path := "foo.cpp", kind := .source
        text := "/*!\n  The  size,\tgiven  \\a a .\n*/\nint  &Foo::size( int   a,int b ) const\n" }).2
      ⟨0⟩).1.buildHierarchy
    let texts := Event.texts (Spacing.closed.settle (interpret reg ⟨0⟩).2).2
    texts.map String.ofList =
        ["", "int& Foo::size(int a, int b) const", "The size, given a .", ""] ∧
      ∀ t ∈ texts, Tidy t := by
  intro reg texts
  exact ⟨by decide +kernel,
    texts_tidy (.buildHierarchy (.scanComments (.addFile .empty _) ⟨[]⟩ ⟨0⟩)) ⟨0⟩⟩

end CppDoc.Markup
