import CppDoc.Proofs.Markup.Tokens
import CppDoc.Proofs.Manual.Balance
import CppDoc.Proofs.Manual.Spaces
import Mathlib.Data.List.SplitBy
import Mathlib.Data.List.Forall2

/-!
# Prose

A text without directives comes out as it is written.  Its **blocks** are what blank lines separate,
its words what any blanks separate, and each block becomes a paragraph in which each word is shown
once, whole and in its place, with a space between two words.

* `Text.blocks`: the blocks of a text, each as the list of its words;
* `Event.paragraphs`: what the paragraph ends of a stream separate;
* `Shows`: the events that show the words of a block;
* `shows_blocks`: every text whose words are prose.
-/

namespace CppDoc

open CppDoc.Text

namespace Text

/-- The longest runs of blanks and of other characters, in order. -/
def runs (s : List Char) : List (List Char) :=
  s.splitBy fun a b => isBlank a == isBlank b

/-- Is there a blank line in the run? -/
def isBreak (run : List Char) : Bool :=
  decide (2 ≤ run.count '\n')

/-- The words among some runs. -/
def wordsAmong (runs : List (List Char)) : List (List Char) :=
  runs.filter fun run => run.all (!isBlank ·)

/-- The words between one run with a blank line and the next. -/
def stretchesAmong (runs : List (List Char)) : List (List (List Char)) :=
  (runs.splitOnP isBreak).map wordsAmong

/-- The words between one blank line of a text and the next. -/
def stretches (s : List Char) : List (List (List Char)) :=
  stretchesAmong (runs s)

/-- The blocks of a text: the words between one blank line and the next, where there are any. -/
def blocks (s : List Char) : List (List (List Char)) :=
  (stretches s).filter (!·.isEmpty)

end Text

/-- What stands between one paragraph end and the next. -/
def Event.stretches (events : List Event) : List (List Event) :=
  events.splitOnP (· == .close)

/-- The paragraphs of a stream: what stands between one paragraph end and the next, where anything
does. -/
def Event.paragraphs (events : List Event) : List (List Event) :=
  (Event.stretches events).filter (!·.isEmpty)

namespace Markup

/-! ## What shows a block -/

/-- A word that is no directive and does not announce a number. -/
structure IsProse (w : List Char) : Prop where
  plain : w.head? ≠ some '\\'
  no_number : w ≠ "RFC".toList

/-- The content stands for the word: it shows the whole of it, as text or as a link. -/
inductive StandsFor (w : List Char) : Content → Prop
  | text : StandsFor w (.text (String.ofList w))
  | link : StandsFor w (.link (String.ofList w) (String.ofList w))
  | classLink (name : String) : StandsFor w (.classLink (String.ofList w) name)
  | functionLink (f : MemberRef) : StandsFor w (.functionLink (String.ofList w) f)

/-- What stands between two words: a space, unless one of them has white space there. -/
def joint (w v : List Char) : List Event :=
  if Spacing.endsWithSpace (String.ofList w) || Spacing.leadsWithSpace (String.ofList v) then []
  else [.content (.text " ")]

/-- These events show words that follow the word `w` in its block. -/
inductive Continues : List Char → List (List Char) → List Event → Prop
  | done (w : List Char) : Continues w [] []
  | word (w : List Char) {v : List Char} {words : List (List Char)} {c : Content}
      {events : List Event} : StandsFor v c → Continues v words events →
      Continues w (v :: words) (joint w v ++ .content c :: events)

/-- These events show the words of a block: one after the other, each as one piece of content, and
what stands between them. -/
inductive Shows : List (List Char) → List Event → Prop
  | words {w : List Char} {words : List (List Char)} {c : Content} {events : List Event} :
      StandsFor w c → Continues w words events → Shows (w :: words) (.content c :: events)

/-! ## Blocks of a text -/

section Stretches

variable {s b w rest : List Char}

theorem IsWord.nonblank (hw : IsWord w) : w.all (!isBlank ·) = true := by
  simpa using hw.solid

/-- Characters of one kind are one run. -/
theorem isChain_of_kind {flag : Bool} (h : ∀ c ∈ s, isBlank c = flag) :
    s.IsChain fun x y => isBlank x == isBlank y := by
  apply List.Pairwise.isChain
  apply List.pairwise_of_forall_mem_list
  intro x hx y hy
  rw [h x hx, h y hy, beq_self_eq_true]

theorem isBreak_word (hw : IsWord w) : isBreak w = false := by
  have hnone : w.count '\n' = 0 := by
    rw [List.count_eq_zero]
    intro h
    exact Bool.noConfusion ((hw.solid '\n' h).symm.trans (by decide : isBlank '\n' = true))
  simp [isBreak, hnone]

/-- The runs of a text that begins with a word. -/
theorem runs_word (hb : b.all isBlank = true) (hw : IsWord w) (hrest : EndsWord rest) :
    runs (b ++ (w ++ rest)) = (if b = [] then [] else [b]) ++ w :: runs rest := by
  have hblank := List.all_eq_true.mp hb
  have hsplit : runs (w ++ rest) = w :: runs rest := by
    unfold runs
    rw [List.splitBy_append, List.splitBy_of_isChain hw.ne_nil (isChain_of_kind hw.solid)]
    · rfl
    · intro x hx y hy
      rw [hw.solid x (List.mem_of_getLast? hx), hrest y hy]
      rfl
  split
  · rename_i hnil
    rw [hnil]
    exact hsplit
  · rename_i hne
    rw [← hsplit]
    unfold runs
    rw [List.splitBy_append, List.splitBy_of_isChain hne (isChain_of_kind hblank)]
    intro x hx y hy
    obtain ⟨c, tail, rfl⟩ := List.exists_cons_of_ne_nil hw.ne_nil
    obtain rfl : c = y := by simpa using hy
    rw [hblank x (List.mem_of_getLast? hx), hw.solid c List.mem_cons_self]
    rfl

/-- A word belongs to the stretch that it begins. -/
theorem stretchesAmong_word (hw : IsWord w) (rs : List (List Char)) :
    stretchesAmong (w :: rs) = (stretchesAmong rs).modifyHead (w :: ·) := by
  obtain ⟨first, others, hsplit⟩ := List.exists_cons_of_ne_nil (List.splitOnP_ne_nil isBreak rs)
  have hkept : wordsAmong (w :: first) = w :: wordsAmong first := List.filter_cons_of_pos hw.nonblank
  unfold stretchesAmong
  rw [List.splitOnP_cons_eq_if_modifyHead, if_neg (by simp [isBreak_word hw]), hsplit,
    List.modifyHead_cons, List.map_cons, hkept]
  rfl

/-- Blanks separate two stretches or are left out. -/
theorem stretchesAmong_blank (hb : b.all isBlank = true) (hne : b ≠ []) (rs : List (List Char)) :
    stretchesAmong (b :: rs) = (if isBreak b then [[]] else []) ++ stretchesAmong rs := by
  obtain ⟨first, others, hsplit⟩ := List.exists_cons_of_ne_nil (List.splitOnP_ne_nil isBreak rs)
  have hnone : b.all (!isBlank ·) = false := by
    rw [List.all_eq_false]
    obtain ⟨c, tail, rfl⟩ := List.exists_cons_of_ne_nil hne
    exact ⟨c, List.mem_cons_self, by simpa using List.all_eq_true.mp hb c List.mem_cons_self⟩
  have hdropped : wordsAmong (b :: first) = wordsAmong first :=
    List.filter_cons_of_neg (by rw [hnone]; exact Bool.false_ne_true)
  unfold stretchesAmong
  rw [List.splitOnP_cons_eq_if_modifyHead]
  split
  · rfl
  · rw [hsplit, List.modifyHead_cons, List.map_cons, hdropped]
    rfl

theorem stretches_ne_nil (s : List Char) : Text.stretches s ≠ [] := by
  unfold Text.stretches stretchesAmong
  rw [Ne, List.map_eq_nil_iff]
  exact List.splitOnP_ne_nil isBreak (runs s)

/-- The stretches of a text without words are empty. -/
theorem stretches_blank (hs : s.all isBlank = true) :
    Text.stretches s = (if isBreak s then [[]] else []) ++ [[]] := by
  rcases eq_or_ne s [] with rfl | hne
  · rfl
  · have hrun : runs s = [s] :=
      List.splitBy_of_isChain hne (isChain_of_kind (List.all_eq_true.mp hs))
    unfold Text.stretches
    rw [hrun, stretchesAmong_blank hs hne]
    rfl

/-- A word belongs to the stretch behind the blanks before it. -/
theorem stretches_word (hb : b.all isBlank = true) (hw : IsWord w) (hrest : EndsWord rest) :
    Text.stretches (b ++ (w ++ rest)) =
      (if isBreak b then [[]] else []) ++ (Text.stretches rest).modifyHead (w :: ·) := by
  unfold Text.stretches
  rw [runs_word hb hw hrest, ← stretchesAmong_word hw]
  rcases eq_or_ne b [] with rfl | hne
  · rfl
  · rw [if_neg hne, List.singleton_append, stretchesAmong_blank hb hne]

end Stretches

/-! ## Stretches of a stream -/

section Events

variable {w v : List Char} {c : Content} {events : List Event}

theorem stretches_close (events : List Event) :
    Event.stretches (.close :: events) = [] :: Event.stretches events := by
  unfold Event.stretches
  rw [List.splitOnP_cons_eq_if_modifyHead]
  rfl

theorem stretches_content (c : Content) (events : List Event) :
    Event.stretches (.content c :: events) =
      (Event.stretches events).modifyHead (.content c :: ·) := by
  unfold Event.stretches
  rw [List.splitOnP_cons_eq_if_modifyHead]
  rfl

theorem stretches_joint (w v : List Char) (events : List Event) :
    Event.stretches (joint w v ++ events) = (Event.stretches events).modifyHead (joint w v ++ ·) := by
  unfold joint
  split
  · simp only [List.nil_append]
    exact (congrFun List.modifyHead_id _).symm
  · exact stretches_content _ _

/-- A paragraph end with nothing before it separates nothing. -/
theorem paragraphs_close (events : List Event) :
    Event.paragraphs (.close :: events) = Event.paragraphs events := by
  unfold Event.paragraphs
  rw [stretches_close]
  rfl

/-- The stretches of a text and those of the events that show them, where the word `w` stands before
the text: the first ones belong to the block of that word, and of the others, only those with words
are shown. -/
inductive GoesOn (w : List Char) : List (List (List Char)) → List (List Event) → Prop
  | intro {words : List (List Char)} {more : List (List (List Char))} {events : List Event}
      {others : List (List Event)} : Continues w words events →
      List.Forall₂ Shows (more.filter (!·.isEmpty)) (others.filter (!·.isEmpty)) →
      GoesOn w (words :: more) (events :: others)

/-- A word begins a block. -/
theorem GoesOn.begin {ss : List (List (List Char))} {es : List (List Event)} (hc : StandsFor v c)
    (h : GoesOn v ss es) :
    List.Forall₂ Shows ((ss.modifyHead (v :: ·)).filter (!·.isEmpty))
      ((es.modifyHead (.content c :: ·)).filter (!·.isEmpty)) := by
  cases h with
  | intro hfirst hothers => exact .cons (.words hc hfirst) hothers

/-- A word goes on with the block of the word before it. -/
theorem GoesOn.word {ss : List (List (List Char))} {es : List (List Event)} (hc : StandsFor v c)
    (h : GoesOn v ss es) :
    GoesOn w (ss.modifyHead (v :: ·)) (es.modifyHead (joint w v ++ .content c :: ·)) := by
  cases h with
  | intro hfirst hothers => exact .intro (.word w hc hfirst) hothers

end Events

/-! ## Words and blanks -/

section Words

variable {d : DocBlock} {w v b rest : List Char} {c : Content}

/-- The spacing before the first word of a block. -/
def beforeBlock (opened : Bool) : Spacing :=
  { Spacing.closed with opened }

/-- The spacing behind a word. -/
def behindWord (w : List Char) : Spacing :=
  { pending := false
    opened := true
    fresh := false
    spaced := Spacing.endsWithSpace (String.ofList w) }

/-- What stands for a word shows the whole of it. -/
theorem StandsFor.inline? (h : StandsFor w c) : c.inline? = some (String.ofList w) := by
  cases h <;> rfl

/-- What shows a word is added as it is. -/
theorem step_standsFor (sp : Spacing) (hw : IsWord w) (hc : StandsFor w c) :
    sp.step (.content c) = sp.inline c (String.ofList w) := by
  have htidy : Tidy (String.ofList w).toList := by
    rw [String.toList_ofList]
    exact tidy_of_nonblank hw.solid
  exact Spacing.step_content sp hc.inline? htidy.toSpaced (by simpa using hw.ne_nil)

theorem inline_beforeBlock (opened : Bool) (c : Content) (w : List Char) :
    (beforeBlock opened).inline c (String.ofList w) = (behindWord w, [.content c]) := rfl

theorem inline_behindWord (w v : List Char) (c : Content) :
    Spacing.inline { behindWord w with pending := true } c (String.ofList v) =
      (behindWord v, joint w v ++ [.content c]) := by
  unfold Spacing.inline joint
  simp only [behindWord, Bool.true_and, ← Bool.not_or, Bool.not_eq_true']
  cases Spacing.endsWithSpace (String.ofList w) || Spacing.leadsWithSpace (String.ofList v) <;> rfl

/-- **A word of prose** is shown by one piece of content, and plain text is expected behind it. -/
theorem readWord_prose (rest : List Char) (line n : Nat) {st : State} (hw : IsProse w)
    (htext : st.expecting = .text) :
    ∃ c st', readWord d w rest line n st = .ofPair (st', [.content c]) ∧ StandsFor w c ∧
      st'.expecting = .text := by
  unfold readWord
  rw [if_neg hw.no_number]
  split
  · exact ⟨_, st, rfl, .link, htext⟩
  rw [if_neg (by simpa using hw.plain)]
  simp only [readPlain, htext, readReference]
  split
  · exact ⟨_, st, rfl, .functionLink _, htext⟩
  · exact ⟨_, st, rfl, .classLink _, htext⟩
  · exact ⟨_, st, rfl, .text, htext⟩
  · exact ⟨_, _, rfl, .text, htext⟩

/-- Blanks between words of prose. -/
theorem readBlanks_prose (last : Nat) {st : State} (htext : st.expecting = .text) (b : List Char) :
    (readBlanks d b last st).2 =
        (if isBreak b then [.close] else if b.isEmpty then [] else [.space]) ∧
      (readBlanks d b last st).1.expecting = .text := by
  unfold readBlanks isBreak lineFeeds
  by_cases hbreak : 2 ≤ b.count '\n'
  · simp [hbreak, endParagraph]
  · cases b <;> simp [hbreak, htext]

/-- What blanks add before the first word of a block is skipped. -/
theorem settle_blanks_beforeBlock (opened : Bool) (last : Nat) {st : State}
    (htext : st.expecting = .text) (b : List Char) :
    ∃ opened' now, (beforeBlock opened).settle (readBlanks d b last st).2 = (beforeBlock opened', now) ∧
      ∀ later, Event.paragraphs (now ++ later) = Event.paragraphs later := by
  rw [(readBlanks_prose last htext b).1]
  split
  · cases opened with
    | false => exact ⟨false, [], rfl, fun _ => rfl⟩
    | true => exact ⟨false, [.close], rfl, fun later => paragraphs_close later⟩
  split <;> exact ⟨opened, [], rfl, fun _ => rfl⟩

/-- What comes of a token of prose. -/
theorem readToken_prose (b rest : List Char) (p : Progress) (htext : p.state.expecting = .text)
    (hv : IsProse v) :
    ∃ c, StandsFor v c ∧
      (readToken d p ⟨b, v, rest⟩).2 = (readBlanks d b p.last p.state).2 ++ [.content c] ∧
      (readToken d p ⟨b, v, rest⟩).1.state.expecting = .text := by
  obtain ⟨c, st, hread, hc, hst⟩ := readWord_prose rest (p.line + lineFeeds b) (p.count + 1) hv
    (readBlanks_prose (d := d) p.last htext b).2
  refine ⟨c, hc, ?_, ?_⟩
  · simp only [readToken]
    rw [hread]
    rfl
  · simp only [readToken]
    rw [hread]
    exact hst

/-- The words of a text that begins with a word. -/
theorem flatten_stretches_word (hb : b.all isBlank = true) (hv : IsWord v) (hrest : EndsWord rest) :
    (Text.stretches (b ++ (v ++ rest))).flatten = v :: (Text.stretches rest).flatten := by
  obtain ⟨first, others, hsplit⟩ := List.exists_cons_of_ne_nil (stretches_ne_nil rest)
  rw [stretches_word hb hv hrest, hsplit]
  split <;> rfl

/-- A text without words has no blocks. -/
theorem blocks_blank (hs : rest.all isBlank = true) : blocks rest = [] := by
  unfold blocks
  rw [stretches_blank hs]
  split <;> rfl

/-- A word begins a block, whatever stands before it. -/
theorem blocks_word (hb : b.all isBlank = true) (hv : IsWord v) (hrest : EndsWord rest) :
    blocks (b ++ (v ++ rest)) =
      ((Text.stretches rest).modifyHead (v :: ·)).filter (!·.isEmpty) := by
  unfold blocks
  rw [stretches_word hb hv hrest, List.filter_append]
  split <;> rfl

/-- The first word of a block, and what goes on behind it. -/
theorem settle_beforeBlock (opened : Bool) {ws : List (List (List Char))} {later : List Draft}
    (hv : IsWord v) (hc : StandsFor v c)
    (h : GoesOn v ws (Event.stretches ((behindWord v).settle later).2)) :
    List.Forall₂ Shows ((ws.modifyHead (v :: ·)).filter (!·.isEmpty))
      (Event.paragraphs ((beforeBlock opened).settle (.content c :: later)).2) := by
  have hshown := h.begin hc
  rw [← stretches_content] at hshown
  simp only [Spacing.settle, step_standsFor _ hv hc, inline_beforeBlock]
  exact hshown

/-- A word behind another one of the same block, and what goes on behind it. -/
theorem settle_behindWord (w : List Char) {ws : List (List (List Char))} {later : List Draft}
    (hv : IsWord v) (hc : StandsFor v c)
    (h : GoesOn v ws (Event.stretches ((behindWord v).settle later).2)) :
    GoesOn w (ws.modifyHead (v :: ·))
      (Event.stretches ((behindWord w).settle (.space :: .content c :: later)).2) := by
  have hshown := h.word (w := w) hc
  have hspace : (behindWord w).step .space = ({ behindWord w with pending := true }, []) := rfl
  simp only [List.nil_append, Spacing.settle, hspace, step_standsFor _ hv hc, inline_behindWord,
    List.append_assoc, List.singleton_append, stretches_joint, stretches_content,
    List.modifyHead_modifyHead]
  exact hshown

/-- Where a word has ended, another one does not begin. -/
theorem blanks_ne_nil (hv : IsWord v) (hends : EndsWord (b ++ (v ++ rest))) : b ≠ [] := by
  rintro rfl
  obtain ⟨first, tail, rfl⟩ := List.exists_cons_of_ne_nil hv.ne_nil
  have hblank := hends first rfl
  rw [hv.solid first List.mem_cons_self] at hblank
  cases hblank

/-- **From word to word.**  The rest of a text is shown as its blocks are, before the first word of a
block and behind a word. -/
theorem shows_rest (s : List Char) (p : Progress) (htext : p.state.expecting = .text)
    (hprose : ∀ w ∈ (Text.stretches s).flatten, IsProse w) :
    (∀ opened, List.Forall₂ Shows (blocks s)
      (Event.paragraphs ((beforeBlock opened).settle (readRest d p s).2).2)) ∧
    (EndsWord s → ∀ w, GoesOn w (Text.stretches s)
      (Event.stretches ((behindWord w).settle (readRest d p s).2).2)) := by
  induction s using text_induction generalizing p with
  | blank s hs =>
      rw [readRest_blank d p hs]
      constructor
      · intro opened
        obtain ⟨opened', now, hblanks, hskip⟩ :=
          settle_blanks_beforeBlock (d := d) opened p.last htext s
        rw [Spacing.settle_append, hblanks, hskip, blocks_blank hs]
        cases opened' <;> exact .nil
      · intro _ w
        rw [stretches_blank hs, (readBlanks_prose p.last htext s).1]
        -- The paragraph of the last word ends at the blank line, if there is one, and else with the text.
        split
        · exact .intro (.done w) .nil
        split <;> exact .intro (.done w) .nil
  | word b v rest hb hv hrest ih =>
      rw [flatten_stretches_word hb hv hrest] at hprose
      have hvprose := hprose v List.mem_cons_self
      obtain ⟨c, hc, hdrafts, hstate⟩ :=
        readToken_prose (d := d) b rest p htext hvprose
      have hnothing : takenLength v rest = 0 := takenLength_eq_zero hvprose.no_number hvprose.plain
      simp only [Token.rest, hnothing, List.drop_zero] at ih
      have hlater := ((ih (readToken d p ⟨b, v, rest⟩).1 hstate
        fun w hw => hprose w (List.mem_cons_of_mem v hw)).2 hrest v)
      rw [readRest_word d p hb hv hrest, hdrafts]
      simp only [Token.rest, hnothing, List.drop_zero]
      constructor
      · intro opened
        obtain ⟨opened', now, hblanks, hskip⟩ :=
          settle_blanks_beforeBlock (d := d) opened p.last htext b
        rw [blocks_word hb hv hrest, List.append_assoc, Spacing.settle_append, hblanks, hskip]
        exact settle_beforeBlock opened' hv hc hlater
      · intro hends w
        have hsome : ¬ b.isEmpty = true := fun hempty =>
          blanks_ne_nil hv hends (List.isEmpty_iff.mp hempty)
        rw [stretches_word hb hv hrest, (readBlanks_prose p.last htext b).1, if_neg hsome]
        -- A blank line ends the paragraph of the last word; without one the word goes on with it.
        split
        · rw [List.append_assoc, Spacing.settle_append]
          exact .intro (.done w) (settle_beforeBlock false hv hc hlater)
        · exact settle_behindWord w hv hc hlater

end Words

/-! ## Whole blocks -/

/-- The events of the words of a block, behind those of its headline. -/
def wordEvents (sp : Spacing) (reg : Registry) (d : DocBlock) : List Event :=
  ((sp.settle (preamble reg d.subject)).1.settle
    (readWords d d.text.toList d.textLine d.textLine 0 (State.start (checkMembers d reg))).2).2

/-- They stand between the events of the headline and those of what is said at the end. -/
theorem settle_interpret (sp : Spacing) (reg : Registry) (id : DocId)
    (hvisible : (reg.doc id).isInternal = false) :
    ∃ closing, (sp.settle (interpret reg id).2).2 =
      (sp.settle (preamble reg (reg.doc id).subject)).2 ++ wordEvents sp reg (reg.doc id) ++
        closing := by
  simp only [interpret, hvisible, Bool.false_eq_true, if_false, Spacing.settle_append]
  exact ⟨_, rfl⟩

/-- No content stands between the headline and the words. -/
theorem settle_preamble (sp : Spacing) (reg : Registry) (subject : Subject) :
    ∃ opened, (sp.settle (preamble reg subject)).1 = beforeBlock opened := by
  cases subject with
  | function f =>
      simp only [preamble, functionPreamble, Spacing.settle_append]
      exact ⟨false, rfl⟩
  | classPage c =>
      simp only [preamble, classPreamble, Spacing.settle_append]
      exact ⟨false, rfl⟩
  | chapter ch => exact ⟨true, rfl⟩

/-- **Prose.**  If no word of a block is a directive or announces a number, then the events of its
words are the blocks of its text: one paragraph for each, which shows every word once, whole and in
its place, and between two words a single space, unless one of them has white space there. -/
theorem shows_blocks (sp : Spacing) (reg : Registry) (d : DocBlock)
    (hprose : ∀ w ∈ (blocks d.text.toList).flatten, IsProse w) :
    List.Forall₂ Shows (blocks d.text.toList) (Event.paragraphs (wordEvents sp reg d)) := by
  obtain ⟨opened, hopened⟩ := settle_preamble sp reg d.subject
  have hwords : (blocks d.text.toList).flatten = (Text.stretches d.text.toList).flatten :=
    List.flatten_filter_not_isEmpty
  have hrest := (shows_rest (d := d) d.text.toList
    { line := d.textLine, last := d.textLine, count := 0, state := .start (checkMembers d reg) } rfl
    (hwords ▸ hprose)).1 opened
  unfold wordEvents
  rw [hopened]
  exact hrest

/-- Two blocks of two words and of one, in the documentation of a class. -/
theorem shows_blocks_two :
    List.Forall₂ Shows [["Two".toList, "words.".toList], ["One".toList]]
      (Event.paragraphs (wordEvents .closed .empty
        { origin := default, textLine := 1, text := " Two\n words.\n\t\n One\n",
          subject := .classPage ⟨0⟩ })) := by
  have hblocks : blocks " Two\n words.\n\t\n One\n".toList =
      [["Two".toList, "words.".toList], ["One".toList]] := by decide
  have hprose : ∀ w ∈ (blocks " Two\n words.\n\t\n One\n".toList).flatten, IsProse w := by
    rw [hblocks]
    intro w hw
    simp only [List.flatten_cons, List.flatten_nil, List.mem_append, List.mem_cons,
      List.not_mem_nil, or_false] at hw
    obtain (rfl | rfl) | rfl := hw <;> exact ⟨by decide, by decide⟩
  have hshown := shows_blocks .closed .empty
    { origin := default, textLine := 1, text := " Two\n words.\n\t\n One\n",
      subject := .classPage ⟨0⟩ } hprose
  exact hblocks ▸ hshown

end Markup

end CppDoc
