import CppDoc.Proofs.LineEndings.Registry
import CppDoc.Proofs.Manual.Notes
import CppDoc.Proofs.Markup.Paragraphs
import Mathlib.Data.List.Infix

/-!
# Documentation and line endings

The words of a comment are the same whatever the line endings are, and so are the texts that directives
take, except that code keeps its line endings.  Only the number of a standards document is looked for
behind spaces and line feeds, but not behind a carriage return.

* `Resumes`: what is left of a comment and of its `crlf` behind a word;
* `resumes_takeBlock`, `takeCode_crlf` and `rfcNumber?_crlf`: what is taken from the text behind a word;
* `NumbersInLine`: every such number stands on the line of the letters before it;
* `readWords_crlf` and `interpret_crlf`: a comment and what is drafted of it.
-/

namespace CppDoc

open CppDoc.Text

/-! ## Events -/

/-- Content with the other line endings, which only code has. -/
def Content.crlf : Content → Content
  | .code s => .code (crlfText s)
  | c => c

/-- An event with the other line endings. -/
def Event.crlf : Event → Event
  | .content c => .content c.crlf
  | e => e

/-- An item of a draft with the other line endings. -/
def Draft.crlf : Draft → Draft
  | .space => .space
  | .event e => .event e.crlf

namespace Markup

/-! ## What is left of a text -/

/-- The same blank lines are left of two texts, and then the same words with the other line endings. -/
structure Resumes (s s' : List Char) : Prop where
  feeds : lineFeeds (s'.takeWhile isBlank) = lineFeeds (s.takeWhile isBlank)
  blanks : (s'.takeWhile isBlank).isEmpty = (s.takeWhile isBlank).isEmpty
  words : s'.dropWhile isBlank = crlf (s.dropWhile isBlank)

theorem resumes_crlf (s : List Char) : Resumes s (crlf s) where
  feeds := by rw [takeWhile_crlf rfl, lineFeeds, count_crlf, lineFeeds]
  blanks := by
    rw [takeWhile_crlf rfl, Bool.eq_iff_iff, List.isEmpty_iff, List.isEmpty_iff, crlf_eq_nil_iff]
  words := dropWhile_crlf rfl s

/-- A block leaves the line feed behind it, but not the carriage return. -/
theorem resumes_feed (s : List Char) : Resumes ('\n' :: s) ('\n' :: crlf s) where
  feeds := by
    have hfeed : isBlank '\n' = true := rfl
    rw [List.takeWhile_cons, if_pos hfeed, List.takeWhile_cons, if_pos hfeed]
    have hbehind := (resumes_crlf s).feeds
    unfold lineFeeds at hbehind ⊢
    rw [List.count_cons_self, List.count_cons_self, hbehind]
  blanks := rfl
  words := (resumes_crlf s).words

/-- What is taken of two texts has as many lines, and leaves the same words. -/
structure Takes (s : List Char) (n n' : Nat) : Prop where
  lines : lineFeeds ((crlf s).take n') = lineFeeds (s.take n)
  rest : Resumes (s.drop n) ((crlf s).drop n')

theorem takes_width (s : List Char) (n : Nat) : Takes s n (width s n) where
  lines := by rw [take_crlf, lineFeeds, count_crlf, lineFeeds]
  rest := by
    rw [drop_crlf]
    exact resumes_crlf _

/-! ## Blocks of text -/

theorem blankLineFollows_crlf (s : List Char) : blankLineFollows (crlf s) = blankLineFollows s := by
  induction s with
  | nil => rfl
  | cons c rest ih =>
      unfold blankLineFollows at ih ⊢
      by_cases hc : c = '\n'
      · subst hc
        rfl
      · rw [crlf_cons hc, List.dropWhile_cons, List.dropWhile_cons]
        split
        · exact ih
        · rfl

/-- A block that ends before a blank line takes the carriage return there. -/
theorem take_blockLength_crlf (s : List Char) :
    ∃ e : List Char, (e = [] ∨ e = ['\r']) ∧
      (crlf s).take (blockLength (crlf s)) = crlf (s.take (blockLength s)) ++ e ∧
        Resumes (s.drop (blockLength s)) ((crlf s).drop (blockLength (crlf s))) := by
  induction s with
  | nil => exact ⟨[], .inl rfl, rfl, resumes_crlf []⟩
  | cons c rest ih =>
      by_cases hc : c = '\n'
      · subst hc
        have hfollows := blankLineFollows_crlf rest
        have hreturn : ¬ ('\r' = '\n') := by decide
        rw [crlf_feed, blockLength, blockLength, blockLength, hfollows]
        simp only [hreturn, decide_false, Bool.false_and, Bool.false_eq_true, if_false, decide_true,
          Bool.true_and]
        cases blankLineFollows rest with
        | true => exact ⟨['\r'], .inr rfl, rfl, resumes_feed rest⟩
        | false =>
            obtain ⟨e, he, htake, hrest⟩ := ih
            refine ⟨e, he, ?_, hrest⟩
            simp only [Bool.false_eq_true, if_false, List.take_succ_cons, htake, crlf_feed, List.cons_append]
      · obtain ⟨e, he, htake, hrest⟩ := ih
        rw [crlf_cons hc, blockLength, blockLength]
        simp only [hc, decide_false, Bool.false_and, Bool.false_eq_true, if_false]
        refine ⟨e, he, ?_, hrest⟩
        rw [List.take_succ_cons, List.take_succ_cons, crlf_cons hc, htake, List.cons_append]

theorem takeBlock_crlf (s : List Char) :
    (takeBlock (crlf s)).1 = (takeBlock s).1 ∧ Takes s (takeBlock s).2 (takeBlock (crlf s)).2 := by
  obtain ⟨e, he, htake, hrest⟩ := take_blockLength_crlf s
  have hblank : e.all isBlank = true ∧ lineFeeds e = 0 := by
    rcases he with rfl | rfl <;> exact ⟨rfl, rfl⟩
  refine ⟨?_, ?_, hrest⟩
  · simp only [takeBlock, htake, simplify, words_append_blanks _ hblank.1, words_crlf]
  · have hfeeds := hblank.2
    simp only [takeBlock, htake]
    unfold lineFeeds at hfeeds ⊢
    rw [List.count_append, hfeeds, count_crlf, Nat.add_zero]

/-! ## Code -/

/-- Trimming leaves nothing of white space only. -/
theorem isEmpty_trim (s : List Char) : (trim s).isEmpty = s.all isSpace := by
  have hright (s : List Char) : trimRight s = [] ↔ ∀ c ∈ s, isSpace c = true := by
    rw [trimRight, trimRightIf, List.reverse_eq_nil_iff, List.dropWhile_eq_nil_iff]
    simp only [List.mem_reverse]
  rw [Bool.eq_iff_iff, List.isEmpty_iff, List.all_eq_true, trim, hright]
  refine ⟨fun h c hc => ?_, fun h c hc => h c ((List.dropWhile_sublist isSpace).subset hc)⟩
  rw [← List.takeWhile_append_dropWhile (p := isSpace) (l := s)] at hc
  rcases List.mem_append.mp hc with hc | hc
  · exact List.all_eq_true.mp List.all_takeWhile c hc
  · exact h c hc

/-- Code of one line. -/
theorem trimCode_line {code : List Char} (h : '\n' ∉ code) :
    trimCode code = trimRight (trimLeft code) := by
  have hwhole : code.takeWhile (· != '\n') = code := by
    rw [List.takeWhile_eq_self_iff]
    intro c hc
    exact bne_iff_ne.mpr fun heq => h (heq ▸ hc)
  simp only [trimCode, hwhole, Nat.lt_irrefl, decide_false, Bool.false_and, Bool.false_eq_true, if_false]

/-- Code whose first line is `a`. -/
theorem trimCode_lines {a : List Char} (ha : '\n' ∉ a) (b : List Char) :
    trimCode (a ++ '\n' :: b) =
      trimRight (if a.all isSpace then b else trimLeft (a ++ '\n' :: b)) := by
  have hfirst : (a ++ '\n' :: b).takeWhile (· != '\n') = a := by
    have hne (c : Char) (hc : c ∈ a) : (c != '\n') = true :=
      bne_iff_ne.mpr fun heq => ha (heq ▸ hc)
    rw [List.takeWhile_append_of_pos hne]
    simp
  have hlonger : a.length < (a ++ '\n' :: b).length := by simp
  have hbehind : (a ++ '\n' :: b).drop (a.length + 1) = b := by simp
  simp only [trimCode, hfirst, hlonger, decide_true, Bool.true_and, isEmpty_trim, hbehind]

theorem trimCode_crlf (code : List Char) : trimCode (crlf code) = crlf (trimCode code) := by
  by_cases hfeed : '\n' ∈ code
  · obtain ⟨a, b, rfl, ha⟩ := List.eq_append_cons_of_mem hfeed
    have hcrlf : crlf (a ++ '\n' :: b) = (a ++ ['\r']) ++ '\n' :: crlf b := by
      rw [crlf_append, crlf_eq_self ha, crlf_feed]
      simp
    have ha' : '\n' ∉ a ++ ['\r'] := by simpa using ha
    have hspace : (a ++ ['\r']).all isSpace = a.all isSpace := by
      rw [List.all_append]
      exact Bool.and_true _
    rw [trimCode_lines ha, hcrlf, trimCode_lines ha', hspace, ← hcrlf, trimLeft_crlf, ← trimRight_crlf]
    split <;> rfl
  · rw [crlf_eq_self hfeed, trimCode_line hfeed, ← trimRight_crlf, ← trimLeft_crlf, crlf_eq_self hfeed]

/-- **Code** keeps its line endings. -/
theorem takeCode_crlf (s : List Char) :
    (takeCode (crlf s)).1 = crlfText (takeCode s).1 ∧ Takes s (takeCode s).2 (takeCode (crlf s)).2 := by
  have hend : OneLine codeEnd := by decide
  unfold takeCode
  rw [find?_crlf hend]
  cases hfound : find? codeEnd s with
  | none =>
      refine ⟨?_, ?_⟩
      · simp only [Option.map_none, trimCode_crlf, crlfText, String.toList_ofList]
      · have hwhole := takes_width s s.length
        rwa [width_length] at hwhole
  | some n =>
      refine ⟨?_, ?_⟩
      · simp only [Option.map_some, take_crlf, trimCode_crlf, crlfText, String.toList_ofList]
      · have hbehind := takes_width s (n + codeEnd.length)
        rwa [width_of_find? hfound, crlf_eq_self hend.1] at hbehind

/-! ## Numbers -/

/-- The number of a standards document, if there is one, stands on the line of the letters before it. -/
def NumbersInLine (s : List Char) : Prop :=
  ∀ t, "RFC".toList ++ t <:+ s → '\n' ∈ t.takeWhile (fun c => c == ' ' || c == '\n') →
    rfcNumber? t = none

theorem numbersInLine_iff_tails (s : List Char) :
    NumbersInLine s ↔ ∀ u ∈ s.tails, "RFC".toList <+: u →
      '\n' ∈ (u.drop 3).takeWhile (fun c => c == ' ' || c == '\n') → rfcNumber? (u.drop 3) = none := by
  constructor
  · intro h u hu hrfc
    obtain ⟨t, rfl⟩ := hrfc
    exact h t ((List.mem_tails _ _).mp hu)
  · intro h t ht
    exact h _ ((List.mem_tails _ _).mpr ht) (List.prefix_append _ _)

instance (s : List Char) : Decidable (NumbersInLine s) :=
  decidable_of_iff _ (numbersInLine_iff_tails s).symm

theorem NumbersInLine.of_suffix {s t : List Char} (h : NumbersInLine s) (ht : t <:+ s) :
    NumbersInLine t :=
  fun u hu => h u (hu.trans ht)

theorem rfcNumber?_space (c : Char) (hc : (c == ' ' || c == '\n') = true) (t : List Char) :
    rfcNumber? (c :: t) = (rfcNumber? t).map fun (number, n) => (number, n + 1) := by
  simp only [rfcNumber?, List.takeWhile_cons, hc, if_true, List.length_cons, List.drop_succ_cons]
  split
  · rfl
  · rw [Option.map_some, Nat.add_right_comm]

theorem rfcNumber?_other {c : Char} (hc : (c == ' ' || c == '\n') = false) (t : List Char) :
    rfcNumber? (c :: t) =
      let digits := (c :: t).takeWhile Char.isDigit
      if digits.isEmpty || UInt64.size ≤ digitsValue digits then none
      else some (digitsValue digits, digits.length) := by
  have hspace : (c :: t).takeWhile (fun c => c == ' ' || c == '\n') = [] := by
    simp only [List.takeWhile_cons, hc, Bool.false_eq_true, if_false]
  simp only [rfcNumber?, hspace, List.length_nil, List.drop_zero, Nat.zero_add]

/-- Behind a line break with a carriage return no number is read. -/
theorem rfcNumber?_crlf_of_feed {t : List Char}
    (h : '\n' ∈ t.takeWhile (fun c => c == ' ' || c == '\n')) : rfcNumber? (crlf t) = none := by
  induction t with
  | nil => exact nomatch h
  | cons c rest ih =>
      by_cases hfeed : c = '\n'
      · subst hfeed
        rw [crlf_feed, rfcNumber?_other rfl]
        rfl
      by_cases hspace : c = ' '
      · subst hspace
        rw [crlf_cons hfeed, rfcNumber?_space ' ' rfl, ih (by simpa using h), Option.map_none]
      · rw [List.takeWhile_cons, if_neg (by simp [hspace, hfeed])] at h
        exact nomatch h

theorem rfcNumber?_crlf_of_line {t : List Char}
    (h : '\n' ∉ t.takeWhile (fun c => c == ' ' || c == '\n')) :
    rfcNumber? (crlf t) = rfcNumber? t ∧
      ∀ number n, rfcNumber? t = some (number, n) → width t n = n := by
  induction t with
  | nil => exact ⟨rfl, fun _ _ hfound => nomatch hfound⟩
  | cons c rest ih =>
      have hfeed : c ≠ '\n' := by
        rintro rfl
        exact h (by simp)
      by_cases hspace : c = ' '
      · subst hspace
        have hrest := ih (by simpa using h)
        rw [crlf_cons hfeed, rfcNumber?_space ' ' rfl, rfcNumber?_space ' ' rfl, hrest.1]
        refine ⟨rfl, fun number n hfound => ?_⟩
        obtain ⟨⟨m, k⟩, hk, heq⟩ := Option.map_eq_some_iff.mp hfound
        obtain ⟨-, rfl⟩ := Prod.mk.inj heq
        rw [width_cons _ hfeed, hrest.2 m k hk]
      · have hother : (c == ' ' || c == '\n') = false := by simp [hspace, hfeed]
        have hdigits := takeWhile_crlf_eq (p := Char.isDigit) rfl (c :: rest) rfl
        have hlength := length_takeWhile_crlf (p := Char.isDigit) rfl (c :: rest)
        rw [hdigits] at hlength
        rw [crlf_cons hfeed] at hdigits ⊢
        rw [rfcNumber?_other hother, rfcNumber?_other hother, hdigits]
        refine ⟨rfl, fun number n hfound => ?_⟩
        dsimp only at hfound
        split at hfound
        · exact nomatch hfound
        · obtain ⟨-, rfl⟩ := Prod.mk.inj (Option.some.inj hfound)
          exact hlength.symm

/-- **Numbers** in line with the letters before them are read alike. -/
theorem rfcNumber?_crlf {t : List Char}
    (h : '\n' ∈ t.takeWhile (fun c => c == ' ' || c == '\n') → rfcNumber? t = none) :
    rfcNumber? (crlf t) = rfcNumber? t ∧
      ∀ number n, rfcNumber? t = some (number, n) → width t n = n := by
  by_cases hfeed : '\n' ∈ t.takeWhile (fun c => c == ' ' || c == '\n')
  · rw [rfcNumber?_crlf_of_feed hfeed, h hfeed]
    exact ⟨rfl, fun _ _ hfound => nomatch hfound⟩
  · exact rfcNumber?_crlf_of_line hfeed

/-! ## References -/

section References

variable (reg : Registry)

theorem findTarget?_crlf (within : Option ClassId) (name : String) :
    findTarget? reg.crlf within name = findTarget? reg within name := by
  unfold findTarget?
  split
  · rfl
  · cases within with
    | none => rfl
    | some c =>
        simp only [Registry.ancestors_crlf]
        rfl

theorem resolve_crlf (s : Subject) (w : List Char) : resolve reg.crlf s w = resolve reg s w := by
  have hscope : scope reg.crlf s = scope reg s := by cases s <;> rfl
  have hcall (name : String) : resolveCall reg.crlf s name = resolveCall reg s name := by
    simp only [resolveCall, hscope, findTarget?_crlf]
    rfl
  have hclass (name : String) : resolveClass reg.crlf s name = resolveClass reg s name := by
    simp only [resolveClass, hscope]
    rfl
  simp only [resolve, hcall, hclass]

theorem signaturePiece_crlf (within : ClassId) (s : String) :
    signaturePiece reg.crlf within s = signaturePiece reg within s := by
  have hfirst (s : List Char) : firstClass? reg.crlf s = firstClass? reg s := by
    induction s using firstClass?.induct reg with
    | case1 => simp only [firstClass?]
    | case2 c rest hc found hfound =>
        have hfound' : reg.crlf.findClass? (String.ofList (c :: rest.takeWhile Char.isAlphanum)) = some found :=
          hfound
        rw [firstClass?, firstClass?, if_pos hc, if_pos hc, hfound, hfound']
    | case3 c rest hc hnone ih =>
        have hnone' : reg.crlf.findClass? (String.ofList (c :: rest.takeWhile Char.isAlphanum)) = none :=
          hnone
        rw [firstClass?, firstClass?, if_pos hc, if_pos hc, hnone, hnone', ih]
    | case4 c rest hc ih => rw [firstClass?, firstClass?, if_neg hc, if_neg hc, ih]
  simp only [signaturePiece, hfirst]
  rfl

/-- There is no code in a piece of a signature. -/
theorem crlf_signaturePiece (within : ClassId) (s : String) :
    (signaturePiece reg within s).crlf = signaturePiece reg within s := by
  unfold signaturePiece
  split
  · split <;> rfl
  · rfl

/-- There is no code in a preamble. -/
theorem map_crlf_preamble (s : Subject) : (preamble reg s).map Draft.crlf = preamble reg s := by
  have hparameters (within : ClassId) (parameters : String) :
      (parameterDrafts reg within parameters).map Draft.crlf = parameterDrafts reg within parameters := by
    unfold parameterDrafts
    split
    · rfl
    · split
      · rfl
      · simp only [List.map_cons, List.map_flatMap, List.map_nil, crlf_signaturePiece]
        rfl
  have hchildren (names : List String) : (childDrafts names).map Draft.crlf = childDrafts names := by
    induction names using childDrafts.induct with
    | case1 => rfl
    | case2 name => rfl
    | case3 name others hne ih =>
        simp only [childDrafts, List.map_cons, ih]
        rfl
  cases s with
  | chapter ch => rfl
  | function f =>
      simp only [preamble, functionPreamble, List.map_append, List.map_cons, List.map_nil, hparameters,
        crlf_signaturePiece]
      split <;> rfl
  | classPage c =>
      simp only [preamble, classPreamble, List.map_append, List.map_cons, List.map_nil]
      by_cases hempty : (reg.getClass c).children.isEmpty = true
      · simp only [if_pos hempty]
        split <;> rfl
      · simp only [if_neg hempty, List.map_append, hchildren]
        split <;> rfl

theorem preamble_crlf (s : Subject) : preamble reg.crlf s = preamble reg s := by
  cases s with
  | function f =>
      simp only [preamble, functionPreamble, parameterDrafts, signaturePiece_crlf]
      rfl
  | classPage c => rfl
  | chapter ch => rfl

end References

/-! ## Words -/

/-- A state with the other line endings in what is known. -/
def State.crlf (st : State) : State :=
  { st with registry := st.registry.crlf }

/-- A state and a draft with the other line endings. -/
def crlfPair (p : State × List Draft) : State × List Draft :=
  (p.1.crlf, p.2.map Draft.crlf)

section Words

variable (d : DocBlock) (w : List Char) (line : Nat) (st : State)

theorem expect_crlf (directive : String) (next : Expecting) :
    st.crlf.expect d.crlf line directive next = (st.expect d line directive next).crlf := by
  have hexpecting : st.crlf.expecting = st.expecting := rfl
  simp only [State.expect, hexpecting]
  split <;> rfl

theorem endParagraph_crlf : endParagraph d.crlf line st.crlf = crlfPair (endParagraph d line st) := by
  have hexpecting : st.crlf.expecting = st.expecting := rfl
  simp only [endParagraph, hexpecting]
  split <;> rfl

theorem readClassName_crlf : readClassName d.crlf w line st.crlf = (readClassName d w line st).crlf := by
  have hmention (name : String) (site : Location) :
      st.crlf.registry.mention name site = (st.registry.mention name site).crlf :=
    Registry.mention_crlf st.registry name site
  have hsubject : d.crlf.subject = d.subject := rfl
  have horigin : d.crlf.origin = d.origin := rfl
  simp only [readClassName, hsubject, horigin, hmention]
  generalize st.registry.mention _ _ = reg
  have hfound (name : String) : reg.crlf.findClass? name = reg.findClass? name := rfl
  simp only [hfound]
  split
  · split <;> rfl
  · rfl

theorem readArgument_crlf : readArgument d.crlf w line st.crlf = crlfPair (readArgument d w line st) := by
  have hmentioned : st.crlf.mentioned = st.mentioned := rfl
  have hargument (name : String) :
      isArgument st.crlf.registry d.crlf.subject name = isArgument st.registry d.subject name := rfl
  simp only [readArgument, hmentioned, hargument]
  split
  · rfl
  · split <;> rfl

theorem readReference_crlf : readReference d.crlf w line st.crlf = crlfPair (readReference d w line st) := by
  have hresolve : resolve st.crlf.registry d.crlf.subject w = resolve st.registry d.subject w :=
    resolve_crlf st.registry d.subject w
  simp only [readReference, hresolve]
  split <;> rfl

theorem readPlain_crlf : readPlain d.crlf w line st.crlf = crlfPair (readPlain d w line st) := by
  have hexpecting : st.crlf.expecting = st.expecting := rfl
  simp only [readPlain, hexpecting]
  split
  · rw [readClassName_crlf]
    rfl
  · exact readArgument_crlf d w line st
  · exact readReference_crlf d w line st

theorem readOverload_crlf (n : Nat) :
    readOverload d.crlf line n st.crlf = (readOverload d line n st).crlf := by
  have hsubject : d.crlf.subject = d.subject := rfl
  have hmarked (f : FunctionId) :
      (st.crlf.registry.function f).overload = (st.registry.function f).overload := rfl
  simp only [readOverload, hsubject, hmarked]
  cases d.subject with
  | function f =>
      dsimp only
      split <;> split <;> rfl
  | classPage c => split <;> rfl
  | chapter ch => split <;> rfl

end Words

/-- What comes of a word, and of the same word in front of the other line endings. -/
structure Outcome.Mirrors (rest : List Char) (out out' : Outcome) : Prop where
  state : out'.state = out.state.crlf
  drafts : out'.drafts = out.drafts.map Draft.crlf
  takes : Takes rest out.taken out'.taken

section Outcomes

variable (d : DocBlock) (w rest : List Char) (line n : Nat) (st : State)

/-- A word that takes nothing. -/
theorem mirrors_ofPair {p p' : State × List Draft} (h : p' = crlfPair p) :
    Outcome.Mirrors rest (.ofPair p) (.ofPair p') := by
  subst h
  refine ⟨rfl, rfl, ?_⟩
  have hnothing := takes_width rest 0
  rwa [width_zero] at hnothing

/-- A directive that takes a block. -/
theorem mirrors_block {content : String → Content} (hcontent : ∀ s, (content s).crlf = content s) :
    Outcome.Mirrors rest (.block st (takeBlock rest) content)
      (.block st.crlf (takeBlock (crlf rest)) content) := by
  obtain ⟨htext, htakes⟩ := takeBlock_crlf rest
  refine ⟨rfl, ?_, htakes⟩
  have hdraft : Draft.crlf (.content (content (takeBlock rest).1)) = .content (content (takeBlock rest).1) :=
    congrArg Draft.content (hcontent _)
  simp only [Outcome.block, htext, List.map_cons, List.map_nil, hdraft]

/-- **Directives** do the same, and take the same text. -/
theorem mirrors_readDirective :
    Outcome.Mirrors rest (readDirective d w rest line n st)
      (readDirective d.crlf w (crlf rest) line n st.crlf) := by
  have hsubject : d.crlf.subject = d.subject := rfl
  have hplain (content : String → Content) (hcontent : ∀ s, (content s).crlf = content s) :=
    mirrors_block rest st hcontent
  unfold readDirective
  rw [hsubject]
  split
  · apply mirrors_ofPair
    split
    · rw [expect_crlf]
      rfl
    · rfl
  · apply mirrors_ofPair
    split
    · rw [expect_crlf]
      rfl
    · rfl
  · apply mirrors_ofPair
    rw [readOverload_crlf]
    rfl
  · obtain ⟨htext, htakes⟩ := takeCode_crlf rest
    refine ⟨rfl, ?_, htakes⟩
    simp only [Outcome.block, htext]
    rfl
  · exact hplain _ fun _ => rfl
  · exact hplain _ fun _ => rfl
  · exact hplain _ fun _ => rfl
  · exact hplain _ fun _ => rfl
  · exact hplain _ fun _ => rfl
  · exact mirrors_ofPair rest rfl

/-- **Words** are read alike, if the numbers behind them stand on their lines. -/
theorem mirrors_readWord
    (h : w = "RFC".toList → '\n' ∈ rest.takeWhile (fun c => c == ' ' || c == '\n') → rfcNumber? rest = none) :
    Outcome.Mirrors rest (readWord d w rest line n st) (readWord d.crlf w (crlf rest) line n st.crlf) := by
  have hplain := mirrors_ofPair rest (readPlain_crlf d w line st)
  unfold readWord
  split
  · rename_i hrfc
    obtain ⟨hnumber, hwidth⟩ := rfcNumber?_crlf (h hrfc)
    rw [hnumber]
    split
    · rename_i number taken hfound
      refine ⟨rfl, rfl, ?_⟩
      have htakes := takes_width rest taken
      rwa [hwidth number taken hfound] at htakes
    · exact hplain
  · split
    · exact mirrors_ofPair rest rfl
    · split
      · exact mirrors_readDirective d w rest line n st
      · exact hplain

end Outcomes

/-! ## Blocks -/

/-- How far a block has been read, with the other line endings in what is known. -/
def Progress.crlf (p : Progress) : Progress :=
  { p with state := p.state.crlf }

section Blocks

variable (d : DocBlock)

theorem readBlanks_crlf {b b' : List Char} (hfeeds : lineFeeds b' = lineFeeds b)
    (hempty : b'.isEmpty = b.isEmpty) (last : Nat) (st : State) :
    readBlanks d.crlf b' last st.crlf = crlfPair (readBlanks d b last st) := by
  have hexpecting : st.crlf.expecting = st.expecting := rfl
  simp only [readBlanks, hfeeds, hempty, hexpecting]
  split
  · exact endParagraph_crlf d last st
  · split <;> rfl

/-- **A token** is read alike, and leaves the same words. -/
theorem readToken_crlf (p : Progress) {b b' w rest : List Char} (hfeeds : lineFeeds b' = lineFeeds b)
    (hempty : b'.isEmpty = b.isEmpty)
    (hnumber : w = "RFC".toList → '\n' ∈ rest.takeWhile (fun c => c == ' ' || c == '\n') →
      rfcNumber? rest = none) :
    readToken d.crlf p.crlf ⟨b', w, Text.crlf rest⟩ =
        ((readToken d p ⟨b, w, rest⟩).1.crlf, (readToken d p ⟨b, w, rest⟩).2.map Draft.crlf) ∧
      Resumes (Token.rest ⟨b, w, rest⟩) (Token.rest ⟨b', w, Text.crlf rest⟩) := by
  have hblanks := readBlanks_crlf d hfeeds hempty p.last p.state
  have hword := mirrors_readWord d w rest (p.line + lineFeeds b) (p.count + 1)
    (readBlanks d b p.last p.state).1 hnumber
  have htakes := hword.takes
  rw [taken_readWord, taken_readWord] at htakes
  refine ⟨?_, htakes.rest⟩
  simp only [readToken, Progress.crlf, hblanks, crlfPair, hfeeds, hword.state, hword.drafts,
    htakes.lines, List.map_append]

theorem endsWord_crlf {s : List Char} (h : EndsWord s) : EndsWord (Text.crlf s) := by
  intro c hc
  cases s with
  | nil => exact nomatch hc
  | cons e rest =>
      by_cases he : e = '\n'
      · subst he
        rw [crlf_feed] at hc
        obtain rfl := Option.some.inj hc
        rfl
      · rw [crlf_cons he] at hc
        exact h c hc

/-- **The rest of a block** is read alike. -/
theorem readRest_crlf {s s' : List Char} (hs : NumbersInLine s) (h : Resumes s s') (p : Progress) :
    readRest d.crlf p.crlf s' = crlfPair (readRest d p s) := by
  induction s using text_induction generalizing s' p with
  | blank s hblank =>
      have hfeeds := h.feeds
      have hempty := h.blanks
      have hnone := h.words
      rw [dropWhile_blank hblank, crlf, List.dropWhile_eq_nil_iff] at hnone
      have hblank' : s'.all isBlank = true := List.all_eq_true.mpr hnone
      rw [takeWhile_blank hblank, takeWhile_blank hblank'] at hfeeds hempty
      have hblanks := readBlanks_crlf d hfeeds hempty p.last p.state
      have hend := endParagraph_crlf d p.last (readBlanks d s p.last p.state).1
      rw [readRest_blank d _ hblank, readRest_blank d.crlf _ hblank']
      simp only [Progress.crlf, hblanks, crlfPair, hend, List.map_append]
  | word b w rest hb hw hrest ih =>
      have hfeeds := h.feeds
      have hempty := h.blanks
      have hwords := h.words
      rw [takeWhile_word hb hw rest] at hfeeds hempty
      have hline : '\n' ∉ w := fun hfeed => by cases hw.solid _ hfeed
      rw [dropWhile_word hb hw rest, crlf_append, crlf_eq_self hline] at hwords
      have hcut : s' = s'.takeWhile isBlank ++ (w ++ crlf rest) := by
        rw [← hwords, List.takeWhile_append_dropWhile]
      have hrest' : EndsWord (crlf rest) := endsWord_crlf hrest
      have hsuffix : w ++ rest <:+ b ++ (w ++ rest) := List.suffix_append b _
      obtain ⟨htoken, hleft⟩ := readToken_crlf d p hfeeds hempty fun hrfc => hs rest (hrfc ▸ hsuffix)
      have hbehind : Token.rest ⟨b, w, rest⟩ <:+ b ++ (w ++ rest) :=
        (List.drop_suffix _ rest).trans ((List.suffix_append w rest).trans hsuffix)
      have hlater := ih (hs.of_suffix hbehind) hleft (readToken d p ⟨b, w, rest⟩).1
      rw [hcut, readRest_word d _ hb hw hrest,
        readRest_word d.crlf _ List.all_takeWhile hw hrest', htoken, hlater]
      simp only [crlfPair, List.map_append]

theorem concludeFunction_crlf (f : FunctionId) (st : State) :
    concludeFunction d.crlf f st.crlf = crlfPair (concludeFunction d f st) := by
  have hreports (names : List String) (st : State) :
      names.foldl (fun st name => st.report d.crlf d.origin.line (.undocumentedArgument name)) st.crlf =
        (names.foldl (fun st name => st.report d d.origin.line (.undocumentedArgument name)) st).crlf := by
    induction names generalizing st with
    | nil => rfl
    | cons name rest ih => exact ih (st.report d d.origin.line (.undocumentedArgument name))
  have hoverridden : st.crlf.registry.overridden f = st.registry.overridden f :=
    Registry.overridden_crlf st.registry f
  have horigin : d.crlf.origin = d.origin := rfl
  simp only [concludeFunction, hoverridden, horigin, hreports]
  cases st.registry.overridden f <;> rfl

theorem conclusion_crlf (st : State) : conclusion d.crlf st.crlf = crlfPair (conclusion d st) := by
  have hsubject : d.crlf.subject = d.subject := rfl
  unfold conclusion
  rw [hsubject]
  split
  · exact concludeFunction_crlf d _ st
  · have hintroduces : st.crlf.introduces = st.introduces := rfl
    rw [hintroduces]
    split <;> rfl
  · rfl

theorem checkMembers_crlf (reg : Registry) : checkMembers d.crlf reg.crlf = (checkMembers d reg).crlf := by
  have hsubject : d.crlf.subject = d.subject := rfl
  have hmembers (c : ClassId) : (reg.crlf.getClass c).members = (reg.getClass c).members := rfl
  simp only [checkMembers, hsubject, hmembers]
  split
  · split <;> rfl
  · rfl

/-- **Blocks.**  The documentation of a subject is the same but for its code. -/
theorem interpret_crlf (reg : Registry) (id : DocId) (h : NumbersInLine (reg.doc id).text.toList) :
    interpret reg.crlf id = ((interpret reg id).1.crlf, (interpret reg id).2.map Draft.crlf) := by
  rw [interpret, interpret, Registry.doc_crlf]
  generalize reg.doc id = d at h ⊢
  have htext : d.crlf.text.toList = Text.crlf d.text.toList := toList_crlfText d.text
  have hinternal : d.crlf.isInternal = d.isInternal := by
    rw [DocBlock.isInternal, DocBlock.isInternal, htext, occurs_crlf (by decide)]
  have hpreamble : preamble reg.crlf d.crlf.subject = preamble reg d.subject := preamble_crlf reg d.subject
  have hline : d.crlf.textLine = d.textLine := rfl
  have hstart : State.start (checkMembers d.crlf reg.crlf) = (State.start (checkMembers d reg)).crlf := by
    rw [checkMembers_crlf]
    rfl
  have hwords := readRest_crlf d h (resumes_crlf d.text.toList)
    ⟨d.textLine, d.textLine, 0, .start (checkMembers d reg)⟩
  simp only [readRest, Progress.crlf] at hwords
  simp only [hinternal, hpreamble, htext, hline, hstart, hwords, crlfPair, conclusion_crlf]
  split
  · rfl
  · simp only [List.map_append, map_crlf_preamble]
    rfl

end Blocks

end Markup

end CppDoc
