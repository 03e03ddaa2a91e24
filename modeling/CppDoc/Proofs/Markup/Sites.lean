import CppDoc.Proofs.Markup.Tokens

/-!
# The lines of reports

A report about a word names the line on which the word stands.  The line is not looked up in the text:
it is counted along, over blanks and over what words take, such as code.  A directive that still waits
for its argument at the end of a paragraph is reported on the line of the last word before.

* `ReportsAt`: what is reported while one word is read; `reportsAt_readWord`: each way to read a word;
* `Visit` and `visits`: the words of a text, each with how far the block has been read before it;
* `line_of_visit`: the count is right, whatever the words before have taken;
* `hanging_behind`: where a paragraph ends;
* `diagnostics_sited`: the reports of a block, one word after the other.
-/

namespace CppDoc.Markup

open CppDoc.Registry CppDoc.Text

/-! ## One word -/

/-- What is reported while a word on `line` of the block `d` is read: reports in the file of the block,
on that line.  If the word mentions a name once more, the place that mentioned it first is told so,
too. -/
def IsSited (d : DocBlock) (line : Nat) (reg : Registry) (added : List Diagnostic)
    (r : Diagnostic) : Prop :=
  r.problem ≠ .directiveHanging ∧
    (r.site = ⟨d.origin.file, line⟩ ∨
      ∃ name first, reg.mentions.lookup name = some first ∧
        r = ⟨first, .alsoMentioned name (reg.file d.origin.file).path line⟩ ∧
        ⟨⟨d.origin.file, line⟩, .alsoMentioned name (reg.file first.file).path first.line⟩ ∈ added)

/-- Whatever is reported between two registries is reported for a word on `line`. -/
def ReportsAt (d : DocBlock) (line : Nat) (reg reg' : Registry) : Prop :=
  ∃ added, reg'.diagnostics = reg.diagnostics ++ added ∧ ∀ r ∈ added, IsSited d line reg added r

section Word

variable {d : DocBlock} {line : Nat} {reg reg' : Registry}

theorem ReportsAt.of_eq (h : reg'.diagnostics = reg.diagnostics) : ReportsAt d line reg reg' :=
  ⟨[], by rw [h, List.append_nil], fun _ hr => absurd hr List.not_mem_nil⟩

/-- Another report on the same line. -/
theorem ReportsAt.report (h : ReportsAt d line reg reg') {problem : Problem}
    (hproblem : problem ≠ .directiveHanging) :
    ReportsAt d line reg (reg'.report ⟨d.origin.file, line⟩ problem) := by
  obtain ⟨added, hadded, hsited⟩ := h
  refine ⟨added ++ [⟨⟨d.origin.file, line⟩, problem⟩], ?_, fun r hr => ?_⟩
  · rw [Registry.report, hadded, List.append_assoc]
  · rcases List.mem_append.mp hr with hr | hr
    · obtain ⟨hne, hsite | ⟨name, first, hfirst, hecho, hhere⟩⟩ := hsited r hr
      · exact ⟨hne, .inl hsite⟩
      · exact ⟨hne, .inr ⟨name, first, hfirst, hecho, List.mem_append_left _ hhere⟩⟩
    · obtain rfl := List.mem_singleton.mp hr
      exact ⟨hproblem, .inl rfl⟩

theorem reportsAt_report {problem : Problem} (hproblem : problem ≠ .directiveHanging)
    (st : State) : ReportsAt d line st.registry (st.report d line problem).registry :=
  (ReportsAt.of_eq rfl).report hproblem

/-- A name that is mentioned once more is reported at both places. -/
theorem reportsAt_mention (reg : Registry) (name : String) :
    ReportsAt d line reg (reg.mention name ⟨d.origin.file, line⟩) := by
  unfold Registry.mention
  split
  · exact .of_eq rfl
  · rename_i first hfirst
    refine ⟨[⟨⟨d.origin.file, line⟩, .alsoMentioned name (reg.file first.file).path first.line⟩,
      ⟨first, .alsoMentioned name (reg.file d.origin.file).path line⟩], ?_, fun r hr => ?_⟩
    · simp [Registry.report, Registry.file]
    · rcases List.mem_cons.mp hr with rfl | hr
      · exact ⟨by simp, .inl rfl⟩
      · obtain rfl := List.mem_singleton.mp hr
        exact ⟨by simp, .inr ⟨name, first, hfirst, rfl, List.mem_cons_self⟩⟩

theorem reportsAt_expect (directive : String) (next : Expecting) (st : State) :
    ReportsAt d line st.registry (st.expect d line directive next).registry := by
  unfold State.expect
  split
  · exact .of_eq rfl
  · exact reportsAt_report (by simp) st

theorem reportsAt_readClassName (w : List Char) (st : State) :
    ReportsAt d line st.registry (readClassName d w line st).registry := by
  have hmention : ReportsAt d line st.registry (st.registry.mention
      (String.ofList (trimRightIf (fun c => c == ',' || c == '.') w)) ⟨d.origin.file, line⟩) :=
    reportsAt_mention st.registry _
  simp only [readClassName]
  split
  · split
    · exact hmention
    · exact hmention.report (by simp)
  · exact hmention

theorem reportsAt_readArgument (w : List Char) (st : State) :
    ReportsAt d line st.registry (readArgument d w line st).1.registry := by
  unfold readArgument
  dsimp only
  split
  · exact .of_eq rfl
  split
  · exact .of_eq rfl
  · exact reportsAt_report (by simp) st

theorem reportsAt_readReference (w : List Char) (st : State) :
    ReportsAt d line st.registry (readReference d w line st).1.registry := by
  simp only [readReference]
  split
  · exact .of_eq rfl
  · exact .of_eq rfl
  · exact .of_eq rfl
  · rename_i problem hproblem
    obtain h | ⟨_, _, h, _⟩ | ⟨_, _, h, _⟩ | ⟨_, _, h⟩ := resolve_cases st.registry d.subject w
    all_goals cases hproblem.symm.trans h
    exact reportsAt_report (by simp) st

theorem reportsAt_readPlain (w : List Char) (st : State) :
    ReportsAt d line st.registry (readPlain d w line st).1.registry := by
  unfold readPlain
  split
  · exact reportsAt_readClassName w st
  · exact reportsAt_readArgument w st
  · exact reportsAt_readReference w st

theorem reportsAt_readOverload (n : Nat) (st : State) :
    ReportsAt d line st.registry (readOverload d line n st).registry := by
  have hlast (st' : State) (h : ReportsAt d line st.registry st'.registry) :
      ReportsAt d line st.registry
        (if 1 < n then st'.report d line .overloadNotFirst else st').registry := by
    split
    · exact h.report (by simp)
    · exact h
  apply hlast
  split
  · dsimp only
    split
    · exact reportsAt_report (by simp) { st with overload := true }
    · exact .of_eq rfl
  · exact reportsAt_report (by simp) st

theorem reportsAt_readDirective (w rest : List Char) (n : Nat) (st : State) :
    ReportsAt d line st.registry (readDirective d w rest line n st).state.registry := by
  unfold readDirective
  split
  · simp only [Outcome.ofPair]
    split
    · exact reportsAt_expect _ _ st
    · exact reportsAt_report (by simp) st
  · simp only [Outcome.ofPair]
    split
    · exact reportsAt_expect _ .classes st
    · exact reportsAt_report (by simp) st
  · exact reportsAt_readOverload n st
  all_goals first | exact .of_eq rfl | exact reportsAt_report (by simp) st

/-- **A word.**  However it is read, it is reported on its line. -/
theorem reportsAt_readWord (w rest : List Char) (n : Nat) (st : State) :
    ReportsAt d line st.registry (readWord d w rest line n st).state.registry := by
  unfold readWord
  split
  · split
    · exact .of_eq rfl
    · exact reportsAt_readPlain w st
  split
  · exact .of_eq rfl
  split
  · exact reportsAt_readDirective w rest n st
  · exact reportsAt_readPlain w st

end Word

/-! ## The ends of paragraphs -/

section Paragraphs

variable (d : DocBlock)

/-- What is reported where a paragraph ends whose last word stands on `line`. -/
def hanging (line : Nat) (st : State) : List Diagnostic :=
  if st.expecting = .argument then [⟨⟨d.origin.file, line⟩, .directiveHanging⟩] else []

theorem diagnostics_endParagraph (line : Nat) (st : State) :
    (endParagraph d line st).1.registry.diagnostics =
      st.registry.diagnostics ++ hanging d line st := by
  unfold endParagraph hanging
  dsimp only
  split
  · rfl
  · rw [List.append_nil]

theorem diagnostics_readBlanks (blanks : List Char) (last : Nat) (st : State) :
    (readBlanks d blanks last st).1.registry.diagnostics =
      st.registry.diagnostics ++ if 2 ≤ lineFeeds blanks then hanging d last st else [] := by
  unfold readBlanks
  split
  · exact diagnostics_endParagraph d last st
  · split <;> rw [List.append_nil]

/-- At the end of the text its last paragraph ends, be it with blank lines or not. -/
theorem diagnostics_readRest_blank (p : Progress) {s : List Char} (hs : s.all isBlank = true) :
    (readRest d p s).1.registry.diagnostics =
      p.state.registry.diagnostics ++ hanging d p.last p.state := by
  rw [readRest_blank d p hs]
  dsimp only
  rw [diagnostics_endParagraph, diagnostics_readBlanks, List.append_assoc]
  congr 1
  unfold readBlanks
  split
  · rw [endParagraph, hanging, hanging]
    simp
  · split <;> rfl

end Paragraphs

/-! ## Visits -/

/-- The text before the word of a token, if the token is one of the text `s`. -/
def Token.before (t : Token) (s : List Char) : List Char :=
  s.take (s.length - (t.word ++ t.behind).length)

/-- A word that is read of a block, with how far the block has been read before it. -/
structure Visit where
  token : Token
  start : Progress

/-- The words of a block, one after the other. -/
def visits (d : DocBlock) (p : Progress) : List Token → List Visit
  | [] => []
  | t :: rest => ⟨t, p⟩ :: visits d (readToken d p t).1 rest

namespace Visit

/-- The line on which the word stands, as it is counted along. -/
def line (v : Visit) : Nat :=
  v.start.line + lineFeeds v.token.blanks

/-- The state when the blanks before the word have been read. -/
def opened (v : Visit) (d : DocBlock) : State :=
  (readBlanks d v.token.blanks v.start.last v.start.state).1

/-- How far the block has been read behind the word. -/
def after (v : Visit) (d : DocBlock) : Progress :=
  (readToken d v.start v.token).1

/-- What is reported because of the blanks before the word. -/
def gapReports (v : Visit) (d : DocBlock) : List Diagnostic :=
  (v.opened d).registry.diagnostics.drop v.start.state.registry.diagnostics.length

/-- What is reported while the word is read. -/
def wordReports (v : Visit) (d : DocBlock) : List Diagnostic :=
  (v.after d).state.registry.diagnostics.drop (v.opened d).registry.diagnostics.length

variable (v : Visit) (d : DocBlock)

theorem gapReports_eq :
    v.gapReports d =
      if 2 ≤ lineFeeds v.token.blanks then hanging d v.start.last v.start.state else [] := by
  rw [gapReports, opened, diagnostics_readBlanks, List.drop_left]

theorem reportsAt_after :
    ReportsAt d v.line (v.opened d).registry (v.after d).state.registry :=
  reportsAt_readWord v.token.word v.token.behind (v.start.count + 1) (v.opened d)

theorem diagnostics_after :
    (v.after d).state.registry.diagnostics =
      v.start.state.registry.diagnostics ++ (v.gapReports d ++ v.wordReports d) := by
  obtain ⟨added, hadded, -⟩ := v.reportsAt_after d
  have hgap : (v.opened d).registry.diagnostics =
      v.start.state.registry.diagnostics ++ v.gapReports d := by
    rw [gapReports_eq]
    exact diagnostics_readBlanks d _ _ _
  rw [wordReports, hadded, List.drop_left, hgap, List.append_assoc]

/-- The reports of a word stand on its line. -/
theorem sited_wordReports :
    ∀ r ∈ v.wordReports d, IsSited d v.line (v.opened d).registry (v.wordReports d) r := by
  obtain ⟨added, hadded, hsited⟩ := v.reportsAt_after d
  have hword : v.wordReports d = added := by rw [wordReports, hadded, List.drop_left]
  rw [hword]
  exact hsited

end Visit

/-! ## A whole text -/

section Run

variable (d : DocBlock)

theorem map_token_visits (p : Progress) (ts : List Token) :
    (visits d p ts).map Visit.token = ts := by
  induction ts generalizing p with
  | nil => rfl
  | cons t rest ih => rw [visits, List.map_cons, ih]

/-- The words before a visit are the visits of their own tokens, and lead up to it. -/
theorem visits_split {p : Progress} {ts : List Token} {before after : List Visit} {v : Visit}
    (h : visits d p ts = before ++ v :: after) :
    ∃ ts₁, before = visits d p ts₁ ∧ v.start = (readTokens d p ts₁).1 := by
  induction ts generalizing p before with
  | nil => simp [visits] at h
  | cons t rest ih =>
      cases before with
      | nil =>
          obtain ⟨rfl, -⟩ := List.cons.inj h
          exact ⟨[], rfl, rfl⟩
      | cons u before =>
          obtain ⟨rfl, hrest⟩ := List.cons.inj h
          obtain ⟨ts₁, hbefore, hstart⟩ := ih hrest
          exact ⟨t :: ts₁, by rw [visits, hbefore], by rw [hstart, readTokens]⟩

/-- Reading a text reports what its words report, in their order. -/
theorem diagnostics_readTokens (p : Progress) (ts : List Token) :
    (readTokens d p ts).1.state.registry.diagnostics =
      p.state.registry.diagnostics ++
        (visits d p ts).flatMap fun v => v.gapReports d ++ v.wordReports d := by
  induction ts generalizing p with
  | nil => simp [readTokens, visits]
  | cons t rest ih =>
      have hfirst := (Visit.mk t p).diagnostics_after d
      calc (readTokens d p (t :: rest)).1.state.registry.diagnostics
          = (readTokens d ((Visit.mk t p).after d) rest).1.state.registry.diagnostics := rfl
        _ = ((Visit.mk t p).after d).state.registry.diagnostics ++
              (visits d ((Visit.mk t p).after d) rest).flatMap
                fun v => v.gapReports d ++ v.wordReports d := ih _
        _ = _ := by
              rw [hfirst, List.append_assoc]
              rfl

/-- The line that is remembered is that of the last word. -/
theorem last_readTokens (p : Progress) (ts : List Token) :
    (readTokens d p ts).1.last = ((visits d p ts).getLast?.map Visit.line).getD p.last := by
  induction ts generalizing p with
  | nil => rfl
  | cons t rest ih =>
      rw [visits, List.getLast?_cons, readTokens]
      dsimp only
      rw [ih]
      cases (visits d (readToken d p t).1 rest).getLast? <;> rfl

/-- A directive that is left hanging is reported on the line of the last word.  There is one: nothing
is waited for at the start. -/
theorem hanging_behind {p : Progress} (hstart : p.state.expecting = .text) (ts : List Token) :
    hanging d (readTokens d p ts).1.last (readTokens d p ts).1.state = [] ∨
      ∃ u, (visits d p ts).getLast? = some u ∧
        hanging d (readTokens d p ts).1.last (readTokens d p ts).1.state =
          [⟨⟨d.origin.file, u.line⟩, .directiveHanging⟩] := by
  have hlast := last_readTokens d p ts
  by_cases hwaiting : (readTokens d p ts).1.state.expecting = .argument
  · cases hu : (visits d p ts).getLast? with
    | none =>
        have hts : ts = [] := by
          rw [← map_token_visits d p ts, List.getLast?_eq_none_iff.mp hu, List.map_nil]
        rw [hts, readTokens, hstart] at hwaiting
        cases hwaiting
    | some u =>
        rw [hu] at hlast
        refine .inr ⟨u, rfl, ?_⟩
        rw [hanging, if_pos hwaiting, hlast]
        rfl
  · exact .inl (if_neg hwaiting)

end Run

/-! ## The count of lines -/

theorem lineFeeds_append (s t : List Char) : lineFeeds (s ++ t) = lineFeeds s + lineFeeds t :=
  List.count_append

theorem lineFeeds_word {w : List Char} (hw : IsWord w) : lineFeeds w = 0 := by
  refine List.count_eq_zero.mpr fun hmem => ?_
  exact absurd (hw.solid _ hmem) (by decide)

namespace Token

variable {t : Token} {s : List Char} (h : t.word ++ t.behind <:+ s)

include h

theorem before_append : t.before s ++ (t.word ++ t.behind) = s := by
  obtain ⟨front, rfl⟩ := h
  rw [before, List.length_append, Nat.add_sub_cancel, List.take_left]

/-- What stands before the text stands before the word. -/
theorem before_of_append (front : List Char) : t.before (front ++ s) = front ++ t.before s := by
  have hle := h.length_le
  have hlength : (front ++ s).length - (t.word ++ t.behind).length =
      front.length + (s.length - (t.word ++ t.behind).length) := by
    rw [List.length_append]
    omega
  rw [before, hlength, List.take_length_add_append]
  rfl

end Token

/-- **The count of lines.**  Each word of a text is read as standing on the line on which it stands.  The
induction is on the words: a word takes up the line feeds of the blanks before it and of what it takes
from the text behind it, and has none of its own. -/
theorem line_of_visit (d : DocBlock) (s : List Char) (p : Progress) :
    ∀ v ∈ visits d p (tokens s), v.token.word ++ v.token.behind <:+ s ∧
      v.line = p.line + lineFeeds (v.token.before s) := by
  induction s using text_induction generalizing p with
  | blank s hs =>
      rw [tokens_blank hs]
      exact fun v hv => absurd hv List.not_mem_nil
  | word b w rest hb hw hrest ih =>
      intro v hv
      rw [tokens_word hb hw hrest, visits] at hv
      rcases List.mem_cons.mp hv with rfl | hv
      · have hsuffix : w ++ rest <:+ b ++ (w ++ rest) := List.suffix_append _ _
        refine ⟨hsuffix, ?_⟩
        have hbefore : Token.before ⟨b, w, rest⟩ (b ++ (w ++ rest)) = b :=
          List.append_cancel_right (Token.before_append (t := ⟨b, w, rest⟩) hsuffix)
        rw [hbefore]
        rfl
      · have hcut : b ++ (w ++ rest) =
            (b ++ w ++ rest.take (takenLength w rest)) ++ Token.rest ⟨b, w, rest⟩ := by
          simp [Token.rest, List.take_append_drop]
        obtain ⟨hsuffix, hline⟩ := ih _ v hv
        rw [hcut]
        refine ⟨hsuffix.trans (List.suffix_append _ _), ?_⟩
        rw [Token.before_of_append hsuffix, lineFeeds_append, lineFeeds_append, lineFeeds_append,
          lineFeeds_word hw, hline]
        simp only [readToken]
        omega

/-! ## A block -/

section Block

variable {d : DocBlock}

theorem diagnostics_checkMembers (reg : Registry) :
    ∃ added, (checkMembers d reg).diagnostics = reg.diagnostics ++ added ∧
      ∀ r ∈ added, r.site = d.origin ∧ r.problem ≠ .directiveHanging := by
  have hnone : ∃ added, reg.diagnostics = reg.diagnostics ++ added ∧
      ∀ r ∈ added, r.site = d.origin ∧ r.problem ≠ .directiveHanging :=
    ⟨[], (List.append_nil _).symm, fun _ hr => absurd hr List.not_mem_nil⟩
  unfold checkMembers
  split
  · split
    · refine ⟨[_], rfl, fun r hr => ?_⟩
      obtain rfl := List.mem_singleton.mp hr
      exact ⟨rfl, by simp⟩
    · exact hnone
  · exact hnone

/-- Arguments that are left out are reported one after the other. -/
theorem diagnostics_undocumented (names : List String) (st : State) :
    (names.foldl (fun st name => st.report d d.origin.line (.undocumentedArgument name))
        st).registry.diagnostics =
      st.registry.diagnostics ++ names.map fun name => ⟨d.origin, .undocumentedArgument name⟩ := by
  induction names generalizing st with
  | nil => simp
  | cons name rest ih =>
      rw [List.foldl_cons, ih, List.map_cons]
      exact List.append_assoc _ [_] _

theorem diagnostics_conclusion (st : State) :
    ∃ added, (conclusion d st).1.registry.diagnostics = st.registry.diagnostics ++ added ∧
      ∀ r ∈ added, r.site = d.origin ∧ r.problem ≠ .directiveHanging := by
  have hnone : ∃ added, st.registry.diagnostics = st.registry.diagnostics ++ added ∧
      ∀ r ∈ added, r.site = d.origin ∧ r.problem ≠ .directiveHanging :=
    ⟨[], (List.append_nil _).symm, fun _ hr => absurd hr List.not_mem_nil⟩
  unfold conclusion
  split
  · refine ⟨_, diagnostics_undocumented _ st, fun r hr => ?_⟩
    obtain ⟨name, -, rfl⟩ := List.mem_map.mp hr
    exact ⟨rfl, by simp⟩
  · dsimp only
    split
    · exact hnone
    · refine ⟨[_], rfl, fun r hr => ?_⟩
      obtain rfl := List.mem_singleton.mp hr
      exact ⟨rfl, by simp⟩
  · exact hnone

end Block

/-- The line on which a word of a block stands. -/
def wordLine (d : DocBlock) (t : Token) : Nat :=
  d.textLine + lineFeeds (t.before d.text.toList)

/-- Before the first word of a block. -/
def Progress.start (d : DocBlock) (reg : Registry) : Progress :=
  { line := d.textLine, last := d.textLine, count := 0, state := .start (checkMembers d reg) }

/-- The words of a block, as they are read in a registry. -/
def wordsOf (d : DocBlock) (reg : Registry) : List Visit :=
  visits d (.start d reg) (tokens d.text.toList)

theorem line_of_mem_wordsOf {d : DocBlock} {reg : Registry} {v : Visit} (hv : v ∈ wordsOf d reg) :
    v.token.word ++ v.token.behind <:+ d.text.toList ∧ v.line = wordLine d v.token :=
  line_of_visit d d.text.toList (.start d reg) v hv

/-- At the end of a paragraph there may be a report that a directive is left hanging.  It is on the
line of the last of the words `before`, and nothing is reported before the first word. -/
def IsHanging (d : DocBlock) (before : List Visit) (reports : List Diagnostic) : Prop :=
  reports = [] ∨ ∃ u, before.getLast? = some u ∧
    reports = [⟨⟨d.origin.file, wordLine d u.token⟩, .directiveHanging⟩]

/-- The paragraph that ends behind some of the words of a block. -/
theorem isHanging_behind {d : DocBlock} {reg : Registry} (ts : List Token)
    (hts : ∀ u ∈ visits d (.start d reg) ts, u ∈ wordsOf d reg) :
    IsHanging d (visits d (.start d reg) ts)
      (hanging d (readTokens d (.start d reg) ts).1.last
        (readTokens d (.start d reg) ts).1.state) := by
  rcases hanging_behind d (p := .start d reg) rfl ts with hnone | ⟨u, hu, hreport⟩
  · exact .inl hnone
  · refine .inr ⟨u, hu, ?_⟩
    rw [hreport, (line_of_mem_wordsOf (hts u (List.mem_of_getLast? hu))).2]

/-- **Lines of reports.**  Apart from what is reported on the line of its comment, before its first
word and behind its last one, a block of documentation reports what its words report, one after the
other, whatever code, blocks and links there are among them.

* A word is a piece of the text, and its reports are in the file of the block, on the line where the
  text begins plus the line feeds of the text before the word.
* Behind blank lines, and at the end of the text, a directive that is still waiting for its argument
  is reported on the line of the last word before, and nowhere else. -/
theorem diagnostics_sited {reg : Registry} {id : DocId} (h : (reg.doc id).isInternal = false) :
    let d := reg.doc id
    (wordsOf d reg).map Visit.token = tokens d.text.toList ∧
      (∃ opening ending closing,
        (interpret reg id).1.diagnostics =
          reg.diagnostics ++ (opening ++
            ((wordsOf d reg).flatMap (fun v => v.gapReports d ++ v.wordReports d) ++
              (ending ++ closing))) ∧
        IsHanging d (wordsOf d reg) ending ∧
        ∀ r ∈ opening ++ closing, r.site = d.origin ∧ r.problem ≠ .directiveHanging) ∧
      ∀ before v after, wordsOf d reg = before ++ v :: after →
        v.token.before d.text.toList ++ (v.token.word ++ v.token.behind) = d.text.toList ∧
        IsHanging d before (v.gapReports d) ∧
        (lineFeeds v.token.blanks < 2 → v.gapReports d = []) ∧
        ∀ r ∈ v.wordReports d,
          IsSited d (wordLine d v.token) (v.opened d).registry (v.wordReports d) r := by
  intro d
  refine ⟨map_token_visits d _ _, ?_, fun before v after hwords => ?_⟩
  · obtain ⟨opening, hopening, hopened⟩ := diagnostics_checkMembers (d := d) reg
    obtain ⟨blanks, hblanks, hread⟩ := readRest_tokens d (.start d reg) d.text.toList
    obtain ⟨closing, hclosing, hclosed⟩ :=
      diagnostics_conclusion (d := d) (readRest d (.start d reg) d.text.toList).1
    refine ⟨opening, _, closing, ?_, isHanging_behind (tokens d.text.toList) fun _ hu => hu,
      fun r hr => (List.mem_append.mp hr).elim (hopened r) (hclosed r)⟩
    have hinterpret : (interpret reg id).1 =
        (conclusion d (readRest d (.start d reg) d.text.toList).1).1.registry := by
      unfold interpret
      dsimp only
      rw [h]
      rfl
    have hstart : (Progress.start d reg).state.registry.diagnostics =
        reg.diagnostics ++ opening := hopening
    rw [hinterpret, hclosing, hread]
    dsimp only
    rw [diagnostics_readRest_blank d _ hblanks, diagnostics_readTokens, hstart]
    simp only [List.append_assoc]
    rfl
  · have hv : v ∈ wordsOf d reg := by
      rw [hwords]
      exact List.mem_append_right _ List.mem_cons_self
    obtain ⟨hsuffix, hline⟩ := line_of_mem_wordsOf hv
    obtain ⟨ts, rfl, hstart⟩ := visits_split d hwords
    refine ⟨Token.before_append hsuffix, ?_, fun hfew => ?_, ?_⟩
    · rw [Visit.gapReports_eq]
      split
      · rw [hstart]
        refine isHanging_behind ts fun u hu => ?_
        rw [hwords]
        exact List.mem_append_left _ hu
      · exact .inl rfl
    · rw [Visit.gapReports_eq, if_neg (Nat.not_le.mpr hfew)]
    · rw [← hline]
      exact v.sited_wordReports d

theorem diagnostics_sited_code :
    let d : DocBlock :=
      { origin := ⟨⟨0⟩, 4⟩, textLine := 5, subject := .function ⟨0⟩
        text := "Like\n\\code\n\\wrong;\n\\endcode\n\\wrong bar\n\\a\n\nfoo." }
    let reg := { Registry.empty with docs := [d] }
    (interpret reg ⟨0⟩).1.diagnostics =
        [⟨⟨⟨0⟩, 9⟩, .unknownDirective "\\wrong"⟩, ⟨⟨⟨0⟩, 10⟩, .directiveHanging⟩] ∧
      ∀ before v after, wordsOf d reg = before ++ v :: after →
        IsHanging d before (v.gapReports d) ∧
        ∀ r ∈ v.wordReports d,
          IsSited d (wordLine d v.token) (v.opened d).registry (v.wordReports d) r := by
  intro d reg
  have hinternal : (reg.doc ⟨0⟩).isInternal = false := by decide
  obtain ⟨-, -, hwords⟩ := diagnostics_sited hinternal
  refine ⟨by decide +kernel, fun before v after hsplit => ?_⟩
  obtain ⟨-, hgap, -, hword⟩ := hwords before v after hsplit
  exact ⟨hgap, hword⟩

end CppDoc.Markup
