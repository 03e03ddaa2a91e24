import CppDoc.Proofs.Reading.Documented
import CppDoc.Proofs.Syntax.Closing
import Mathlib.Data.List.Infix

/-!
# Directives inside their comments

What a directive says and the text that is left for the body of its comment are read off the text
behind the opening, end of the comment or not.  In a comment that is closed off the end is respected:
what stands behind it changes nothing about what is read, and the next comment is looked for from
there on.

* `Tokens.read?`: the names of a directive and the text behind them; `Tokens.enter`: what is entered
  for them, and `readComment_tokens`: that this is what reading a comment does;
* `scanComment_enclosed`: a comment with a directive is processed inside its end.
-/

namespace CppDoc.Comment

open CppDoc.Header CppDoc.Registry CppDoc.Syntax CppDoc.Text

/-! ## Names of headers -/

/-- What joins the words of the name of a header. -/
def isSeparator (c : Char) : Bool :=
  c == '.' || c == '/'

/-- The name of a header that begins with `name` and goes on in a text, and what is left of the
text. -/
def headerTail (name : String) : List Char → String × List Char
  | [] => (name, [])
  | c :: rest =>
    if isSeparator c then
      headerTail (name ++ String.ofList [c] ++ (readWord rest).1) (rest.drop (readWord rest).2)
    else (name, c :: rest)
termination_by s => s.length
decreasing_by simp only [List.length_drop, List.length_cons]; omega

/-- Reads a separator and the word behind it, if a separator comes next. -/
def headerStep (s : String × Reading) : Bool × String × Reading :=
  let (name, r) := s
  if r.lookingAt "." || r.lookingAt "/" then
    let separator := if r.lookingAt "." then "." else "/"
    let (word, r) := r.step.read readWord
    (true, name ++ separator ++ word, r)
  else (false, name, r)

theorem headerStep_of_separator {r : Reading} {c : Char} {rest : List Char}
    (hrest : r.cursor.rest = c :: rest) (hc : isSeparator c = true) (name : String) :
    ∃ d : Cursor, d.rest = rest.drop (readWord rest).2 ∧
      headerStep (name, r) =
        (true, name ++ String.ofList [c] ++ (readWord rest).1, { r with cursor := d }) := by
  have hstep : r.step = { r with cursor := r.cursor.skip 1 } := by
    simp [Reading.step, Reading.move, Cursor.step, hrest]
  have hbehind : (r.cursor.skip 1).rest = rest := by
    simp [Cursor.skip, hrest]
  refine ⟨(r.cursor.skip 1).skip (readWord rest).2, ?_, ?_⟩
  · rw [Cursor.skip, hbehind]
  · simp only [isSeparator, Bool.or_eq_true, beq_iff_eq] at hc
    simp only [headerStep, Reading.lookingAt, Cursor.lookingAt, hrest, hstep, Reading.read,
      Cursor.read, hbehind]
    rcases hc with rfl | rfl <;> rfl

theorem headerStep_of_not_separator {r : Reading} (hrest : r.cursor.rest.head?.any isSeparator = false)
    (name : String) : headerStep (name, r) = (false, name, r) := by
  have hlooking : (r.lookingAt "." || r.lookingAt "/") = false := by
    simp only [Reading.lookingAt, Cursor.lookingAt]
    cases hs : r.cursor.rest with
    | nil => rfl
    | cons c rest =>
        rw [hs] at hrest
        have hc : c ≠ '.' ∧ c ≠ '/' := by simpa [isSeparator] using hrest
        simp [List.isPrefixOf, hc.1.symm, hc.2.symm]
  simp [headerStep, hlooking]

/-- **Names of headers.**  A reader goes on for as long as separators and words follow. -/
theorem iterate_headerStep (name : String) (r : Reading) :
    ∃ c : Cursor, c.rest = (headerTail name r.cursor.rest).2 ∧
      iterate (fun s => s.2.left) headerStep (name, r) =
        ((headerTail name r.cursor.rest).1, { r with cursor := c }) := by
  induction hlen : r.cursor.rest.length using Nat.strongRecOn generalizing name r with
  | ind n ih =>
      cases hrest : r.cursor.rest with
      | nil =>
          have hstep := headerStep_of_not_separator (r := r) (by rw [hrest]; rfl) name
          exact ⟨r.cursor, by rw [hrest, headerTail], by rw [iterate_done hstep, headerTail]⟩
      | cons c rest =>
          by_cases hc : isSeparator c = true
          · obtain ⟨d, hd, hstep⟩ := headerStep_of_separator hrest hc name
            have hless : d.rest.length < r.cursor.rest.length := by
              rw [hd, hrest, List.length_drop, List.length_cons]
              omega
            obtain ⟨e, he, hmore⟩ := ih d.rest.length (hlen ▸ hless)
              (name ++ String.ofList [c] ++ (readWord rest).1) { r with cursor := d } rfl
            rw [iterate_more hstep hless, headerTail, if_pos hc, hmore, ← hd]
            exact ⟨e, he, rfl⟩
          · have hstep := headerStep_of_not_separator (r := r)
              (by rw [hrest]; simpa using hc) name
            exact ⟨r.cursor, by rw [hrest, headerTail, if_neg hc],
              by rw [iterate_done hstep, headerTail, if_neg hc]⟩

theorem readHeaderName_eq (r : Reading) :
    ∃ c : Cursor,
      c.rest = (headerTail (readWord r.cursor.rest).1
        (r.cursor.rest.drop (readWord r.cursor.rest).2)).2 ∧
      readHeaderName r =
        ((headerTail (readWord r.cursor.rest).1
          (r.cursor.rest.drop (readWord r.cursor.rest).2)).1, { r with cursor := c }) :=
  iterate_headerStep (readWord r.cursor.rest).1 (r.read readWord).2

/-! ## Tokens -/

/-- What the directive of a comment says. -/
inductive Tokens where
  | function (returnType name parameters : String) (isConst : Bool)
  | chapter (name : String)
  | classPage (name header : String)
  deriving DecidableEq

namespace Tokens

/-- Does the directive say what function the comment is about? -/
def isFunction : Tokens → Bool
  | .function .. => true
  | _ => false

/-- What the directive at the head of a text says, and the text behind that. -/
def read? (s : List Char) : Option (Tokens × List Char) :=
  if "\\fn ".toList.isPrefixOf s then
    let sig := Signature.read (s.drop 4)
    some (.function sig.returnType sig.name sig.parameters sig.isConst, sig.rest)
  else if "\\chapter ".toList.isPrefixOf s then
    let name := readWord (s.drop 9)
    some (.chapter name.1, (s.drop 9).drop name.2)
  else if "\\class ".toList.isPrefixOf s then
    let name := readName (s.drop 7)
    let s := skipGap ((s.drop 7).drop name.2)
    let header := headerTail (readWord s).1 (s.drop (readWord s).2)
    some (.classPage name.1 header.1, header.2)
  else none

/-- Enters what a directive says.  The comment begins on `line`, and the name of a function or of a
chapter is reported on `nameLine`. -/
def enter (tree : FileTree) (line nameLine : Nat) (r : Reading) :
    Tokens → Except (Failure × Reading) (Binding × Reading)
  | .function returnType name parameters isConst =>
    .ok (Signature.bind { returnType, name, parameters, isConst, rest := [] } nameLine r)
  | .chapter name =>
    let r := if name.isEmpty then r.report nameLine .unnamedChapter else r
    let (id, reg) := r.registry.addChapter name
    .ok (.about (.chapter id), { r with registry := reg })
  | .classPage name header =>
    let r := if name.isEmpty then r.report line .unnamedClass else r
    let (id, r) := r.classNamed name
    if !".h".toList.isSuffixOf header.toList then
      .ok (.about (.classPage id), r.report line .missingHeader)
    else
      let included := includes (r.registry.file r.file).text header
      let r := if included then r else r.report line (.headerNotIncluded header)
      match requireHeader tree name header line r with
      | .error e => .error (e, r)
      | .ok r =>
        let noMembers := (r.registry.getClass id).members.isEmpty
        .ok (.about (.classPage id),
          if noMembers then r.report line (.noMembersFound name header) else r)

end Tokens

theorem scanChapterDirective_eq (r : Reading) (tree : FileTree) (line : Nat) :
    ∃ (nameLine : Nat) (c : Cursor), c.rest = r.cursor.rest.drop (readWord r.cursor.rest).2 ∧
      .ok (scanChapterDirective r) =
        (Tokens.chapter (readWord r.cursor.rest).1).enter tree line nameLine
          { r with cursor := c } := by
  by_cases hname : (readWord r.cursor.rest).1.isEmpty = true
  · have hread : (r.read readWord).1.isEmpty = true := hname
    refine ⟨(r.read readWord).2.line.1, (r.read readWord).2.line.2.cursor, rfl, ?_⟩
    simp only [scanChapterDirective, Tokens.enter, hname, hread, if_true]
    rfl
  · have hread : ¬ (r.read readWord).1.isEmpty = true := hname
    refine ⟨0, (r.read readWord).2.cursor, rfl, ?_⟩
    simp only [scanChapterDirective, Tokens.enter, hname, hread]
    rfl

theorem scanClassDirective_eq (r : Reading) (tree : FileTree) (line nameLine : Nat) :
    let name := readName r.cursor.rest
    let s := skipGap (r.cursor.rest.drop name.2)
    let header := headerTail (readWord s).1 (s.drop (readWord s).2)
    ∃ c : Cursor, c.rest = header.2 ∧
      scanClassDirective tree line r =
        (Tokens.classPage name.1 header.1).enter tree line nameLine { r with cursor := c } := by
  dsimp only
  by_cases hname : (readName r.cursor.rest).1.isEmpty = true
  · have hread : (r.read readName).1.isEmpty = true := hname
    obtain ⟨c, hc, hheader⟩ := readHeaderName_eq
      (((r.read readName).2.report line .unnamedClass).classNamed (r.read readName).1).2.skipGap
    refine ⟨c, hc, ?_⟩
    simp only [scanClassDirective, Tokens.enter, hname, hread, if_true, hheader]
    rfl
  · have hread : ¬ (r.read readName).1.isEmpty = true := hname
    obtain ⟨c, hc, hheader⟩ := readHeaderName_eq
      ((r.read readName).2.classNamed (r.read readName).1).2.skipGap
    refine ⟨c, hc, ?_⟩
    simp only [scanClassDirective, Tokens.enter, hname, hread, Bool.false_eq_true, if_false, hheader]
    rfl

/-- **Directives.**  Reading a comment with a directive enters what the directive says, and then reads
the body off the text behind it. -/
theorem readComment_tokens {r : Reading} {t : Tokens} {rest : List Char}
    (h : Tokens.read? r.cursor.rest = some (t, rest)) (tree : FileTree) (line : Nat) :
    ∃ (nameLine : Nat) (c : Cursor), c.rest = rest ∧
      readComment tree line r =
        (t.enter tree line nameLine { r with cursor := c }).map withBody := by
  unfold Tokens.read? at h
  by_cases hfn : "\\fn ".toList.isPrefixOf r.cursor.rest = true
  · rw [if_pos hfn] at h
    obtain ⟨rfl, rfl⟩ := Prod.mk.inj (Option.some.inj h)
    have hlooking : r.lookingAt "\\fn " = true := hfn
    obtain ⟨c, hc, hpast⟩ := past_space (w := "\\fn".toList) (by decide)
      (eq_append_drop_of_isPrefixOf hfn)
    obtain ⟨nameLine, d, hd, hscan⟩ := scanFunction_eq { r with cursor := c }
    rw [hc] at hd hscan
    refine ⟨nameLine, d, hd, ?_⟩
    rw [readComment, if_pos hlooking, hpast, hscan]
    rfl
  rw [if_neg hfn] at h
  have hfn' : ¬ r.lookingAt "\\fn " = true := hfn
  by_cases hchapter : "\\chapter ".toList.isPrefixOf r.cursor.rest = true
  · rw [if_pos hchapter] at h
    obtain ⟨rfl, rfl⟩ := Prod.mk.inj (Option.some.inj h)
    have hlooking : r.lookingAt "\\chapter " = true := hchapter
    obtain ⟨c, hc, hpast⟩ := past_space (w := "\\chapter".toList) (by decide)
      (eq_append_drop_of_isPrefixOf hchapter)
    obtain ⟨nameLine, d, hd, hscan⟩ := scanChapterDirective_eq { r with cursor := c } tree line
    dsimp only at hd hscan
    rw [hc] at hd hscan
    refine ⟨nameLine, d, hd, ?_⟩
    rw [readComment, if_neg hfn', if_pos hlooking, hpast]
    exact congrArg (Except.map withBody) hscan
  rw [if_neg hchapter] at h
  have hchapter' : ¬ r.lookingAt "\\chapter " = true := hchapter
  by_cases hclass : "\\class ".toList.isPrefixOf r.cursor.rest = true
  · rw [if_pos hclass] at h
    obtain ⟨rfl, rfl⟩ := Prod.mk.inj (Option.some.inj h)
    have hlooking : r.lookingAt "\\class " = true := hclass
    obtain ⟨c, hc, hpast⟩ := past_space (w := "\\class".toList) (by decide)
      (eq_append_drop_of_isPrefixOf hclass)
    obtain ⟨d, hd, hscan⟩ := scanClassDirective_eq { r with cursor := c } tree line 0
    dsimp only at hd hscan
    rw [hc] at hd hscan
    refine ⟨0, d, hd, ?_⟩
    rw [readComment, if_neg hfn', if_neg hchapter', if_pos hlooking, hpast]
    exact congrArg (Except.map withBody) hscan
  · rw [if_neg hclass] at h
    cases h

/-! ## Before the end of the comment -/

section Ending

variable {v : List Char}

theorem skipGap_ending (x : List Char) (hv : ClosesComments v) :
    skipGap (v ++ ending x) = skipGap v ++ ending x := by
  rw [skipGap, gap_ending x hv, drop_ending x (gap_le v)]
  rfl

/-- The word `const` is looked for in the comment only. -/
theorem afterConst_ending (hv : ClosedOff v) :
    (∀ x, writtenConst (v ++ ending x) = writtenConst v) ∧
      ∃ body, body <:+ v ∧ ∀ x, afterConst (v ++ ending x) = body ++ ending x := by
  have hskip (x : List Char) := skipGap_ending x hv.comments
  have hconst (x : List Char) : writtenConst (v ++ ending x) = writtenConst v := by
    rw [writtenConst, hskip, isPrefixOf_ending x (by decide)]
    rfl
  have hsuffix : skipGap v <:+ v := List.drop_suffix _ _
  refine ⟨hconst, ?_⟩
  cases hwritten : writtenConst v with
  | false =>
      refine ⟨skipGap v, hsuffix, fun x => ?_⟩
      rw [afterConst, hconst, hwritten, hskip]
      rfl
  | true =>
      have hclosed : ClosedOff (skipGap v) := hv.drop (gap v)
      obtain ⟨hle, hword⟩ := settles_readWord hclosed
      refine ⟨(skipGap v).drop (readWord (skipGap v ++ ending [])).2,
        (List.drop_suffix _ _).trans hsuffix, fun x => ?_⟩
      rw [afterConst, hconst, hwritten, if_pos rfl, hskip, ← drop_ending x hle]
      exact congrArg (fun w => (skipGap v ++ ending x).drop w.2) (hword hle x)

theorem suffix_afterConst (s : List Char) : afterConst s <:+ s := by
  have hskip : skipGap s <:+ s := List.drop_suffix _ _
  unfold afterConst
  split
  · exact (List.drop_suffix _ _).trans hskip
  · exact hskip

/-- What a text that ends in the end of a comment is left with, if a part of it is dropped. -/
theorem le_of_suffix_drop {n : Nat} (h : ending [] <:+ (v ++ ending []).drop n) : n ≤ v.length := by
  have hlen := h.length_le
  simp only [List.length_drop, List.length_append, List.length_cons, List.length_nil] at hlen
  omega

/-- **Signatures.**  A signature that by itself ends before the comment does is read there, whatever
stands behind the comment. -/
theorem Signature.read_ending (hv : ClosedOff v)
    (hend : ending [] <:+ (Signature.read (v ++ ending [])).rest) :
    ∃ body, body <:+ v ∧ ∀ x, Signature.read (v ++ ending x) =
      { Signature.read (v ++ ending []) with rest := body ++ ending x } := by
  have hsuffix := hend.trans (suffix_afterConst _)
  have htype : (readType (v ++ ending [])).2 ≤ v.length :=
    le_of_suffix_drop (hsuffix.trans ((List.drop_suffix _ _).trans (List.drop_suffix _ _)))
  have htypes := settles_readType hv htype
  have hv₁ := hv.drop (readType (v ++ ending [])).2
  obtain ⟨hname, hnames⟩ := settles_readName hv₁
  replace hnames := hnames hname
  have hv₂ := hv₁.drop (readName (v.drop (readType (v ++ ending [])).2 ++ ending [])).2
  rw [drop_ending [] htype, drop_ending [] hname] at hsuffix
  have hparameters := le_of_suffix_drop hsuffix
  have hlist := settles_readParameters hv₂ hparameters
  have hv₃ := hv₂.drop (readParameters (((v.drop (readType (v ++ ending [])).2).drop
    (readName (v.drop (readType (v ++ ending [])).2 ++ ending [])).2) ++ ending [])).2
  obtain ⟨hconst, body, hbody, hafter⟩ := afterConst_ending hv₃
  refine ⟨body, ?_, fun x => ?_⟩
  · exact hbody.trans ((List.drop_suffix _ _).trans ((List.drop_suffix _ _).trans (List.drop_suffix _ _)))
  · simp only [Signature.read, htypes x, drop_ending _ htype, hnames x, drop_ending _ hname,
      hlist x, drop_ending _ hparameters, hconst, hafter,
      isPrefixOf_ending _ (w := "(".toList) (by decide)]

/-- Names of headers do not run over the end. -/
theorem headerTail_ending (hv : ClosedOff v) (name : String) :
    ∃ body, body <:+ v ∧ ∀ x, headerTail name (v ++ ending x) =
      ((headerTail name (v ++ ending [])).1, body ++ ending x) := by
  induction hlen : v.length using Nat.strongRecOn generalizing name v with
  | ind n ih =>
      cases v with
      | nil => exact ⟨[], List.suffix_refl [], fun x => by simp [headerTail, isSeparator]⟩
      | cons c b =>
          by_cases hc : isSeparator c = true
          · have hb : ClosedOff b := hv.tail
            obtain ⟨hle, hword⟩ := settles_readWord hb
            replace hword := hword hle
            obtain ⟨body, hbody, hmore⟩ := ih (b.drop (readWord (b ++ ending [])).2).length
              (by rw [List.length_drop, ← hlen, List.length_cons]; omega) (hb.drop _)
              (name ++ String.ofList [c] ++ (readWord (b ++ ending [])).1) rfl
            refine ⟨body, (hbody.trans (List.drop_suffix _ _)).trans (List.suffix_cons c b), fun x => ?_⟩
            simp only [List.cons_append, headerTail, hc, if_true, hword x, drop_ending _ hle]
            exact hmore x
          · refine ⟨c :: b, List.suffix_refl _, fun x => ?_⟩
            simp only [List.cons_append, headerTail, hc, Bool.false_eq_true, if_false]

/-- **Directives.**  What a directive says in a comment that is closed off does not depend on what
stands behind the comment.  Only the signature of a function may take a part of the end. -/
theorem Tokens.read?_ending (hv : ClosedOff v) {t : Tokens} {rest : List Char}
    (h : Tokens.read? (v ++ ending []) = some (t, rest))
    (hend : t.isFunction = true → ending [] <:+ rest) :
    ∃ body, body <:+ v ∧ ∀ x, Tokens.read? (v ++ ending x) = some (t, body ++ ending x) := by
  have hkeyword {w : List Char} (hw : '*' ∉ w) (hle : w.isPrefixOf (v ++ ending []) = true) :
      w.length ≤ v.length := by
    rw [isPrefixOf_ending [] hw, List.isPrefixOf_iff_prefix] at hle
    exact hle.length_le
  have hsame {w : List Char} (hw : '*' ∉ w) (x : List Char) :
      w.isPrefixOf (v ++ ending x) = w.isPrefixOf (v ++ ending []) := by
    rw [isPrefixOf_ending x hw, isPrefixOf_ending [] hw]
  have hfn (x : List Char) := hsame (w := "\\fn ".toList) (by decide) x
  have hchapter (x : List Char) := hsame (w := "\\chapter ".toList) (by decide) x
  have hclass (x : List Char) := hsame (w := "\\class ".toList) (by decide) x
  unfold Tokens.read? at h
  by_cases hisFn : "\\fn ".toList.isPrefixOf (v ++ ending []) = true
  · have hle : 4 ≤ v.length := hkeyword (by decide) hisFn
    rw [if_pos hisFn, drop_ending [] hle] at h
    obtain ⟨rfl, rfl⟩ := Prod.mk.inj (Option.some.inj h)
    obtain ⟨body, hbody, hread⟩ := Signature.read_ending (hv.drop 4) (hend rfl)
    refine ⟨body, hbody.trans (List.drop_suffix _ _), fun x => ?_⟩
    rw [Tokens.read?, hfn, if_pos hisFn, drop_ending x hle, hread]
  rw [if_neg hisFn] at h
  by_cases hisChapter : "\\chapter ".toList.isPrefixOf (v ++ ending []) = true
  · have hle : 9 ≤ v.length := hkeyword (by decide) hisChapter
    rw [if_pos hisChapter, drop_ending [] hle] at h
    obtain ⟨rfl, rfl⟩ := Prod.mk.inj (Option.some.inj h)
    obtain ⟨hword, hwords⟩ := settles_readWord (hv.drop 9)
    refine ⟨(v.drop 9).drop (readWord (v.drop 9 ++ ending [])).2,
      (List.drop_suffix _ _).trans (List.drop_suffix _ _), fun x => ?_⟩
    simp only [Tokens.read?, hfn, hchapter, hisFn, hisChapter, Bool.false_eq_true, if_false, if_true,
      drop_ending x hle, hwords hword x, drop_ending x hword]
  rw [if_neg hisChapter] at h
  by_cases hisClass : "\\class ".toList.isPrefixOf (v ++ ending []) = true
  · have hle : 7 ≤ v.length := hkeyword (by decide) hisClass
    rw [if_pos hisClass, drop_ending [] hle] at h
    obtain ⟨rfl, rfl⟩ := Prod.mk.inj (Option.some.inj h)
    obtain ⟨hname, hnames⟩ := settles_readName (hv.drop 7)
    have hbehind := (hv.drop 7).drop (readName (v.drop 7 ++ ending [])).2
    have hskip (x : List Char) := skipGap_ending x hbehind.comments
    have hclosed : ClosedOff (skipGap ((v.drop 7).drop (readName (v.drop 7 ++ ending [])).2)) :=
      hbehind.drop _
    obtain ⟨hword, hwords⟩ := settles_readWord hclosed
    obtain ⟨body, hbody, hheader⟩ := headerTail_ending
      (hclosed.drop (readWord (skipGap ((v.drop 7).drop (readName (v.drop 7 ++ ending [])).2) ++
        ending [])).2)
      (readWord (skipGap ((v.drop 7).drop (readName (v.drop 7 ++ ending [])).2) ++ ending [])).1
    refine ⟨body, ?_, fun x => ?_⟩
    · exact hbody.trans ((List.drop_suffix _ _).trans ((List.drop_suffix _ _).trans
        ((List.drop_suffix _ _).trans (List.drop_suffix _ _))))
    · simp only [Tokens.read?, hfn, hchapter, hclass, hisFn, hisChapter, hisClass, Bool.false_eq_true,
        if_false, if_true, drop_ending _ hle, hnames hname x, drop_ending _ hname, hskip,
        hwords hword x, drop_ending _ hword, hheader x]
  · rw [if_neg hisClass] at h
    exact nomatch h

end Ending

/-! ## Comments -/

/-- The text behind the next opening of a comment. -/
def behindOpening (s : List Char) : List Char :=
  match find? opening.toList s with
  | some n => s.drop (n + opening.toList.length)
  | none => []

theorem rest_past_opening (r : Reading) : (r.past opening).cursor.rest = behindOpening r.cursor.rest := by
  simp only [Reading.past, Reading.move, Cursor.past, Cursor.cutAt, behindOpening]
  cases find? opening.toList r.cursor.rest <;> rfl

theorem cursor_settle (line : Nat) (found : Finding) (r : Reading) :
    (settle line found r).cursor = r.cursor := by
  unfold settle
  split
  · rfl
  · split
    · rfl
    · split <;> rfl

/-- Entering what has been read does not move the cursor. -/
theorem cursor_requireHeader {tree : FileTree} {className header : String} {line : Nat} {r r' : Reading}
    (h : requireHeader tree className header line r = .ok r') : r'.cursor = r.cursor := by
  obtain ⟨-, rfl⟩ | ⟨-, path, -, ⟨-, rfl⟩ | ⟨text, -, rfl⟩⟩ := requireHeader_cases h <;> rfl

theorem cursor_bind (sig : Signature) (line : Nat) (r : Reading) :
    (sig.bind line r).2.cursor = r.cursor := by
  unfold Signature.bind
  cases isQualified sig.name && !sig.parameters.isEmpty with
  | false => rfl
  | true =>
      simp only [if_true]
      cases hfound : (r.declare sig.returnType sig.name sig.parameters sig.isConst line).1 <;> rfl

theorem cursor_enter {t : Tokens} {tree : FileTree} {line nameLine : Nat} {r r' : Reading}
    {binding : Binding} (h : t.enter tree line nameLine r = .ok (binding, r')) :
    r'.cursor = r.cursor := by
  cases t with
  | function returnType name parameters isConst =>
      obtain ⟨-, rfl⟩ := Prod.mk.inj (Except.ok.inj h)
      exact cursor_bind _ _ _
  | chapter name =>
      obtain ⟨-, rfl⟩ := Prod.mk.inj (Except.ok.inj h)
      dsimp only
      split <;> rfl
  | classPage name header =>
      have hunnamed : (if name.isEmpty then r.report line .unnamedClass else r).cursor = r.cursor := by
        split <;> rfl
      simp only [Tokens.enter] at h
      generalize (if name.isEmpty then r.report line .unnamedClass else r) = r₁ at h hunnamed
      split at h
      · obtain ⟨-, rfl⟩ := Prod.mk.inj (Except.ok.inj h)
        exact hunnamed
      · have hincluded (b : Bool) : (if b then (r₁.classNamed name).2
            else (r₁.classNamed name).2.report line (.headerNotIncluded header)).cursor = r.cursor := by
          split <;> exact hunnamed
        split at h
        · exact nomatch h
        · rename_i r₂ hrequired
          obtain ⟨-, rfl⟩ := Prod.mk.inj (Except.ok.inj h)
          have hrequiredCursor := (cursor_requireHeader hrequired).trans (hincluded _)
          split <;> exact hrequiredCursor

/-- The comment of a text, of which `after` stands behind the end, is processed inside its end: it has
a directive that says `t`, and `body` is left as its text. -/
structure Encloses (tree : FileTree) (s : State) (v after : List Char) (t : Tokens)
    (body : List Char) : Prop where
  /-- The body is a part of the comment, up to its end. -/
  part : body <:+ v
  /-- What is read of the directive does not depend on what stands behind the comment. -/
  tokens : ∀ x, Tokens.read? (skipGap (v ++ (closing.toList ++ x))) =
    some (t, body ++ (closing.toList ++ x))
  /-- What is read is entered, with the body as the text about it, and the next comment is the next
  one behind the end. -/
  entered : ∃ (nameLine : Nat) (c : Cursor),
    match t.enter tree s.reading.skipGap.line.1 nameLine { s.reading with cursor := c } with
    | .error (e, r) => scanComment tree s = (false, { reading := r, failure := some e })
    | .ok (binding, r) =>
      ∃ (textLine : Nat) (c : Cursor), c.rest = after ∧
        let found : Finding := { binding, textLine, text := String.ofList (trimLeft body) }
        let next := (settle s.reading.skipGap.line.1 found { r with cursor := c }).past opening
        next.cursor.rest = behindOpening after ∧
          scanComment tree s = (!next.atEnd, { reading := next, failure := none })

/-- **Comments end where they are closed.** -/
theorem scanComment_enclosed {v after : List Char} {s : State}
    (hrest : s.reading.cursor.rest = v ++ (closing.toList ++ after)) (hopen : StaysOpen v)
    (hclosed : ClosedOff v) {t : Tokens} {rest : List Char}
    (halone : Tokens.read? (skipGap (v ++ closing.toList)) = some (t, rest))
    (hend : t.isFunction = true → closing.toList <:+ rest) (tree : FileTree) :
    ∃ body, Encloses tree s v after t body := by
  have hskip (x : List Char) : skipGap (v ++ (closing.toList ++ x)) = skipGap v ++ ending x :=
    skipGap_ending x hclosed.comments
  have hsuffix : skipGap v <:+ v := List.drop_suffix _ _
  rw [show closing.toList = closing.toList ++ [] from rfl, hskip] at halone
  obtain ⟨body, hbody, htokens⟩ := Tokens.read?_ending (hclosed.drop (gap v)) halone hend
  have hbodyOpen : StaysOpen body := fun hoccurs => hopen (hoccurs.trans (hbody.trans hsuffix).isInfix)
  have hread : Tokens.read? s.reading.skipGap.line.2.cursor.rest =
      some (t, body ++ (closing.toList ++ after)) := by
    have hcursor : s.reading.skipGap.line.2.cursor.rest = skipGap s.reading.cursor.rest := rfl
    rw [hcursor, hrest, hskip]
    exact htokens after
  obtain ⟨nameLine, c, hc, hcomment⟩ :=
    readComment_tokens hread tree s.reading.skipGap.line.1
  refine ⟨body, hbody.trans hsuffix, fun x => hskip x ▸ htokens x, nameLine, c, ?_⟩
  change readComment tree _ _ = ((t.enter tree _ nameLine { s.reading with cursor := c }).map withBody)
    at hcomment
  cases hentered : t.enter tree s.reading.skipGap.line.1 nameLine { s.reading with cursor := c } with
  | error e =>
      rw [hentered] at hcomment
      dsimp only
      simp only [scanComment, hcomment, Except.map]
  | ok p =>
      obtain ⟨binding, r⟩ := p
      rw [hentered] at hcomment
      have hcursor := cursor_enter hentered
      have hleft : r.cursor.rest = body ++ (closing.toList ++ after) := by rw [hcursor, hc]
      obtain ⟨textLine, d, hd, htext⟩ := readBody_eq hbodyOpen hleft
      refine ⟨textLine, d, hd, ?_, ?_⟩
      · rw [rest_past_opening, cursor_settle, hd]
      · simp only [scanComment, hcomment, Except.map, withBody, htext]

private def barText : List Char :=
  " \\fn void Foo::bar( int a = 1 ) const\n  Bars.\n".toList

private def barBehind : List Char :=
  "\nvoid Foo::bar( int a ) const \x7b\x7d\n/*! \\chapter foo\n */\n".toList

private def barFile : Registry :=
  (empty.addFile
    { path := "foo.cpp", kind := .source,
      text := "/*!" ++ String.ofList barText ++ closing ++ String.ofList barBehind }).2

private def barState : State :=
  { reading := (Reading.begin barFile ⟨0⟩).past opening, failure := none }

/-- A directive with a signature that has a default value. -/
theorem encloses_bar :
    ∃ body, Encloses .empty barState barText barBehind
      (.function "void" "Foo::bar" "(int a)" true) body := by
  have hrest : barState.reading.cursor.rest = barText ++ (closing.toList ++ barBehind) := by
    decide +kernel
  have hclosed : ClosedOff barText := .of_no_occurrence (by decide +kernel) (by decide +kernel)
  have halone : Tokens.read? (skipGap (barText ++ closing.toList)) =
      some (.function "void" "Foo::bar" "(int a)" true, "\n  Bars.\n*/".toList) := by
    decide +kernel
  exact scanComment_enclosed hrest (.of_not_mem (by decide)) hclosed halone
    (fun _ => by decide +kernel) .empty

/-- A line comment, a default value and a type that is no signature run over the end: what stands
behind the comment becomes its text, or is skipped with the next comment. -/
example :
    (scanPair "" "/*! \\fn void Foo::bar() // note */\nvoid Foo::bar();\n").2.docs.map (·.text) =
        ["void Foo::bar();\n"] ∧
      (scanPair "" "/*! \\fn void Foo::bar( int a = 1 */\nint b(), c; /* d */").2.docs.map (·.text) =
        [", c; /* d "] ∧
      (scanPair "" "/*! \\fn Foo::bar */\n/*! \\fn void Foo::baz()\n  Bazzes.\n*/").2.docs = [] := by
  decide +kernel

end CppDoc.Comment
