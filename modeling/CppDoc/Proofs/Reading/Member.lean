import CppDoc.Header
import CppDoc.Proofs.Reading.Steps
import CppDoc.Proofs.Syntax.Declaration

/-!
# Members in headers

What the reader of a class body enters for a declaration of a member: the function with the name of
the member behind that of its class, its parameters, and `const` if the word follows them.

* `writtenConst`: whether the word `const` is taken for a part of a declaration, and `afterConst`:
  what is left behind it;
* `scanMember_inClass`: a member is declared.
-/

namespace CppDoc.Header

open CppDoc.Syntax CppDoc.Text

/-! ## The word `const` -/

/-- Does the word `const` follow the parameters? -/
def writtenConst (s : List Char) : Bool :=
  "const".toList.isPrefixOf (skipGap s)

/-- What is left of a text behind the parameters and the word `const`. -/
def afterConst (s : List Char) : List Char :=
  if writtenConst s then (skipGap s).drop (readWord (skipGap s)).2 else skipGap s

theorem readConst_skipGap (r : Reading) :
    ∃ c : Cursor, c.rest = afterConst r.cursor.rest ∧
      readConst r.skipGap = (writtenConst r.cursor.rest, { r with cursor := c }) := by
  have hlooking : r.skipGap.lookingAt "const" = writtenConst r.cursor.rest := rfl
  rw [readConst, hlooking, afterConst]
  cases writtenConst r.cursor.rest with
  | true => exact ⟨(r.skipGap.read readWord).2.cursor, rfl, rfl⟩
  | false => exact ⟨r.skipGap.cursor, rfl, rfl⟩

/-- The word `const` is a word of its own if white space follows it. -/
theorem readWord_const {s : List Char} (hs : s.head?.any isSpace = true) :
    readWord ("const".toList ++ s) = ("const", 5) := by
  obtain ⟨c, rest, rfl⟩ : ∃ c rest, s = c :: rest := by
    cases s with
    | nil => exact nomatch hs
    | cons c rest => exact ⟨c, rest, rfl⟩
  have hc : isSpace c = true := hs
  have hname : isNameChar c = false := by
    rw [Bool.eq_false_iff]
    intro hname
    exact nomatch (isSpace_eq_false_of_isNameChar hname).symm.trans hc
  have hhyphen : c ≠ '-' := by
    rintro rfl
    exact nomatch hc
  have hword : Identifier "const".toList := ⟨rfl, rfl, by decide⟩
  exact readWord_identifier (b := []) (x := c :: rest) rfl hword hname (hyphenated_cons hhyphen rest)

private theorem skipGap_const {blanks : List Char} (hblanks : blanks.all isBlank = true)
    (s : List Char) : skipGap (blanks ++ ("const".toList ++ s)) = "const".toList ++ s := by
  have hgap : gap ("const".toList ++ s) = 0 := gap_eq_zero_of_isNameStart rfl
  rw [skipGap, gap_blanks_append hblanks, hgap, Nat.add_zero, List.drop_left]

/-- What begins with `const` is taken for the word. -/
theorem writtenConst_of_const {blanks : List Char} (hblanks : blanks.all isBlank = true)
    (s : List Char) : writtenConst (blanks ++ ("const".toList ++ s)) = true := by
  rw [writtenConst, skipGap_const hblanks, List.isPrefixOf_iff_prefix]
  exact List.prefix_append _ _

/-- The word `const` behind blanks. -/
theorem afterConst_of_const {blanks s : List Char} (hblanks : blanks.all isBlank = true)
    (hs : s.head?.any isSpace = true) :
    writtenConst (blanks ++ ("const".toList ++ s)) = true ∧
      afterConst (blanks ++ ("const".toList ++ s)) = s := by
  have hconst := writtenConst_of_const hblanks s
  refine ⟨hconst, ?_⟩
  rw [afterConst, hconst, if_pos rfl, skipGap_const hblanks, readWord_const hs]
  rfl

/-- Anything else behind blanks. -/
theorem afterConst_of_not_const {blanks s : List Char} (hblanks : blanks.all isBlank = true)
    (hgap : gap s = 0) (hs : ¬ "const".toList <+: s) :
    writtenConst (blanks ++ s) = false ∧ afterConst (blanks ++ s) = s := by
  have hskip : skipGap (blanks ++ s) = s := by
    rw [skipGap, gap_blanks_append hblanks, hgap, Nat.add_zero, List.drop_left]
  have hconst : writtenConst (blanks ++ s) = false := by
    rw [writtenConst, hskip, Bool.eq_false_iff, ne_eq, List.isPrefixOf_iff_prefix]
    exact hs
  refine ⟨hconst, ?_⟩
  rw [afterConst, hconst, hskip]
  rfl

/-! ## Keywords at the front -/

/-- No keyword with a space behind it is an identifier with a parenthesis behind it. -/
theorem not_keyword_identifier {w c : List Char} (hw : w.all isNameChar = true)
    (hc : Identifier c) (t : List Char) : ¬ w ++ [' '] <+: c ++ '(' :: t := by
  rintro ⟨v, hv⟩
  have hrun (a : List Char) (d : Char) (x : List Char) (ha : a.all isNameChar = true)
      (hd : isNameChar d = false) : (a ++ d :: x).takeWhile isNameChar = a := by
    have hx : (d :: x).head?.any isNameChar = false := hd
    rw [takeWhile_append_of_boundary fun _ => hx, takeWhile_eq_self ha]
  rw [List.append_assoc, List.singleton_append] at hv
  have hword := congrArg (List.takeWhile isNameChar) hv
  rw [hrun w ' ' v hw rfl, hrun c '(' t hc.chars rfl] at hword
  subst hword
  have htail := List.append_cancel_left hv
  exact absurd (List.cons.inj htail).1 (by decide)

/-- A member that declares a function does not begin with a keyword of another kind of member. -/
theorem not_keyword_inClass {p : ScopePath} {d : Declaration} (h : IsMember p d) {w : List Char}
    (hw : w ∈ operatorKeyword :: memberKeywords) (t : List Char) :
    ¬ w ++ [' '] <+: d.inClass ++ t := by
  have hchars : ∀ w ∈ operatorKeyword :: memberKeywords, w.all isNameChar = true := by decide
  have hreturns {R x y : List Char} (hR : ReturnType R x)
      (hkeywords : ∀ w ∈ memberKeywords, ¬ w <+: R) : ¬ w ++ [' '] <+: R ++ y := by
    apply hR.not_begins (hchars w hw)
    rcases List.mem_cons.mp hw with rfl | hmem
    · exact hR.plain.operators.not_begins
    · exact hkeywords w hmem
  rw [d.inClass_append]
  cases h with
  | ordinary _ hR hkeywords => exact hreturns hR hkeywords
  | operator _ _ hR hkeywords => exact hreturns hR hkeywords
  | constructor => exact not_keyword_identifier (hchars w hw) p.identifier_first _
  | destructor =>
      rintro ⟨v, hv⟩
      have hhead := congrArg List.head? hv
      have hno : ∀ w ∈ operatorKeyword :: memberKeywords, w.head? ≠ some '~' ∧ w ≠ [] := by decide
      obtain ⟨c, rest, rfl⟩ := List.exists_cons_of_ne_nil (hno w hw).2
      exact (hno _ hw).1 (by simpa using hhead)

/-! ## Names of members -/

/-- What a reader gives, and where it leaves the cursor. -/
theorem read_eq {α : Type} {r : Reading} {reader : List Char → α × Nat} {value : α} {n : Nat}
    (h : reader r.cursor.rest = (value, n)) :
    r.read reader = (value, { r with cursor := r.cursor.skip n }) := by
  simp only [Reading.read, Cursor.read, h]

theorem isEmpty_ofList {s : List Char} (h : s ≠ []) : (String.ofList s).isEmpty = false := by
  rw [String.isEmpty_eq_false_iff]
  intro hempty
  exact h (String.ofList_injective hempty)

/-- A name behind a return type. -/
private theorem readMemberName_of_returns {r : Reading} {R m t : List Char}
    (htext : r.cursor.rest = R ++ (m ++ t)) (htype : typeLength (R ++ (m ++ t)) = R.length)
    (hname : readName (m ++ t) = (String.ofList m, m.length)) (hne : m ≠ []) (className : String) :
    ∃ (type : String) (c : Cursor), c.rest = t ∧
      readMemberName className r = (type, String.ofList m, { r with cursor := c }) := by
  have htype' : readType r.cursor.rest = (String.ofList (cleanType R), R.length) := by
    simp only [htext, readType, htype, List.take_left]
  have hbehind : (r.cursor.skip R.length).rest = m ++ t := by
    rw [Cursor.skip, htext, List.drop_left]
  have hname' : readName (r.cursor.skip R.length).rest = (String.ofList m, m.length) := by
    rw [hbehind, hname]
  refine ⟨String.ofList (cleanType R), (r.cursor.skip R.length).skip m.length, ?_, ?_⟩
  · rw [Cursor.skip, hbehind, List.drop_left]
  · have hread := read_eq (r := { r with cursor := r.cursor.skip R.length }) hname'
    simp only [readMemberName, read_eq htype', hread, isEmpty_ofList hne]
    rfl

/-- A constructor, whose name has been taken for a type. -/
private theorem readMemberName_constructor {r : Reading} {c t : List Char} (hc : Identifier c)
    (hfresh : Unmodified c) (htext : r.cursor.rest = c ++ '(' :: t) :
    ∃ (type : String) (c' : Cursor), c'.rest = '(' :: t ∧
      readMemberName (String.ofList c) r = (type, String.ofList c, { r with cursor := c' }) := by
  have htype : readType r.cursor.rest = (String.ofList c, c.length) := by
    rw [htext]
    exact readType_of_solid hc.solid (typeLength_identifier hc hfresh t)
  have hbehind : (r.cursor.skip c.length).rest = '(' :: t := by
    rw [Cursor.skip, htext, List.drop_left]
  have hname : readName (r.cursor.skip c.length).rest = ("", 0) := by
    rw [hbehind, readName_parenthesis]
  refine ⟨"", (r.cursor.skip c.length).skip 0, hbehind, ?_⟩
  have hread := read_eq (r := { r with cursor := r.cursor.skip c.length }) hname
  simp only [readMemberName, read_eq htype, hread]
  simp

/-- A destructor, whose mark is no part of a name. -/
private theorem readMemberName_destructor {r : Reading} {c t : List Char} (hc : Identifier c)
    (htext : r.cursor.rest = '~' :: (c ++ '(' :: t)) {className : String} (hclass : className ≠ "") :
    ∃ (type : String) (c' : Cursor), c'.rest = '(' :: t ∧
      readMemberName className r = (type, String.ofList ('~' :: c), { r with cursor := c' }) := by
  have htype : readType r.cursor.rest = ("", 0) := by rw [htext, readType_tilde]
  have hname : readName (r.cursor.skip 0).rest = ("", 0) := by
    rw [Cursor.skip, htext]
    exact readName_tilde _
  have hinner : readName ((((r.cursor.skip 0).skip 0).skip 1)).rest = (String.ofList c, c.length) := by
    rw [Cursor.skip, Cursor.skip, Cursor.skip, htext]
    exact readName_of_solid hc.solid (qualifiedName_identifier hc t)
  have hread := read_eq (r := { r with cursor := r.cursor.skip 0 }) hname
  have hread' := read_eq (r := { r with cursor := ((r.cursor.skip 0).skip 0).skip 1 }) hinner
  refine ⟨"", (((r.cursor.skip 0).skip 0).skip 1).skip c.length, ?_, ?_⟩
  · rw [Cursor.skip, Cursor.skip, Cursor.skip, Cursor.skip, htext]
    exact List.drop_left
  · have hstep : ((r.cursor.skip 0).skip 0).step = ((r.cursor.skip 0).skip 0).skip 1 := by
      simp [Cursor.step, Cursor.skip, htext]
    have hlooking : ((r.cursor.skip 0).skip 0).lookingAt "~" = true := by
      simp [Cursor.lookingAt, Cursor.skip, htext]
    have hne : ¬ ("" = className ∨ "" = "~" ++ className) := by
      rintro (heq | heq)
      · exact hclass heq.symm
      · have := congrArg String.toList heq
        simp at this
    simp only [readMemberName, read_eq htype, hread, Reading.lookingAt, Reading.step, Reading.move,
      hlooking, hstep, hread']
    rw [if_neg (by decide), if_neg (by simpa only [Bool.or_eq_true, decide_eq_true_eq] using hne),
      if_pos (by decide)]
    have hmark : "~" ++ String.ofList c = String.ofList ('~' :: c) := by
      apply String.ext
      simp
    rw [hmark]

/-- **The name of a member** is read up to the parenthesis of its parameters. -/
theorem readMemberName_inClass {p : ScopePath} {d : Declaration} (h : IsMember p d) {r : Reading}
    {t : List Char} (htext : r.cursor.rest = d.inClass ++ t) :
    ∃ (type : String) (c : Cursor), c.rest = '(' :: (d.arguments ++ ')' :: t) ∧
      readMemberName (String.ofList p.text) r =
        (type, String.ofList d.name, { r with cursor := c }) := by
  rw [d.inClass_append] at htext
  cases h with
  | @ordinary R n A hn hR =>
      have htype := hR.typeLength_append hn.start (hn.append_start ('(' :: (A ++ ')' :: t)))
      have hname := readName_of_solid hn.solid (qualifiedName_identifier hn (A ++ ')' :: t))
      exact readMemberName_of_returns htext htype hname hn.ne_nil _
  | @operator R symbol A hsymbol _ hR =>
      have hstart (x : List Char) : (operatorKeyword ++ symbol ++ x).head?.any isNameStart = true := by
        rw [List.append_assoc, List.head?_append]
        rfl
      have hsolid := (MemberName.operator hsymbol).solid
      have htype := hR.typeLength_append (by simpa using hstart []) (hstart ('(' :: (A ++ ')' :: t)))
      have hname := readName_of_solid hsolid (qualifiedName_operator hsymbol (A ++ ')' :: t))
      exact readMemberName_of_returns htext htype hname (by simp [hsymbol.ne_nil]) _
  | constructor hinner hfirst =>
      have hpath : p.text = p.first := by simp [ScopePath.text, hinner, chain]
      rw [hpath]
      exact readMemberName_constructor p.identifier_first hfirst htext
  | destructor hc =>
      have hclass : String.ofList p.text ≠ "" := fun hempty =>
        p.text_ne_nil (String.ofList_injective hempty)
      exact readMemberName_destructor hc htext hclass

/-! ## Members -/

/-- The step of the loop over labels. -/
def skipLabel (r : Reading) : Bool × Reading :=
  if r.lookingAt "public:" || r.lookingAt "private:" || r.lookingAt "protected:" then
    (true, (r.past ":").skipGap)
  else (false, r)

theorem registry_skipToMember (r : Reading) : (skipToMember r).registry = r.registry := by
  have hlabels : (skipLabels r).registry = r.registry := by
    refine iterate_induction (P := fun s : Reading => s.registry = r.registry) (fun s hs => ?_) rfl
    split <;> exact hs
  simp only [skipToMember, Reading.skipGap, Reading.move]
  split <;> exact hlabels

theorem registry_skipMemberTail (r : Reading) : (skipMemberTail r).registry = r.registry := by
  simp only [skipMemberTail]
  split
  · split <;> rfl
  · rfl

/-- What follows the name of a member declares it. -/
theorem scanDeclarator_parameters {p : ScopePath} {m arguments t : List Char} {r : Reading}
    (hm : ':' ∉ m) (harguments : ArgumentList arguments)
    (htext : r.cursor.rest = '(' :: (arguments ++ ')' :: t)) (returnType : String) (line : Nat) :
    ∃ c : Cursor,
      scanDeclarator (String.ofList p.text) returnType (String.ofList m) line r =
        (true, (({ r with cursor := c } : Reading).declare returnType (String.ofList (p.member m))
          (parametersOf arguments) (writtenConst t) line).2) := by
  have hgap : r.skipGap.cursor.rest = '(' :: (arguments ++ ')' :: t) := by
    change r.cursor.rest.drop (gap r.cursor.rest) = _
    rw [htext, gap_parenthesis, List.drop_zero]
  have hread : readParameters r.skipGap.cursor.rest =
      (parametersOf arguments, arguments.length + 2) := by
    rw [hgap, harguments.readParameters_append]
  have hbehind : (r.skipGap.cursor.skip (arguments.length + 2)).rest = t := by
    rw [Cursor.skip, hgap, List.drop_succ_cons, ← List.drop_drop, List.drop_left]
    rfl
  obtain ⟨c, -, hconst⟩ :=
    readConst_skipGap { r.skipGap with cursor := r.skipGap.cursor.skip (arguments.length + 2) }
  rw [hbehind] at hconst
  have hcolon : (String.ofList m).toList.contains ':' = false := by
    rw [String.toList_ofList, List.contains_eq_mem]
    exact decide_eq_false hm
  have hsome : (parametersOf arguments).isEmpty = false := by
    rw [String.isEmpty_eq_false_iff]
    exact harguments.readable
  have hname : String.ofList p.text ++ "::" ++ String.ofList m = String.ofList (p.member m) := by
    apply String.ext
    simp [ScopePath.member_eq]
  refine ⟨c, ?_⟩
  simp only [scanDeclarator, read_eq hread, hconst, hcolon, hsome, hname, Bool.or_self]
  rfl

/-- **Members.**  What the class body of `p` has for a declaration of a member is declared. -/
theorem scanMember_inClass {p : ScopePath} {d : Declaration} (h : IsMember p d) {r : Reading}
    {t : List Char} (htext : (skipToMember r).cursor.rest = d.inClass ++ t) :
    ∃ (returnType : String) (origin : Location),
      (scanMember (String.ofList p.text) r).2.registry =
        (r.registry.declare returnType (d.qualifiedName p) d.parameters (writtenConst t) origin).2 := by
  have hkeyword (w : List Char) (hw : w ∈ operatorKeyword :: memberKeywords) :
      ¬ (w ++ [' ']).isPrefixOf (skipToMember r).line.2.cursor.rest = true := by
    change ¬ (w ++ [' ']).isPrefixOf (skipToMember r).cursor.rest = true
    rw [List.isPrefixOf_iff_prefix, htext]
    exact not_keyword_inClass h hw t
  have hoperator : ¬ (skipToMember r).line.2.lookingAt "operator " = true :=
    hkeyword operatorKeyword (by decide)
  have henum : ¬ (skipToMember r).line.2.lookingAt "enum " = true :=
    hkeyword "enum".toList (by decide)
  have htypedef : ¬ (skipToMember r).line.2.lookingAt "typedef " = true :=
    hkeyword "typedef".toList (by decide)
  obtain ⟨type, c, hc, hname⟩ := readMemberName_inClass h (r := (skipToMember r).line.2) htext
  obtain ⟨c', hdeclared⟩ := scanDeclarator_parameters (p := p)
    (r := { (skipToMember r).line.2 with cursor := c }) h.colon_not_mem h.isReadable.arguments hc type
    (skipToMember r).line.1
  have hne := isEmpty_ofList h.isReadable.name.ne_nil
  refine ⟨type, ⟨(skipToMember r).file, (skipToMember r).line.1⟩, ?_⟩
  simp only [scanMember]
  rw [if_neg hoperator, if_neg henum, if_neg htypedef]
  simp only [hname, hne, hdeclared]
  simp only [Bool.false_eq_true, if_false, if_true, registry_skipMemberTail]
  rw [← registry_skipToMember r]
  rfl

end CppDoc.Header
