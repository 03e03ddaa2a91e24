import CppDoc.Markup.ReadAt
import CppDoc.Proofs.Syntax.OffsetReaders

/-!
# Documentation read at offsets

The reader of documentation that looks at bytes and cuts its text between offsets always has an answer,
and it is that of the reader of characters.

* `trimCodeAt?_eq`, `properAt?_eq`, `resolveAt?_eq` and `firstClassAt?_eq`: looking into code, words and
  signatures;
* `numberAt?_eq`, `takeBlockAt?_eq` and `takeCodeAt?_eq`: what words take;
* `readWordAt?_eq`: words.
-/

namespace CppDoc.Markup

open CppDoc.Syntax CppDoc.Text

/-! ## Cuts at the ends of a text -/

section Cuts

variable {s : List Char} {x : Char}

theorem cut?_take (s : List Char) (n : Nat) : cut? s 0 (byteLength (s.take n)) = some (s.take n) := by
  refine cut?_eq_some_iff.mpr ⟨[], s.drop n, ?_, rfl, Nat.zero_add _⟩
  rw [List.nil_append, List.take_append_drop]

theorem cut?_behind (before after : List Char) :
    cut? (before ++ after) (byteLength before) (byteLength (before ++ after)) = some after := by
  refine cut?_eq_some_iff.mpr ⟨before, [], ?_, rfl, (byteLength_append _ _).symm⟩
  rw [List.append_nil]

/-- The first place of a character. -/
theorem find?_single (x : Char) (s : List Char) :
    find? [x] s = if x ∈ s then some (s.takeWhile (· != x)).length else none := by
  induction s with
  | nil => rfl
  | cons y s ih =>
      rw [find?, ih]
      by_cases hxy : x = y
      · subst hxy
        simp
      · have hyx : (y != x) = true := by simpa using Ne.symm hxy
        have hmem : x ∈ y :: s ↔ x ∈ s := by simp [hxy]
        simp only [List.takeWhile_cons_of_pos (p := (· != x)) hyx, List.length_cons, hmem]
        by_cases hs : x ∈ s <;> simp [hs, hxy]

end Cuts

/-! ## In code and in words -/

/-- A text is cut at the first place of a character. -/
theorem exists_split_first {x : Char} {s : List Char} (hx : x ∈ s) :
    ∃ rest, s = s.takeWhile (· != x) ++ x :: rest := by
  have hsplit : s.takeWhile (· != x) ++ s.dropWhile (· != x) = s := List.takeWhile_append_dropWhile
  cases hdrop : s.dropWhile (· != x) with
  | nil =>
      rw [hdrop, List.append_nil] at hsplit
      rw [← hsplit] at hx
      simpa using List.all_eq_true.mp List.all_takeWhile x hx
  | cons y rest =>
      have hhead := List.head?_dropWhile_not (· != x) s
      rw [hdrop] at hhead hsplit
      obtain rfl : y = x := by simpa using hhead
      exact ⟨rest, hsplit.symm⟩

/-- Code is cut behind its first line only where that line ends. -/
theorem trimCodeAt?_eq (code : List Char) : trimCodeAt? code = some (trimCode code) := by
  rw [trimCodeAt?, find?_single, trimCode]
  by_cases hfeed : '\n' ∈ code
  · obtain ⟨rest, hrest⟩ := exists_split_first hfeed
    generalize hline : code.takeWhile (· != '\n') = line at hrest
    have htake : code.take line.length = line := by rw [hrest, List.take_left]
    have hdrop : code.drop (line.length + 1) = rest := by
      rw [hrest, List.drop_length_add_append]
      rfl
    have hfirst := cut?_take code line.length
    have hbehind : cut? code (byteLength line + 1) (byteLength code) = some rest := by
      have hcut := cut?_behind (line ++ ['\n']) rest
      rw [byteLength_append, List.append_assoc, List.singleton_append, ← hrest] at hcut
      exact hcut
    have hshort : line.length < code.length := by
      rw [hrest, List.length_append, List.length_cons]
      omega
    rw [htake] at hfirst
    rw [if_pos hfeed]
    dsimp only
    rw [htake, hfirst, Option.bind_some, hbehind, hdrop, decide_eq_true hshort,
      Bool.true_and]
    split <;> rfl
  · have hopen : code.all (· != '\n') = true :=
      List.all_eq_true.mpr fun x hx => bne_iff_ne.mpr fun h => hfeed (h ▸ hx)
    rw [if_neg hfeed, takeWhile_eq_self hopen]
    simp

theorem properAt?_eq (w : List Char) : properAt? w = some (proper w) := by
  unfold properAt? proper
  cases htrim : trimRightIf isTrailing w with
  | nil =>
      cases w with
      | nil => rfl
      | cons x w =>
          have hcut := cut?_take (x :: w) 1
          rwa [List.take_succ_cons, List.take_zero, byteLength, byteLength, Nat.add_zero] at hcut
  | cons x p => rfl

theorem proper_ne_nil {w : List Char} (hw : w ≠ []) : proper w ≠ [] := by
  unfold proper
  split
  · simpa using hw
  · assumption

/-- The first byte of a text that is not empty tells of what class its first character is. -/
theorem exists_letterAt? {s : List Char} (hs : s ≠ []) {p : Char → Bool} (hp : Ascii p) :
    ∃ x, letterAt? s 0 = some x ∧ p x = s.head?.any p := by
  have hany := letterAt?_any hp s 0
  obtain ⟨y, rest, rfl⟩ := List.exists_cons_of_ne_nil hs
  obtain ⟨b, -, hb⟩ := letterAt?_cons rest y.utf8Size_pos
  rw [hb] at hany
  exact ⟨Char.ofUInt8 b, hb, hany⟩

theorem callNameAt?_eq {p : List Char} (hp : p.getLast? = some '(') :
    callNameAt? p = some (callName? p) := by
  have hmem : '(' ∈ p := List.mem_of_getLast? hp
  have hcut := cut?_take p (p.takeWhile (· != '(')).length
  obtain ⟨x, hx, halpha⟩ := exists_letterAt? (List.ne_nil_of_mem hmem) ascii_isAlpha
  obtain ⟨rest, hrest⟩ := exists_split_first hmem
  rw [callNameAt?, find?_single, if_pos hmem, Option.elim_some, callName?, hp, hx]
  rw [take_length_takeWhile] at hcut ⊢
  generalize p.takeWhile (· != '(') = name at *
  cases name with
  | nil => rfl
  | cons y name =>
      have hne : byteLength (y :: name) ≠ 0 := mt byteLength_eq_zero_iff.mp (List.cons_ne_nil y name)
      have hhead : p.head? = some y := by rw [hrest]; rfl
      rw [hhead, Option.any_some] at halpha
      rw [if_neg hne, Option.bind_some, halpha, hcut, List.head?_cons, Option.any_some]
      cases y.isAlpha <;> rfl

theorem resolveAt?_eq (reg : Registry) (subject : Subject) {w : List Char} (hw : w ≠ []) :
    resolveAt? reg subject w = some (resolve reg subject w) := by
  rw [resolveAt?, properAt?_eq, Option.bind_some, resolve]
  by_cases hcall : (proper w).getLast? = some '('
  · have hends : ((proper w).getLast? == some '(') = true := beq_iff_eq.mpr hcall
    rw [if_pos hends, if_pos hends, callNameAt?_eq hcall]
    cases callName? (proper w) <;> rfl
  · have hends : ¬ ((proper w).getLast? == some '(') = true := by simpa using hcall
    obtain ⟨x, hx, hupper⟩ := exists_letterAt? (proper_ne_nil hw) ascii_isUpper
    rw [if_neg hends, if_neg hends, hx, Option.map_some, hupper]

/-! ## In a signature -/

section FirstClass

variable {reg : Registry} {s : List Char} {offset n : Nat}

/-- Behind the end of a text there are no bytes. -/
theorem letterAt?_past_end (h : ¬ (letterAt? s offset).any (fun _ => true) = true) :
    ¬ (letterAt? s (offset + 1)).any (fun _ => true) = true := by
  intro hnext
  have hlt := lt_byteLength_of_letterAt? hnext
  have hbyte : letterAt? s offset ≠ none := by
    rw [letterAt?, byteAt?_eq, ne_eq, Option.map_eq_none_iff, List.getElem?_eq_none_iff, length_utf8]
    omega
  obtain ⟨b, hb⟩ := Option.ne_none_iff_exists'.mp hbyte
  rw [hb] at h
  exact h rfl

/-- From a byte that is no capital letter, the search goes on. -/
theorem firstClassAt?_succ (h : ¬ (letterAt? s offset).any Char.isUpper = true) :
    firstClassAt? reg s (offset + 1) = firstClassAt? reg s offset := by
  rw [firstClassAt?.eq_def reg s offset]
  by_cases hletter : (letterAt? s offset).any (fun _ => true) = true
  · rw [dif_pos hletter, if_neg h]
  · rw [dif_neg hletter, firstClassAt?, dif_neg (letterAt?_past_end hletter)]

/-- The search goes over the bytes of a character that is no capital letter. -/
theorem firstClassAt?_behind {x : Char} (hx : ¬ x.isUpper = true) (before rest : List Char) :
    firstClassAt? reg (before ++ x :: rest) (byteLength before) =
      firstClassAt? reg (before ++ x :: rest) (byteLength (before ++ [x])) := by
  have hlength : byteLength (before ++ [x]) = byteLength before + x.utf8Size := by
    rw [byteLength_append, byteLength, byteLength, Nat.add_zero]
  rw [hlength]
  have hbytes (i : Nat) (hi : i < x.utf8Size) :
      ¬ (letterAt? (before ++ x :: rest) (byteLength before + i)).any Char.isUpper = true := by
    rw [letterAt?_append]
    obtain ⟨b, hb, hletter⟩ := letterAt?_cons rest hi
    rw [hletter, Option.any_some]
    rcases ofUInt8_cases hb with ⟨-, hsame⟩ | ⟨-, hlarge⟩
    · rwa [hsame]
    · exact fun hupper => absurd (ascii_isUpper _ hupper) (by omega)
  have hgo (n : Nat) (hn : n ≤ x.utf8Size) :
      firstClassAt? reg (before ++ x :: rest) (byteLength before) =
        firstClassAt? reg (before ++ x :: rest) (byteLength before + n) := by
    induction n with
    | zero => rfl
    | succ n ih =>
        rw [ih (by omega), ← Nat.add_assoc]
        exact (firstClassAt?_succ (hbytes n hn)).symm
  exact hgo _ (Nat.le_refl _)

/-- A candidate is cut out whole. -/
theorem firstClassAt?_capital {x : Char} (hx : x.isUpper = true) (before rest : List Char) :
    firstClassAt? reg (before ++ x :: rest) (byteLength before) =
      match reg.findClass? (String.ofList (x :: rest.takeWhile Char.isAlphanum)) with
      | some id => some (some id)
      | none =>
        firstClassAt? reg (before ++ x :: rest)
          (byteLength (before ++ x :: rest.takeWhile Char.isAlphanum)) := by
  have hupper : (letterAt? (before ++ x :: rest) (byteLength before)).any Char.isUpper = true := by
    rwa [letterAt?_any ascii_isUpper, fromOffset_append, List.head?_cons, Option.any_some]
  have hletter : (letterAt? (before ++ x :: rest) (byteLength before)).any (fun _ => true) = true := by
    obtain ⟨b, hb, -⟩ := (Option.any_eq_true _ _).mp hupper
    rw [hb, Option.any_some]
  have hword : (x :: rest).takeWhile Char.isAlphanum = x :: rest.takeWhile Char.isAlphanum :=
    List.takeWhile_cons_of_pos (isAlphanum_of_isUpper hx)
  have hstop := runEnd_append ascii_isAlphanum before (x :: rest)
  have hcut := cut?_takeWhile Char.isAlphanum before (x :: rest)
  rw [hword] at hstop hcut
  -- Behind the candidate stands no letter, so that the next byte may be passed over.
  have hbehind : ¬ (letterAt? (before ++ x :: rest)
      (byteLength (before ++ x :: rest.takeWhile Char.isAlphanum))).any Char.isUpper = true := by
    have hend := letterAt?_behind_run ascii_isAlphanum before (x :: rest)
    rw [hword] at hend
    intro hupper
    obtain ⟨b, hb, hupper⟩ := (Option.any_eq_true _ _).mp hupper
    rw [hb, Option.any_some] at hend
    exact hend (isAlphanum_of_isUpper hupper)
  rw [firstClassAt?.eq_def, dif_pos hletter, if_pos hupper]
  dsimp only
  rw [hstop, hcut, firstClassAt?_succ hbehind]
  refine (Option.bind_some _ _).trans ?_
  cases reg.findClass? (String.ofList (x :: rest.takeWhile Char.isAlphanum)) <;> rfl

/-- **The first class** that is named is found. -/
theorem firstClassAt?_eq (reg : Registry) (before after : List Char) :
    firstClassAt? reg (before ++ after) (byteLength before) = some (firstClass? reg after) := by
  induction after using firstClass?.induct reg generalizing before with
  | case1 =>
      have hletter : letterAt? (before ++ []) (byteLength before) = none := letterAt?_append before [] 0
      rw [firstClassAt?, hletter, firstClass?]
      rfl
  | case2 x rest hx id hfound => rw [firstClassAt?_capital hx, hfound, firstClass?, if_pos hx, hfound]
  | case3 x rest hx hnone ih =>
      have hsplit : before ++ x :: rest =
          (before ++ x :: rest.takeWhile Char.isAlphanum) ++ rest.dropWhile Char.isAlphanum := by
        rw [List.append_assoc, List.cons_append, List.takeWhile_append_dropWhile]
      rw [firstClassAt?_capital hx, hnone, firstClass?, if_pos hx, hnone, ← ih, ← hsplit]
  | case4 x rest hx ih =>
      have hrest := ih (before ++ [x])
      rw [List.append_assoc, List.singleton_append] at hrest
      rw [firstClassAt?_behind hx, hrest, firstClass?, if_neg hx]

theorem signaturePieceAt?_eq (reg : Registry) (within : ClassId) (s : String) :
    signaturePieceAt? reg within s = some (signaturePiece reg within s) := by
  have hfirst := firstClassAt?_eq reg [] s.toList
  rw [List.nil_append, byteLength] at hfirst
  rw [signaturePieceAt?, hfirst, signaturePiece]
  cases firstClass? reg s.toList <;> rfl

end FirstClass

/-! ## Blocks -/

section Blocks

variable {text : List Char} {offset : Nat}

/-- A byte that begins no blank line is passed over. -/
theorem blockEndAt_succ (hin : (letterAt? text offset).any (fun _ => true) = true)
    (h : ¬ (letterAt? text offset = some '\n' ∧ blankLineFollowsAt text (offset + 1) = true)) :
    blockEndAt text (offset + 1) = blockEndAt text offset := by
  rw [blockEndAt.eq_def text offset, dif_pos hin, if_neg (by simpa using h)]

/-- The bytes of a character that is no line feed are passed over. -/
theorem blockEndAt_behind {x : Char} (hx : x ≠ '\n') (before rest : List Char) :
    blockEndAt (before ++ x :: rest) (byteLength before) =
      blockEndAt (before ++ x :: rest) (byteLength before + x.utf8Size) := by
  have hgo (n : Nat) (hn : n ≤ x.utf8Size) :
      blockEndAt (before ++ x :: rest) (byteLength before) =
        blockEndAt (before ++ x :: rest) (byteLength before + n) := by
    induction n with
    | zero => rfl
    | succ n ih =>
        have hletter := letterAt?_cons_ne_newline hx rest hn
        rw [← letterAt?_append before] at hletter
        obtain ⟨b, hb, hfeed⟩ := (Option.any_eq_true _ _).mp hletter
        have hin :
            (letterAt? (before ++ x :: rest) (byteLength before + n)).any (fun _ => true) = true := by
          rw [hb, Option.any_some]
        rw [ih (by omega), ← Nat.add_assoc]
        refine (blockEndAt_succ hin fun h => ?_).symm
        rw [hb] at h
        obtain rfl := Option.some.inj h.1
        exact absurd hfeed (by decide)
  exact hgo _ (Nat.le_refl _)

theorem blankLineFollowsAt_eq (before rest : List Char) :
    blankLineFollowsAt (before ++ rest) (byteLength before) = blankLineFollows rest := by
  have hblank : Ascii fun b => isBlank b && b != '\n' := fun x hx =>
    ascii_isBlank x (Bool.and_eq_true _ _ ▸ hx).1
  have hsplit : before ++ rest = (before ++ rest.takeWhile fun b => isBlank b && b != '\n') ++
      rest.dropWhile fun b => isBlank b && b != '\n' := by
    rw [List.append_assoc, List.takeWhile_append_dropWhile]
  rw [blankLineFollowsAt, runEnd_append hblank, blankLineFollows, Bool.eq_iff_iff, beq_iff_eq, beq_iff_eq,
    letterAt?_eq_some_iff (by decide), hsplit, fromOffset_append]

/-- **The end of a block** is that of its characters. -/
theorem blockEndAt_eq (before after : List Char) :
    blockEndAt (before ++ after) (byteLength before) =
      byteLength (before ++ after.take (blockLength after)) := by
  induction after generalizing before with
  | nil =>
      have hletter : letterAt? (before ++ []) (byteLength before) = none := letterAt?_append before [] 0
      rw [blockEndAt, hletter, dif_neg (by exact Bool.false_ne_true)]
      rfl
  | cons x rest ih =>
      have hlength : byteLength (before ++ [x]) = byteLength before + x.utf8Size := by
        rw [byteLength_append, byteLength, byteLength, Nat.add_zero]
      have hrest := ih (before ++ [x])
      simp only [hlength, List.append_assoc, List.singleton_append] at hrest
      rw [blockLength]
      by_cases hfeed : x = '\n'
      · subst hfeed
        have hletter : letterAt? (before ++ '\n' :: rest) (byteLength before) = some '\n' := by
          rw [letterAt?_eq_some_iff (by decide), fromOffset_append, List.head?_cons]
        have hblank := blankLineFollowsAt_eq (before ++ ['\n']) rest
        rw [hlength, List.append_assoc, List.singleton_append] at hblank
        by_cases hfollows : blankLineFollows rest = true
        · rw [blockEndAt, dif_pos (by rw [hletter]; rfl), if_pos, if_pos (by simp [hfollows]),
            List.take_zero, List.append_nil]
          rw [hletter]
          exact hblank.trans hfollows
        · rw [if_neg (by simp [hfollows]), List.take_succ_cons, ← hrest]
          refine (blockEndAt_succ (by rw [hletter]; rfl) fun h => hfollows ?_).symm
          exact hblank.symm.trans h.2
      · rw [blockEndAt_behind hfeed, hrest, if_neg (by simp [hfeed]), List.take_succ_cons]

end Blocks

/-! ## What words take -/

section Takes

variable {c : Cursor} (h : c.Stands)

include h

theorem takeBlockAt?_eq : takeBlockAt? c = some (c.read takeBlock) := by
  have hstop : blockEndAt c.text c.pos = offsetBehind c.text c.pos (blockLength c.rest) := by
    rw [h.offsetBehind_eq]
    obtain ⟨before, htext, hpos⟩ := h
    rw [htext, hpos, blockEndAt_eq, byteLength_append, ← hpos]
    rfl
  rw [takeBlockAt?, hstop, h.takeTo?_eq]
  rfl

theorem takeCodeAt?_eq : takeCodeAt? c = some (c.read takeCode) := by
  rw [takeCodeAt?, h.cutAt?_eq, Option.bind_some, Cursor.cutAt, Cursor.read, takeCode]
  cases hfind : find? "\\endcode".toList c.rest with
  | none =>
      have hfind : find? codeEnd c.rest = none := hfind
      dsimp only
      rw [trimCodeAt?_eq, hfind, h.toEnd_eq]
      rfl
  | some n =>
      have hfind : find? codeEnd c.rest = some n := hfind
      dsimp only
      rw [trimCodeAt?_eq, hfind]
      rfl

theorem numberAt?_eq :
    numberAt? c = some ((rfcNumber? c.rest).map Prod.fst,
      c.skip ((rfcNumber? c.rest).elim 0 Prod.snd)) := by
  have hspace : Ascii fun b => b == ' ' || b == '\n' := by
    intro x hx
    rcases Bool.or_eq_true_iff.mp hx with hx | hx
    all_goals
      obtain rfl := beq_iff_eq.mp hx
      decide
  rw [numberAt?, runEnd_eq hspace, runEnd_eq ascii_isDigit, fromOffset_offsetBehind,
    offsetBehind_offsetBehind, h.fromOffset_eq, h.cut?_eq, h.moveTo_eq, Option.map_some,
    take_length_takeWhile, rfcNumber?]
  dsimp only
  split
  · rfl
  · rfl

end Takes

/-! ## Words -/

section Words

variable {d : DocBlock} {w : List Char} {line n : Nat} {st : State}

theorem readArgument_eq (d : DocBlock) (w : List Char) (line : Nat) (st : State) :
    readArgument d w line st = mentionArgument d w (argumentName w) line st := rfl

theorem readReference_eq (d : DocBlock) (w : List Char) (line : Nat) (st : State) :
    readReference d w line st = addReference d w line st (resolve st.registry d.subject w) := by
  unfold readReference
  dsimp only
  split
  all_goals
    rename_i href
    rw [href]
    rfl

theorem argumentName_eq (w : List Char) :
    argumentName w =
      String.ofList (if (proper w).head? = some '*' then (proper w).tail else proper w) := by
  unfold argumentName
  split
  · rename_i hstar
    rw [hstar]
    rfl
  · rename_i hstar
    rw [if_neg]
    intro hhead
    obtain ⟨name, hname⟩ := List.head?_eq_some_iff.mp hhead
    exact hstar name hname

theorem readPlainAt?_eq (hw : w ≠ []) : readPlainAt? d w line st = some (readPlain d w line st) := by
  unfold readPlainAt? readPlain
  cases st.expecting with
  | classes => rfl
  | argument =>
      dsimp only
      rw [properAt?_eq, readArgument_eq, argumentName_eq]
      rfl
  | text =>
      dsimp only
      rw [resolveAt?_eq _ _ hw, readReference_eq]
      rfl

/-- The directives that take something from the text behind them. -/
def takingDirectives : List String :=
  ["\\code", "\\warning", "\\note", "\\section1", "\\section2", "\\section3"]

/-- To the other directives the text behind them makes no difference. -/
theorem readDirective_of_not_taking (hw : String.ofList w ∉ takingDirectives) (rest : List Char) :
    (readDirective d w rest line n st).taken = 0 ∧
      readDirective d w rest line n st = readDirective d w [] line n st := by
  unfold readDirective
  split
  case h_1 | h_2 | h_3 | h_10 => exact ⟨rfl, rfl⟩
  all_goals
    rename_i hdirective
    rw [hdirective] at hw
    exact absurd hw (by decide)

theorem readDirectiveAt?_eq {c : Cursor} (h : c.Stands) :
    readDirectiveAt? d w line n st c =
      some ((readDirective d w c.rest line n st).state, (readDirective d w c.rest line n st).drafts,
        c.skip (readDirective d w c.rest line n st).taken) := by
  unfold readDirectiveAt?
  dsimp only
  split
  case h_7 hcode hwarning hnote h1 h2 h3 =>
    have hw : String.ofList w ∉ takingDirectives := by
      simp only [takingDirectives, List.mem_cons, List.not_mem_nil, or_false, not_or]
      exact ⟨hcode, hwarning, hnote, h1, h2, h3⟩
    obtain ⟨htaken, hsame⟩ : (readDirective d w c.rest line n st).taken = 0 ∧
        readDirective d w c.rest line n st = readDirective d w [] line n st :=
      readDirective_of_not_taking hw c.rest
    rw [htaken, hsame, Cursor.skip_zero]
  all_goals
    rename_i hdirective
    obtain rfl := String.toList_ofList (l := w) ▸ congrArg String.toList hdirective
  case h_1 =>
    rw [takeCodeAt?_eq h]
    rfl
  case h_2 | h_3 =>
    rw [takeBlockAt?_eq h]
    rfl
  case h_4 =>
    have hlevel : sectionLevelAt? "\\section1".toList = some 1 := by decide
    rw [hlevel, Option.bind_some, takeBlockAt?_eq h]
    rfl
  case h_5 =>
    have hlevel : sectionLevelAt? "\\section2".toList = some 2 := by decide
    rw [hlevel, Option.bind_some, takeBlockAt?_eq h]
    rfl
  case h_6 =>
    have hlevel : sectionLevelAt? "\\section3".toList = some 3 := by decide
    rw [hlevel, Option.bind_some, takeBlockAt?_eq h]
    rfl

theorem readWordAt?_eq {c : Cursor} (h : c.Stands) (hw : w ≠ []) :
    readWordAt? d w line n st c =
      some ((readWord d w c.rest line n st).state, (readWord d w c.rest line n st).drafts,
        c.skip (readWord d w c.rest line n st).taken) := by
  unfold readWordAt? readWord
  dsimp only
  split
  · rw [numberAt?_eq h, Option.bind_some, readPlainAt?_eq hw]
    cases rfcNumber? c.rest <;> rfl
  split
  · rfl
  split
  · exact readDirectiveAt?_eq h
  · rw [readPlainAt?_eq hw]
    rfl

end Words

end CppDoc.Markup
