import CppDoc.Proofs.Reading.Boundaries

/-!
# Every loop consumes text

The loops over a file and over a documentation do not end because the text does, but because nothing is
recognised any more.  They end all the same: whatever is recognised takes at least one character off the
text, so that the guard of `iterate` never holds a loop back that asks for another turn.

* `Cursor.Forward`: going on over at least one character;
* `forward_scanMember`, `forward_scanEnumerator`, `forward_scanStatement`, `forward_scanComment` and
  `forward_turnAt?`: a turn of each loop that asks for another;
* `exists_end`: a loop whose turns take something off comes to a turn that asks for no other;
* `loops_consume`: the loops, and the scans that they are made of.
-/

namespace CppDoc

open CppDoc.Syntax CppDoc.Text

/-! ## Going forward -/

namespace Cursor

variable {a b c : Cursor} {pat : String}

theorem left_skip_le (c : Cursor) (n : Nat) : (c.skip n).left ≤ c.left := by
  simp only [left, rest_skip, List.length_drop]
  omega

/-- Moving over characters that are there takes them off. -/
theorem left_skip_lt {n : Nat} (h : c.rest.take n ≠ []) : (c.skip n).left < c.left := by
  have hlength := congrArg List.length (List.take_append_drop n c.rest)
  have htaken := List.length_pos_of_ne_nil h
  rw [List.length_append] at hlength
  simp only [left, rest_skip]
  omega

theorem left_toEnd (c : Cursor) : c.toEnd.left = 0 := rfl

theorem left_past_le (c : Cursor) (pat : String) : (c.past pat).left ≤ c.left := by
  unfold past
  obtain ⟨n, hn⟩ | hend := c.cutAt_eq pat
  · rw [hn]
    exact c.left_skip_le n
  · rw [hend, left_toEnd]
    exact Nat.zero_le _

theorem left_step_le (c : Cursor) : c.step.left ≤ c.left := by
  unfold step
  split
  · exact Nat.zero_le _
  · exact c.left_skip_le 1

theorem left_run_le (c : Cursor) (scan : Scan) : (scan.run c).2.left ≤ c.left := by
  cases scan with
  | step => exact c.left_step_le
  | scanTo pat | textUntil pat => exact c.left_past_le pat
  | pass pat =>
      rw [Scan.run]
      dsimp only
      split
      · exact c.left_skip_le _
      · exact Nat.le_refl _
  | line => exact Nat.le_refl _
  | skipGap | name | type | parameters | word | value | blanks | visible | number | block | code =>
      exact c.left_skip_le _

theorem Onward.left_le (h : a.Onward b) : b.left ≤ a.left := by
  obtain ⟨scans, rfl⟩ := h
  induction scans generalizing a with
  | nil => exact Nat.le_refl _
  | cons scan scans ih => exact Nat.le_trans ih (a.left_run_le scan)

/-- The cursor has gone on from `c` to `c'`, over at least one character. -/
structure Forward (c c' : Cursor) : Prop where
  onward : c.Onward c'
  left : c'.left < c.left

theorem Forward.trans_onward (hab : a.Forward b) (hbc : b.Onward c) : a.Forward c :=
  ⟨hab.onward.trans hbc, Nat.lt_of_le_of_lt hbc.left_le hab.left⟩

theorem Onward.trans_forward (hab : a.Onward b) (hbc : b.Forward c) : a.Forward c :=
  ⟨hab.trans hbc.onward, Nat.lt_of_lt_of_le hbc.left hab.left_le⟩

/-- On the text the offset of the cursor does not decrease. -/
theorem Onward.pos_le (h : a.Onward b) {before after : List Char} (ha : a.Between before after) :
    a.pos ≤ b.pos := by
  obtain ⟨passed, left, -, hb⟩ := h.within ha
  rw [ha.pos, hb.pos, byteLength_append]
  exact Nat.le_add_right _ _

/-- On the text the offset of the cursor increases. -/
theorem Forward.pos_lt (h : a.Forward b) {before after : List Char} (ha : a.Between before after) :
    a.pos < b.pos := by
  obtain ⟨passed, left, rfl, hb⟩ := h.onward.within ha
  have hne : byteLength passed ≠ 0 := by
    intro hzero
    have hleft := h.left
    rw [byteLength_eq_zero_iff.mp hzero] at ha
    simp only [Cursor.left, ha.rest, hb.rest, List.nil_append] at hleft
    exact Nat.lt_irrefl _ hleft
  rw [ha.pos, hb.pos, byteLength_append]
  omega

theorem forward_step (h : c.rest ≠ []) : c.Forward c.step := by
  refine ⟨c.onward_run .step, ?_⟩
  rw [step_eq h]
  apply left_skip_lt
  simpa using h

/-- The next `pat`, or the end, is behind a cursor that is not at the end. -/
theorem forward_past (hpat : pat.toList ≠ []) (h : c.rest ≠ []) : c.Forward (c.past pat) := by
  refine ⟨c.onward_run (.scanTo pat), ?_⟩
  unfold past cutAt
  split
  · apply left_skip_lt
    rw [ne_eq, List.take_eq_nil_iff, not_or]
    have := List.length_pos_of_ne_nil hpat
    exact ⟨by omega, h⟩
  · exact List.length_pos_of_ne_nil h

/-- Behind a `pat` that is found there is more of the text, or nothing was left. -/
theorem forward_past_of_more (hpat : pat.toList ≠ []) (h : (c.past pat).atEnd = false) :
    c.Forward (c.past pat) := by
  refine forward_past hpat fun hnil => ?_
  have hnone : find? pat.toList c.rest = none := by
    rw [hnil, find?, if_neg (by simpa using hpat)]
  rw [past, cutAt, hnone] at h
  simp [atEnd, toEnd] at h

theorem rest_ne_nil_of_lookingAt (hpat : pat.toList ≠ []) (h : c.lookingAt pat = true) :
    c.rest ≠ [] := by
  intro hnil
  have hprefix := List.isPrefixOf_iff_prefix.mp h
  rw [hnil] at hprefix
  exact hpat (List.prefix_nil.mp hprefix)

/-- What is recognised has been taken off. -/
theorem forward_readName (h : (c.read readName).1 ≠ "") : c.Forward (c.read readName).2 := by
  refine ⟨c.onward_run .name, left_skip_lt fun hnil => h ?_⟩
  simp only [read, readName, hnil]
  rfl

theorem forward_readType (h : (c.read readType).1 ≠ "") : c.Forward (c.read readType).2 := by
  refine ⟨c.onward_run .type, left_skip_lt fun hnil => h ?_⟩
  simp only [read, readType, hnil]
  decide

end Cursor

/-! ## Headers -/

namespace Header

open Reading

variable {r : Reading}

/-- A block in braces is passed over, with its first brace. -/
theorem forward_skipBlock {c : Cursor} (h : c.lookingAt "\x7b" = true) : c.Forward (skipBlock 0 c) := by
  obtain ⟨rest, hrest⟩ := List.isPrefixOf_iff_prefix.mp h
  have hstep := Cursor.forward_step (c := c) (by simp [← hrest])
  rw [Cursor.step_eq (by simp [← hrest])] at hstep
  have hbehind := (Cursor.onward_run (c.skip 1) .skipGap).trans (onward_skipBlock 1 _)
  have hblock : skipBlock 0 c = skipBlock 1 (c.skip 1).skipGap := by
    rw [skipBlock]
    split
    · rename_i hnil
      rw [hnil] at hrest
      cases hrest
    · rename_i x tail hcons
      obtain ⟨rfl, -⟩ := List.cons.inj (hrest.trans hcons)
      rfl
  rw [hblock]
  exact hstep.trans_onward hbehind

/-- The body of a member, or what stands before a semicolon, is passed over; and if there is no
semicolon, all that is left. -/
theorem forward_skipMemberTail (h : r.cursor.rest ≠ []) :
    r.cursor.Forward (skipMemberTail r).cursor := by
  have hgap : r.cursor.Onward r.skipGap.cursor := r.cursor.onward_run .skipGap
  have htail : r.skipGap.Onward (skipMemberTail r) := .of_steps (steps_memberTail r)
  by_cases hend : r.skipGap.cursor.rest = []
  · -- The gap is all that was left.
    have hless : r.skipGap.cursor.left < r.cursor.left := by
      rw [Cursor.left, hend]
      exact List.length_pos_of_ne_nil h
    exact ⟨hgap.trans htail.cursor, Nat.lt_of_le_of_lt htail.cursor.left_le hless⟩
  · refine hgap.trans_forward ?_
    unfold skipMemberTail
    dsimp only
    split
    · rename_i hbrace
      have hpassed : r.skipGap.cursor.Forward (r.skipGap.move (skipBlock 0)).cursor :=
        forward_skipBlock hbrace
      have hstep (r : Reading) : r.Onward (if r.lookingAt ";" then r.step else r) :=
        .of_steps (.ite (steps_step _) (.refl _))
      exact hpassed.trans_onward (hstep _).cursor
    · exact Cursor.forward_past (by decide) hend

/-- The name of a member that has one is taken off. -/
theorem forward_readMemberName (className : String) (h : (readMemberName className r).2.1 ≠ "") :
    r.cursor.Forward (readMemberName className r).2.2.cursor := by
  have htype := r.cursor.onward_run .type
  have hname := (r.read readType).2.cursor.onward_run .name
  unfold readMemberName at h ⊢
  dsimp only at h ⊢
  split at h
  · rename_i hgiven
    rw [if_pos hgiven]
    exact htype.trans_forward (Cursor.forward_readName h)
  rename_i hnone
  rw [if_neg hnone]
  split at h
  · rename_i hclass
    rw [if_pos hclass]
    exact (Cursor.forward_readType h).trans_onward hname
  rename_i hclass
  rw [if_neg hclass]
  split at h
  · rename_i htilde
    have hthere := (Bool.and_eq_true_iff.mp htilde).2
    have hstep := Cursor.forward_step (Cursor.rest_ne_nil_of_lookingAt (by decide) hthere)
    have hread := ((r.read readType).2.read readName).2.step.cursor.onward_run .name
    rw [if_pos htilde]
    exact (htype.trans hname).trans_forward (hstep.trans_onward hread)
  · exact absurd rfl h

/-- A member whose name has been taken off goes on behind it. -/
theorem forward_declarator {r' : Reading} {className returnType name : String} {line : Nat}
    (hname : name ≠ "" → r.cursor.Forward r'.cursor)
    (h : (if name.isEmpty then (false, r')
      else scanDeclarator className returnType name line r').1 = true) :
    r.cursor.Forward
      (if name.isEmpty then (false, r')
        else scanDeclarator className returnType name line r').2.cursor := by
  by_cases hempty : name.isEmpty = true
  · rw [if_pos hempty] at h
    cases h
  · rw [if_neg hempty]
    have hbehind : Onward r' (scanDeclarator className returnType name line r').2 :=
      .of_steps (steps_scanDeclarator nofun nofun nofun line r')
    exact (hname (by simpa using hempty)).trans_onward hbehind.cursor

/-- A member is recognised by something that has been taken off, or that stands there still. -/
theorem forward_scanMember (className : String) (h : (scanMember className r).1 = true) :
    r.cursor.Forward (scanMember className r).2.cursor := by
  have hbegun := (Onward.of_steps ((steps_skipToMember r).trans (steps_line _))).cursor
  have htaken {known : Bool × Reading}
      (hknown : known.1 = true → (skipToMember r).line.2.cursor.Forward known.2.cursor)
      (h : (if known.1 then (true, skipMemberTail known.2) else (false, known.2)).1 = true) :
      r.cursor.Forward
        (if known.1 then (true, skipMemberTail known.2) else (false, known.2)).2.cursor := by
    by_cases hk : known.1 = true
    · rw [if_pos hk]
      have htail := Onward.of_steps (steps_skipMemberTail known.2)
      exact (hbegun.trans_forward (hknown hk)).trans_onward htail.cursor
    · rw [if_neg hk] at h
      cases h
  unfold scanMember at h ⊢
  dsimp only at h ⊢
  by_cases hoperator : (skipToMember r).line.2.lookingAt "operator " = true
  · rw [if_pos hoperator] at h ⊢
    exact htaken (forward_declarator Cursor.forward_readName) h
  rw [if_neg hoperator] at h ⊢
  by_cases henum : (skipToMember r).line.2.lookingAt "enum " = true
  · have hthere := Cursor.rest_ne_nil_of_lookingAt (by decide) henum
    have hpast : (skipToMember r).line.2.cursor.Forward ((skipToMember r).line.2.past " ").cursor :=
      Cursor.forward_past (by decide) hthere
    rw [if_pos henum] at h ⊢
    have henum := Onward.of_steps (steps_enum className (skipToMember r).line.1 (skipToMember r).line.2)
    exact htaken (fun _ => hpast.trans_onward henum.cursor) h
  rw [if_neg henum] at h ⊢
  by_cases htypedef : (skipToMember r).line.2.lookingAt "typedef " = true
  · -- The keyword is looked at only, and taken off with what follows it.
    have hthere := Cursor.rest_ne_nil_of_lookingAt (by decide) htypedef
    rw [if_pos htypedef]
    exact hbegun.trans_forward (forward_skipMemberTail hthere)
  · rw [if_neg htypedef] at h ⊢
    exact htaken (forward_declarator (forward_readMemberName className)) h

/-- A comma behind an enumerator was there before, and so was what stands before the enumerator. -/
theorem forward_scanEnumerator (h : (scanEnumerator r).1 = true) :
    r.cursor.Forward (scanEnumerator r).2.cursor := by
  have hcomma : (scanEnumerator r).2.cursor.lookingAt "," = true := h
  have hmore := Cursor.rest_ne_nil_of_lookingAt (by decide) hcomma
  have hless := (Onward.of_steps (steps_scanEnumerator r)).cursor.left_le
  have hrest : r.cursor.rest ≠ [] := by
    intro hnil
    have hleft := List.length_pos_of_ne_nil hmore
    rw [Cursor.left, Cursor.left, hnil] at hless
    exact absurd hless (Nat.not_le.mpr hleft)
  have hstep : r.cursor.Forward r.step.cursor := Cursor.forward_step hrest
  exact hstep.trans_onward (Onward.of_steps (steps_enumerator r)).cursor

/-- Another statement begins behind the text that it begins with. -/
theorem forward_scanStatement (h : (scanStatement r).1 = true) :
    r.cursor.Forward (scanStatement r).2.cursor := by
  have hmore : ((scanClass r).cursor.past classStart).atEnd = false := by
    simpa [scanStatement, Reading.atEnd, Reading.past, Reading.move] using h
  have hclass := (Onward.of_steps (steps_scanClass r)).cursor
  exact hclass.trans_forward (Cursor.forward_past_of_more (by decide) hmore)

end Header

/-! ## Labels, comments and words -/

namespace Header

theorem onward_skipLabel (r : Reading) : r.Onward (skipLabel r).2 :=
  .of_steps (.ite_snd ((r.steps_past ":").trans (Reading.steps_skipGap _)) (.refl r))

theorem forward_skipLabel {r : Reading} (h : (skipLabel r).1 = true) :
    r.cursor.Forward (skipLabel r).2.cursor := by
  unfold skipLabel at h ⊢
  split at h
  · rename_i hlabel
    have hmore : r.cursor.rest ≠ [] := by
      simp only [Bool.or_eq_true] at hlabel
      obtain (hpublic | hprivate) | hprotected := hlabel
      · exact Cursor.rest_ne_nil_of_lookingAt (by decide) hpublic
      · exact Cursor.rest_ne_nil_of_lookingAt (by decide) hprivate
      · exact Cursor.rest_ne_nil_of_lookingAt (by decide) hprotected
    have hpast : r.cursor.Forward (r.past ":").cursor := Cursor.forward_past (by decide) hmore
    rw [if_pos hlabel]
    exact hpast.trans_onward (Cursor.onward_run _ .skipGap)
  · cases h

end Header

namespace Comment

/-- Another comment stands behind its opening. -/
theorem forward_scanComment {tree : FileTree} {s : State} (h : (scanComment tree s).1 = true) :
    s.reading.cursor.Forward (scanComment tree s).2.reading.cursor := by
  obtain ⟨e, r, -, hscan⟩ | ⟨r, honward, hscan⟩ := scanComment_cases tree s
  · rw [hscan] at h
    cases h
  · rw [hscan] at h ⊢
    have hmore : (r.cursor.past opening).atEnd = false := by
      simpa [Reading.atEnd, Reading.past, Reading.move] using h
    exact honward.trans_forward (Cursor.forward_past_of_more (by decide) hmore)

theorem forward_readHeaderWord {s : String × Reading} (h : (readHeaderWord s).1 = true) :
    s.2.cursor.Forward (readHeaderWord s).2.2.cursor := by
  unfold readHeaderWord at h ⊢
  split at h
  · rename_i hseparator
    have hmore : s.2.cursor.rest ≠ [] := by
      rcases Bool.or_eq_true_iff.mp hseparator with hdot | hslash
      · exact Cursor.rest_ne_nil_of_lookingAt (by decide) hdot
      · exact Cursor.rest_ne_nil_of_lookingAt (by decide) hslash
    have hstep : s.2.cursor.Forward s.2.step.cursor := Cursor.forward_step hmore
    rw [if_pos hseparator]
    exact hstep.trans_onward (Cursor.onward_run _ .word)
  · cases h

end Comment

/-! ## Loops -/

section Loops

variable {σ : Type} {size : σ → Nat} {step : σ → Bool × σ} {s t : σ}

/-- The states behind a turn are passed as well. -/
theorem Passes.of_next (hmore : (step s).1 = true) (hless : size (step s).2 < size s)
    (h : Passes size step (step s).2 t) : Passes size step s t := by
  induction h with
  | start => exact .next (.start s) hmore hless
  | next _ hmore hless ih => exact .next ih hmore hless

/-- **A loop ends** if each of its turns that asks for another takes something off: it comes to a turn
that asks for no other, and there it ends. -/
theorem exists_end (hless : ∀ s, (step s).1 = true → size (step s).2 < size s) (s : σ) :
    ∃ t, Passes size step s t ∧ (step t).1 = false ∧ iterate size step s = (step t).2 := by
  induction hsize : size s using Nat.strongRecOn generalizing s with
  | ind n ih =>
      cases hmore : (step s).1 with
      | false => exact ⟨s, .start s, hmore, iterate_done (Prod.ext hmore rfl)⟩
      | true =>
          obtain ⟨t, hpasses, hdone, hend⟩ := ih _ (hsize ▸ hless s hmore) (step s).2 rfl
          exact ⟨t, hpasses.of_next hmore (hless s hmore), hdone,
            (iterate_more (Prod.ext hmore rfl) (hless s hmore)).trans hend⟩

end Loops

/-- Each turn of a loop that asks for another has moved the cursor forward in the text, no turn moves it
back, and the loop comes to a turn that asks for no other. -/
structure Consumes {σ : Type} (size : σ → Nat) (cursor : σ → Cursor) (step : σ → Bool × σ) (s : σ) :
    Prop where
  forward : (step s).1 = true → (cursor s).pos < (cursor (step s).2).pos
  stays : (cursor s).pos ≤ (cursor (step s).2).pos
  ends : ∃ t, Passes size step s t ∧ (step t).1 = false ∧ iterate size step s = (step t).2

theorem consumes_of_forward {σ : Type} {size : σ → Nat} {cursor : σ → Cursor} {step : σ → Bool × σ}
    (hsize : ∀ s, size s = (cursor s).left)
    (hforward : ∀ s, (step s).1 = true → (cursor s).Forward (cursor (step s).2))
    (honward : ∀ s, (cursor s).Onward (cursor (step s).2)) {s : σ} {text : List Char}
    (hs : (Cursor.ofText text).Onward (cursor s)) : Consumes size cursor step s := by
  obtain ⟨passed, left, -, hthere⟩ := hs.within (Cursor.between_ofText text)
  refine ⟨fun hmore => (hforward s hmore).pos_lt hthere, (honward s).pos_le hthere, ?_⟩
  refine exists_end (fun s hmore => ?_) s
  rw [hsize, hsize]
  exact (hforward s hmore).left

namespace Header

open Reading

variable {reg : Registry} {file : FileId} {r : Reading} (hr : Stage reg file r)

include hr

theorem consumes_scanStatement : Consumes Reading.left Reading.cursor scanStatement r :=
  consumes_of_forward (fun _ => rfl) (fun s h => forward_scanStatement (r := s) h)
    (fun s => (Onward.of_steps (steps_scanStatement s)).cursor) hr.onward.cursor

theorem consumes_scanMember (className : String) :
    Consumes Reading.left Reading.cursor (scanMember className) r :=
  consumes_of_forward (fun _ => rfl) (fun s h => forward_scanMember (r := s) className h)
    (fun s => (Onward.of_steps (steps_scanMember nofun s)).cursor) hr.onward.cursor

theorem consumes_scanEnumerator : Consumes Reading.left Reading.cursor scanEnumerator r :=
  consumes_of_forward (fun _ => rfl) (fun s h => forward_scanEnumerator (r := s) h)
    (fun s => (Onward.of_steps (steps_scanEnumerator s)).cursor) hr.onward.cursor

theorem consumes_skipLabel : Consumes Reading.left Reading.cursor skipLabel r :=
  consumes_of_forward (fun _ => rfl) (fun s h => forward_skipLabel (r := s) h)
    (fun s => (onward_skipLabel s).cursor) hr.onward.cursor

end Header

namespace Comment

variable {tree : FileTree} {reg : Registry} {file : FileId} {s : State}
  (hs : Stage tree reg file s.reading)

include hs

theorem consumes_scanComment :
    Consumes (fun s => s.reading.left) (fun s => s.reading.cursor) (scanComment tree) s :=
  consumes_of_forward (fun _ => rfl) (fun s h => forward_scanComment (s := s) h)
    (onward_scanComment tree) hs.onward

theorem consumes_readHeaderWord (name : String) :
    Consumes (fun s => s.2.left) (fun s => s.2.cursor) readHeaderWord (name, s.reading) :=
  consumes_of_forward (fun _ => rfl) (fun s h => forward_readHeaderWord (s := s) h)
    (fun s => (steps_readHeaderWord s).onward.cursor) hs.onward

end Comment

/-- A turn of the loop over the words of a documentation reads a word and goes forward, or it is the
last one. -/
theorem Markup.exists_turn {c : Cursor} {before after : List Char} (h : c.Between before after)
    (d : DocBlock) (last n : Nat) (st : State) :
    ∃ st' drafts next, turnAt? d last n st c = some (st', drafts, next) ∧
      ∀ line c', next = some (line, c') → c.pos < c'.pos ∧ c'.Within before after := by
  have hturn : ∃ st' drafts next, turnAt? d last n st c = some (st', drafts, next) ∧
      ∀ line c', next = some (line, c') → c'.Within before after := by
    let p : Progress :=
      { line := d.textLine + lineFeeds before, last := last, count := n, state := st }
    induction after using text_induction with
    | blank s hs => exact ⟨_, _, _, turnAt?_blank p h hs, fun line c' hnone => nomatch hnone⟩
    | word b w rest hb hw hrest =>
        obtain ⟨next, hnext, hturn⟩ := turnAt?_word p h hb hw hrest rfl
        refine ⟨_, _, _, hturn, fun line c' hsome => ?_⟩
        obtain ⟨-, rfl⟩ := Prod.mk.inj (Option.some.inj hsome)
        refine ⟨b ++ (w ++ rest.take (takenLength w rest)), _, ?_, by simpa using hnext⟩
        simp only [Token.rest, List.append_assoc, List.take_append_drop]
  obtain ⟨st', drafts, next, hturn, hwithin⟩ := hturn
  refine ⟨st', drafts, next, hturn, fun line c' hnext => ⟨?_, hwithin line c' hnext⟩⟩
  rw [hnext] at hturn
  exact (turnAt?_advances hturn).2.1

/-- **Progress.**  No scan moves a cursor back.  Each member of a class that is recognised, each statement,
each enumerator with another behind it and each label has taken characters off the header, and so has
each comment off a source file and each word off a documentation; so that every loop ends, whatever the
text is. -/
theorem loops_consume :
    (∀ s scans (scan : Cursor.Scan), ((Cursor.ofText s).after scans).pos ≤
      (scan.run ((Cursor.ofText s).after scans)).2.pos) ∧
    (∀ reg file r, Header.Stage reg file r →
      Consumes Reading.left Reading.cursor Header.scanStatement r ∧
      (∀ className, Consumes Reading.left Reading.cursor (Header.scanMember className) r) ∧
      Consumes Reading.left Reading.cursor Header.scanEnumerator r ∧
      Consumes Reading.left Reading.cursor Header.skipLabel r) ∧
    (∀ tree reg file s, Comment.Stage tree reg file (Comment.State.reading s) →
      Consumes (·.reading.left) (·.reading.cursor) (Comment.scanComment tree) s ∧
      ∀ name, Consumes (·.2.left) (·.2.cursor) Comment.readHeaderWord (name, s.reading)) ∧
    (∀ d last n st s scans, ∃ st' drafts next,
      Markup.turnAt? d last n st ((Cursor.ofText s).after scans) = some (st', drafts, next) ∧
        ∀ line c', next = some (line, c') → ((Cursor.ofText s).after scans).pos < c'.pos) := by
  refine ⟨fun s scans scan => ?_, fun reg file r hr => ?_, fun tree reg file s hs => ?_,
    fun d last n st s scans => ?_⟩
  · obtain ⟨passed, left, -, hthere⟩ := (Cursor.between_ofText s).within_after scans
    exact (Cursor.onward_run _ scan).pos_le hthere
  · exact ⟨Header.consumes_scanStatement hr, Header.consumes_scanMember hr,
      Header.consumes_scanEnumerator hr, Header.consumes_skipLabel hr⟩
  · exact ⟨Comment.consumes_scanComment hs, Comment.consumes_readHeaderWord hs⟩
  · obtain ⟨passed, left, -, hthere⟩ := (Cursor.between_ofText s).within_after scans
    obtain ⟨st', drafts, next, hturn, hnext⟩ := Markup.exists_turn hthere d last n st
    exact ⟨st', drafts, next, hturn, fun line c' h => (hnext line c' h).1⟩

private def openHeader : Registry :=
  (Registry.empty.addFile
    { path := "foo.h", kind := .header, text := "class Foo \x7b\n  typedef int" }).2

/-- A class and a type definition that are not closed.  The type definition is recognised by its keyword,
and all that is left is taken off for it. -/
theorem loops_consume_open :
    let r := (Header.openClass (Header.firstClass openHeader ⟨0⟩)).2
    (Header.scanMember "Foo" r).1 = true ∧
      r.cursor.pos < (Header.scanMember "Foo" r).2.cursor.pos := by
  have hknown : (Header.scanMember "Foo"
      (Header.openClass (Header.firstClass openHeader ⟨0⟩)).2).1 = true := by decide +kernel
  have hstage : Header.Stage openHeader ⟨0⟩
      (Header.openClass (Header.firstClass openHeader ⟨0⟩)).2 := .opened .first
  exact ⟨hknown, ((loops_consume.2.1 openHeader ⟨0⟩ _ hstage).2.1 "Foo").forward hknown⟩

end CppDoc
