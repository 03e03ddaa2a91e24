import CppDoc.Proofs.Reading.Lines
import CppDoc.Proofs.Reading.Scans
import CppDoc.Proofs.Registry.Overload

/-!
# Reading goes on in the text

Whatever a reader recognises, or fails to recognise, it goes on from where it stands: over whole
characters, not back, and in the same file.  Meanwhile nothing is documented: documentation is only
attached when a comment has been read as a whole.

Every reader of a file takes such steps and enters something into the registry now and then.
`Reading.Steps` says so of the states before and behind it.  It is transitive and holds along loops, so
that it is shown of a reader from the steps that it is made of.

* `Cursor.Between`: a cursor between what is read and what is left; `Between.within_run` and
  `Between.within_after`: scans lead from one such place to another;
* `Cursor.Onward`: going on by scans, which readers are made of;
* `Reading.Onward`: going on in a file, without documentation;
* `Reading.Steps`: going on with entries in the registry, and `steps_step` and the lemmas behind it: the
  steps that readers are made of.
-/

namespace CppDoc

open CppDoc.Text

/-! ## Cursors -/

namespace Cursor

/-- The cursor stands between the characters `before` and the characters `after`, and the lines that it
has counted are right. -/
structure Between (c : Cursor) (before after : List Char) : Prop where
  text : c.text = before ++ after
  pos : c.pos = byteLength before
  rest : c.rest = after
  mark : c.mark.Counts c.text

theorem between_ofText (s : List Char) : (ofText s).Between [] s :=
  ⟨rfl, rfl, rfl, LineMark.counts_start s⟩

theorem Between.stands {c : Cursor} {before after : List Char} (h : c.Between before after) :
    c.Stands :=
  ⟨before, h.rest.symm ▸ h.text, h.pos⟩

theorem Between.atEnd_eq {c : Cursor} {before after : List Char} (h : c.Between before after) :
    c.atEnd = after.isEmpty :=
  h.stands.atEnd_eq.trans (congrArg List.isEmpty h.rest)

theorem Between.skip {c : Cursor} {before after : List Char} (h : c.Between before after) (n : Nat) :
    (c.skip n).Between (before ++ after.take n) (after.drop n) := by
  refine ⟨?_, ?_, ?_, h.mark⟩
  · rw [List.append_assoc, List.take_append_drop]
    exact h.text
  · rw [Cursor.skip, h.pos, h.rest, byteLength_append]
  · rw [Cursor.skip, h.rest]

/-- Asking for the line of what comes next moves the mark only. -/
theorem Between.line_eq {c : Cursor} {before after : List Char} (h : c.Between before after) :
    ∃ mark, c.line = (lineBehind (before ++ after.takeWhile isBlank), { c with mark }) ∧
      mark.Counts c.text := by
  refine Cursor.line_eq h.text (Nat.le_of_eq h.pos.symm) (fun d _ => ?_) h.mark
  have hsize := Char.utf8Size_pos d
  rw [h.pos]
  omega

/-- The cursor stands behind some more of the text. -/
def Within (c' : Cursor) (before after : List Char) : Prop :=
  ∃ passed left, after = passed ++ left ∧ c'.Between (before ++ passed) left

section Within

variable {c : Cursor} {before after : List Char} (h : c.Between before after)

include h

theorem Between.within_skip (n : Nat) : (c.skip n).Within before after :=
  ⟨after.take n, after.drop n, (List.take_append_drop n after).symm, h.skip n⟩

theorem Between.within_toEnd : c.toEnd.Within before after := by
  rw [h.stands.toEnd_eq]
  exact h.within_skip _

theorem Between.within_step : c.step.Within before after := by
  unfold step
  split
  · exact h.within_toEnd
  · exact h.within_skip 1

theorem Between.within_cutAt (pat : String) : (c.cutAt pat).2.2.Within before after := by
  obtain ⟨n, hn⟩ | hend := c.cutAt_eq pat
  · rw [hn]
    exact h.within_skip n
  · rw [hend]
    exact h.within_toEnd

theorem Between.within_line : c.line.2.Within before after := by
  obtain ⟨mark, hline, hmark⟩ := h.line_eq
  refine ⟨[], after, rfl, ?_⟩
  rw [hline, List.append_nil]
  exact ⟨h.text, h.pos, h.rest, hmark⟩

/-- **A scan** goes over whole characters, and not back. -/
theorem Between.within_run (scan : Scan) : (scan.run c).2.Within before after := by
  cases scan with
  | step => exact h.within_step
  | scanTo pat | textUntil pat => exact h.within_cutAt pat
  | pass pat =>
      rw [Scan.run]
      dsimp only
      split
      · exact h.within_skip _
      · exact h.within_skip 0
  | line => exact h.within_line
  | skipGap | name | type | parameters | word | value | blanks | visible | number | block | code =>
      exact h.within_skip _

end Within

theorem Between.within_after {c : Cursor} {before after : List Char} (h : c.Between before after)
    (scans : List Scan) : (c.after scans).Within before after := by
  induction scans generalizing c before after with
  | nil => exact h.within_skip 0
  | cons scan scans ih =>
      obtain ⟨passed, middle, rfl, hmiddle⟩ := h.within_run scan
      obtain ⟨more, left, rfl, hleft⟩ := ih hmiddle
      exact ⟨passed ++ more, left, (List.append_assoc ..).symm, (List.append_assoc ..) ▸ hleft⟩

/-- The cursor has gone on from `c` to `c'`, by one scan after the other. -/
def Onward (c c' : Cursor) : Prop :=
  ∃ scans : List Scan, c' = c.after scans

theorem Onward.within {c c' : Cursor} (h : c.Onward c') {before after : List Char}
    (hc : c.Between before after) : c'.Within before after := by
  obtain ⟨scans, rfl⟩ := h
  exact hc.within_after scans

theorem Onward.refl (c : Cursor) : c.Onward c :=
  ⟨[], rfl⟩

theorem Onward.trans {a b c : Cursor} (hab : a.Onward b) (hbc : b.Onward c) : a.Onward c := by
  obtain ⟨scans, rfl⟩ := hab
  obtain ⟨more, rfl⟩ := hbc
  exact ⟨scans ++ more, List.foldl_append.symm⟩

theorem onward_run (c : Cursor) (scan : Scan) : c.Onward (scan.run c).2 :=
  ⟨[scan], rfl⟩

end Cursor

/-! ## Readings -/

namespace Reading

open Registry

/-- Reading has gone on from `r` to `r'` in the same file, and nothing has been documented. -/
structure Onward (r r' : Reading) : Prop where
  file : r'.file = r.file
  docs : r'.registry.docs = r.registry.docs
  cursor : r.cursor.Onward r'.cursor

theorem Onward.refl (r : Reading) : Onward r r :=
  ⟨rfl, rfl, .refl r.cursor⟩

theorem Onward.trans {a b c : Reading} (hab : Onward a b) (hbc : Onward b c) : Onward a c :=
  ⟨hbc.file.trans hab.file, hbc.docs.trans hab.docs, hab.cursor.trans hbc.cursor⟩

/-- Some steps have been taken from `r` to `r'`: scans of the text, and entries in the registry other
than documentation.  The texts that are kept are tidy if `E` holds, and a header that is added is a new
one. -/
structure Steps (E : Prop) (r r' : Reading) : Prop where
  onward : Onward r r'
  entries : r.Sound → Entries r.registry r'.registry
  tidy : E → r.registry.Tidy → r'.registry.Tidy
  gathers : Gathers r.registry r'.registry

theorem Onward.of_steps {r r' : Reading} (h : Steps False r r') : Onward r r' :=
  h.onward

theorem Leads.of_steps {r r' : Reading} (h : Steps True r r') : Leads r r' :=
  ⟨h.onward.file, h.entries, h.tidy trivial, h.gathers⟩

variable {E : Prop}

/-- The cursor is moved on. -/
theorem Steps.of_cursor {r : Reading} {c : Cursor} (h : r.cursor.Onward c) :
    Steps E r { r with cursor := c } where
  onward := ⟨rfl, rfl, h⟩
  entries := fun _ => .refl r.registry
  tidy := fun _ => id
  gathers := .refl r.registry

theorem Steps.refl (r : Reading) : Steps E r r :=
  .of_cursor (.refl r.cursor)

theorem Steps.trans {a b c : Reading} (hab : Steps E a b) (hbc : Steps E b c) : Steps E a c where
  onward := hab.onward.trans hbc.onward
  entries := fun ha =>
    (hab.entries ha).trans (hbc.entries (ha.of_entries hab.onward.file (hab.entries ha)))
  tidy := fun hE ha => hbc.tidy hE (hab.tidy hE ha)
  gathers := hab.gathers.trans hbc.gathers

/-- A choice between two ways to go on. -/
theorem Steps.ite {r a b : Reading} {c : Prop} [Decidable c] (ha : Steps E r a) (hb : Steps E r b) :
    Steps E r (if c then a else b) := by
  split
  · exact ha
  · exact hb

/-- A choice between two ways to go on that also give an answer. -/
theorem Steps.ite_snd {α : Type} {r : Reading} {a b : α × Reading} {c : Prop} [Decidable c]
    (ha : Steps E r a.2) (hb : Steps E r b.2) : Steps E r (if c then a else b).2 := by
  split
  · exact ha
  · exact hb

/-- A loop of steps. -/
theorem Steps.iterate {step : Reading → Bool × Reading} (hstep : ∀ r, Steps E r (step r).2)
    (r : Reading) : Steps E r (iterate left step r) :=
  iterate_induction (fun s hs => hs.trans (hstep s)) (.refl r)

variable (r : Reading)

theorem steps_step : Steps E r r.step :=
  .of_cursor (r.cursor.onward_run .step)

theorem steps_skipGap : Steps E r r.skipGap :=
  .of_cursor (r.cursor.onward_run .skipGap)

theorem steps_past (pat : String) : Steps E r (r.past pat) :=
  .of_cursor (r.cursor.onward_run (.scanTo pat))

theorem steps_read (reader : List Char → String × Nat) [hreader : Cursor.ScanReader reader] :
    Steps E r (r.read reader).2 := by
  obtain ⟨scan, hscan⟩ := hreader.scan
  exact .of_cursor ⟨[scan], congrArg Prod.snd (hscan r.cursor).symm⟩

theorem steps_line : Steps E r r.line.2 :=
  .of_cursor (r.cursor.onward_run .line)

theorem steps_report (line : Nat) {problem : Problem} (hread : problem.isUnknownParent = false) :
    Steps E r (r.report line problem) where
  onward := ⟨rfl, rfl, .refl r.cursor⟩
  entries := fun hr => entries_report r.registry hr.hasFile hread
  tidy := fun _ h => ⟨h.classes, h.functions⟩
  gathers := .of_files_eq rfl

theorem steps_reportHere {problem : Problem} (hread : problem.isUnknownParent = false) :
    Steps E r (r.reportHere problem) :=
  r.steps_line.trans (steps_report r.line.2 r.line.1 hread)

theorem steps_classNamed {name : String} (hname : E → Text.Tidy name.toList) :
    Steps E r (r.classNamed name).2 where
  onward := ⟨rfl, docs_classNamed r.registry name, .refl r.cursor⟩
  entries := fun _ => entries_classNamed r.registry name
  tidy := fun hE h => tidy_classNamed h (hname hE).toSpaced
  gathers := .of_files_eq (files_classNamed r.registry name)

theorem steps_declare {returnType name parameters : String}
    (htype : E → Text.Tidy returnType.toList) (hname : E → Text.Tidy name.toList) (hne : name ≠ "")
    (hparameters : E → Text.Tidy parameters.toList) (isConst : Bool) (line : Nat) :
    Steps E r (r.declare returnType name parameters isConst line).2 where
  onward := ⟨rfl, docs_declare r.registry _ _ _ _ _, .refl r.cursor⟩
  entries := fun hr => entries_declare r.registry returnType name parameters isConst hr.hasFile
  tidy := fun hE h => tidy_declare h (hname hE) hne (htype hE) (hparameters hE) isConst _
  gathers := .of_files_eq (files_declare r.registry returnType name parameters isConst _)

end Reading

end CppDoc
