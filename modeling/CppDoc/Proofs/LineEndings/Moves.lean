import CppDoc.Proofs.LineEndings.Registry
import CppDoc.Proofs.LineEndings.Scanners
import CppDoc.Proofs.Reading.Place

/-!
# Readings and line endings

A reading of a text and a reading of its `crlf` go side by side: they stand at the same place, and the
same has been entered.  `Mirrors` says so of two readings, and `Answers` also that the same has been
answered.  The moves of a reading, the choices between them and the loops over them keep it up, so that
a reader is shown to keep it up from the steps that it is made of.

* `Mirrors.skipGap`, `Mirrors.read`, `Mirrors.past` and so on: the moves;
* `Mirrors.line`: the lines are counted alike;
* `Mirrors.ite` and `Answers.ite`: a choice;
* `iterate_related` and `Mirrors.iterate`: a loop.
-/

namespace CppDoc

open CppDoc.Text

/-- **Two loops** whose steps keep up a relation between the states, and go on together, end in related
states. -/
theorem iterate_related {σ : Type} {R : σ → σ → Prop} {size : σ → Nat} {step step' : σ → Bool × σ}
    (hstep : ∀ s s', R s s' → (step' s').1 = (step s).1 ∧ R (step s).2 (step' s').2)
    (hsize : ∀ s s' t t', R s s' → R t t' → (size t' < size s' ↔ size t < size s)) {s s' : σ}
    (h : R s s') : R (iterate size step s) (iterate size step' s') := by
  induction hlen : size s using Nat.strongRecOn generalizing s s' with
  | ind n ih =>
      obtain ⟨hsame, hnext⟩ := hstep s s' h
      have hmore : (step' s').1 = true ∧ size (step' s').2 < size s' ↔
          (step s).1 = true ∧ size (step s).2 < size s := by
        rw [hsame, hsize _ _ _ _ h hnext]
      unfold iterate
      by_cases hgo : (step s).1 = true ∧ size (step s).2 < size s
      · rw [dif_pos hgo, dif_pos (hmore.mpr hgo)]
        exact ih _ (hlen ▸ hgo.2) hnext rfl
      · rw [dif_neg hgo, dif_neg (mt hmore.mp hgo)]
        exact hnext

namespace Reading

/-- What is cut off at the next `p`. -/
theorem Stands.cutAt {r : Reading} {reg : Registry} {file : FileId} {before after : List Char}
    (h : r.Stands reg file before after) (p : String) :
    ∃ c, r.cursor.cutAt p = ((find? p.toList after).isSome,
        after.take ((find? p.toList after).getD after.length), c) ∧
      ({ r with cursor := c } : Reading).Stands reg file
        (before ++ after.take (lengthPast p.toList after)) (after.drop (lengthPast p.toList after)) := by
  rw [Cursor.cutAt, h.rest, lengthPast]
  cases find? p.toList after with
  | some n => exact ⟨_, rfl, h.skip_any _⟩
  | none =>
      simp only [Option.isSome_none, Option.getD_none, Option.map_none, List.take_length,
        List.drop_length]
      refine ⟨_, rfl, h.registry, h.file, ?_, ?_, rfl, h.mark⟩
      · rw [List.append_nil]
        exact h.text
      · change byteLength r.cursor.text = _
        rw [h.text]

/-! ## Two readings -/

/-- Two readings at the same place of a text, of which the second one has the other line endings. -/
structure Mirrors (text : List Char) (r r' : Reading) : Prop where
  registry : r'.registry = r.registry.crlf
  file : r'.file = r.file
  place : ∃ before after, before ++ after = text ∧ r.Stands r.registry r.file before after ∧
    r'.Stands r'.registry r'.file (crlf before) (crlf after)

/-- Two readings of which the second one has the other line endings, with the same answer. -/
structure Answers {α : Type} (text : List Char) (a a' : α × Reading) : Prop where
  answer : a'.1 = a.1
  mirrors : Mirrors text a.2 a'.2

theorem mirrors_begin (reg : Registry) (file : FileId) :
    Mirrors (reg.file file).text.toList (begin reg file) (begin reg.crlf file) := by
  have htext : (reg.crlf.file file).text.toList = crlf (reg.file file).text.toList := by
    rw [Registry.file_crlf, SourceFile.crlf, toList_crlfText]
  have hstands := stands_begin reg.crlf file
  rw [htext] at hstands
  exact ⟨rfl, rfl, [], _, rfl, stands_begin reg file, hstands⟩

variable {text : List Char} {r r' : Reading}

/-- What is left of both is left at the same place. -/
theorem Mirrors.rest (h : Mirrors text r r') : r'.cursor.rest = crlf r.cursor.rest := by
  obtain ⟨before, after, -, hstands, hstands'⟩ := h.place
  rw [hstands'.rest, hstands.rest]

/-- The two readings get ahead together. -/
theorem Mirrors.left_lt_iff {s s' : Reading} (h : Mirrors text r r') (hs : Mirrors text s s') :
    s'.left < r'.left ↔ s.left < r.left := by
  obtain ⟨before, after, htext, hstands, hstands'⟩ := h.place
  obtain ⟨before₁, after₁, htext₁, hstands₁, hstands₁'⟩ := hs.place
  rw [hstands.left, hstands'.left, hstands₁.left, hstands₁'.left]
  exact length_crlf_lt_iff (htext.trans htext₁.symm)

theorem Mirrors.atEnd (h : Mirrors text r r') : r'.atEnd = r.atEnd := by
  obtain ⟨before, after, -, hstands, hstands'⟩ := h.place
  rw [hstands.atEnd_eq, hstands'.atEnd_eq, Bool.eq_iff_iff, List.isEmpty_iff, List.isEmpty_iff,
    crlf_eq_nil_iff]

theorem Mirrors.lookingAt (h : Mirrors text r r') (p : String) (hp : OneLine p.toList) :
    r'.lookingAt p = r.lookingAt p := by
  obtain ⟨before, after, -, hstands, hstands'⟩ := h.place
  rw [hstands.lookingAt, hstands'.lookingAt, isPrefixOf_crlf hp]

/-! ### Moves -/

/-- Moving over the same part of the text. -/
theorem Mirrors.skip (h : Mirrors text r r') (n : Nat) :
    Mirrors text (r.move (·.skip n)) (r'.move (·.skip (width r.cursor.rest n))) := by
  obtain ⟨before, after, htext, hstands, hstands'⟩ := h.place
  have hmoved := hstands'.skip_any (width after n)
  rw [take_crlf, drop_crlf, ← crlf_append] at hmoved
  rw [hstands.rest]
  refine ⟨h.registry, h.file, _, _, ?_, hstands.skip_any n, hmoved⟩
  rw [List.append_assoc, List.take_append_drop, htext]

/-- Moving over a text on one line. -/
theorem Mirrors.skip_text (h : Mirrors text r r') {p : String} (hlook : r.lookingAt p = true)
    (hp : OneLine p.toList) :
    Mirrors text (r.move (·.skip p.length)) (r'.move (·.skip p.length)) := by
  obtain ⟨t, ht⟩ := List.isPrefixOf_iff_prefix.mp hlook
  have hwidth : width r.cursor.rest p.length = p.length := by
    rw [← ht, ← String.length_toList, width, List.take_left, crlf_eq_self hp.1]
  have hmoved := h.skip p.length
  rwa [hwidth] at hmoved

theorem Mirrors.skipGap (h : Mirrors text r r') : Mirrors text r.skipGap r'.skipGap := by
  have hmoved := h.skip (Syntax.gap r.cursor.rest)
  rwa [← Syntax.gap_crlf, ← h.rest] at hmoved

/-- Two readings of the same place, in the text and in its `crlf`. -/
theorem mirrors_of_stands {s s' : Reading} {before after : List Char} (htext : before ++ after = text)
    (hregistry : s'.registry = s.registry.crlf) (hfile : s'.file = s.file)
    (hs : s.Stands s.registry s.file before after)
    (hs' : s'.Stands s'.registry s'.file (crlf before) (crlf after)) : Mirrors text s s' :=
  ⟨hregistry, hfile, before, after, htext, hs, hs'⟩

/-- Moving over a character that does not end the line. -/
theorem Mirrors.step (h : Mirrors text r r') {p : String} (hlook : r.lookingAt p = true)
    (hp : OneLine p.toList ∧ p.toList ≠ []) : Mirrors text r.step r'.step := by
  obtain ⟨before, after, rfl, hstands, hstands'⟩ := h.place
  obtain ⟨c, w, hw⟩ := List.exists_cons_of_ne_nil hp.2
  rw [hstands.lookingAt, List.isPrefixOf_iff_prefix, hw] at hlook
  obtain ⟨t, rfl⟩ := hlook
  have hc : c ≠ '\n' := by
    rintro rfl
    exact hp.1.1 (hw ▸ List.mem_cons_self)
  rw [List.cons_append, crlf_cons hc] at hstands'
  have hmoved := hstands'.step
  have hone : crlf [c] = [c] := crlf_cons hc []
  rw [← hone, ← crlf_append] at hmoved
  exact mirrors_of_stands (by simp) h.registry h.file hstands.step hmoved

/-- Behind one character of each text, also if it is the first one of a line ending, the blanks lead to
the same place. -/
theorem mirrors_skipGap_behind {s s' : Reading} {before after : List Char} (htext : before ++ after = text)
    (hregistry : s'.registry = s.registry.crlf) (hfile : s'.file = s.file)
    (hs : s.Stands s.registry s.file (before ++ after.take 1) (after.drop 1))
    (hs' : s'.Stands s'.registry s'.file (crlf before ++ (crlf after).take 1) ((crlf after).drop 1)) :
    Mirrors text s.skipGap s'.skipGap := by
  by_cases hfeed : after.head? = some '\n'
  · obtain ⟨t, rfl⟩ := List.head?_eq_some_iff.mp hfeed
    have hgap : Syntax.gap ('\n' :: crlf t) = width t (Syntax.gap t) + 1 := by
      rw [← Syntax.gap_crlf, Nat.add_comm]
      exact Syntax.gap_blanks_append (a := ['\n']) rfl (crlf t)
    have hmoved := hs.skipGap_any
    have hmoved' := hs'.skipGap_any
    simp only [crlf_feed, List.take_succ_cons, List.take_zero, List.drop_succ_cons, List.drop_zero, hgap,
      take_crlf, drop_crlf] at hmoved hmoved'
    refine mirrors_of_stands ?_ hregistry hfile hmoved ?_
    · rw [List.append_assoc, List.append_assoc, List.take_append_drop, ← htext, List.singleton_append]
    · change s'.skipGap.Stands s'.registry s'.file _ _
      rw [crlf_append, crlf_append]
      simpa [crlf] using hmoved'
  · have hone : (crlf after).take 1 = crlf (after.take 1) ∧ (crlf after).drop 1 = crlf (after.drop 1) := by
      cases after with
      | nil => exact ⟨rfl, rfl⟩
      | cons c t =>
          have hc : c ≠ '\n' := fun hc => hfeed (congrArg some hc)
          rw [crlf_cons hc]
          exact ⟨(crlf_cons hc []).symm, rfl⟩
    rw [hone.1, hone.2, ← crlf_append] at hs'
    refine (mirrors_of_stands ?_ hregistry hfile hs hs').skipGap
    rw [List.append_assoc, List.take_append_drop, htext]

/-- Moving over one character and a gap behind it. -/
theorem Mirrors.skipOneGap (h : Mirrors text r r') :
    Mirrors text (r.move (·.skip 1)).skipGap (r'.move (·.skip 1)).skipGap := by
  obtain ⟨before, after, htext, hstands, hstands'⟩ := h.place
  exact mirrors_skipGap_behind htext h.registry h.file (hstands.skip_any 1) (hstands'.skip_any 1)

theorem Mirrors.stepGap (h : Mirrors text r r') : Mirrors text r.step.skipGap r'.step.skipGap := by
  obtain ⟨before, after, htext, hstands, hstands'⟩ := h.place
  exact mirrors_skipGap_behind htext h.registry h.file hstands.step_any hstands'.step_any

/-- Two texts cut off at the same place. -/
theorem Mirrors.cutAt (h : Mirrors text r r') (p : String) (hp : OneLine p.toList) :
    (r'.cursor.cutAt p).1 = (r.cursor.cutAt p).1 ∧
      (r'.cursor.cutAt p).2.1 = crlf (r.cursor.cutAt p).2.1 ∧
      Mirrors text { r with cursor := (r.cursor.cutAt p).2.2 }
        { r' with cursor := (r'.cursor.cutAt p).2.2 } := by
  obtain ⟨before, after, htext, hstands, hstands'⟩ := h.place
  obtain ⟨c, hcut, hmoved⟩ := hstands.cutAt p
  obtain ⟨c', hcut', hmoved'⟩ := hstands'.cutAt p
  rw [lengthPast_crlf hp, take_crlf, drop_crlf, ← crlf_append] at hmoved'
  rw [hcut, hcut', find?_crlf hp]
  refine ⟨Option.isSome_map, ?_, mirrors_of_stands ?_ h.registry h.file hmoved hmoved'⟩
  · cases find? p.toList after with
    | none => simp
    | some n => exact take_crlf after n
  · rw [List.append_assoc, List.take_append_drop, htext]

theorem Mirrors.past (h : Mirrors text r r') (p : String) (hp : OneLine p.toList) :
    Mirrors text (r.past p) (r'.past p) :=
  (h.cutAt p hp).2.2

/-- Moving behind a text that begins with a line feed. -/
theorem Mirrors.past_feed (h : Mirrors text r r') {p : String} {w : List Char}
    (hp : p.toList = '\n' :: w) (hw : OneLine w) : Mirrors text (r.past p) (r'.past p) := by
  obtain ⟨before, after, htext, hstands, hstands'⟩ := h.place
  obtain ⟨c, hcut, hmoved⟩ := hstands.cutAt p
  obtain ⟨c', hcut', hmoved'⟩ := hstands'.cutAt p
  rw [hp] at hmoved hmoved'
  rw [lengthPast_crlf_feed hw, take_crlf, drop_crlf, ← crlf_append] at hmoved'
  rw [Reading.past, Reading.past, Reading.move, Reading.move, Cursor.past, Cursor.past, hcut, hcut']
  refine mirrors_of_stands ?_ h.registry h.file hmoved hmoved'
  rw [List.append_assoc, List.take_append_drop, htext]

/-! ### Values -/

section Answers

variable {α : Type}

/-- What is read is the same. -/
theorem Mirrors.read (h : Mirrors text r r') {reader : List Char → α × Nat}
    (hreader : Syntax.Rereads reader) : Answers text (r.read reader) (r'.read reader) := by
  have hread := hreader r.cursor.rest
  rw [← h.rest] at hread
  have hvalue : (reader r'.cursor.rest).1 = (reader r.cursor.rest).1 := by rw [hread]
  have hlength : (reader r'.cursor.rest).2 = width r.cursor.rest (reader r.cursor.rest).2 := by
    rw [hread]
  have hmoved := h.skip (reader r.cursor.rest).2
  rw [← hlength] at hmoved
  exact ⟨hvalue, hmoved⟩

/-- **Lines** are counted alike. -/
theorem Mirrors.line (h : Mirrors text r r') : Answers text r.line r'.line := by
  obtain ⟨before, after, htext, hstands, hstands'⟩ := h.place
  obtain ⟨s, hline, hs⟩ := hstands.line_eq
  obtain ⟨s', hline', hs'⟩ := hstands'.line_eq
  have hcount : lineBehind (crlf before ++ (crlf after).takeWhile isBlank) =
      lineBehind (before ++ after.takeWhile isBlank) := by
    rw [takeWhile_crlf rfl, ← crlf_append, lineBehind, count_crlf, lineBehind]
  have hmoved : Mirrors text s s' :=
    mirrors_of_stands htext (by rw [hs.registry, hs'.registry, h.registry])
      (by rw [hs.file, hs'.file, h.file]) (by rwa [hs.registry, hs.file])
      (by rwa [hs'.registry, hs'.file])
  rw [hline, hline', hcount]
  exact ⟨rfl, hmoved⟩

end Answers

/-! ### Entries -/

/-- The same is entered into both registries. -/
theorem Mirrors.enter (h : Mirrors text r r') {reg reg' : Registry} (hreg : reg' = reg.crlf) :
    Mirrors text { r with registry := reg } { r' with registry := reg' } := by
  obtain ⟨before, after, htext, hstands, hstands'⟩ := h.place
  refine mirrors_of_stands htext hreg h.file ?_ ?_
  · exact ⟨rfl, rfl, hstands.text, hstands.pos, hstands.rest, hstands.mark⟩
  · exact ⟨rfl, rfl, hstands'.text, hstands'.pos, hstands'.rest, hstands'.mark⟩

theorem Mirrors.report (h : Mirrors text r r') (line : Nat) (problem : Problem) :
    Mirrors text (r.report line problem) (r'.report line problem) := by
  refine h.enter ?_
  rw [h.registry, h.file, Registry.report_crlf]

theorem Mirrors.reportHere (h : Mirrors text r r') (problem : Problem) :
    Mirrors text (r.reportHere problem) (r'.reportHere problem) := by
  have hreported := h.line.mirrors.report r.line.1 problem
  change Mirrors text (r.line.2.report r.line.1 problem) (r'.line.2.report r'.line.1 problem)
  rwa [h.line.answer]

/-- What is entered with an answer. -/
theorem Mirrors.entered {α : Type} (h : Mirrors text r r') {p p' : α × Registry}
    (hp : p' = (p.1, p.2.crlf)) :
    Answers text (p.1, { r with registry := p.2 }) (p'.1, { r' with registry := p'.2 }) := by
  subst hp
  exact ⟨rfl, h.enter rfl⟩

theorem Mirrors.classNamed (h : Mirrors text r r') (name : String) :
    Answers text (r.classNamed name) (r'.classNamed name) := by
  have hnamed := Registry.classNamed_crlf r.registry name
  rw [← h.registry] at hnamed
  exact h.entered hnamed

theorem Mirrors.declare (h : Mirrors text r r') (returnType name parameters : String) (isConst : Bool)
    (line : Nat) :
    Answers text (r.declare returnType name parameters isConst line)
      (r'.declare returnType name parameters isConst line) := by
  let declared := r.registry.declare returnType name parameters isConst ⟨r.file, line⟩
  have hdeclared : r'.registry.declare returnType name parameters isConst ⟨r'.file, line⟩ =
      (declared.1, declared.2.crlf) := by
    rw [h.registry, h.file, Registry.declare_crlf]
  exact h.entered hdeclared

/-! ### Choices and loops -/

section Choices

variable {α : Type} {b b' : Bool}

theorem Mirrors.ite {s s' t t' : Reading} (hb : b' = b) (hthen : b = true → Mirrors text s s')
    (helse : b = false → Mirrors text t t') :
    Mirrors text (if b then s else t) (if b' then s' else t') := by
  subst hb
  cases b' with
  | true => exact hthen rfl
  | false => exact helse rfl

theorem Answers.ite {s s' t t' : α × Reading} (hb : b' = b) (hthen : b = true → Answers text s s')
    (helse : b = false → Answers text t t') :
    Answers text (if b then s else t) (if b' then s' else t') := by
  subst hb
  cases b' with
  | true => exact hthen rfl
  | false => exact helse rfl

end Choices

/-- A loop of steps that go side by side. -/
theorem Mirrors.iterate (h : Mirrors text r r') {step : Reading → Bool × Reading}
    (hstep : ∀ s s', Mirrors text s s' → Answers text (step s) (step s')) :
    Mirrors text (iterate left step r) (iterate left step r') :=
  iterate_related (fun s s' hs => ⟨(hstep s s' hs).answer, (hstep s s' hs).mirrors⟩)
    (fun _ _ _ _ hs ht => hs.left_lt_iff ht) h

end Reading

end CppDoc
