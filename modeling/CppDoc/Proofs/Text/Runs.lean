import Mathlib.Data.List.TakeWhile

/-!
# Runs of characters

A text is cut into its **runs**: the longest pieces in which all characters are of one class.  A run
stands apart from the others of its class, so that a text can be cut anywhere between two runs.

* `IsRun`: a run and what stands before and behind it; `runsOf_eq_of_isRun` and `exists_isRun`: these are
  the pieces that `runsOf` gives, in their order;
* `runsOf_refine`: the runs of a narrower class are found run by run.
-/

namespace CppDoc.Text

/-- The longest pieces of a text with characters of class `p` only, in order. -/
def runsOf (p : Char → Bool) (s : List Char) : List (List Char) :=
  match s with
  | [] => []
  | c :: rest =>
    if p c then (c :: rest.takeWhile p) :: runsOf p (rest.dropWhile p) else runsOf p rest
termination_by s.length
decreasing_by
  · have := (List.dropWhile_sublist (l := rest) p).length_le
    simp only [List.length_cons]
    omega
  · simp

/-- In the text `s`, the run `w` stands between `before` and `after`. -/
structure IsRun (p : Char → Bool) (s before w after : List Char) : Prop where
  split : s = before ++ (w ++ after)
  ne_nil : w ≠ []
  all : ∀ c ∈ w, p c = true
  left : ∀ c, before.getLast? = some c → p c = false
  right : ∀ c, after.head? = some c → p c = false

section Runs

variable {p q : Char → Bool} {c : Char} {s rest before w after : List Char}

@[simp]
theorem runsOf_nil : runsOf p [] = [] := by
  rw [runsOf]

theorem runsOf_cons_of_pos (hc : p c = true) (rest : List Char) :
    runsOf p (c :: rest) = (c :: rest.takeWhile p) :: runsOf p (rest.dropWhile p) := by
  rw [runsOf, if_pos hc]

theorem runsOf_cons_of_neg (hc : p c = false) (rest : List Char) :
    runsOf p (c :: rest) = runsOf p rest := by
  rw [runsOf, if_neg (by simp [hc])]

/-! ## Cutting a text between its runs -/

/-- What begins with no character of the class is left when the class is passed over. -/
theorem takeWhile_dropWhile_append (before : List Char)
    (hafter : ∀ c, after.head? = some c → p c = false) :
    (before ++ after).takeWhile p = before.takeWhile p ∧
      (before ++ after).dropWhile p = before.dropWhile p ++ after := by
  induction before with
  | nil =>
      cases after with
      | nil => exact ⟨rfl, rfl⟩
      | cons d rest => simp [hafter d rfl]
  | cons c rest ih =>
      obtain ⟨htake, hdrop⟩ := ih
      rw [List.cons_append, List.takeWhile_cons, List.takeWhile_cons, List.dropWhile_cons,
        List.dropWhile_cons, htake, hdrop]
      split
      · exact ⟨rfl, rfl⟩
      · exact ⟨rfl, rfl⟩

/-- No run goes over the beginning of what is no character of the class. -/
theorem runsOf_append (before : List Char) (hafter : ∀ c, after.head? = some c → p c = false) :
    runsOf p (before ++ after) = runsOf p before ++ runsOf p after := by
  fun_induction runsOf p before with
  | case1 => rfl
  | case2 c rest hc ih =>
      obtain ⟨htake, hdrop⟩ := takeWhile_dropWhile_append rest hafter
      rw [List.cons_append, runsOf_cons_of_pos hc, htake, hdrop, ih, List.cons_append]
  | case3 c rest hc ih =>
      rw [List.cons_append, runsOf_cons_of_neg (by simpa using hc), ih]

/-- Nor does one go over the end of it. -/
theorem runsOf_append_of_left (hbefore : ∀ c, before.getLast? = some c → p c = false)
    (after : List Char) : runsOf p (before ++ after) = runsOf p before ++ runsOf p after := by
  rcases List.eq_nil_or_concat before with rfl | ⟨front, d, rfl⟩
  · rw [runsOf_nil, List.nil_append, List.nil_append]
  · rw [List.concat_eq_append] at hbefore ⊢
    have hd : p d = false := hbefore d (by simp)
    have hhead (rest : List Char) : ∀ c, (d :: rest).head? = some c → p c = false := fun c hc =>
      Option.some.inj hc ▸ hd
    rw [List.append_assoc, List.singleton_append, runsOf_append front (hhead after),
      runsOf_append front (hhead []), runsOf_cons_of_neg hd, runsOf_cons_of_neg hd, runsOf_nil,
      List.append_nil]

theorem runsOf_all (hne : w ≠ []) (hall : ∀ c ∈ w, p c = true) : runsOf p w = [w] := by
  obtain ⟨c, rest, rfl⟩ := List.exists_cons_of_ne_nil hne
  obtain ⟨hc, hrest⟩ := List.forall_mem_cons.mp hall
  rw [runsOf_cons_of_pos hc, List.takeWhile_eq_self_iff.mpr hrest,
    List.dropWhile_eq_nil_iff.mpr hrest, runsOf_nil]

/-- **One run.**  The runs of a text are those before a run, the run itself, and those behind it. -/
theorem runsOf_eq_of_isRun (h : IsRun p s before w after) :
    runsOf p s = runsOf p before ++ w :: runsOf p after := by
  rw [h.split, runsOf_append_of_left h.left, runsOf_append w h.right, runsOf_all h.ne_nil h.all]
  rfl

theorem mem_runsOf_of_isRun (h : IsRun p s before w after) : w ∈ runsOf p s := by
  rw [runsOf_eq_of_isRun h]
  exact List.mem_append_right _ List.mem_cons_self

theorem eq_false_of_head?_dropWhile (h : (s.dropWhile p).head? = some c) : p c = false := by
  have hnot := List.head?_dropWhile_not p s
  rw [h] at hnot
  simpa using hnot

/-- The run with which a text begins. -/
theorem isRun_takeWhile (hc : p c = true) (rest : List Char) :
    IsRun p (c :: rest) [] (c :: rest.takeWhile p) (rest.dropWhile p) where
  split := by rw [List.nil_append, List.cons_append, List.takeWhile_append_dropWhile]
  ne_nil := List.cons_ne_nil _ _
  all := List.forall_mem_cons.mpr ⟨hc, fun _ hd => List.mem_takeWhile_imp hd⟩
  left := nofun
  right := fun _ => eq_false_of_head?_dropWhile

/-- A run behind another one.  It does not begin where that one ends. -/
theorem IsRun.behind (h : IsRun p (rest.dropWhile p) before w after) :
    IsRun p (c :: rest) ((c :: rest.takeWhile p) ++ before) w after where
  split := by
    rw [List.append_assoc, ← h.split, List.cons_append, List.takeWhile_append_dropWhile]
  ne_nil := h.ne_nil
  all := h.all
  left := by
    intro d hd
    cases before with
    | nil =>
        obtain ⟨e, w, rfl⟩ := List.exists_cons_of_ne_nil h.ne_nil
        have hhead : (rest.dropWhile p).head? = some e := by
          rw [h.split]
          rfl
        exact absurd (h.all e List.mem_cons_self) (by simp [eq_false_of_head?_dropWhile hhead])
    | cons e before =>
        rw [List.getLast?_append, List.getLast?_cons, Option.some_or] at hd
        exact h.left d (by rw [List.getLast?_cons, hd])
  right := h.right

/-- A run behind a character that is in none. -/
theorem IsRun.cons (hc : p c = false) (h : IsRun p rest before w after) :
    IsRun p (c :: rest) (c :: before) w after where
  split := by rw [h.split]; rfl
  ne_nil := h.ne_nil
  all := h.all
  left := by
    intro d hd
    rw [List.getLast?_cons] at hd
    cases hlast : before.getLast? with
    | none =>
        rw [hlast] at hd
        obtain rfl : c = d := Option.some.inj hd
        exact hc
    | some e =>
        rw [hlast] at hd
        obtain rfl : e = d := Option.some.inj hd
        exact h.left e hlast
  right := h.right

/-- Every piece that `runsOf` gives is a run. -/
theorem exists_isRun (h : w ∈ runsOf p s) : ∃ before after, IsRun p s before w after := by
  fun_induction runsOf p s with
  | case1 => exact absurd h List.not_mem_nil
  | case2 c rest hc ih =>
      rcases List.mem_cons.mp h with rfl | hmem
      · exact ⟨[], rest.dropWhile p, isRun_takeWhile hc rest⟩
      · obtain ⟨before, after, hrun⟩ := ih hmem
        exact ⟨(c :: rest.takeWhile p) ++ before, after, hrun.behind⟩
  | case3 c rest hc ih =>
      obtain ⟨before, after, hrun⟩ := ih h
      exact ⟨c :: before, after, hrun.cons (by simpa using hc)⟩

/-! ## A narrower class -/

/-- **Runs in runs.**  The runs of a narrower class are those that are found in the runs of the wider
one. -/
theorem runsOf_refine (hpq : ∀ c, p c = true → q c = true) (s : List Char) :
    runsOf p s = (runsOf q s).flatMap (runsOf p) := by
  have hnot {c : Char} (hc : q c = false) : p c = false := by
    rw [Bool.eq_false_iff]
    exact fun h => absurd (hpq c h) (by simp [hc])
  fun_induction runsOf q s with
  | case1 => rw [runsOf_nil, List.flatMap_nil]
  | case2 c rest hc ih =>
      have hstop : ∀ d, (rest.dropWhile q).head? = some d → p d = false := fun _ hd =>
        hnot (eq_false_of_head?_dropWhile hd)
      rw [List.flatMap_cons, ← ih, ← runsOf_append _ hstop, List.cons_append,
        List.takeWhile_append_dropWhile]
  | case3 c rest hc ih => rw [runsOf_cons_of_neg (hnot (by simpa using hc)), ih]

end Runs

end CppDoc.Text
