/-!
# Lists

Facts about lists that several invariants need: lists in which only the first occurrence of each
element is kept, lists of which one element is changed or taken up, and lists that are put together
from pieces.
-/

namespace CppDoc

section FirstOccurrences

variable {α : Type} [BEq α] [LawfulBEq α] {l : List α} {a : α}

/-- An element that has occurred adds nothing. -/
theorem eraseDups_concat_of_mem (h : a ∈ l) : (l ++ [a]).eraseDups = l.eraseDups := by
  have hnone : [a].removeAll l = [] := by
    apply List.filter_eq_nil_iff.mpr
    intro b hb
    obtain rfl := List.mem_singleton.mp hb
    rw [List.elem_eq_true_of_mem h]
    decide
  rw [List.eraseDups_append, hnone]
  simp

/-- A new element is added at the end. -/
theorem eraseDups_concat_of_not_mem (h : a ∉ l) : (l ++ [a]).eraseDups = l.eraseDups ++ [a] := by
  have hone : [a].removeAll l = [a] := by
    apply List.filter_eq_self.mpr
    intro b hb
    obtain rfl := List.mem_singleton.mp hb
    simpa using h
  rw [List.eraseDups_append, hone]
  rfl

theorem nodup_eraseDups (l : List α) : l.eraseDups.Nodup := by
  induction hlen : l.length using Nat.strongRecOn generalizing l with
  | ind n ih =>
      cases l with
      | nil => simp
      | cons a rest =>
          rw [List.eraseDups_cons]
          refine List.nodup_cons.mpr ⟨by simp [List.mem_eraseDups], ih _ ?_ _ rfl⟩
          have hle := List.length_filter_le (fun b => !b == a) rest
          rw [List.length_cons] at hlen
          omega

/-- Elements may be left out before or after. -/
theorem filter_eraseDups (q : α → Bool) (l : List α) :
    l.eraseDups.filter q = (l.filter q).eraseDups := by
  induction hlen : l.length using Nat.strongRecOn generalizing l with
  | ind n ih =>
      cases l with
      | nil => rfl
      | cons a rest =>
          have hle := List.length_filter_le (fun b => !b == a) rest
          rw [List.length_cons] at hlen
          have hrest := ih _ (by omega) (rest.filter fun b => !b == a) rfl
          rw [List.eraseDups_cons, List.filter_cons, List.filter_cons, hrest]
          split
          · rw [List.eraseDups_cons, List.filter_filter, List.filter_filter]
            simp only [Bool.and_comm]
          · rename_i hq
            -- What is kept is none of the occurrences of `a`.
            have hother : (rest.filter fun b => !b == a).filter q = rest.filter q := by
              rw [List.filter_filter]
              refine List.filter_congr fun b _ => ?_
              by_cases hb : b = a
              · rw [hb, Bool.eq_false_iff.mpr hq]
                rfl
              · simp [hb]
            rw [hother]

end FirstOccurrences

/-- Changing one element of a list does not matter to what the change leaves alone. -/
theorem map_modify_eq {α β : Type} {f : α → α} {g : α → β} (h : ∀ a, g (f a) = g a) (l : List α)
    (i : Nat) : (l.modify i f).map g = l.map g := by
  apply List.ext_getElem?
  intro j
  rw [List.getElem?_map, List.getElem?_map, List.getElem?_modify]
  by_cases hij : i = j <;> simp [hij, h, Function.comp_def]

/-- Where an element stands in a list of pieces: in one of the pieces, behind those before it. -/
theorem flatMap_eq_append_cons {α β : Type} {f : α → List β} {l : List α} {before after : List β}
    {x : β} (h : l.flatMap f = before ++ x :: after) :
    ∃ l₁ a l₂ b₁ b₂, l = l₁ ++ a :: l₂ ∧ f a = b₁ ++ x :: b₂ ∧ before = l₁.flatMap f ++ b₁ := by
  induction l generalizing before with
  | nil => simp at h
  | cons a rest ih =>
      rw [List.flatMap_cons] at h
      rcases List.append_eq_append_iff.mp h with ⟨b, hbefore, hrest⟩ | ⟨b, hfirst, hbehind⟩
      · obtain ⟨l₁, a', l₂, b₁, b₂, hl, ha, hb⟩ := ih hrest
        refine ⟨a :: l₁, a', l₂, b₁, b₂, by rw [hl]; rfl, ha, ?_⟩
        rw [hbefore, hb, List.flatMap_cons, List.append_assoc]
      · cases b with
        | nil =>
            have hrest : rest.flatMap f = [] ++ x :: after := hbehind.symm
            obtain ⟨l₁, a', l₂, b₁, b₂, hl, ha, hb⟩ := ih hrest
            refine ⟨a :: l₁, a', l₂, b₁, b₂, by rw [hl]; rfl, ha, ?_⟩
            rw [List.append_nil] at hfirst
            rw [← hfirst, List.flatMap_cons, List.append_assoc, ← hb, List.append_nil]
        | cons y b =>
            obtain ⟨rfl, -⟩ := List.cons.inj hbehind
            exact ⟨[], a, rest, before, b, rfl, hfirst, rfl⟩

/-- A search through pieces is one through the list, if it finds the same in every piece. -/
theorem findSome?_flatMap_eq {α β γ : Type} {f : α → List β} {g : β → Option γ} {k : α → Option γ}
    {l : List α} (h : ∀ a ∈ l, (f a).findSome? g = k a) : (l.flatMap f).findSome? g = l.findSome? k := by
  induction l with
  | nil => rfl
  | cons a rest ih =>
      obtain ⟨ha, hrest⟩ := List.forall_mem_cons.mp h
      rw [List.flatMap_cons, List.findSome?_append, ha, ih hrest, List.findSome?_cons]
      cases k a <;> rfl

end CppDoc
