import Mathlib.Data.String.Basic
import CppDoc.Proofs.Discovery.Order
import CppDoc.Proofs.Page.Store

/-!
# Paths with one part more

A path that is made longer by a part has the components of that part more, and it leads to where the
part leads from there.

* `components_join`: the components of a path with more behind it;
* `resolve_join`: where a path with one part more leads;
* `isPath_of_sublist`: a path of which a longer one is short enough.
-/

namespace CppDoc

namespace Path

/-! ## Pieces of paths -/

/-- The components that stand for the pieces of a path. -/
def named (ps : List (List Char)) : List Component :=
  (ps.filter fun p => !isIdle p).map fun p => if p = ['.', '.'] then .up else .name p

/-- The component that marks where a path starts. -/
def startMark : List Char → List Component
  | ['/'] => [.root]
  | ['.'] => [.here]
  | _ => []

theorem components_eq (path : String) :
    components path =
      startMark (splitStart path.toList).1 ++ named (pieces (splitStart path.toList).2) := by
  simp only [components, named]
  rfl

/-- The start of a path does not depend on what is written behind it. -/
theorem splitStart_append {path : List Char} (hne : path ≠ []) (rest : List Char) :
    splitStart (path ++ '/' :: rest) =
      ((splitStart path).1, (splitStart path).2 ++ '/' :: rest) := by
  obtain ⟨c, cs, rfl⟩ := List.exists_cons_of_ne_nil hne
  by_cases hroot : c = '/'
  · simp [splitStart, hroot]
  by_cases hhere : c = '.'
  · subst hhere
    cases cs with
    | nil => rfl
    | cons d ds => by_cases hd : d = '/' <;> simp [splitStart, hd]
  · simp [splitStart, hroot, hhere]

/-- What is written behind a path and a separator adds its own components. -/
theorem components_behind {path joined : String} {rest : List Char} (hne : path ≠ "")
    (hjoined : joined.toList = path.toList ++ '/' :: rest) :
    components joined = components path ++ named (pieces rest) := by
  have hchars : path.toList ≠ [] := by simpa using hne
  rw [components_eq, components_eq, hjoined, splitStart_append hchars, pieces_append]
  simp [named]

/-- A path is joined to a directory with one separator between. -/
theorem join_relative {dir name : String} (hdir : dir ≠ "") (hname : name.toList.head? ≠ some '/') :
    join dir name = (if dir.toList.getLast? = some '/' then dir else dir ++ "/") ++ name := by
  have hrelative : (name.toList.head? == some '/' || dir.isEmpty) = false := by
    simpa [hdir] using hname
  rw [join, hrelative]
  by_cases hlast : dir.toList.getLast? = some '/'
  · simp [hlast]
  · simp [hlast]

theorem toList_join_of_head {dir name : String} (hdir : dir ≠ "")
    (hname : name.toList.head? ≠ some '/') :
    ∃ base : List Char, (dir.toList = base ∨ dir.toList = base ++ ['/']) ∧
      (join dir name).toList = base ++ '/' :: name.toList := by
  rw [join_relative hdir hname]
  split
  · rename_i hlast
    obtain ⟨base, hbase⟩ := List.getLast?_eq_some_iff.mp hlast
    exact ⟨base, .inr hbase, by simp [hbase]⟩
  · exact ⟨dir.toList, .inl rfl, by simp⟩

theorem components_join {dir name : String} (hdir : dir ≠ "")
    (hname : name.toList.head? ≠ some '/') :
    components (join dir name) = components dir ++ named (pieces name.toList) := by
  obtain ⟨base, hbase, hjoin⟩ := toList_join_of_head hdir hname
  rcases hbase with hbase | hbase
  · exact components_behind hdir (hbase ▸ hjoin)
  · by_cases hroot : base = []
    · -- the directory is the root
      have hdirectory : components dir = [.root] := by
        rw [components_eq, hbase, hroot]
        rfl
      rw [hdirectory, components_eq, hjoin, hroot]
      rfl
    · have hne : String.ofList base ≠ "" := by simpa using hroot
      have hdirectory : components dir = components (String.ofList base) ++ named (pieces []) :=
        components_behind hne (by simpa using hbase)
      have hjoined : components (join dir name) =
          components (String.ofList base) ++ named (pieces name.toList) :=
        components_behind hne (by simpa using hjoin)
      rw [hjoined, hdirectory]
      simp [pieces, named, isIdle]

/-- A part of a path by itself. -/
theorem components_part {part : String} (hpart : '/' ∉ part.toList) (hne : part ≠ ".") :
    components part = named [part.toList] := by
  have hstart : splitStart part.toList = ([], part.toList) := by
    have hchars : part.toList ≠ ['.'] := fun h => hne (String.toList_injective h)
    cases hcs : part.toList with
    | nil => rfl
    | cons c cs =>
        rw [hcs] at hpart hchars
        have hc : c ≠ '/' := fun h => hpart (h ▸ List.mem_cons_self)
        cases cs with
        | nil =>
            simp [splitStart, hc]
        | cons d ds =>
            have hd : d ≠ '/' := fun h => hpart (h ▸ List.mem_cons_of_mem c List.mem_cons_self)
            simp [splitStart, hc, hd]
  rw [components_eq, hstart, pieces_plain hpart]
  rfl

/-- No component behind the start of a path marks the current directory. -/
theorem here_not_mem_named (ps : List (List Char)) : Component.here ∉ named ps := by
  intro h
  obtain ⟨p, -, hp⟩ := List.mem_map.mp h
  split at hp <;> exact nomatch hp

theorem IsFileName.ne_empty {name : String} (hname : IsFileName name) : name ≠ "" := by
  rintro rfl
  exact nomatch hname.kept

end Path

namespace FileTree

open CppDoc.Path

variable {t : FileTree}

/-! ## Where paths lead -/

/-- A path is short enough if it is a part of one that is. -/
theorem isPath_of_sublist {path longer : String} (h : path.toList.Sublist longer.toList)
    (hlonger : isPath longer = true) : isPath path = true := by
  have hbytes : path.utf8ByteSize ≤ longer.utf8ByteSize := by
    rw [← String.ofList_toList (s := path), ← String.ofList_toList (s := longer),
      String.utf8ByteSize_ofList, String.utf8ByteSize_ofList]
    exact String.utf8Len_le_of_sublist h
  simp only [isPath, Bool.and_eq_true, decide_eq_true_eq, Bool.not_eq_true', List.contains_eq_mem,
    decide_eq_false_iff_not] at hlonger ⊢
  exact ⟨Nat.lt_of_le_of_lt hbytes hlonger.1, fun hmem => hlonger.2 (h.subset hmem)⟩

/-- A path is followed piece by piece. -/
theorem follow_append (origin : Place) (parts rest : List String) :
    t.follow origin (parts ++ rest) = (t.follow origin parts).bind (t.follow · rest) := by
  induction parts generalizing origin with
  | nil => rfl
  | cons part parts ih =>
      rw [List.cons_append, follow, follow]
      cases t.entry? origin with
      | none => rfl
      | some entry =>
          cases entry with
          | file text => rfl
          | directory =>
              by_cases hidle : isIdle part.toList
              · simp only [if_pos hidle, ih]
              by_cases hup : part = ".."
              · simp only [if_neg hidle, if_pos hup, ih]
              by_cases hname : isName part
              · simp only [if_neg hidle, if_neg hup, if_pos hname, ih]
              · simp only [if_neg hidle, if_neg hup, if_neg hname]
                rfl

theorem start_ofList_append {base : List Char} (hbase : base ≠ []) (piece : List Char)
    (hpiece : '/' ∉ piece) {path : String} (hpath : path.toList = base ++ '/' :: piece) :
    start path = ((start (String.ofList base)).1,
      (start (String.ofList base)).2 ++ [String.ofList piece]) := by
  obtain ⟨c, cs, rfl⟩ := List.exists_cons_of_ne_nil hbase
  by_cases hc : c = '/'
  · subst hc
    have hstart : start (String.ofList ('/' :: cs)) = (["/"], (pieces cs).map String.ofList) :=
      start_absolute (by simp)
    have habsolute : path.toList = '/' :: (cs ++ '/' :: piece) := hpath
    rw [hstart, start_absolute habsolute, pieces_append, pieces_plain hpiece, List.map_append]
    rfl
  · have hstart : start (String.ofList (c :: cs)) = ([], (pieces (c :: cs)).map String.ofList) := by
      rw [start_relative (by simpa using hc), String.toList_ofList]
    have hrelative : path.toList.head? ≠ some '/' := by
      rw [hpath]
      simpa using hc
    rw [hstart, start_relative hrelative, hpath, pieces_append, pieces_plain hpiece,
      List.map_append]
    rfl

theorem eq_of_follow_empty {origin place : Place} (h : t.follow origin [""] = .ok place) :
    origin = place := by
  obtain ⟨-, next, hnext, hrest⟩ := follow_cons.mp h
  exact (Option.some.inj hnext).trans (Except.ok.inj hrest)

/-- A separator at the end of a path leads no further. -/
theorem follow_start_of_separator {base : List Char} (hne : base ≠ []) {path : String} {place : Place}
    (hbase : path.toList = base ∨ path.toList = base ++ ['/'])
    (h : t.follow (start path).1 (start path).2 = .ok place) :
    t.follow (start (String.ofList base)).1 (start (String.ofList base)).2 = .ok place := by
  rcases hbase with hbase | hbase
  · rwa [← hbase, String.ofList_toList]
  · rw [start_ofList_append hne [] (by simp) hbase, follow_append] at h
    cases hfirst : t.follow (start (String.ofList base)).1 (start (String.ofList base)).2 with
    | error e =>
        rw [hfirst] at h
        cases h
    | ok mid =>
        rw [hfirst] at h
        obtain rfl : mid = place := eq_of_follow_empty h
        rfl

/-- **One part more.**  A path with a part behind it leads where the part leads from there. -/
theorem resolve_join {path part : String} {place : Place} (h : t.resolve path = .ok place)
    (hpart : '/' ∉ part.toList) (hpath : isPath (join path part) = true) :
    t.resolve (join path part) = t.follow place [part] := by
  obtain ⟨⟨hne, -⟩, hfollow⟩ := resolve_eq_ok.mp h
  obtain ⟨base, hbase, hjoin⟩ := toList_join_of_head hne (head_plain hpart)
  have hjoined : join path part ≠ "" := by
    intro heq
    rw [heq] at hjoin
    simp at hjoin
  have hresolve : t.resolve (join path part) =
      t.follow (start (join path part)).1 (start (join path part)).2 := by
    simp [resolve, hjoined, hpath]
  rw [hresolve]
  by_cases hroot : base = []
  · -- the path is the root
    obtain rfl : path = "/" := by
      apply String.toList_injective
      rcases hbase with hbase | hbase
      · rw [hroot] at hbase
        exact absurd (String.toList_injective hbase) hne
      · rw [hbase, hroot]
        rfl
    have habsolute : (join "/" part).toList = '/' :: part.toList := by
      rw [hjoin, hroot]
      rfl
    rw [start_absolute habsolute, pieces_file hpart]
    obtain rfl : ["/"] = place := eq_of_follow_empty hfollow
    rfl
  · rw [start_ofList_append hroot _ hpart hjoin, String.ofList_toList, follow_append,
      follow_start_of_separator hroot hbase hfollow]
    rfl

end FileTree

end CppDoc
