import CppDoc.Discovery
import CppDoc.Proofs.LineEndings.Text

/-!
# Trees and line endings

`FileTree.crlf` changes the line endings in every file of a tree.  Paths lead to the same places, the
same source files are found, and what is read of a file is its text with the other line endings.

* `resolve_crlf` and `read_crlf`: paths;
* `discover_crlf`: the source files of a project.
-/

namespace CppDoc

open CppDoc.Text

/-- An entry with the other line endings. -/
def Entry.crlf : Entry → Entry
  | .file text => .file (text.map crlfText)
  | .directory => .directory

/-- A tree with the other line endings in all files. -/
def FileTree.crlf (t : FileTree) : FileTree :=
  ⟨t.entries.map fun (place, entry) => (place, entry.crlf)⟩

/-- What is read, with the other line endings. -/
def ReadResult.crlf : ReadResult → ReadResult
  | .text s => .text (crlfText s)
  | .missing => .missing
  | .unreadable => .unreadable

namespace FileTree

variable (t : FileTree)

theorem entry?_crlf (place : Place) : t.crlf.entry? place = ( t.entry? place).map Entry.crlf := by
  have hlookup (entries : List (Place × Entry)) :
      (entries.map fun (place, entry) => (place, Entry.crlf entry)).lookup place =
        (entries.lookup place).map Entry.crlf := by
    induction entries with
    | nil => rfl
    | cons e rest ih =>
        rw [List.map_cons, List.lookup_cons, List.lookup_cons, ih]
        split <;> rfl
  unfold entry?
  split
  · rfl
  · exact hlookup t.entries

theorem follow_crlf (place : Place) (parts : List String) :
    t.crlf.follow place parts = t.follow place parts := by
  induction parts generalizing place with
  | nil => rfl
  | cons part rest ih =>
      rw [follow, follow, entry?_crlf]
      cases t.entry? place with
      | none => rfl
      | some entry =>
          cases entry with
          | file text => rfl
          | directory =>
              simp only [Option.map_some, Entry.crlf, ih]

theorem resolve_crlf (path : String) : t.crlf.resolve path = t.resolve path := by
  rw [resolve, resolve, follow_crlf]

theorem at?_crlf (path : String) : t.crlf.at? path = (t.at? path).map Entry.crlf := by
  rw [at?, at?, resolve_crlf]
  cases t.resolve path with
  | ok place => exact entry?_crlf t place
  | error e => rfl

theorem isDirectory_crlf (path : String) : t.crlf.isDirectory path = t.isDirectory path := by
  rw [isDirectory, isDirectory, at?_crlf]
  rcases t.at? path with _ | ⟨_ | _⟩ | _ <;> rfl

theorem isFile_crlf (path : String) : t.crlf.isFile path = t.isFile path := by
  rw [isFile, isFile, at?_crlf]
  rcases t.at? path with _ | ⟨_ | _⟩ | _ <;> rfl

/-- A path that leads nowhere gives no text. -/
theorem crlf_of_resolve_error {path : String} {e : ReadResult} (h : t.resolve path = .error e) :
    e.crlf = e := by
  have hfollow (place : Place) (parts : List String) (hparts : t.follow place parts = .error e) :
      e.crlf = e := by
    induction parts generalizing place with
    | nil => exact nomatch hparts
    | cons part rest ih =>
        rw [follow] at hparts
        split at hparts
        · obtain rfl := Except.error.inj hparts
          rfl
        · obtain rfl := Except.error.inj hparts
          rfl
        · split at hparts
          · exact ih _ hparts
          · split at hparts
            · exact ih _ hparts
            · split at hparts
              · exact ih _ hparts
              · obtain rfl := Except.error.inj hparts
                rfl
  unfold resolve at h
  split at h
  · obtain rfl := Except.error.inj h
    rfl
  · split at h
    · exact hfollow _ _ h
    · obtain rfl := Except.error.inj h
      rfl

/-- What is read of a file has the other line endings. -/
theorem read_crlf (path : String) : t.crlf.read path = (t.read path).crlf := by
  rw [read, read, resolve_crlf]
  cases hplace : t.resolve path with
  | error e => exact (t.crlf_of_resolve_error hplace).symm
  | ok place =>
      simp only [entry?_crlf]
      rcases t.entry? place with _ | ⟨_ | _⟩ | _ <;> rfl

theorem below_crlf (place : Place) : t.crlf.below place = t.below place := by
  simp only [below, crlf, List.filterMap_map]
  rfl

end FileTree

namespace Discovery

variable (t : FileTree)

theorem follow_crlf (path : String) (parts : List String) :
    follow t.crlf path parts = follow t path parts := by
  have hstep : step t.crlf = step t := by
    funext path part
    simp only [step, FileTree.isDirectory_crlf, FileTree.at?_crlf, Option.isSome_map]
  rw [follow, follow, hstep]

theorem candidates_crlf (root suffix : String) :
    candidates t.crlf root suffix = candidates t root suffix := by
  simp only [candidates, base?, endingIn, follow_crlf, FileTree.resolve_crlf, FileTree.below_crlf]

/-- **Discovery.**  The same source files are found. -/
theorem discover_crlf (root suffix : String) : discover t.crlf root suffix = discover t root suffix := by
  have hfile : t.crlf.isFile = t.isFile := funext t.isFile_crlf
  rw [discover, discover, candidates_crlf, hfile]

end Discovery

end CppDoc
