import CppDoc.CommandLine

/-!
# Pages that are written stay

Pages are written into one directory, one after another.  A page whose name is not a path of its own
is put there under its name, so that pages with different names do not touch each other, and what has
been written can be read in the end.

* `start_join`: the place of a page is that of the directory with the name of the page behind it;
* `follow_put`: a new file is in nobody's way;
* `Stored`: a file is there; `Stored.write`: it stays when another file is written;
* `stored_writePages`: all the pages that have been written.
-/

namespace CppDoc

namespace Path

/-- A name that leads to a file of the directory that it is looked up in. -/
structure IsFileName (name : String) : Prop where
  plain : '/' ∉ name.toList
  kept : isIdle name.toList = false
  down : name ≠ ".."

theorem pieces_append (path rest : List Char) :
    pieces (path ++ '/' :: rest) = pieces path ++ pieces rest :=
  List.splitOnP_append_cons path rest (beq_self_eq_true '/')

theorem pieces_plain {piece : List Char} (h : '/' ∉ piece) : pieces piece = [piece] := by
  apply List.splitOnP_eq_singleton
  intro c hc
  have hne : c ≠ '/' := fun heq => h (heq ▸ hc)
  simpa using hne

theorem pieces_file {name : String} (h : '/' ∉ name.toList) :
    (pieces name.toList).map String.ofList = [name] := by
  rw [pieces_plain h, List.map_singleton, String.ofList_toList]

theorem pieces_below {name : String} (h : '/' ∉ name.toList) (path : List Char) :
    (pieces (path ++ '/' :: name.toList)).map String.ofList =
      (pieces path).map String.ofList ++ [name] := by
  rw [pieces_append, List.map_append, pieces_file h]

theorem head_plain {name : String} (h : '/' ∉ name.toList) : name.toList.head? ≠ some '/' :=
  fun hhead => h (List.mem_of_head? hhead)

/-- A file of a directory is written behind the directory and one separator. -/
theorem toList_join {dir : String} (hdir : dir ≠ "") :
    ∃ base : List Char, ∀ name : String, '/' ∉ name.toList →
      (join dir name).toList = base ++ '/' :: name.toList := by
  have hrelative {name : String} (hname : '/' ∉ name.toList) :
      (name.toList.head? == some '/' || dir.isEmpty) = false := by
    simpa [hdir] using head_plain hname
  by_cases hlast : dir.toList.getLast? = some '/'
  · obtain ⟨base, hbase⟩ := List.getLast?_eq_some_iff.mp hlast
    refine ⟨base, fun name hname => ?_⟩
    rw [join, hrelative hname]
    simp [hbase]
  · refine ⟨dir.toList, fun name hname => ?_⟩
    rw [join, hrelative hname]
    simp [hlast]

end Path

namespace FileTree

open CppDoc.Path

/-! ## Where a page goes -/

theorem start_relative {path : String} (h : path.toList.head? ≠ some '/') :
    start path = ([], (pieces path.toList).map String.ofList) := by
  unfold start
  cases hpath : path.toList with
  | nil => rfl
  | cons c rest =>
      have hc : c ≠ '/' := by
        intro hc
        rw [hpath, hc] at h
        exact h rfl
      simp [hc]

theorem start_absolute {path : String} {rest : List Char} (h : path.toList = '/' :: rest) :
    start path = (["/"], (pieces rest).map String.ofList) := by
  unfold start
  simp only [h]

/-- A file of a directory has the place of the directory with its own name behind it. -/
theorem start_join (dir : String) :
    ∃ (place : Place) (parts : List String), ∀ name : String, '/' ∉ name.toList →
      start (join dir name) = (place, parts ++ [name]) := by
  by_cases hdir : dir = ""
  · refine ⟨[], [], fun name hname => ?_⟩
    have hjoin : join dir name = name := by simp [join, hdir]
    rw [hjoin, start_relative (head_plain hname), pieces_file hname]
    rfl
  · obtain ⟨base, hbase⟩ := toList_join hdir
    cases base with
    | nil =>
        refine ⟨["/"], [], fun name hname => ?_⟩
        rw [start_absolute (hbase name hname), pieces_file hname]
        rfl
    | cons c rest =>
        by_cases hc : c = '/'
        · subst hc
          refine ⟨["/"], (pieces rest).map String.ofList, fun name hname => ?_⟩
          have habsolute : (join dir name).toList = '/' :: (rest ++ '/' :: name.toList) :=
            hbase name hname
          rw [start_absolute habsolute, pieces_below hname]
        · refine ⟨[], (pieces (c :: rest)).map String.ofList, fun name hname => ?_⟩
          have hrelative : (join dir name).toList.head? ≠ some '/' := by
            rw [hbase name hname]
            simpa using hc
          rw [start_relative hrelative, hbase name hname, pieces_below hname]

/-! ## Files in a directory -/

section Follow

variable {t : FileTree} {place : Place}

theorem entry?_put_self (hplace : place ≠ []) (entry : Entry) :
    entry? (t.put place entry) place = some entry := by
  have hnone : List.lookup place (t.entries.filter (·.1 != place)) = none := by
    apply List.lookup_eq_none_iff.mpr
    intro p hp
    have hne : p.1 ≠ place := by simpa using (List.mem_filter.mp hp).2
    simpa using hne.symm
  unfold entry? put
  rw [if_neg (by simpa using hplace), List.lookup_append, hnone, List.lookup_cons_self,
    Option.none_or]

theorem lookup_filter_ne {other : Place} (hne : other ≠ place) (entries : List (Place × Entry)) :
    List.lookup other (entries.filter (·.1 != place)) = List.lookup other entries := by
  induction entries with
  | nil => rfl
  | cons first rest ih =>
      obtain ⟨p, entry⟩ := first
      by_cases hp : p = place
      · have hother : (other == p) = false := beq_false_of_ne (hp ▸ hne)
        rw [List.filter_cons_of_neg (by simp [hp]), List.lookup_cons, hother, ih]
      · rw [List.filter_cons_of_pos (by simpa using hp), List.lookup_cons, List.lookup_cons, ih]

theorem entry?_put_ne {other : Place} (hne : other ≠ place) (entry : Entry) :
    entry? (t.put place entry) other = t.entry? other := by
  have hlast : List.lookup other [(place, entry)] = none := by
    rw [List.lookup_cons, beq_false_of_ne hne]
    rfl
  unfold entry? put
  rw [List.lookup_append, lookup_filter_ne hne, hlast, Option.or_none]

/-- The place where a part of a path leads. -/
def next? (origin : Place) (part : String) : Option Place :=
  if isIdle part.toList then some origin
  else if part = ".." then some (up origin)
  else if isName part then some (origin ++ [part])
  else none

/-- A path that can be followed goes from one directory to the next. -/
theorem follow_cons {origin target : Place} {part : String} {rest : List String} :
    t.follow origin (part :: rest) = .ok target ↔
      t.entry? origin = some .directory ∧
        ∃ next, next? origin part = some next ∧ t.follow next rest = .ok target := by
  unfold next?
  rw [follow]
  cases t.entry? origin with
  | none => simp
  | some entry =>
      cases entry with
      | file text => simp
      | directory =>
          by_cases hidle : isIdle part.toList
          · simp [hidle]
          · by_cases hup : part = ".."
            · simp only [if_neg hidle, if_pos hup]
              simp
            · by_cases hname : isName part <;> simp [hidle, hup, hname]

/-- **New files.**  A file is in the way of no path that has been followed before. -/
theorem follow_put (hplace : t.entry? place ≠ some .directory) (text : Option String)
    {origin target : Place} {parts : List String} (h : t.follow origin parts = .ok target) :
    (t.put place (.file text)).follow origin parts = .ok target := by
  induction parts generalizing origin with
  | nil => exact h
  | cons part rest ih =>
      obtain ⟨horigin, next, hnext, hrest⟩ := follow_cons.mp h
      have hne : origin ≠ place := fun heq => hplace (heq ▸ horigin)
      exact follow_cons.mpr ⟨by rw [entry?_put_ne hne, horigin], next, hnext, ih hrest⟩

/-- A path to a file leads through its directory. -/
theorem follow_concat {origin target : Place} {parts : List String} {name : String}
    (hname : IsFileName name) (h : t.follow origin (parts ++ [name]) = .ok target) :
    ∃ dir, t.follow origin parts = .ok dir ∧ target = dir ++ [name] := by
  induction parts generalizing origin with
  | nil =>
      obtain ⟨-, next, hnext, hrest⟩ := follow_cons.mp h
      refine ⟨origin, rfl, ?_⟩
      have htarget : next = target := Except.ok.inj hrest
      unfold next? at hnext
      rw [if_neg (by simp [hname.kept]), if_neg hname.down] at hnext
      split at hnext
      · exact htarget.symm.trans (Option.some.inj hnext).symm
      · exact nomatch hnext
  | cons part rest ih =>
      obtain ⟨horigin, next, hnext, hrest⟩ := follow_cons.mp h
      obtain ⟨dir, hdir, htarget⟩ := ih hrest
      exact ⟨dir, follow_cons.mpr ⟨horigin, next, hnext, hdir⟩, htarget⟩

end Follow

section Resolve

variable {t t' : FileTree} {path text : String}

/-- A path that leads somewhere is followed from its start. -/
theorem resolve_eq_ok {place : Place} :
    t.resolve path = .ok place ↔
      (path ≠ "" ∧ isPath path = true) ∧ t.follow (start path).1 (start path).2 = .ok place := by
  unfold resolve
  by_cases hempty : path = ""
  · simp [hempty]
  · by_cases hpath : isPath path = true
    · simp [hempty, hpath]
    · simp [hempty, hpath]

/-- Files of one directory with different names have different places. -/
theorem resolve_join_ne {dir name other : String} {place place' : Place}
    (hname : IsFileName name) (hother : IsFileName other) (hne : name ≠ other)
    (h : t.resolve (join dir name) = .ok place) (h' : t.resolve (join dir other) = .ok place') :
    place ≠ place' := by
  obtain ⟨origin, parts, hstart⟩ := start_join dir
  have hfollow {file : String} {target : Place} (hfile : IsFileName file)
      (hresolve : t.resolve (join dir file) = .ok target) :
      ∃ inside, t.follow origin parts = .ok inside ∧ target = inside ++ [file] := by
    have hpath := (resolve_eq_ok.mp hresolve).2
    rw [hstart file hfile.plain] at hpath
    exact follow_concat hfile hpath
  obtain ⟨inside, hinside, rfl⟩ := hfollow hname h
  obtain ⟨inside', hinside', rfl⟩ := hfollow hother h'
  intro heq
  exact hne (List.cons.inj (List.append_inj' heq rfl).2).1

/-- A file is written to the place where its path leads. -/
theorem place_of_write (h : t.write path text = some t') :
    ∃ place, t.resolve path = .ok place ∧ t.entry? place ≠ some .directory ∧
      t' = t.put place (.file (some text)) := by
  unfold write at h
  split at h
  · exact nomatch h
  · rename_i place hresolve
    split at h
    · exact nomatch h
    · rename_i hfile
      exact ⟨place, hresolve, hfile, (Option.some.inj h).symm⟩

/-- The path leads to a file with the text. -/
def Stored (t : FileTree) (path text : String) : Prop :=
  ∃ place, t.resolve path = .ok place ∧ t.entry? place = some (.file (some text))

theorem Stored.read (h : t.Stored path text) : t.read path = .text text := by
  obtain ⟨place, hresolve, hentry⟩ := h
  simp only [FileTree.read, hresolve, hentry]

theorem resolve_put {place target : Place} (hplace : t.entry? place ≠ some .directory)
    (content : Option String) (h : t.resolve path = .ok target) :
    (t.put place (.file content)).resolve path = .ok target := by
  obtain ⟨hpath, hfollow⟩ := resolve_eq_ok.mp h
  exact resolve_eq_ok.mpr ⟨hpath, follow_put hplace content hfollow⟩

/-- What has been written is there. -/
theorem stored_write (h : t.write path text = some t') : t'.Stored path text := by
  obtain ⟨place, hresolve, hfile, rfl⟩ := place_of_write h
  have hplace : place ≠ [] := by
    rintro rfl
    exact hfile rfl
  exact ⟨place, resolve_put hfile _ hresolve, entry?_put_self hplace _⟩

/-- **Other files.**  Writing a file of a directory leaves the other files of it as they are. -/
theorem Stored.write {dir name other content : String} (h : t.Stored (join dir name) content)
    (hname : IsFileName name) (hother : IsFileName other) (hne : name ≠ other)
    (hwrite : t.write (join dir other) text = some t') : t'.Stored (join dir name) content := by
  obtain ⟨place, hresolve, hentry⟩ := h
  obtain ⟨place', hresolve', hfile, rfl⟩ := place_of_write hwrite
  have hplaces := resolve_join_ne hname hother hne hresolve hresolve'
  refine ⟨place, resolve_put hfile _ hresolve, ?_⟩
  rw [entry?_put_ne hplaces, hentry]

end Resolve

end FileTree

/-! ## The pages of a run -/

namespace CommandLine

open FileTree CppDoc.Path

/-- A file of the directory stays as it is while pages with other names are written. -/
theorem stored_of_writePages {output name content : String} {t t' : FileTree} {pages : List Page}
    (hname : IsFileName name) (hpages : ∀ page ∈ pages, IsFileName page.name ∧ name ≠ page.name)
    (hstored : t.Stored (join output name) content) (h : writePages output t pages = (t', none)) :
    t'.Stored (join output name) content := by
  induction pages generalizing t with
  | nil =>
      obtain rfl : t = t' := congrArg Prod.fst h
      exact hstored
  | cons page rest ih =>
      obtain ⟨hfile, hne⟩ := hpages page List.mem_cons_self
      unfold writePages at h
      cases hwrite : t.write (join output page.name) page.content with
      | none => simp [hwrite] at h
      | some next =>
          simp only [hwrite] at h
          have hnext := hstored.write hname hfile hne hwrite
          exact ih (fun p hp => hpages p (List.mem_cons_of_mem page hp)) hnext h

/-- **Every page is kept.**  Once pages with different names have been written, each of them is
there. -/
theorem stored_writePages {output : String} {t t' : FileTree} {pages : List Page}
    (hfiles : ∀ page ∈ pages, IsFileName page.name) (hnodup : (pages.map Page.name).Nodup)
    (h : writePages output t pages = (t', none)) :
    ∀ page ∈ pages, t'.Stored (join output page.name) page.content := by
  induction pages generalizing t with
  | nil =>
      intro page hpage
      exact absurd hpage List.not_mem_nil
  | cons first rest ih =>
      obtain ⟨hnew, hrest⟩ := List.nodup_cons.mp hnodup
      unfold writePages at h
      cases hwrite : t.write (join output first.name) first.content with
      | none => simp [hwrite] at h
      | some next =>
          simp only [hwrite] at h
          intro page hpage
          rcases List.mem_cons.mp hpage with rfl | hpage
          · have hnext := stored_write hwrite
            refine stored_of_writePages (hfiles page List.mem_cons_self) (fun other hother => ?_)
              hnext h
            refine ⟨hfiles other (List.mem_cons_of_mem _ hother), fun hsame => hnew ?_⟩
            rw [hsame]
            exact List.mem_map_of_mem hother
          · exact ih (fun p hp => hfiles p (List.mem_cons_of_mem first hp)) hrest h page hpage

end CommandLine

end CppDoc
