import CppDoc.Proofs.Manual.Layout

/-!
# Where the links of a manual lead

The links of a manual lead to classes and functions that have been found.  What they lead to need
not be in the manual, since internal documentation and functions that reimplement others may have no
section; but if it is, no link dangles: its page is among the pages, and its anchor is on that page.
Only on the page of a namesake, a chapter or a class whose page has the same name as that of the
class that is meant, a link within the page may find no anchor.

* `LeadsTo`: what a link leads to; `IsShown`: whether that is in the manual;
* `Resolves`: a reference on a page finds its target;
* `run_links`: the links of a project.
-/

namespace CppDoc

/-- Does the headline stand in the documentation of the class of a name? -/
def Headline.isWithin (className : String) : Headline → Bool
  | .chapter _ => false
  | .classPage name => name == className
  | .function f => f.owner == className

namespace Html

/-! ## References on pages -/

/-- The anchor is on the page. -/
def HasAnchor (page : Page) (anchor : String) : Prop :=
  Shows page.content (anchorMarkup anchor)

/-- A reference on the page `here` finds its target: one of the pages, an anchor on one of them, or
an anchor on the page itself. -/
inductive Resolves (pages : List Page) (here : Page) : String → Prop
  | page {page : Page} (h : page ∈ pages) : Resolves pages here (escape page.name)
  | anchor {page : Page} (h : page ∈ pages) {anchor : String} (hanchor : HasAnchor page anchor) :
      Resolves pages here (escape page.name ++ "#" ++ escape anchor)
  | within {anchor : String} (hanchor : HasAnchor here anchor) :
      Resolves pages here ("#" ++ escape anchor)

theorem escape_append (s t : String) : escape (s ++ t) = escape s ++ escape t := by
  simp [escape, String.toList_append, String.join_append]

/-- The name of a file as it is written in a reference. -/
theorem escape_fileName (name : String) :
    escape (name ++ "." ++ extension) = escape name ++ "." ++ extension := by
  have hdot : escape "." = "." := by decide
  have hextension : escape extension = extension := by decide
  rw [escape_append, escape_append, hdot, hextension]

theorem contentMarkup_classLink (current : Option String) (text className : String) :
    contentMarkup current (.classLink text className) =
      linkMarkup (.toClass className text)
        (if current = some (pageName className) then none
          else some (pageHref current (pageName className))) := rfl

theorem contentMarkup_functionLink (current : Option String) (text : String) (f : MemberRef) :
    contentMarkup current (.functionLink text f) =
      linkMarkup (.toFunction f text)
        (some (pageHref current (pageName f.owner) ++ "#" ++ escape f.anchor)) := rfl

/-- Does the content refer to an anchor within the page being written, although the last headline is
that of another chapter or class?  Then two pages have the same name. -/
def IsOnNamesake (current : Option String) (headlines : List Headline) : Content → Prop
  | .functionLink _ f =>
    current = some (pageName f.owner) ∧ ¬headlines.getLast?.any (·.isWithin f.owner)
  | _ => False

end Html

namespace Manual

open CppDoc.Registry

/-! ## What links lead to -/

/-- The class or function that a link leads to. -/
inductive LeadsTo (reg : Registry) : Content → Subject → Prop
  | classPage (text : String) {c : ClassId} (hc : reg.HasClass c) :
      LeadsTo reg (.classLink text (reg.getClass c).name) (.classPage c)
  | function (text : String) {f : FunctionId} (hf : reg.HasFunction f) :
      LeadsTo reg (.functionLink text (reg.memberRef f)) (.function f)

/-- Is the target of links in the manual?  A class is if it has a section, of its own or that of a
member, and a function if its class has a member with a section and the same anchor. -/
def IsShown (reg : Registry) : Subject → Prop
  | .classPage c =>
    ((reg.getClass c).origin.isSome ∧ hasSection reg (.classPage c)) ∨
      ∃ m, (reg.function m).owner = c ∧ hasSection reg (.function m)
  | .function f =>
    ∃ m, (reg.function m).owner = (reg.function f).owner ∧ hasSection reg (.function m) ∧
      (reg.memberRef m).anchor = (reg.memberRef f).anchor
  | .chapter ch => hasSection reg (.chapter ch)

variable {reg : Registry}

theorem hasClass_of_speaks (hreg : reg.WellFormed) {c : ClassId} (h : reg.SpeaksOfClass c) :
    reg.HasClass c := by
  rcases h with h | ⟨d, hd⟩
  · exact h
  · have hclass : reg.HasClass d := by
      refine Classical.byContradiction fun habsent => ?_
      rw [getClass_absent habsent] at hd
      rcases hd with hd | hd <;> exact nomatch hd
    have hfits := hreg.classes d _ (getElem?_getClass hclass)
    rcases hd with hparent | hchild
    · exact hfits.parent c hparent
    · exact hfits.children c hchild

theorem hasFunction_of_speaks (hreg : reg.WellFormed) {f : FunctionId}
    (h : reg.SpeaksOfFunction f) : reg.HasFunction f := by
  rcases h with h | ⟨c, hc⟩
  · exact h
  · exact (hreg.classes c _ (getElem?_getClass (hasClass_of_member hc))).members f hc

/-- A link in the manual leads to a class or a function. -/
theorem leadsTo_of_body (hreg : reg.WellFormed) {c : Content} (hc : c.isReference = true)
    (h : Markup.Body reg (.content c)) : ∃ s, LeadsTo reg c s := by
  cases h with
  | plain hplain => exact absurd (hc.symm.trans hplain) (by decide)
  | classLink text hclass => exact ⟨_, .classPage text (hasClass_of_speaks hreg hclass)⟩
  | functionLink text hfunction =>
      exact ⟨_, .function text (hasFunction_of_speaks hreg hfunction)⟩

/-! ## Where the targets stand -/

/-- A headline that stands in the documentation of a class is that of the class or of a member. -/
theorem home_of_isWithin (hreg : reg.WellFormed) {s : Subject} (hs : s ∈ contents reg)
    {c : ClassId} (hc : reg.HasClass c)
    (h : (reg.headline s).isWithin (reg.getClass c).name = true) : home reg s = .classPage c := by
  obtain ⟨d, hd, _⟩ := docOf_of_hasSection (hasSection_of_mem_contents hs)
  have hthere := hasSubject_of_docOf hd
  cases s with
  | chapter ch => exact nomatch h
  | classPage e => exact congrArg Subject.classPage (eq_of_name hreg hthere hc (eq_of_beq h))
  | function f =>
      have howner := (mem_members_owner hreg hthere).1
      exact congrArg Subject.classPage (eq_of_name hreg howner hc (eq_of_beq h))

/-- The page of a class that has a section is among the pages. -/
theorem exists_page (hreg : Sweepable reg) (owner : Owner) {s : Subject} (hs : s ∈ contents reg)
    {c : ClassId} (hhome : home reg s = .classPage c) :
    ∃ page ∈ Format.html.pages owner (Manual.events reg).2,
      page.name = pageName (reg.getClass c).name ++ "." ++ Html.extension := by
  obtain ⟨l₁, l₂, hl⟩ := List.append_of_mem hs
  obtain ⟨before, after, hevents, _⟩ := section_in_events hreg hl
  obtain ⟨page, hpage, hname⟩ := Html.headline_stands owner before after (reg.headline s)
  rw [hevents]
  exact ⟨page, List.mem_of_getElem? hpage, by rw [hname, page_of_home hhome]⟩

/-- The anchor of a function that has a section is on the page where the section begins. -/
theorem exists_anchor (hreg : Sweepable reg) (owner : Owner) {m : FunctionId}
    {l₁ l₂ : List Subject} (hm : contents reg = l₁ ++ Subject.function m :: l₂) :
    ∃ page, (Format.html.pages owner (Manual.events reg).2)[
        (Html.place ((l₁ ++ [Subject.function m]).map reg.headline)).1]? = some page ∧
      page.name = pageName (reg.memberRef m).owner ++ "." ++ Html.extension ∧
      Html.HasAnchor page (reg.memberRef m).anchor := by
  obtain ⟨before, after, hevents, hbefore⟩ := section_in_events hreg hm
  have hplace : (l₁ ++ [Subject.function m]).map reg.headline =
      Event.headlines before ++ [.function (reg.memberRef m)] := by
    rw [hbefore, List.map_append]
    rfl
  rw [hevents, hplace]
  exact Html.function_stands owner before after (reg.memberRef m)

section Quiet

variable (hreg : reg.WellFormed) (hundone : reg.Undone)
  (hquiet : ∀ s ∈ visited reg, lacking reg s = [])

include hreg hundone hquiet

/-- **Links to classes.**  The page of a class that is in the manual is among the pages. -/
theorem classLink_resolves (owner : Owner) {c : ClassId} (hshown : IsShown reg (.classPage c))
    (here : Page) :
    Html.Resolves (Format.html.pages owner (Manual.events reg).2) here
      (Html.escape (pageName (reg.getClass c).name) ++ "." ++ Html.extension) := by
  have hsection : ∃ s ∈ contents reg, home reg s = .classPage c := by
    rcases hshown with ⟨horigin, hsection⟩ | ⟨m, howner, hsection⟩
    · refine ⟨.classPage c, mem_visited_sections hreg hquiet hsection fun e he => ?_, rfl⟩
      obtain rfl := Subject.classPage.inj he
      exact horigin
    · refine ⟨.function m, ?_, congrArg Subject.classPage howner⟩
      exact mem_visited_sections hreg hquiet hsection fun _ he => nomatch he
  obtain ⟨s, hs, hhome⟩ := hsection
  obtain ⟨page, hpage, hname⟩ := exists_page (sweepable_of_wellFormed hreg hundone) owner hs hhome
  rw [← Html.escape_fileName, ← hname]
  exact .page hpage

/-- **Links to functions.**  The anchor of a function that is in the manual is on the page of its
class, and on the page of the link if that is in the documentation of the class. -/
theorem functionLink_resolves (owner : Owner) {f : FunctionId} (hf : reg.HasFunction f)
    (hshown : IsShown reg (.function f)) {text : String} {s : Subject} {l₁ l₂ : List Subject}
    (hs : contents reg = l₁ ++ s :: l₂) {here : Page}
    (hhere : (Format.html.pages owner (Manual.events reg).2)[
      (Html.place ((l₁ ++ [s]).map reg.headline)).1]? = some here)
    (hown : ¬Html.IsOnNamesake (Html.place ((l₁ ++ [s]).map reg.headline)).2
      ((l₁ ++ [s]).map reg.headline) (.functionLink text (reg.memberRef f))) :
    Html.Resolves (Format.html.pages owner (Manual.events reg).2) here
      (Html.pageHref (Html.place ((l₁ ++ [s]).map reg.headline)).2
          (pageName (reg.memberRef f).owner) ++ "#" ++ Html.escape (reg.memberRef f).anchor) := by
  obtain ⟨m, howner, hsection, hanchor⟩ := hshown
  have hclass : (reg.memberRef m).owner = (reg.memberRef f).owner :=
    congrArg (fun c => (reg.getClass c).name) howner
  have hmem : Subject.function m ∈ contents reg :=
    mem_visited_sections hreg hquiet hsection fun _ he => nomatch he
  obtain ⟨m₁, m₂, hm⟩ := List.append_of_mem hmem
  obtain ⟨page, hpage, hname, hset⟩ :=
    exists_anchor (sweepable_of_wellFormed hreg hundone) owner hm
  rw [hanchor] at hset
  rw [hclass] at hname
  unfold Html.pageHref
  split
  · rename_i hcurrent
    -- the link stands on the page of the function's class, which is the one with the anchor
    have hwithin : (reg.headline s).isWithin (reg.memberRef f).owner = true := by
      refine Classical.byContradiction fun hother => hown ⟨hcurrent, ?_⟩
      rw [List.map_append, List.map_singleton, List.getLast?_concat]
      exact hother
    have hhome : home reg s = .classPage (reg.function f).owner :=
      home_of_isWithin hreg (hs ▸ List.mem_append_right _ List.mem_cons_self)
        (mem_members_owner hreg hf).1 hwithin
    have hplace := place_of_home hreg hundone hs hhome hm (congrArg Subject.classPage howner)
    rw [hplace] at hhere
    obtain rfl := Option.some.inj (hhere.symm.trans hpage)
    exact .within hset
  · rw [← Html.escape_fileName, ← hname]
    exact .anchor (List.mem_of_getElem? hpage) hset

end Quiet

/-! ## Whole runs -/

/-- **Links do not dangle.**  If a run reports nothing, each link of its manual leads to a class or
a function that has been found, and stands on a page with the reference that is written there.  If
what it leads to is in the manual, that reference resolves, unless it stands on the page of a
namesake. -/
theorem run_links {p : Project} {t : FileTree} {final : Registry} {events : List Event}
    (hrun : p.run t = .ok (final, events)) (hquiet : final.diagnostics = []) (owner : Owner)
    {before after : List Event} {c : Content} (hsplit : events = before ++ .content c :: after)
    (hc : c.isReference = true) :
    ∃ reg s here link reference, p.scan t = .ok reg ∧ LeadsTo reg c s ∧
      (Format.html.pages owner events)[(Html.written owner before).finished.length]? = some here ∧
      Html.contentMarkup (Html.written owner before).currentName c =
        Html.linkMarkup link reference ∧
      Html.Shows here.content (Html.linkMarkup link reference) ∧
      (IsShown reg s →
        ¬Html.IsOnNamesake (Html.written owner before).currentName (Event.headlines before) c →
        ∀ target, reference = some target →
          Html.Resolves (Format.html.pages owner events) here target) := by
  obtain ⟨reg, hscan, rfl, rfl⟩ := Project.run_eq hrun
  have hreg := Project.wellFormed_scan hscan
  have hundone := Project.undone_scan hscan
  have hsweep := sweepable_of_wellFormed hreg hundone
  have hlacking := lacking_of_quiet hsweep hquiet
  obtain ⟨l₁, at', l₂, hl, hbefore, hbody⟩ := content_in_section hsweep hc hsplit
  obtain ⟨s, hs⟩ := leadsTo_of_body hreg hc hbody
  have hposition := Html.position_written owner before
  have hfinished : (Html.written owner before).finished.length =
      (Html.place (Event.headlines before)).1 := congrArg Prod.fst hposition
  have hcurrent : (Html.written owner before).currentName =
      (Html.place (Event.headlines before)).2 := congrArg Prod.snd hposition
  have hname : (Html.place (Event.headlines before)).2 = some (reg.headline at').page := by
    rw [hbefore, List.map_append]
    exact Html.place_concat_snd _ _
  obtain ⟨here, hhere, _, hshows⟩ := Html.content_stands owner before after c hname
  rw [← hsplit] at hhere
  rw [hfinished, hcurrent]
  rw [← hname] at hshows
  refine ⟨reg, s, here, ?_⟩
  cases hs with
  | @classPage text e he =>
      rw [Html.contentMarkup_classLink] at hshows ⊢
      refine ⟨_, _, hscan, .classPage text he, hhere, rfl, hshows,
        fun hshown _ target htarget => ?_⟩
      split at htarget
      · exact nomatch htarget
      · rename_i hother
        obtain rfl := Option.some.inj htarget
        rw [Html.pageHref, if_neg hother]
        exact classLink_resolves hreg hundone hlacking owner hshown here
  | @function text f hf =>
      rw [Html.contentMarkup_functionLink] at hshows ⊢
      refine ⟨_, _, hscan, .function text hf, hhere, rfl, hshows,
        fun hshown hown target htarget => ?_⟩
      obtain rfl := Option.some.inj htarget
      rw [hbefore] at hhere hown ⊢
      exact functionLink_resolves hreg hundone hlacking owner hf hshown hl hhere hown

/-- A link from one member to another. -/
def barLink : Content :=
  .functionLink "bar()." ⟨"Foo::bar", "Foo"⟩

/-- A project in which the documentation of one member refers to another one. -/
def likeTree : FileTree :=
  Project.smallTree "class Foo \x7b\n  void bar();\n  void baz();\n\x7d;\n"
    ("#include \"foo.h\"\n/*! \\class Foo foo.h\n  A foo.\n*/\n" ++
      "/*! \\fn void Foo::bar()\n  Bars.\n*/\n/*! \\fn void Foo::baz()\n  Like bar().\n*/\n")

/-- Nothing is reported of it, and the link stands in the documentation of the other member. -/
theorem run_like :
    ∃ final before after,
      Project.small.run likeTree = .ok (final, before ++ .content barLink :: after) ∧
      final.diagnostics = [] ∧
      (Event.headlines before).getLast? = some (.function ⟨"Foo::baz", "Foo"⟩) := by
  have hevaluated : (Project.small.run likeTree).toOption.map (fun result =>
        (result.1.diagnostics, (result.2.dropWhile (· != .content barLink)).head?,
          (Event.headlines (result.2.takeWhile (· != .content barLink))).getLast?)) =
      some ([], some (.content barLink), some (.function ⟨"Foo::baz", "Foo"⟩)) := by
    rw [likeTree, Project.run_small]
    decide +kernel
  obtain ⟨⟨final, events⟩, hrun, hparts⟩ := Project.exists_of_toOption_map hevaluated
  rw [Prod.mk.injEq, Prod.mk.injEq, List.head?_eq_some_iff] at hparts
  obtain ⟨hquiet, ⟨after, hafter⟩, hlast⟩ := hparts
  refine ⟨final, events.takeWhile (· != .content barLink), after, ?_, hquiet, hlast⟩
  rw [← hafter, List.takeWhile_append_dropWhile]
  exact hrun

/-- What the link leads to is in the manual. -/
theorem isShown_barLink {reg : Registry} (hscan : Project.small.scan likeTree = .ok reg)
    {s : Subject} (h : LeadsTo reg barLink s) : IsShown reg s := by
  have hevaluated : (Project.small.scan likeTree).toOption.map (fun reg =>
        (reg.functions.map (·.owner), hasSection reg (.function ⟨0⟩), (reg.memberRef ⟨0⟩).anchor)) =
      some ([⟨0⟩, ⟨0⟩], true, "bar") := by
    rw [likeTree, Project.scan_small]
    decide +kernel
  rw [hscan] at hevaluated
  have hparts := Option.some.inj hevaluated
  rw [Prod.mk.injEq, Prod.mk.injEq] at hparts
  obtain ⟨howners, hsection, hanchor⟩ := hparts
  have howner {f : FunctionId} (hf : reg.HasFunction f) : (reg.function f).owner = ⟨0⟩ := by
    have hmem : (reg.function f).owner ∈ reg.functions.map (·.owner) :=
      List.mem_map_of_mem (List.mem_of_getElem? (getElem?_function hf))
    rw [howners] at hmem
    simpa using hmem
  have hfirst : reg.HasFunction ⟨0⟩ := by
    have hlength := congrArg List.length howners
    rw [List.length_map] at hlength
    rw [HasFunction, hlength]
    decide
  generalize hlink : barLink = c at h
  cases h with
  | classPage text hc => cases hlink
  | @function text f hf =>
      have hf' : reg.memberRef f = ⟨"Foo::bar", "Foo"⟩ := (Content.functionLink.inj hlink).2.symm
      refine ⟨⟨0⟩, by rw [howner hfirst, howner hf], hsection, ?_⟩
      rw [hanchor, hf']
      decide

theorem run_links_like :
    ∃ final before after here link reference,
      Project.small.run likeTree = .ok (final, before ++ .content barLink :: after) ∧
      final.diagnostics = [] ∧
      (Format.html.pages ⟨"", ""⟩ (before ++ .content barLink :: after))[
        (Html.written ⟨"", ""⟩ before).finished.length]? = some here ∧
      Html.Shows here.content (Html.linkMarkup link reference) ∧
      ∀ target, reference = some target →
        Html.Resolves (Format.html.pages ⟨"", ""⟩ (before ++ .content barLink :: after)) here
          target := by
  obtain ⟨final, before, after, hrun, hquiet, hlast⟩ := run_like
  obtain ⟨reg, s, here, link, reference, hscan, hleads, hhere, _, hshows, hresolves⟩ :=
    run_links hrun hquiet ⟨"", ""⟩ rfl rfl
  have hown : ¬Html.IsOnNamesake (Html.written ⟨"", ""⟩ before).currentName
      (Event.headlines before) barLink := by
    intro h
    apply h.2
    rw [hlast]
    decide
  exact ⟨final, before, after, here, link, reference, hrun, hquiet, hhere, hshows,
    hresolves (isShown_barLink hscan hleads) hown⟩

/-- **Exceptions.**  Internal documentation has no page and no anchor, but links lead there; and on
a chapter with the page name of a class, a link to a member of the class leads to the chapter
itself, where nothing has an anchor.  Nothing is reported. -/
theorem links_dangling :
    ((Project.small.run (Project.smallTree
        ("class Foo \x7b\n  void bar();\n  void baz();\n\x7d;\n" ++
          "class Baz \x7b\n  void run();\n\x7d;\n")
        ("#include \"foo.h\"\n/*! \\class Foo foo.h\n  No Baz.\n*/\n" ++
          "/*! \\fn void Foo::bar()\n  \\internal\n*/\n" ++
          "/*! \\fn void Foo::baz()\n  Like bar().\n*/\n" ++
          "/*! \\class Baz foo.h\n  \\internal\n*/\n" ++
          "/*! \\fn void Baz::run()\n  \\internal\n*/\n"))).toOption.map
      fun (final, events) =>
        (final.diagnostics, events.filter Event.isLandmark,
          (Format.html.pages ⟨"", ""⟩ events).map (·.name),
          (Html.written ⟨"", ""⟩ events).current.map (·.anchors))) =
      some ([], [.headline (.classPage "Foo"), .content (.classLink "Baz." "Baz"),
        .headline (.function ⟨"Foo::baz", "Foo"⟩), .content barLink], ["foo.html"], some ["baz"]) ∧
    ((Project.small.run (Project.smallTree "class Foo \x7b\n  void bar();\n\x7d;\n"
        ("#include \"foo.h\"\n/*! \\chapter foo\n  \\introduces Foo\n\n  See Foo::bar().\n*/\n" ++
          "/*! \\class Foo foo.h\n  A foo.\n*/\n" ++
          "/*! \\fn void Foo::bar()\n  Bars.\n*/\n"))).toOption.map
      fun (final, events) =>
        let chapter := events.takeWhile (· != .headline (.classPage "Foo"))
        (final.diagnostics, chapter.filter Event.isLandmark,
          (Html.written ⟨"", ""⟩ chapter).current.map fun s => (s.name, s.anchors))) =
      some ([], [.headline (.chapter "foo"),
        .content (.functionLink "Foo::bar()." ⟨"Foo::bar", "Foo"⟩)], some ("foo", [])) := by
  rw [Project.run_small, Project.run_small]
  constructor <;> decide +kernel

end Manual

end CppDoc
