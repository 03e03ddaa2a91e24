import CppDoc.Proofs.Registry.Entry

/-!
# The operations of a registry as edits

What is done to a registry by one call is a sequence of edits.  Some calls report at places that the
registry itself has kept, so that they need a well-formed registry: `Leads` is a sequence of edits
that starts from one.
-/

namespace CppDoc.Registry

/-- From a well-formed registry, edits lead from `reg` to `reg'`. -/
def Leads (reg reg' : Registry) : Prop :=
  reg.WellFormed → Edits reg reg'

theorem Leads.refl (reg : Registry) : Leads reg reg :=
  fun _ => .refl reg

theorem Leads.of_edits {reg reg' : Registry} (h : Edits reg reg') : Leads reg reg' :=
  fun _ => h

theorem Leads.trans {a b c : Registry} (hab : Leads a b) (hbc : Leads b c) : Leads a c :=
  fun ha => (hab ha).trans (hbc ((hab ha).wellFormed ha))

/-- A sequence of steps, none of which gets anything but what has been reached from `reg`. -/
theorem Leads.foldl {α : Type} {f : Registry → α → Registry} {l : List α} {reg : Registry}
    (hf : ∀ reg' a, Edits reg reg' → a ∈ l → Leads reg' (f reg' a)) :
    Leads reg (l.foldl f reg) := by
  intro hreg
  suffices h : ∀ reg', Edits reg reg' → Edits reg (l.foldl f reg') from h reg (.refl reg)
  induction l with
  | nil => exact fun _ h => h
  | cons a rest ih =>
      intro reg' h
      have hstep : Edits reg' (f reg' a) := hf reg' a h List.mem_cons_self (h.wellFormed hreg)
      exact ih (fun b c hb hc => hf b c hb (List.mem_cons_of_mem a hc)) _ (h.trans hstep)

/-- A value that is looked up is the second half of a pair. -/
private theorem mem_of_lookup {α β : Type} [BEq α] [LawfulBEq α] {l : List (α × β)} {a : α} {b : β}
    (h : l.lookup a = some b) : (a, b) ∈ l := by
  induction l with
  | nil => simp at h
  | cons p rest ih =>
      obtain ⟨key, value⟩ := p
      rw [List.lookup_cons] at h
      split at h
      · rename_i hkey
        obtain rfl : a = key := by simpa using hkey
        obtain rfl : value = b := by simpa using h
        exact List.mem_cons_self
      · exact List.mem_cons_of_mem _ (ih h)

variable (reg : Registry)

/-! ## Reports and mentions -/

theorem edits_report {site : Location} (problem : Problem) (hsite : reg.HasFile site.file) :
    Edits reg (reg.report site problem) :=
  .single (.report problem hsite)

theorem edits_reportAt {site : Option Location} (problem : Problem)
    (hsite : ∀ s, site = some s → reg.HasFile s.file) : Edits reg (reg.reportAt site problem) := by
  cases site with
  | none => exact .refl reg
  | some s => exact edits_report reg problem (hsite s rfl)

/-- A further mention is reported where it is and at the first one, whose place the registry has
kept. -/
theorem leads_mention (name : String) {site : Location} (hsite : reg.HasFile site.file) :
    Leads reg (reg.mention name site) := by
  intro hreg
  unfold mention
  cases hfirst : reg.mentions.lookup name with
  | none => exact .single (.noteMention name hsite)
  | some first =>
      have hmem : (name, first) ∈ reg.mentions := mem_of_lookup hfirst
      have hfile : reg.HasFile first.file := hreg.mentions _ hmem
      exact .tail (edits_report reg _ hsite) (.report _ hfile)

/-! ## The hierarchy -/

theorem leads_linkParent {id : ClassId} (hid : reg.HasClass id) : Leads reg (reg.linkParent id) := by
  intro hreg
  have hfits := hreg.classes id _ (getElem?_getClass hid)
  simp only [linkParent]
  split
  · exact .refl reg
  · split
    · rename_i parent hparent
      have hset : Edit reg (reg.editClass id fun c => { c with parent := some parent }) :=
        .setParent id (hasClass_of_findClass? hparent)
      exact .tail (.single hset) (.addChild parent (hset.persists.hasClass hid))
    · exact edits_reportAt reg _ hfits.origin

theorem leads_buildHierarchy : Leads reg reg.buildHierarchy := by
  unfold buildHierarchy
  split
  · exact .refl reg
  · refine (Leads.of_edits (.single .markBuilt)).trans (Leads.foldl ?_)
    intro reg' id hedits hid
    apply leads_linkParent
    apply hedits.persists.hasClass
    simp only [classIds, List.mem_map, List.mem_range] at hid
    obtain ⟨n, hn, rfl⟩ := hid
    exact hn

end CppDoc.Registry
