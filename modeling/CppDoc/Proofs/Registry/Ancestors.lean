import CppDoc.Proofs.Registry.Linked
import Mathlib.Data.List.Chain
import Mathlib.Data.List.Perm.Subperm
import Mathlib.Logic.Relation

/-!
# Ancestors on any links

A class has one parent at most, so there is one way up from it.  Nothing keeps it from leading into
a cycle: a class may be its own parent, and a cycle may be entered at a class that is not on it.

* `Climbs`: the walk upwards, one class at a time, until there is no parent or one that was met;
* `climbs_ancestors`: `ancestors` is that walk.  The classes that are not met yet are its measure;
* `Climbs.closed`: whichever way the walk ends, the parents of what it met are met;
* `ancestors_climb`: it meets every class above, once, in the order of the links.
-/

namespace CppDoc.Registry

/-- The class `p` is the parent of the class `c`. -/
def IsParent (reg : Registry) (c p : ClassId) : Prop :=
  (reg.getClass c).parent = some p

/-- The links to parents lead to classes. -/
def ParentsExist (reg : Registry) : Prop :=
  ∀ c p, reg.IsParent c p → reg.HasClass p

/-- Only a class has a parent. -/
theorem IsParent.hasClass {reg : Registry} {c p : ClassId} (h : reg.IsParent c p) :
    reg.HasClass c := by
  refine Classical.byContradiction fun habsent => ?_
  rw [IsParent, getClass_absent habsent] at h
  exact nomatch h

theorem WellFormed.parentsExist {reg : Registry} (hreg : reg.WellFormed) : reg.ParentsExist := by
  intro c p h
  exact (hreg.classes c _ (getElem?_getClass h.hasClass)).parent p h

/-- The walk upwards from the class `start`, when the classes `met` are behind it and the link `next`
is to be followed: it goes on to the classes `chain`. -/
inductive Climbs (reg : Registry) (start : ClassId) :
    List ClassId → Option ClassId → List ClassId → Prop
  | root {met : List ClassId} : Climbs reg start met none []
  | back {met : List ClassId} {p : ClassId} (hmet : p = start ∨ p ∈ met) :
      Climbs reg start met (some p) []
  | up {met chain : List ClassId} {p : ClassId} (hstart : p ≠ start) (hmet : p ∉ met)
      (rest : Climbs reg start (met ++ [p]) (reg.getClass p).parent chain) :
      Climbs reg start met (some p) (p :: chain)

section Walk

variable {reg : Registry} {start : ClassId} {met chain : List ClassId} {next : Option ClassId}

/-- The walk among the classes that are neither the first one nor met. -/
theorem climbs_ancestorsAmong (hparents : reg.ParentsExist) {fresh : List ClassId}
    (hnodup : fresh.Nodup) (hfresh : ∀ d, d ∈ fresh ↔ reg.HasClass d ∧ d ≠ start ∧ d ∉ met)
    (hnext : ∀ p, next = some p → reg.HasClass p) :
    reg.Climbs start met next (reg.ancestorsAmong fresh next) := by
  induction fresh, next using ancestorsAmong.induct reg generalizing met with
  | case1 fresh =>
      rw [ancestorsAmong]
      exact .root
  | case2 fresh p hp ih =>
      obtain ⟨-, hstart, hmet⟩ := (hfresh p).mp hp
      rw [ancestorsAmong, dif_pos hp]
      refine .up hstart hmet (ih (hnodup.erase p) (fun d => ?_) fun q hq => hparents p q hq)
      rw [hnodup.mem_erase_iff, hfresh d]
      grind
  | case3 fresh p hp =>
      rw [ancestorsAmong, dif_neg hp]
      refine .back (Classical.byContradiction fun hnew => hp ((hfresh p).mpr ?_))
      exact ⟨hnext p rfl, fun h => hnew (.inl h), fun h => hnew (.inr h)⟩

theorem climbs_ancestors (hparents : reg.ParentsExist) (c : ClassId) :
    reg.Climbs c [] (reg.getClass c).parent (reg.ancestors c) := by
  refine climbs_ancestorsAmong hparents (nodup_classIds.erase c) (fun d => ?_) (hparents c)
  rw [nodup_classIds.mem_erase_iff, mem_classIds]
  grind

/-- The walk meets nothing that is behind it. -/
theorem Climbs.fresh (h : reg.Climbs start met next chain) :
    ∀ d ∈ chain, d ≠ start ∧ d ∉ met := by
  induction h with
  | root | back _ => exact fun d hd => absurd hd List.not_mem_nil
  | up hstart hmet _ ih =>
      intro d hd
      rcases List.mem_cons.mp hd with rfl | hd
      · exact ⟨hstart, hmet⟩
      · exact ⟨(ih d hd).1, fun h => (ih d hd).2 (List.mem_append_left _ h)⟩

/-- The walk meets nothing twice. -/
theorem Climbs.nodup (h : reg.Climbs start met next chain) : chain.Nodup := by
  induction h with
  | root | back _ => exact List.nodup_nil
  | up _ _ rest ih =>
      refine List.nodup_cons.mpr ⟨fun hmem => ?_, ih⟩
      exact (rest.fresh _ hmem).2 (List.mem_append_right _ (List.mem_singleton_self _))

/-- The walk follows the links. -/
theorem Climbs.isChain (h : reg.Climbs start met next chain) {last : ClassId}
    (hlast : (reg.getClass last).parent = next) : (last :: chain).IsChain reg.IsParent := by
  induction h generalizing last with
  | root | back _ => exact List.isChain_singleton last
  | up _ _ _ ih => exact List.isChain_cons_cons.mpr ⟨hlast, ih rfl⟩

/-- The parents of the classes that the walk goes on to are the first class, behind it, or met. -/
theorem Climbs.closed (h : reg.Climbs start met next chain) {last : ClassId}
    (hlast : (reg.getClass last).parent = next) :
    ∀ d ∈ last :: chain, ∀ p, reg.IsParent d p → p = start ∨ p ∈ met ++ chain := by
  induction h generalizing last with
  | root =>
      intro d hd p hp
      obtain rfl := List.mem_singleton.mp hd
      exact nomatch hlast.symm.trans hp
  | back hmet =>
      intro d hd p hp
      obtain rfl := List.mem_singleton.mp hd
      obtain rfl := Option.some.inj (hlast.symm.trans hp)
      rwa [List.append_nil]
  | @up met chain q _ _ _ ih =>
      intro d hd p hp
      rcases List.mem_cons.mp hd with rfl | hd
      · obtain rfl := Option.some.inj (hlast.symm.trans hp)
        exact .inr (List.mem_append_right _ List.mem_cons_self)
      · have hmet := ih rfl d hd p hp
        rwa [List.append_assoc, List.singleton_append] at hmet

/-- So every class above is met, whether the walk ends at a root or on a cycle. -/
theorem Climbs.complete {c : ClassId} (h : reg.Climbs c [] (reg.getClass c).parent chain)
    {d : ClassId} (habove : Relation.TransGen reg.IsParent c d) : d ∈ c :: chain := by
  induction habove with
  | single hp => exact List.mem_cons.mpr (h.closed rfl c List.mem_cons_self _ hp)
  | tail _ hp ih => exact List.mem_cons.mpr (h.closed rfl _ ih _ hp)

/-- What the walk meets is above the class where it starts. -/
theorem Climbs.above {c d : ClassId} (h : reg.Climbs c [] (reg.getClass c).parent chain)
    (hd : d ∈ chain) : Relation.TransGen reg.IsParent c d := by
  have hlinks := (h.isChain rfl).imp fun _ _ hp => Relation.TransGen.single hp
  exact List.rel_of_pairwise_cons hlinks.pairwise hd

end Walk

theorem hasClass_of_above {reg : Registry} (hparents : reg.ParentsExist) {c d : ClassId}
    (h : Relation.TransGen reg.IsParent c d) : reg.HasClass d := by
  obtain ⟨b, -, hp⟩ := Relation.TransGen.tail'_iff.mp h
  exact hparents b d hp

theorem hasClass_of_ancestor {reg : Registry} (hparents : reg.ParentsExist) {c d : ClassId}
    (h : d ∈ reg.ancestors c) : reg.HasClass d :=
  hasClass_of_above hparents ((climbs_ancestors hparents c).above h)

theorem ne_of_ancestor {reg : Registry} (hparents : reg.ParentsExist) {c d : ClassId}
    (h : d ∈ reg.ancestors c) : d ≠ c :=
  ((climbs_ancestors hparents c).fresh d h).1

/-- **Ancestors.**  As long as the links lead to classes, and whatever cycles they form, the
ancestors of a class are what a walk along the links meets.  There are fewer of them than classes.
None of them comes twice, and none is the class itself.  Each is the parent of the one before it, the
first one that of the class.  And they are all classes that are reached by following links, apart
from the class itself. -/
theorem ancestors_climb {reg : Registry} (hparents : reg.ParentsExist) {c : ClassId}
    (hc : reg.HasClass c) :
    reg.Climbs c [] (reg.getClass c).parent (reg.ancestors c) ∧
      (reg.ancestors c).length < reg.classes.length ∧
      (c :: reg.ancestors c).Nodup ∧
      (c :: reg.ancestors c).IsChain reg.IsParent ∧
      ∀ d, d ∈ reg.ancestors c ↔ d ≠ c ∧ Relation.TransGen reg.IsParent c d := by
  have hclimbs := climbs_ancestors hparents c
  have hnodup : (c :: reg.ancestors c).Nodup :=
    List.nodup_cons.mpr ⟨fun h => ne_of_ancestor hparents h rfl, hclimbs.nodup⟩
  refine ⟨hclimbs, ?_, hnodup, hclimbs.isChain rfl, fun d => ⟨fun hd => ?_, fun ⟨hne, habove⟩ => ?_⟩⟩
  · have hclasses : c :: reg.ancestors c ⊆ reg.classIds := by
      intro d hd
      rcases List.mem_cons.mp hd with rfl | hd
      · exact mem_classIds.mpr hc
      · exact mem_classIds.mpr (hasClass_of_ancestor hparents hd)
    have hle := (List.subperm_of_subset hnodup hclasses).length_le
    simpa [classIds, Nat.succ_le_iff] using hle
  · exact ⟨ne_of_ancestor hparents hd, hclimbs.above hd⟩
  · exact (List.mem_cons.mp (hclimbs.complete habove)).resolve_left hne

theorem ancestors_climb_cycle :
    let links : List (Option ClassId) := [some ⟨1⟩, some ⟨2⟩, some ⟨1⟩, some ⟨3⟩]
    let reg := { empty with
      classes := links.map fun parent => { Class.placeholder "" with parent } }
    reg.ancestors ⟨0⟩ = [⟨1⟩, ⟨2⟩] ∧ reg.ancestors ⟨3⟩ = [] ∧
      (⟨0⟩ :: reg.ancestors ⟨0⟩).IsChain reg.IsParent ∧
      ∀ d, d ∈ reg.ancestors ⟨0⟩ ↔ d ≠ ⟨0⟩ ∧ Relation.TransGen reg.IsParent ⟨0⟩ d := by
  intro links reg
  have hparents : reg.ParentsExist := by
    rintro ⟨i⟩ p hp
    have hi : i < 4 := hp.hasClass
    obtain rfl | rfl | rfl | rfl : i = 0 ∨ i = 1 ∨ i = 2 ∨ i = 3 := by omega
    all_goals
      cases hp
      unfold HasClass
      decide
  have hclass : reg.HasClass ⟨0⟩ := Nat.zero_lt_succ 3
  obtain ⟨-, -, -, hlinks, habove⟩ := ancestors_climb hparents hclass
  exact ⟨by decide +kernel, by decide +kernel, hlinks, habove⟩

end CppDoc.Registry
