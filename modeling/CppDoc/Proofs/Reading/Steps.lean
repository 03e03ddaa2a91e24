import CppDoc.Proofs.Registry.Headers
import CppDoc.Proofs.Registry.Operations
import CppDoc.Proofs.Registry.Tidy
import CppDoc.Reading

/-!
# What reading a file does to the registry

Whatever a reader finds in a file it enters into the registry, and it stays in that file; what it
keeps of the text is tidy, and no header is added twice.  `Reading.Leads` says so of two states of
reading.

* `iterate_induction`: what each step of a loop preserves, the loop preserves;
* `Passes`: the states that a loop passes through, from each of which it goes on to the same end;
* `Leads.trans` and `Leads.sound`: a state that is reached is sound if the first one is.
-/

namespace CppDoc

/-- **A loop.**  What every step preserves holds at the end. -/
theorem iterate_induction {σ : Type} {size : σ → Nat} {step : σ → Bool × σ} {P : σ → Prop}
    (hstep : ∀ s, P s → P (step s).2) {s : σ} (hs : P s) : P (iterate size step s) := by
  induction s using iterate.induct size step with
  | case1 s next hmore ih =>
      rw [iterate, dif_pos hmore]
      exact ih (hstep s hs)
  | case2 s next hdone =>
      rw [iterate, dif_neg hdone]
      exact hstep s hs

section Step

variable {σ : Type} {size : σ → Nat} {step : σ → Bool × σ} {s s' : σ}

/-- A loop goes on behind a step that asks for it and makes the state smaller. -/
theorem iterate_more (hstep : step s = (true, s')) (hless : size s' < size s) :
    iterate size step s = iterate size step s' := by
  rw [iterate, dif_pos (by rw [hstep]; exact ⟨rfl, hless⟩), hstep]

/-- A loop ends behind a step that does not ask for more. -/
theorem iterate_done (hstep : step s = (false, s')) : iterate size step s = s' := by
  rw [iterate, dif_neg (by rw [hstep]; exact fun h => nomatch h.1), hstep]

end Step

/-- The states in which a loop begins a step. -/
inductive Passes {σ : Type} (size : σ → Nat) (step : σ → Bool × σ) : σ → σ → Prop
  | start (s : σ) : Passes size step s s
  | next {s t : σ} (before : Passes size step s t) (hmore : (step t).1 = true)
      (hless : size (step t).2 < size t) : Passes size step s (step t).2

section Passes

variable {σ : Type} {size : σ → Nat} {step : σ → Bool × σ} {P : σ → Prop} {s t : σ}

/-- A loop goes on from every state that it passes through. -/
theorem Passes.iterate_eq (h : Passes size step s t) : iterate size step s = iterate size step t := by
  induction h with
  | start => rfl
  | next _ hmore hless ih => rw [ih, iterate, dif_pos ⟨hmore, hless⟩]

/-- What every step preserves holds wherever the loop passes. -/
theorem Passes.preserves (h : Passes size step s t) (hstep : ∀ s, P s → P (step s).2) (hs : P s) :
    P t := by
  induction h with
  | start => exact hs
  | next _ _ _ ih => exact hstep _ ih

/-- What holds after a step, and is preserved by every step, holds at the end. -/
theorem Passes.after (h : Passes size step s t) (hstep : ∀ s, P s → P (step s).2)
    (ht : P (step t).2) : P (iterate size step s) := by
  rw [h.iterate_eq, iterate]
  split
  · exact iterate_induction hstep ht
  · exact ht

end Passes

namespace Reading

open Registry

/-- The registry is well-formed and has the file that is read. -/
structure Sound (r : Reading) : Prop where
  wellFormed : r.registry.WellFormed
  hasFile : r.registry.HasFile r.file

/-- The file that is read stays, whatever is entered. -/
theorem Sound.of_entries {r r' : Reading} (hr : r.Sound) (hfile : r'.file = r.file)
    (h : Entries r.registry r'.registry) : r'.Sound where
  wellFormed := h.edits.wellFormed hr.wellFormed
  hasFile := hfile ▸ h.edits.persists.hasFile hr.hasFile

/-- Reading goes on from `r` to `r'` in the same file, with entries in the registry whose texts are
tidy; a header that it adds is a new one. -/
structure Leads (r r' : Reading) : Prop where
  file : r'.file = r.file
  entries : r.Sound → Entries r.registry r'.registry
  tidy : r.registry.Tidy → r'.registry.Tidy
  gathers : Gathers r.registry r'.registry

theorem Leads.edits {r r' : Reading} (h : Leads r r') (hr : r.Sound) :
    Edits r.registry r'.registry :=
  (h.entries hr).edits

/-- A sound state stays sound. -/
theorem Leads.sound {r r' : Reading} (h : Leads r r') (hr : r.Sound) : r'.Sound :=
  hr.of_entries h.file (h.entries hr)

theorem Leads.refl (r : Reading) : Leads r r where
  file := rfl
  entries := fun _ => .refl r.registry
  tidy := id
  gathers := .refl r.registry

theorem Leads.trans {a b c : Reading} (hab : Leads a b) (hbc : Leads b c) : Leads a c where
  file := hbc.file.trans hab.file
  entries := fun ha => (hab.entries ha).trans (hbc.entries (hab.sound ha))
  tidy := fun ha => hbc.tidy (hab.tidy ha)
  gathers := hab.gathers.trans hbc.gathers

end Reading

end CppDoc
