import Mathlib

/-!
# Choices by precedence

Candidates some of which exclude each other, taken in an order of precedence : one is taken
unless one that it meets was taken before it. Such a choice (`Stable`) is determined by the
candidates, the order and what meets (`Stable.unique`), so a property of one choice is a property
of the choice.
-/

set_option linter.unusedSectionVars false

namespace EngineConsole

variable {ι : Type*} {before meets : ι → ι → Prop} {dom T T' : Set ι}

/-- A choice in which no two meet and each that was left out meets one before it. -/
structure Stable (before meets : ι → ι → Prop) (dom T : Set ι) : Prop where
  sub : T ⊆ dom
  apart : ∀ t ∈ T, ∀ u ∈ T, meets t u → t = u
  first : ∀ o ∈ dom, o ∉ T → ∃ t ∈ T, before t o ∧ meets t o

namespace Stable

theorem subset (hwf : WellFounded before) (h : Stable before meets dom T)
    (h' : Stable before meets dom T') (o : ι) : (o ∈ T → o ∈ T') ∧ (o ∈ T' → o ∈ T) := by
  induction o using hwf.induction with
  | _ o ih =>
    refine ⟨fun ho => ?_, fun ho => ?_⟩
    · by_contra hno
      obtain ⟨t, ht, hbefore, hmeets⟩ := h'.first o (h.sub ho) hno
      exact hno (h.apart t ((ih t hbefore).2 ht) o ho hmeets ▸ ht)
    · by_contra hno
      obtain ⟨t, ht, hbefore, hmeets⟩ := h.first o (h'.sub ho) hno
      exact hno (h'.apart t ((ih t hbefore).1 ht) o ho hmeets ▸ ht)

/-- There is one choice. -/
theorem unique (hwf : WellFounded before) (h : Stable before meets dom T)
    (h' : Stable before meets dom T') : T = T' :=
  Set.ext fun o => ⟨(subset hwf h h' o).1, (subset hwf h h' o).2⟩

end Stable

end EngineConsole
