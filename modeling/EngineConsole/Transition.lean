import Mathlib

/-!
# Runs of a guarded step function

A system is a step function `step : σ → α → Option σ` : the state after an action, or
`none` where the action is not possible. `ReachBy step ok` relates the ends of the runs
whose every step meets the condition `ok` on the state before it and the action.

`ReachBy.invariant` is the invariant rule and `ReachBy.stable` the rule for a property
that, once true, stays true. `ReachBy.of_runBy` turns an evaluated list of actions into
such a run.
-/

namespace EngineConsole

variable {σ α : Type*}

/-! ## Steps and runs -/

/-- One step under an action that `ok` allows in the state before it. -/
def StepBy (step : σ → α → Option σ) (ok : σ → α → Prop) (s t : σ) : Prop :=
  ∃ a, ok s a ∧ step s a = some t

/-- `t` is reached from `s` by steps that all meet `ok`. -/
def ReachBy (step : σ → α → Option σ) (ok : σ → α → Prop) : σ → σ → Prop :=
  Relation.ReflTransGen (StepBy step ok)

/-- The condition every step meets. -/
def anyStep (_ : σ) (_ : α) : Prop :=
  True

/-- `t` is reached from `s` by any steps. -/
abbrev Reach (step : σ → α → Option σ) : σ → σ → Prop :=
  ReachBy step anyStep

namespace ReachBy

variable {step : σ → α → Option σ} {ok ok' : σ → α → Prop} {s t u : σ}

theorem refl (s : σ) : ReachBy step ok s s :=
  Relation.ReflTransGen.refl

theorem trans (h : ReachBy step ok s t) (h' : ReachBy step ok t u) : ReachBy step ok s u :=
  Relation.ReflTransGen.trans h h'

theorem tail (h : ReachBy step ok s t) {a : α} (hok : ok t a) (ha : step t a = some u) :
    ReachBy step ok s u :=
  Relation.ReflTransGen.tail h ⟨a, hok, ha⟩

/-- A weaker condition allows more runs. -/
theorem mono (hok : ∀ s a, ok s a → ok' s a) (h : ReachBy step ok s t) :
    ReachBy step ok' s t := by
  induction h with
  | refl => exact refl s
  | tail _ hst ih =>
    obtain ⟨a, ha, hs⟩ := hst
    exact ih.tail (hok _ a ha) hs

/-- Under an invariant, a condition that it makes weaker allows more runs. -/
theorem mono_of (Inv : σ → Prop) (hInv : ∀ s a t, ok s a → Inv s → step s a = some t → Inv t)
    (hok : ∀ s a, Inv s → ok s a → ok' s a) (h : ReachBy step ok s t) (hs : Inv s) :
    ReachBy step ok' s t := by
  suffices h' : ReachBy step ok' s t ∧ Inv t from h'.1
  induction h with
  | refl => exact ⟨refl s, hs⟩
  | tail _ hst ih =>
    obtain ⟨a, ha, hstep⟩ := hst
    exact ⟨ih.1.tail (hok _ a ih.2 ha) hstep, hInv _ a _ ha ih.2 hstep⟩

/-- A property every allowed step keeps holds at the end of a run that starts with it. -/
theorem invariant (Inv : σ → Prop)
    (hstep : ∀ s a t, ok s a → Inv s → step s a = some t → Inv t)
    (h : ReachBy step ok s t) (hs : Inv s) : Inv t := by
  induction h with
  | refl => exact hs
  | tail _ hst ih =>
    obtain ⟨a, hok, ha⟩ := hst
    exact hstep _ a _ hok ih ha

/-- Under an invariant `Inv`, a property that allowed steps keep, once true, stays true. -/
theorem stable (Inv P : σ → Prop)
    (hInv : ∀ s a t, ok s a → Inv s → step s a = some t → Inv t)
    (hP : ∀ s a t, ok s a → Inv s → P s → step s a = some t → P t)
    (h : ReachBy step ok s t) (hs : Inv s) (hp : P s) : P t :=
  (invariant (fun s => Inv s ∧ P s)
    (fun s a t hok hi ha => ⟨hInv s a t hok hi.1 ha, hP s a t hok hi.1 hi.2 ha⟩) h ⟨hs, hp⟩).2

end ReachBy

/-! ## Evaluated runs -/

/-- Perform the actions in order; `none` if one is not possible, or does not meet `ok`. -/
def runBy (step : σ → α → Option σ) (ok : σ → α → Prop) [∀ s a, Decidable (ok s a)] :
    σ → List α → Option σ
  | s, [] => some s
  | s, a :: as => if ok s a then (step s a).bind fun t => runBy step ok t as else none

/-- Perform the actions in order. -/
def runActs (step : σ → α → Option σ) : σ → List α → Option σ
  | s, [] => some s
  | s, a :: as => (step s a).bind fun t => runActs step t as

theorem ReachBy.of_runBy {step : σ → α → Option σ} {ok : σ → α → Prop}
    [∀ s a, Decidable (ok s a)] {t : σ} :
    ∀ {as : List α} {s : σ}, runBy step ok s as = some t → ReachBy step ok s t
  | [], s, h => by
    obtain rfl : s = t := by simpa [runBy] using h
    exact ReachBy.refl s
  | a :: as, s, h => by
    by_cases hok : ok s a
    · rw [runBy, if_pos hok] at h
      obtain ⟨u, hu, hrun⟩ := Option.bind_eq_some_iff.1 h
      exact ((ReachBy.refl s).tail hok hu).trans (of_runBy hrun)
    · simp [runBy, hok] at h

theorem Reach.of_runActs {step : σ → α → Option σ} {t : σ} :
    ∀ {as : List α} {s : σ}, runActs step s as = some t → Reach step s t
  | [], s, h => by
    obtain rfl : s = t := by simpa [runActs] using h
    exact ReachBy.refl s
  | a :: as, s, h => by
    obtain ⟨u, hu, hrun⟩ := Option.bind_eq_some_iff.1 h
    exact ((ReachBy.refl s).tail trivial hu).trans (of_runActs hrun)

end EngineConsole
