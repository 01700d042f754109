import Mathlib

/-!
# The guided launch

The state machine of `wizard.js` : the actions of its steps (`reduce`), from the initial state. A
step may be shown where the choices before it are made (`furthestStep`), and the settings of a
launch are those of the goal over those that the estimate of the machine needs.

The estimates of a run are its host actions (`Estimate`). `stepOk_iff` says for one action when
the state it leads to is sound, `guided_iff` for a whole run. What the state keeps of the estimates
is that of the last host action for its model and machine (`Stored`), whichever engine that was for.
-/

set_option linter.unusedSectionVars false

namespace EngineConsole.Wizard

/-! ## The code -/

/-- A text, or no value. -/
inductive Js where
  | undefined | null
  | text (t : String)
  deriving DecidableEq

def Js.truthy : Js → Bool
  | .text t => t ≠ ""
  | _ => false

/-- `??` -/
def Js.orElse : Js → Js → Js
  | .text t, _ => .text t
  | _, b => b

/-- A model of the library. -/
structure Model where
  key : Js

/-- An object of settings. -/
abbrev Params (V : Type*) := String → Option V

/-- `{ ...p, ...q }` -/
def spread {V : Type*} (p q : Params V) : Params V :=
  fun k => (q k).or (p k)

def empty {V : Type*} : Params V :=
  fun _ => none

/-- `STEPS` -/
inductive Step where
  | model | machine | goal | review
  deriving DecidableEq

def stepIndex : Step → ℕ
  | .model => 0
  | .machine => 1
  | .goal => 2
  | .review => 3

def Step.next : Step → Step
  | .model => .machine
  | .machine => .goal
  | _ => .review

def Step.back : Step → Step
  | .review => .goal
  | .goal => .machine
  | _ => .model

variable {R G V : Type*}

structure State (R G V : Type*) where
  step : Step
  model : Option Model
  ref : Option R
  hostId : Js
  engine : Js
  goal : Js
  params : Params V
  baseParams : Params V
  gpuIds : List G
  image : Js
  name : Js

/-- `initialState()` -/
def initialState : State R G V :=
  ⟨.model, none, none, .null, .null, .null, empty, empty, [], .text "", .text ""⟩

/-- `furthestStep` -/
def furthestStep (s : State R G V) : ℕ :=
  if s.model = none then 0
  else if s.hostId.truthy = false then 1
  else if s.goal.truthy = false then 2
  else 3

/-- `canAdvance` -/
def canAdvance (s : State R G V) : Bool :=
  match s.step with
  | .model => s.model.isSome
  | .machine => s.hostId.truthy
  | .goal => s.goal.truthy
  | .review => true

/-- The actions; a payload that is absent is `none`, and a step that there is not is `none`. -/
inductive Action (R G V : Type*) where
  | model (model : Option Model)
  | host (hostId : Js) (ref : Option R) (gpuIds : Option (List G)) (baseParams : Params V)
    (engine : Js)
  | engine (engine : Js)
  | goal (goal : Js) (params : Params V)
  | params (params : Params V)
  | gpus (gpuIds : Option (List G))
  | image (image : Js)
  | name (name : Js)
  | next
  | back
  | goto (step : Option Step)
  | reset
  | other

/-- `reduce`, or none where it throws. -/
def reduce (s : State R G V) : Action R G V → Option (State R G V)
  | .model m =>
    match s.model, m with
    | some _, none => none
    | old, m =>
      let changed := old = none ∨ old.map Model.key ≠ m.map Model.key
      let base := if changed then { s with
          ref := none, hostId := .null, engine := .null, goal := .null, params := empty,
          baseParams := empty, gpuIds := [], image := .text "" }
        else s
      some { base with model := m, step := .machine }
  | .host hostId ref gpuIds baseParams engine =>
    let base := if s.hostId ≠ hostId then { s with
        engine := .null, goal := .null, params := empty, image := .text "" }
      else s
    some { base with
      hostId := hostId, ref := ref, gpuIds := gpuIds.getD [], baseParams := baseParams,
      engine := engine.orElse base.engine, step := .goal }
  | .engine engine =>
    if s.engine = engine then some s
    else some { s with engine := engine, goal := .null, params := empty, image := .text "" }
  | .goal goal params =>
    some { s with goal := goal, params := spread s.baseParams params, step := .review }
  | .params params => some { s with params := params }
  | .gpus gpuIds => gpuIds.map fun ids => { s with gpuIds := ids }
  | .image image => some { s with image := if image.truthy then image else .text "" }
  | .name name => some { s with name := name }
  | .next => some (if canAdvance s then { s with step := s.step.next } else s)
  | .back => some { s with step := s.step.back }
  | .goto step =>
    match step with
    | none => some s
    | some step => some (if stepIndex step ≤ furthestStep s then { s with step := step } else s)
  | .reset => some initialState
  | .other => some s

/-! ## Runs -/

/-- The settings that an estimate needed, for a model, a machine and an engine. -/
structure Estimate (V : Type*) where
  key : Option Js
  host : Js
  engine : Js
  base : Params V

/-- A state, and the estimates of the host actions so far, the last one first. -/
structure Config (R G V : Type*) where
  state : State R G V
  estimates : List (Estimate V)

/-- The estimate of an action that led to a state. -/
def estimateOf (s : State R G V) : Action R G V → List (Estimate V)
  | .host hostId _ _ baseParams _ => [⟨s.model.map Model.key, hostId, s.engine, baseParams⟩]
  | _ => []

/-- An action that throws changes nothing. -/
def apply (c : Config R G V) (a : Action R G V) : Config R G V :=
  match reduce c.state a with
  | none => c
  | some s => ⟨s, estimateOf s a ++ c.estimates⟩

def start : Config R G V :=
  ⟨initialState, []⟩

def after (c : Config R G V) (run : List (Action R G V)) : Config R G V :=
  run.foldl apply c

/-- The settings of the last estimate for the model, the machine and the engine that are chosen. -/
def needed (c : Config R G V) : Params V :=
  ((c.estimates.find? fun e => e.key = c.state.model.map Model.key ∧ e.host = c.state.hostId ∧
    e.engine = c.state.engine).map Estimate.base).getD empty

/-- The step is at most the furthest one. -/
def InReach (s : State R G V) : Prop :=
  stepIndex s.step ≤ furthestStep s

/-- After a goal, the settings contain what is needed, and other than those of the goal nothing
else. -/
def Settled (c : Config R G V) : Action R G V → Prop
  | .goal _ params => ∀ k v, (needed c k = some v → c.state.params k = some v) ∧
    (c.state.params k = some v → params k = some v ∨ needed c k = some v)
  | _ => True

/-- When an action leads to a sound state. -/
def StepOk (c : Config R G V) : Action R G V → Prop
  | .model m => m.isSome ∨ c.state.model.isSome
  | .host hostId _ _ _ _ => c.state.model.isSome ∧ hostId.truthy
  | .engine engine => c.state.engine = engine ∨ c.state.step ≠ .review
  | .goal goal params => c.state.model.isSome ∧ c.state.hostId.truthy ∧ goal.truthy ∧
    (∀ k w, params k = some w → ∀ v, needed c k = some v → v = w) ∧
    ∀ k, params k = none → c.state.baseParams k = needed c k
  | _ => True

/-! ## One action -/

section Step

variable {c : Config R G V} {s : State R G V} {a : Action R G V}

theorem inReach_iff : InReach s ↔ (s.step = .model ∨ s.model.isSome) ∧
    (s.step = .model ∨ s.step = .machine ∨ s.hostId.truthy) ∧
    (s.step ≠ .review ∨ s.goal.truthy) := by
  rw [InReach, furthestStep]
  cases s.step <;> cases s.model <;> cases s.hostId.truthy <;> cases s.goal.truthy <;>
    simp [stepIndex]

theorem apply_of_reduce {s : State R G V} (h : reduce c.state a = some s) :
    apply c a = ⟨s, estimateOf s a ++ c.estimates⟩ := by
  rw [apply, h]

theorem apply_of_throws (h : reduce c.state a = none) : apply c a = c := by
  rw [apply, h]

theorem reduce_model_throws {old : Model} (hold : c.state.model = some old) :
    reduce c.state (.model none) = none := by
  rw [reduce.eq_def]
  dsimp only
  rw [hold]

/-- What is needed depends on what is chosen and on the estimates only. -/
theorem needed_congr {c c' : Config R G V} (hkey : c.state.model = c'.state.model)
    (hhost : c.state.hostId = c'.state.hostId) (hengine : c.state.engine = c'.state.engine)
    (hest : c.estimates = c'.estimates) : needed c = needed c' := by
  rw [needed, needed, hkey, hhost, hengine, hest]

/-- The settings after a goal : those of the goal are over those that are kept. -/
theorem settled_goal_iff {goal : Js} {params : Params V} :
    Settled (apply c (.goal goal params)) (.goal goal params) ↔
      (∀ k w, params k = some w → ∀ v, needed c k = some v → v = w) ∧
        ∀ k, params k = none → c.state.baseParams k = needed c k := by
  have hneeded : needed (apply c (.goal goal params)) = needed c := needed_congr rfl rfl rfl rfl
  have hparams (k : String) : (apply c (.goal goal params)).state.params k =
      (params k).or (c.state.baseParams k) := rfl
  rw [Settled, hneeded]
  simp only [hparams]
  constructor
  · intro h
    refine ⟨fun k w hk v hv => ?_, fun k hk => ?_⟩
    · have := (h k v).1 hv
      rw [hk, Option.some_or] at this
      exact (Option.some.inj this).symm
    · refine Option.ext fun v => ?_
      have := h k v
      rw [hk, Option.none_or] at this
      exact ⟨fun hb => (this.2 hb).resolve_left nofun, this.1⟩
  · intro ⟨hover, hbase⟩ k v
    cases hk : params k with
    | none =>
      rw [Option.none_or, hbase k hk]
      exact ⟨id, .inr⟩
    | some w =>
      rw [Option.some_or]
      exact ⟨fun hv => by rw [hover k w hk v hv], .inl⟩

/-- An action leads to a sound state just where it is in order. -/
theorem stepOk_iff (h : InReach c.state) :
    InReach (apply c a).state ∧ Settled (apply c a) a ↔ StepOk c a := by
  have hreach := inReach_iff.1 h
  cases a with
  | model m =>
    cases hold : c.state.model with
    | none =>
      have hstep : InReach (apply c (.model m)).state ↔ m.isSome := by
        rw [apply, reduce.eq_def]
        dsimp only
        rw [hold, inReach_iff]
        simp
      rw [hstep, StepOk, hold]
      simp [Settled]
    | some old =>
      cases m with
      | none =>
        rw [apply_of_throws (reduce_model_throws hold)]
        exact iff_of_true ⟨h, trivial⟩ (.inr (by rw [hold]; rfl))
      | some m =>
        refine iff_of_true ⟨?_, trivial⟩ (.inl rfl)
        rw [apply, reduce.eq_def]
        dsimp only
        rw [hold, inReach_iff]
        simp
  | host hostId ref gpuIds baseParams engine =>
    have hkept : InReach (apply c (.host hostId ref gpuIds baseParams engine)).state ↔
        c.state.model.isSome ∧ hostId.truthy := by
      rw [apply_of_reduce rfl, inReach_iff]
      by_cases hhost : c.state.hostId ≠ hostId
      · simp [hhost]
      · simp [hhost]
    rw [hkept]
    exact and_iff_left trivial
  | engine engine =>
    by_cases he : c.state.engine = engine
    · rw [apply, reduce, if_pos he]
      exact iff_of_true ⟨h, trivial⟩ (.inl he)
    · rw [apply, reduce, if_neg he]
      dsimp only
      rw [inReach_iff, StepOk]
      exact ⟨fun hs => .inr (hs.1.2.2.resolve_right nofun), fun hs =>
        ⟨⟨hreach.1, hreach.2.1, .inl (hs.resolve_left he)⟩, trivial⟩⟩
  | goal goal params =>
    have hchosen : InReach (apply c (.goal goal params)).state ↔
        c.state.model.isSome ∧ c.state.hostId.truthy ∧ goal.truthy := by
      rw [apply_of_reduce rfl, inReach_iff]
      simp
    rw [settled_goal_iff, hchosen, StepOk, and_assoc, and_assoc]
  | params params => exact iff_of_true ⟨h, trivial⟩ trivial
  | gpus gpuIds =>
    refine iff_of_true ⟨?_, trivial⟩ trivial
    cases gpuIds <;> exact h
  | image image => exact iff_of_true ⟨h, trivial⟩ trivial
  | name name => exact iff_of_true ⟨h, trivial⟩ trivial
  | next =>
    refine iff_of_true ⟨?_, trivial⟩ trivial
    rw [apply_of_reduce rfl]
    by_cases hadvance : canAdvance c.state
    · rw [if_pos hadvance, inReach_iff]
      rw [canAdvance] at hadvance
      cases hstep : c.state.step <;> simp_all [Step.next]
    · rw [if_neg hadvance]
      exact h
  | back =>
    refine iff_of_true ⟨?_, trivial⟩ trivial
    rw [apply_of_reduce rfl, inReach_iff]
    cases hstep : c.state.step <;> simp_all [Step.back]
  | goto step =>
    refine iff_of_true ⟨?_, trivial⟩ trivial
    cases step with
    | none => exact h
    | some step =>
      rw [apply_of_reduce rfl]
      split_ifs with hle
      exacts [hle, h]
  | reset => exact iff_of_true ⟨Nat.zero_le _, trivial⟩ trivial
  | other => exact iff_of_true ⟨h, trivial⟩ trivial

/-- The state keeps the settings of the last estimate for its model and machine, or none. -/
def Stored (c : Config R G V) : Prop :=
  c.state.hostId = .null ∧ c.state.baseParams = empty ∨
    ∃ e rest, c.estimates = e :: rest ∧ e.key = c.state.model.map Model.key ∧
      e.host = c.state.hostId ∧ e.base = c.state.baseParams

theorem Stored.apply (h : Stored c) (a : Action R G V) : Stored (apply c a) := by
  cases a with
  | model m =>
    cases hold : c.state.model with
    | none =>
      refine .inl ?_
      rw [Wizard.apply, reduce.eq_def]
      dsimp only
      rw [hold]
      simp
    | some old =>
      cases m with
      | none =>
        rw [apply_of_throws (reduce_model_throws hold)]
        exact h
      | some m =>
        by_cases hkey : old.key = m.key
        · -- the same model again
          rcases h with h | ⟨e, rest, hest, hmodel, hhost, hbase⟩
          · refine .inl ?_
            rw [Wizard.apply, reduce.eq_def]
            dsimp only
            rw [hold]
            simp [hkey, h]
          · refine .inr ⟨e, rest, ?_⟩
            rw [hold] at hmodel
            rw [Wizard.apply, reduce.eq_def]
            dsimp only
            rw [hold]
            simp [hkey, hest, hmodel, hhost, hbase, estimateOf]
        · refine .inl ?_
          rw [Wizard.apply, reduce.eq_def]
          dsimp only
          rw [hold]
          simp [hkey]
  | host hostId ref gpuIds baseParams engine =>
    exact .inr ⟨_, c.estimates, rfl, rfl, rfl, rfl⟩
  | engine engine =>
    rw [Wizard.apply, reduce]
    split_ifs <;> exact h
  | gpus gpuIds => cases gpuIds <;> exact h
  | next =>
    rw [apply_of_reduce rfl]
    split_ifs <;> exact h
  | goto step =>
    cases step with
    | none => exact h
    | some step =>
      rw [apply_of_reduce rfl]
      split_ifs <;> exact h
  | reset => exact .inl ⟨rfl, rfl⟩
  | goal goal params => exact h
  | params params => exact h
  | image image => exact h
  | name name => exact h
  | back => exact h
  | other => exact h

end Step

/-! ## Runs -/

section Runs

variable {c : Config R G V} {run : List (Action R G V)} {a : Action R G V}

theorem stored_after (h : Stored c) (run : List (Action R G V)) : Stored (after c run) := by
  induction run generalizing c with
  | nil => exact h
  | cons a run ih => exact ih (h.apply a)

/-- Where the engine is still that of the last estimate, what is needed is what is kept. -/
theorem needed_eq_baseParams (h : Stored c) (hhost : c.state.hostId ≠ .null)
    (hengine : (c.estimates.head?.map Estimate.engine) = some c.state.engine) :
    needed c = c.state.baseParams := by
  rcases h with h | ⟨e, rest, hest, hkey, hhost', hbase⟩
  · exact absurd h.1 hhost
  · rw [hest, List.head?_cons, Option.map_some, Option.some_inj] at hengine
    rw [needed, hest, List.find?_cons_of_pos (by simp [hkey, hhost', hengine]), Option.map_some,
      Option.getD_some, hbase]

/-- Every action of a run, with those before it. -/
theorem forall_split_cons {α : Type*} {P : List α → α → Prop} {b : α} {l : List α} :
    (∀ p x r, b :: l = p ++ x :: r → P p x) ↔
      P [] b ∧ ∀ p x r, l = p ++ x :: r → P (b :: p) x := by
  constructor
  · exact fun h => ⟨h [] b l rfl, fun p x r hl => h (b :: p) x r (by rw [hl]; rfl)⟩
  · rintro ⟨hhead, htail⟩ p x r hl
    cases p with
    | nil =>
      obtain ⟨rfl, -⟩ := List.cons.inj hl
      exact hhead
    | cons d p =>
      obtain ⟨rfl, hrest⟩ := List.cons.inj hl
      exact htail p x r hrest

theorem run_iff (h : InReach c.state) :
    (∀ p a r, run = p ++ a :: r →
      InReach (after c (p ++ [a])).state ∧ Settled (after c (p ++ [a])) a) ↔
      ∀ p a r, run = p ++ a :: r → StepOk (after c p) a := by
  induction run generalizing c with
  | nil =>
    exact iff_of_true (fun p a r hp => absurd hp (by simp)) fun p a r hp => absurd hp (by simp)
  | cons a run ih =>
    rw [forall_split_cons, forall_split_cons]
    by_cases hok : StepOk c a
    · have hsound := (stepOk_iff h).2 hok
      exact and_congr (iff_of_true hsound hok) (ih hsound.1)
    · exact iff_of_false (fun hs => hok ((stepOk_iff h).1 hs.1)) fun hs => hok hs.1

end Runs

/-- The settings of a machine that needs two devices. -/
def twoDevices : Params ℕ :=
  fun k => if k = "tensor_parallel_size" then some 2 else none

/-- A run that changes the engine after the estimate of the machine. -/
def engineRun : List (Action Unit ℕ ℕ) :=
  [.model (some ⟨.text "a/b"⟩), .host (.text "local") none none twoDevices (.text "vllm"),
    .engine (.text "sglang")]

/-- The goal then has a setting of the other engine. -/
theorem engine_keeps_settings :
    ¬Settled (after start (engineRun ++ [.goal (.text "balanced") empty]))
    (.goal (.text "balanced") empty) := by
  intro h
  cases (h "tensor_parallel_size" 2).2 rfl with
  | inl hp => cases hp
  | inr hn => exact absurd hn (by decide)

/-- In a run from the start the step stays in reach, and goals set what is needed, just where every
action is in order. -/
theorem guided_iff (run : List (Action R G V)) :
    (∀ p a r, run = p ++ a :: r →
      InReach (after start (p ++ [a])).state ∧ Settled (after start (p ++ [a])) a) ↔
      ∀ p a r, run = p ++ a :: r → StepOk (after start p) a :=
  run_iff (Nat.zero_le _)

end EngineConsole.Wizard
