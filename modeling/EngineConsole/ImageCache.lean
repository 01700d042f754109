import EngineConsole.Transition

/-!
# The images of a machine, asked for at most once

A node does not push its local images: whoever looks at a machine asks for them, and many may look
at once. What a call gave is kept for a minute, and after a call that failed the node is left alone
for ten seconds. Callers that find nothing fresh queue for a lock and look again once they have it,
so only the first of them calls.

`Cache.step` is one step of any caller. `calls_apart` : there is never more than one call under way,
each starts only when the outcome of the last one has expired, and what is kept is what the last
call that succeeded gave. A caller that is dropped while it calls leaves nothing behind.
-/

set_option linter.unusedSectionVars false

namespace EngineConsole.ImageCache

variable {ι : Type*} [DecidableEq ι]

def imagesTtl : ℕ :=
  60

/-- Seconds during which a node that could not answer is not asked again. -/
def failedTtl : ℕ :=
  10

/-- Where a caller is in `images_of`. -/
inductive Pc (ι : Type*) where
  | away
  | entered
  | stale
  | queued
  | held
  | calling (since : ℕ) (old : List ι)
  | answered (list : List ι)
  deriving DecidableEq

/-- A call that ended, and its images if it succeeded. -/
structure Call (ι : Type*) where
  since : ℕ
  until_ : ℕ
  images : Option (List ι)
  deriving DecidableEq

/-- The time for which the outcome of a call holds. -/
def Call.ttl (c : Call ι) : ℕ :=
  if c.images.isSome then imagesTtl else failedTtl

structure Cache (ι : Type*) where
  now : ℕ
  /-- The entry of the machine: when it expires, and the images. -/
  entry : Option (ℕ × List ι)
  holder : Option ℕ
  pc : ℕ → Pc ι
  /-- The calls that ended, the last one first. -/
  calls : List (Call ι)

def Cache.new : Cache ι :=
  ⟨0, none, none, fun _ => .away, []⟩

def Cache.fresh (s : Cache ι) : Bool :=
  s.entry.any fun e => s.now < e.1

/-- What the cache has, fresh or not. -/
def Cache.kept (s : Cache ι) : List ι :=
  (s.entry.map Prod.snd).getD []

inductive Act (ι : Type*) where
  | enter (i : ℕ)
  | hit (i : ℕ)
  | miss (i : ℕ)
  | offline (i : ℕ)
  | online (i : ℕ)
  | lock (i : ℕ)
  | hitHeld (i : ℕ)
  | call (i : ℕ)
  | succeed (i since : ℕ) (old images : List ι)
  | fail (i since : ℕ) (old : List ι)
  | leave (i : ℕ)
  | tick

/-! ## The steps -/

def Cache.goto (s : Cache ι) (i : ℕ) (pc : Pc ι) : Cache ι :=
  { s with pc := Function.update s.pc i pc }

def Cache.unlock (s : Cache ι) : Cache ι :=
  { s with holder := none }

/-- The lock of a caller that goes away is free again. -/
def Cache.free (s : Cache ι) (i : ℕ) : Cache ι :=
  if s.holder = some i then s.unlock else s

def Cache.step (s : Cache ι) : Act ι → Option (Cache ι)
  | .enter i => if s.pc i = .away then some (s.goto i .entered) else none
  | .hit i =>
    if s.pc i = .entered ∧ s.fresh then some (s.goto i (.answered s.kept)) else none
  | .miss i => if s.pc i = .entered ∧ !s.fresh then some (s.goto i .stale) else none
  | .offline i => if s.pc i = .stale then some (s.goto i (.answered s.kept)) else none
  | .online i => if s.pc i = .stale then some (s.goto i .queued) else none
  | .lock i =>
    if s.pc i = .queued ∧ s.holder = none then some { s.goto i .held with holder := some i }
    else none
  | .hitHeld i =>
    if s.pc i = .held ∧ s.fresh then some (s.goto i (.answered s.kept)).unlock else none
  | .call i =>
    if s.pc i = .held ∧ !s.fresh then some (s.goto i (.calling s.now s.kept)) else none
  | .succeed i since old images =>
    if s.pc i = .calling since old then
      some { (s.goto i (.answered images)).unlock with
        entry := some (s.now + imagesTtl, images)
        calls := ⟨since, s.now, some images⟩ :: s.calls }
    else none
  | .fail i since old =>
    if s.pc i = .calling since old then
      some { (s.goto i (.answered old)).unlock with
        entry := some (s.now + failedTtl, old)
        calls := ⟨since, s.now, none⟩ :: s.calls }
    else none
  | .leave i => some ((s.goto i .away).free i)
  | .tick => some { s with now := s.now + 1 }

variable {s s' : Cache ι} {i j : ℕ}

theorem goto_self (s : Cache ι) (i : ℕ) (pc : Pc ι) : (s.goto i pc).pc i = pc := by
  show Function.update s.pc i pc i = pc
  rw [Function.update_self]

theorem goto_of_ne (s : Cache ι) (h : j ≠ i) (pc : Pc ι) : (s.goto i pc).pc j = s.pc j := by
  show Function.update s.pc i pc j = s.pc j
  rw [Function.update_of_ne h]

/-! ## The invariant -/

/-- The images of the last call that succeeded. -/
def lastImages : List (Call ι) → List ι
  | [] => []
  | c :: cs => c.images.getD (lastImages cs)

/-- Each call started when the outcome of the one before had expired. -/
def Apart : List (Call ι) → Prop
  | [] => True
  | c :: cs => (∀ d ∈ cs.head?, d.until_ + d.ttl ≤ c.since) ∧ c.since ≤ c.until_ ∧ Apart cs

/-- The task has the lock. -/
def Pc.holds : Pc ι → Bool
  | .held | .calling _ _ => true
  | _ => false

/-- The lock is where a caller says it is, the entry is what the last call left, and a call that is
under way started when that had expired. -/
structure Inv (s : Cache ι) : Prop where
  lock : ∀ i, (s.pc i).holds = true → s.holder = some i
  entry : s.entry = s.calls.head?.map fun c => (c.until_ + c.ttl, lastImages s.calls)
  apart : Apart s.calls
  past : ∀ c ∈ s.calls.head?, c.until_ ≤ s.now
  calling : ∀ i since old, s.pc i = .calling since old →
    since ≤ s.now ∧ old = lastImages s.calls ∧ ∀ c ∈ s.calls.head?, c.until_ + c.ttl ≤ since

theorem inv_new : Inv (Cache.new : Cache ι) where
  lock _ h := absurd h Bool.false_ne_true
  entry := rfl
  apart := trivial
  past _ h := absurd h (Option.not_mem_none _)
  calling _ _ _ h := absurd (congrArg Pc.holds h) Bool.false_ne_true

theorem Inv.kept_eq (h : Inv s) : s.kept = lastImages s.calls := by
  unfold Cache.kept
  rw [h.entry]
  cases s.calls with
  | nil => rfl
  | cons c cs => rfl

/-- What is stale has expired. -/
theorem Inv.expired (h : Inv s) (hfresh : s.fresh = false) :
    ∀ c ∈ s.calls.head?, c.until_ + c.ttl ≤ s.now := by
  intro c hc
  unfold Cache.fresh at hfresh
  rw [h.entry, Option.mem_def.1 hc] at hfresh
  exact Nat.le_of_not_lt (of_decide_eq_false hfresh)

/-- A caller moves on without the lock, or with it, as before. -/
theorem Inv.goto (h : Inv s) {pc : Pc ι} (hlock : pc.holds = true → s.holder = some i)
    (hcall : ∀ since old, pc = .calling since old →
      since ≤ s.now ∧ old = lastImages s.calls ∧ ∀ c ∈ s.calls.head?, c.until_ + c.ttl ≤ since) :
    Inv (s.goto i pc) where
  lock j hj := by
    by_cases hji : j = i
    · obtain rfl := hji
      exact hlock (goto_self s j pc ▸ hj)
    · exact h.lock j (goto_of_ne s hji pc ▸ hj)
  entry := h.entry
  apart := h.apart
  past := h.past
  calling j since old hj := by
    by_cases hji : j = i
    · obtain rfl := hji
      exact hcall since old (goto_self s j pc ▸ hj)
    · exact h.calling j since old (goto_of_ne s hji pc ▸ hj)

theorem Inv.goto_away (h : Inv s) {pc : Pc ι} (hpc : pc.holds = false) : Inv (s.goto i pc) :=
  h.goto (fun ht => absurd (hpc.symm.trans ht) Bool.false_ne_true) fun since old hc =>
    absurd (hc ▸ hpc : (Pc.calling since old).holds = false) Bool.false_ne_true.symm

/-- Nobody has the lock once its holder gives it back. -/
theorem Inv.none_holds (h : Inv s) (hi : s.holder = some i) {pc : Pc ι} (hpc : pc.holds = false) :
    ∀ j, ((s.goto i pc).pc j).holds = false := by
  intro j
  by_cases hji : j = i
  · obtain rfl := hji
    exact (congrArg Pc.holds (goto_self s j pc)).trans hpc
  · rw [goto_of_ne s hji]
    refine Bool.eq_false_iff.2 fun hj => hji ?_
    exact Option.some.inj ((h.lock j hj).symm.trans hi)

theorem Inv.unlock (h : Inv s) (hnone : ∀ j, (s.pc j).holds = false) : Inv s.unlock where
  lock j hj := absurd ((hnone j).symm.trans hj) Bool.false_ne_true
  entry := h.entry
  apart := h.apart
  past := h.past
  calling := h.calling

/-- A call ends: what it gave, or what there was, is kept for a while. -/
theorem Inv.ended (h : Inv s) {since : ℕ} {old : List ι} (hi : s.pc i = .calling since old)
    (images : Option (List ι)) :
    Inv { (s.goto i (.answered (images.getD old))).unlock with
      entry := some (s.now + (⟨since, s.now, images⟩ : Call ι).ttl, images.getD old)
      calls := ⟨since, s.now, images⟩ :: s.calls } := by
  obtain ⟨hsince, rfl, hlast⟩ := h.calling i since old hi
  have hnone :
      ∀ j, ((s.goto i (.answered (images.getD (lastImages s.calls)))).pc j).holds = false :=
    h.none_holds (h.lock i (hi ▸ rfl)) rfl
  refine ⟨fun j hj => absurd ((hnone j).symm.trans hj) Bool.false_ne_true, rfl,
    ⟨hlast, hsince, h.apart⟩, fun c hc => ?_, fun j since' old' hj => ?_⟩
  · obtain rfl := Option.some.inj hc
    exact le_rfl
  · have hholds := hnone j
    rw [show (s.goto i _).pc j = _ from hj] at hholds
    exact absurd hholds Bool.false_ne_true.symm

/-- Every step keeps the invariant. -/
theorem Inv.step {a : Act ι} (h : Inv s) (ha : s.step a = some s') : Inv s' := by
  cases a with
  | enter i =>
    obtain ⟨-, ha⟩ := Option.ite_none_right_eq_some.1 ha
    exact Option.some.inj ha ▸ h.goto_away rfl
  | hit i =>
    obtain ⟨-, ha⟩ := Option.ite_none_right_eq_some.1 ha
    exact Option.some.inj ha ▸ h.goto_away rfl
  | miss i =>
    obtain ⟨-, ha⟩ := Option.ite_none_right_eq_some.1 ha
    exact Option.some.inj ha ▸ h.goto_away rfl
  | offline i =>
    obtain ⟨-, ha⟩ := Option.ite_none_right_eq_some.1 ha
    exact Option.some.inj ha ▸ h.goto_away rfl
  | online i =>
    obtain ⟨-, ha⟩ := Option.ite_none_right_eq_some.1 ha
    exact Option.some.inj ha ▸ h.goto_away rfl
  | lock i =>
    obtain ⟨⟨-, hfree⟩, ha⟩ := Option.ite_none_right_eq_some.1 ha
    obtain rfl := Option.some.inj ha
    -- as the lock is free no other caller has it
    have hfree' : ∀ j, (s.pc j).holds = false := fun j =>
      Bool.eq_false_iff.2 fun hj => Option.some_ne_none j ((h.lock j hj).symm.trans hfree)
    refine ⟨fun j hj => ?_, h.entry, h.apart, h.past, fun j since old hj => ?_⟩
    · by_cases hji : j = i
      · exact hji ▸ rfl
      · have hj' : (s.pc j).holds = true := goto_of_ne s hji .held ▸ hj
        exact absurd ((hfree' j).symm.trans hj') Bool.false_ne_true
    · by_cases hji : j = i
      · obtain rfl := hji
        have hheld : Pc.held = .calling since old := goto_self s j .held ▸ hj
        cases hheld
      · exact h.calling j since old (goto_of_ne s hji .held ▸ hj)
  | hitHeld i =>
    obtain ⟨⟨hi, -⟩, ha⟩ := Option.ite_none_right_eq_some.1 ha
    obtain rfl := Option.some.inj ha
    exact (h.goto_away rfl).unlock (h.none_holds (h.lock i (hi ▸ rfl)) rfl)
  | call i =>
    obtain ⟨⟨hi, hstale⟩, ha⟩ := Option.ite_none_right_eq_some.1 ha
    obtain rfl := Option.some.inj ha
    refine h.goto (fun _ => h.lock i (hi ▸ rfl)) fun since old hc => ?_
    obtain ⟨rfl, rfl⟩ := Pc.calling.inj hc
    exact ⟨le_rfl, h.kept_eq, h.expired (Bool.not_eq_true' _ ▸ hstale)⟩
  | succeed i since old images =>
    obtain ⟨hi, ha⟩ := Option.ite_none_right_eq_some.1 ha
    exact Option.some.inj ha ▸ h.ended hi (some images)
  | fail i since old =>
    obtain ⟨hi, ha⟩ := Option.ite_none_right_eq_some.1 ha
    exact Option.some.inj ha ▸ h.ended hi none
  | leave i =>
    obtain rfl := Option.some.inj ha
    have haway : Inv (s.goto i .away) := h.goto_away rfl
    show Inv (if s.holder = some i then (s.goto i .away).unlock else s.goto i .away)
    split_ifs with hi
    · exact haway.unlock (h.none_holds hi rfl)
    · exact haway
  | tick =>
    obtain rfl := Option.some.inj ha
    refine ⟨h.lock, h.entry, h.apart, fun c hc => (h.past c hc).trans (Nat.le_succ _),
      fun j since old hj => ?_⟩
    obtain ⟨hsince, hold, hlast⟩ := h.calling j since old hj
    exact ⟨hsince.trans (Nat.le_succ _), hold, hlast⟩

/-- Two callers never call at once; the calls that ended, and the one that is under way, started
when the outcome of the call before them had expired; and what is kept is what the last call that
succeeded gave, until a minute after it or ten seconds after a failure. -/
theorem calls_apart (h : Reach Cache.step Cache.new s) :
    (∀ i j since old since' old', s.pc i = .calling since old → s.pc j = .calling since' old' →
      i = j) ∧
    Apart s.calls ∧
    (∀ i since old, s.pc i = .calling since old → ∀ c ∈ s.calls.head?, c.until_ + c.ttl ≤ since) ∧
    s.entry = s.calls.head?.map fun c => (c.until_ + c.ttl, lastImages s.calls) := by
  have hi : Inv s := h.invariant Inv (fun _ _ _ _ hi ha => hi.step ha) inv_new
  refine ⟨fun i j since old since' old' hic hjc => ?_, hi.apart, fun i since old hc =>
    (hi.calling i since old hc).2.2, hi.entry⟩
  have hholder := (hi.lock i (hic ▸ rfl)).symm.trans (hi.lock j (hjc ▸ rfl))
  exact Option.some.inj hholder

/-- Two callers at once: the second is answered from what the first one got. -/
def twoLook : List (Act ℕ) :=
  [.enter 0, .enter 1, .miss 0, .miss 1, .online 0, .online 1, .lock 1, .call 1, .tick,
    .succeed 1 0 [] [7], .lock 0, .hitHeld 0, .leave 1]

theorem calls_apart_two : ∃ s, runActs Cache.step (Cache.new : Cache ℕ) twoLook = some s ∧
    (∀ i j since old since' old', s.pc i = .calling since old → s.pc j = .calling since' old' →
      i = j) ∧
    Apart s.calls ∧
    (∀ i since old, s.pc i = .calling since old → ∀ c ∈ s.calls.head?, c.until_ + c.ttl ≤ since) ∧
    s.entry = s.calls.head?.map fun c => (c.until_ + c.ttl, lastImages s.calls) :=
  ⟨_, rfl, calls_apart (Reach.of_runActs
    (show runActs Cache.step (Cache.new : Cache ℕ) twoLook = some _ from rfl))⟩

end EngineConsole.ImageCache
