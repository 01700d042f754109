import EngineConsole.Transition

/-!
# Slots for long-lived streams

A limiter caps the streams that are open, in total and for any one caller. A response takes a slot
before it starts and holds it until it is dropped, however it ends; a caller that finds no slot is
told which cap is full, after a second look under the lock.

The limiter counts. `slots_counted` : in every run its counts are those of the slots that are held,
no cap is ever passed, and it remembers the callers that hold a slot and no others.
-/

set_option linter.unusedSectionVars false

namespace EngineConsole.StreamSlots

variable {κ : Type*} [DecidableEq κ]

/-! ## The limiter -/

structure Limiter where
  limit : ℤ
  perKey : ℤ

/-- `SseLimiter::new` : without a share of its own a caller may take all. -/
def Limiter.new (limit : ℤ) (perKey : Option ℤ) : Limiter :=
  ⟨limit, perKey.getD limit⟩

/-- The counts under the lock, the slots that are held and the callers about to be refused. -/
structure Streams (κ : Type*) where
  active : ℤ
  counts : κ → Option ℤ
  slots : List κ
  refusing : List κ

def Streams.start : Streams κ :=
  ⟨0, fun _ => none, [], []⟩

def Streams.countOf (s : Streams κ) (k : κ) : ℤ :=
  (s.counts k).getD 0

def Streams.keyFull (L : Limiter) (s : Streams κ) (k : κ) : Bool :=
  L.perKey ≤ s.countOf k

/-- `acquire` finds a cap full. -/
def Streams.full (L : Limiter) (s : Streams κ) (k : κ) : Bool :=
  L.limit ≤ s.active || s.keyFull L k

def Streams.acquire (s : Streams κ) (k : κ) : Streams κ :=
  { s with
    active := s.active + 1
    counts := Function.update s.counts k (some (s.countOf k + 1)) }

def Streams.release (s : Streams κ) (k : κ) : Streams κ :=
  { s with
    active := max (s.active - 1) 0
    counts := Function.update s.counts k
      (if 0 < s.countOf k - 1 then some (s.countOf k - 1) else none) }

/-- The 429 a caller gets. -/
structure Refusal where
  detail : String
  code : String
  scope : String
  limit : ℤ

def refusal (L : Limiter) (what code : String) (mine : Bool) : Refusal where
  detail :=
    if mine then
      s!"this API key already has {L.perKey} {what} open (the most one key may hold); end one and retry"
    else s!"{L.limit} {what} are already open on this console (its limit); end one and retry"
  code := code
  scope := if mine then "key" else "total"
  limit := if mine then L.perKey else L.limit

/-! ## The steps -/

inductive Act (κ : Type*) where
  | take (k : κ)
  | refuse (k : κ)
  | drop (k : κ)

def Streams.step (L : Limiter) (s : Streams κ) : Act κ → Option (Streams κ)
  | .take k =>
    if s.full L k then some { s with refusing := k :: s.refusing }
    else some { s.acquire k with slots := k :: s.slots }
  | .refuse k => if k ∈ s.refusing then some { s with refusing := s.refusing.erase k } else none
  | .drop k =>
    if k ∈ s.slots then some { s.release k with slots := s.slots.erase k } else none

variable {L : Limiter} {s s' : Streams κ} {k : κ}

/-! ## The counts -/

/-- The counts are those of the slots that are held, and no cap is passed. -/
structure Counted (L : Limiter) (s : Streams κ) : Prop where
  active : s.active = s.slots.length
  counts : ∀ k, s.counts k = if k ∈ s.slots then some (s.slots.count k : ℤ) else none
  total : (s.slots.length : ℤ) ≤ max 0 L.limit
  share : ∀ k, (s.slots.count k : ℤ) ≤ max 0 L.perKey

theorem counted_start (L : Limiter) : Counted L (Streams.start : Streams κ) where
  active := rfl
  counts _ := rfl
  total := le_max_left 0 _
  share _ := le_max_left 0 _

theorem Counted.countOf (h : Counted L s) (k : κ) : s.countOf k = s.slots.count k := by
  rw [Streams.countOf, h.counts]
  split_ifs with hk
  · rfl
  · rw [List.count_eq_zero_of_not_mem hk]
    rfl

theorem Counted.not_full (h : Counted L s) :
    s.full L k = false ↔ (s.slots.length : ℤ) < L.limit ∧ (s.slots.count k : ℤ) < L.perKey := by
  rw [Streams.full, Streams.keyFull, h.active, h.countOf, Bool.or_eq_false_iff,
    decide_eq_false_iff_not, decide_eq_false_iff_not, not_le, not_le]

theorem Counted.take (h : Counted L s) (hk : s.full L k = false) :
    Counted L { s.acquire k with slots := k :: s.slots } := by
  obtain ⟨htotal, hshare⟩ := h.not_full.1 hk
  refine ⟨?_, fun j => ?_, ?_, fun j => ?_⟩
  · show s.active + 1 = ((k :: s.slots).length : ℤ)
    rw [h.active, List.length_cons, Nat.cast_succ]
  · show Function.update s.counts k _ j = _
    by_cases hj : j = k
    · obtain rfl := hj
      rw [Function.update_self, if_pos List.mem_cons_self, h.countOf, List.count_cons_self,
        Nat.cast_succ]
    · rw [Function.update_of_ne hj, h.counts, List.count_cons_of_ne (Ne.symm hj)]
      simp only [List.mem_cons, hj, false_or]
  · show ((k :: s.slots).length : ℤ) ≤ _
    rw [List.length_cons, Nat.cast_succ]
    exact le_max_of_le_right htotal
  · show ((k :: s.slots).count j : ℤ) ≤ _
    by_cases hj : j = k
    · obtain rfl := hj
      rw [List.count_cons_self, Nat.cast_succ]
      exact le_max_of_le_right hshare
    · rw [List.count_cons_of_ne (Ne.symm hj)]
      exact h.share j

theorem Counted.drop (h : Counted L s) (hk : k ∈ s.slots) :
    Counted L { s.release k with slots := s.slots.erase k } := by
  have hpos : 0 < s.slots.count k := List.count_pos_iff.2 hk
  have hlen := List.length_erase_add_one hk
  refine ⟨?_, fun j => ?_, ?_, fun j => ?_⟩
  · show max (s.active - 1) 0 = ((s.slots.erase k).length : ℤ)
    rw [h.active]
    omega
  · show Function.update s.counts k _ j = _
    by_cases hj : j = k
    · obtain rfl := hj
      rw [Function.update_self, h.countOf, List.count_erase_self]
      by_cases hone : s.slots.count j = 1
      · have hgone : j ∉ s.slots.erase j := by
          refine fun hm => absurd (List.count_pos_iff.2 hm) ?_
          rw [List.count_erase_self]
          omega
        rw [if_neg hgone, if_neg (by omega)]
      · have hleft : j ∈ s.slots.erase j := by
          refine List.count_pos_iff.1 ?_
          rw [List.count_erase_self]
          omega
        rw [if_pos hleft, if_pos (by omega), Nat.cast_sub hpos, Nat.cast_one]
    · rw [Function.update_of_ne hj, h.counts, List.count_erase_of_ne hj]
      simp only [List.mem_erase_of_ne hj]
  · show ((s.slots.erase k).length : ℤ) ≤ _
    have htotal := h.total
    omega
  · show ((s.slots.erase k).count j : ℤ) ≤ _
    have hle : (s.slots.erase k).count j ≤ s.slots.count j := List.erase_sublist.count_le j
    exact (Int.ofNat_le.2 hle).trans (h.share j)

/-- Every step keeps the counts. -/
theorem Counted.step {a : Act κ} (h : Counted L s) (ha : s.step L a = some s') : Counted L s' := by
  cases a with
  | take k =>
    have ha : (if s.full L k then _ else _ : Option (Streams κ)) = some s' := ha
    split_ifs at ha with hk
    · obtain rfl := Option.some.inj ha
      exact ⟨h.active, h.counts, h.total, h.share⟩
    · obtain rfl := Option.some.inj ha
      exact h.take (Bool.eq_false_iff.2 hk)
  | refuse k =>
    obtain ⟨-, ha⟩ := Option.ite_none_right_eq_some.1 ha
    obtain rfl := Option.some.inj ha
    exact ⟨h.active, h.counts, h.total, h.share⟩
  | drop k =>
    obtain ⟨hk, ha⟩ := Option.ite_none_right_eq_some.1 ha
    obtain rfl := Option.some.inj ha
    exact h.drop hk

/-- In every run the limiter counts the slots that are held, remembers the callers that hold one and
no others, passes no cap, and has a slot for a caller just when neither cap is reached. -/
theorem slots_counted (h : Reach (Streams.step L) Streams.start s) :
    s.active = s.slots.length ∧
      (∀ k, s.counts k = if k ∈ s.slots then some (s.slots.count k : ℤ) else none) ∧
      (s.slots.length : ℤ) ≤ max 0 L.limit ∧ (∀ k, (s.slots.count k : ℤ) ≤ max 0 L.perKey) ∧
      ∀ k, s.full L k = false ↔
        (s.slots.length : ℤ) < L.limit ∧ (s.slots.count k : ℤ) < L.perKey := by
  have hc : Counted L s :=
    h.invariant (Counted L) (fun _ _ _ _ hi ha => hi.step ha) (counted_start L)
  exact ⟨hc.active, hc.counts, hc.total, hc.share, fun _ => hc.not_full⟩

/-- Of three callers the last is refused, until one of the first has ended. -/
def threeCallers : List (Act ℕ) :=
  [.take 0, .take 0, .take 0, .refuse 0, .take 1, .take 2, .drop 0, .take 2]

theorem slots_counted_three :
    ∃ s, runActs (Streams.step (Limiter.new 3 (some 2))) Streams.start threeCallers = some s ∧
      s.active = s.slots.length ∧
      (∀ k, s.counts k = if k ∈ s.slots then some (s.slots.count k : ℤ) else none) ∧
      (s.slots.length : ℤ) ≤ max 0 3 ∧ (∀ k, (s.slots.count k : ℤ) ≤ max 0 2) ∧
      ∀ k, s.full (Limiter.new 3 (some 2)) k = false ↔
        (s.slots.length : ℤ) < 3 ∧ (s.slots.count k : ℤ) < 2 :=
  ⟨_, rfl, slots_counted (L := Limiter.new 3 (some 2)) (Reach.of_runActs
    (show runActs (Streams.step (Limiter.new 3 (some 2))) Streams.start threeCallers = some _
      from rfl))⟩

end EngineConsole.StreamSlots
