import Mathlib

/-!
# Bounded queues that drop what does not fit

A queue of at most `cap` entries, fed by offers and emptied by takes. An offer to a full queue is
dropped and nothing else happens, so whoever offers never waits.

What was taken and what is still queued is, in order, a part of what was queued and offered
(`sublist_of_turns`), and all of it just when no offer met a full queue (`eq_iff_roomy`).
-/

set_option linter.unusedSectionVars false

namespace EngineConsole.Mailbox

variable {α : Type*} [DecidableEq α]

/-- What happens to a queue. -/
inductive Turn (α : Type*) where
  | offer (a : α)
  | take (a : α)

/-- The queue after an offer. -/
def offer (cap : ℕ) (q : List α) (a : α) : List α :=
  if q.length < cap then q ++ [a] else q

/-- The queue after a turn; only the first entry can be taken. -/
def turn (cap : ℕ) (q : List α) : Turn α → Option (List α)
  | .offer a => some (offer cap q a)
  | .take a => if q.head? = some a then some q.tail else none

/-- The queue after some turns. -/
def turns (cap : ℕ) : List α → List (Turn α) → Option (List α)
  | q, [] => some q
  | q, t :: ts => (turn cap q t).bind fun q => turns cap q ts

/-- What was offered. -/
def offered : List (Turn α) → List α
  | [] => []
  | .offer a :: ts => a :: offered ts
  | .take _ :: ts => offered ts

/-- What was taken. -/
def taken : List (Turn α) → List α
  | [] => []
  | .offer _ :: ts => taken ts
  | .take a :: ts => a :: taken ts

/-- Every offer finds room. -/
def Roomy (cap : ℕ) : List α → List (Turn α) → Prop
  | _, [] => True
  | q, .offer a :: ts => q.length < cap ∧ Roomy cap (q ++ [a]) ts
  | q, .take _ :: ts => Roomy cap q.tail ts

variable {cap : ℕ} {q q' : List α} {a : α} {ts : List (Turn α)}

/-! ## One turn -/

theorem length_offer_le (h : q.length ≤ cap) : (offer cap q a).length ≤ cap := by
  rw [offer]
  split_ifs with hroom
  · rw [List.length_append, List.length_singleton]
    exact hroom
  · exact h

theorem eq_cons_of_take (h : turn cap q (.take a) = some q') : q = a :: q' := by
  have hturn : (if q.head? = some a then some q.tail else none) = some q' := h
  split_ifs at hturn with hhead
  obtain ⟨rest, rfl⟩ := List.head?_eq_some_iff.1 hhead
  exact congrArg (a :: ·) (Option.some.inj hturn)

theorem length_turn_le {t : Turn α} (h : q.length ≤ cap) (ht : turn cap q t = some q') :
    q'.length ≤ cap := by
  cases t with
  | offer a =>
    obtain rfl := Option.some.inj ht
    exact length_offer_le h
  | take a =>
    rw [eq_cons_of_take ht] at h
    exact (Nat.le_succ _).trans h

/-! ## Some turns -/

theorem offered_append : ∀ ts us : List (Turn α), offered (ts ++ us) = offered ts ++ offered us
  | [], _ => rfl
  | .offer a :: ts, us => congrArg (a :: ·) (offered_append ts us)
  | .take _ :: ts, us => offered_append ts us

theorem taken_append : ∀ ts us : List (Turn α), taken (ts ++ us) = taken ts ++ taken us
  | [], _ => rfl
  | .offer _ :: ts, us => taken_append ts us
  | .take a :: ts, us => congrArg (a :: ·) (taken_append ts us)

theorem turns_append : ∀ {ts us : List (Turn α)} {q : List α}, turns cap q ts = some q' →
    turns cap q (ts ++ us) = turns cap q' us
  | [], _, _, h => congrArg (fun q => turns cap q _) (Option.some.inj h)
  | t :: ts, us, q, h => by
    obtain ⟨r, hr, hrest⟩ := Option.bind_eq_some_iff.1 h
    show (turn cap q t).bind _ = _
    rw [hr]
    exact turns_append hrest

theorem length_turns_le : ∀ {ts : List (Turn α)} {q : List α}, q.length ≤ cap →
    turns cap q ts = some q' → q'.length ≤ cap
  | [], q, h, hts => by
    obtain rfl := Option.some.inj hts
    exact h
  | t :: ts, q, h, hts => by
    obtain ⟨r, hr, hrest⟩ := Option.bind_eq_some_iff.1 hts
    exact length_turns_le (length_turn_le h hr) hrest

/-- What was taken and what is queued comes in order from what was queued and offered. -/
theorem sublist_of_turns : ∀ {ts : List (Turn α)} {q : List α}, turns cap q ts = some q' →
    List.Sublist (taken ts ++ q') (q ++ offered ts)
  | [], q, h => by
    obtain rfl := Option.some.inj h
    exact (List.append_nil q).symm ▸ List.Sublist.refl q
  | .offer a :: ts, q, h => by
    have hrest : List.Sublist (taken ts ++ q') (offer cap q a ++ offered ts) := sublist_of_turns h
    refine hrest.trans ?_
    rw [offer]
    split_ifs
    · rw [List.append_assoc]
      exact List.Sublist.refl _
    · exact (List.Sublist.refl q).append (List.sublist_cons_self a _)
  | .take a :: ts, q, h => by
    obtain ⟨r, hr, hrest⟩ := Option.bind_eq_some_iff.1 h
    rw [eq_cons_of_take hr]
    exact (sublist_of_turns hrest).cons_cons a

/-- Nothing is lost just when every offer finds room. -/
theorem eq_iff_roomy : ∀ {ts : List (Turn α)} {q : List α}, turns cap q ts = some q' →
    (taken ts ++ q' = q ++ offered ts ↔ Roomy cap q ts)
  | [], q, h => by
    obtain rfl := Option.some.inj h
    exact iff_of_true (List.append_nil q).symm trivial
  | .offer a :: ts, q, h => by
    have hrest : turns cap (offer cap q a) ts = some q' := h
    by_cases hroom : q.length < cap
    · have hoffer : offer cap q a = q ++ [a] := if_pos hroom
      rw [hoffer] at hrest
      have hih := eq_iff_roomy hrest
      rw [List.append_assoc, List.singleton_append] at hih
      exact hih.trans (and_iff_right hroom).symm
    · have hoffer : offer cap q a = q := if_neg hroom
      rw [hoffer] at hrest
      refine iff_of_false (fun heq => ?_) fun h => hroom h.1
      -- one entry fewer comes out than went in
      have hle := (sublist_of_turns hrest).length_le
      have hlen := congrArg List.length heq
      simp only [List.length_append, offered, List.length_cons, taken] at hle hlen
      omega
  | .take a :: ts, q, h => by
    obtain ⟨r, hr, hrest⟩ := Option.bind_eq_some_iff.1 h
    obtain rfl := eq_cons_of_take hr
    exact (List.cons_inj_right a).trans (eq_iff_roomy hrest)

end EngineConsole.Mailbox
