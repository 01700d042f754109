import EngineConsole.Mailbox
import EngineConsole.Transition

/-!
# The event bus

A topic has a list of subscriptions, and each subscription its own channel of 256 events. An event
is offered to every channel of its topic under the lock of the table, and dropped where the channel
is full. A subscription gets its number before the lock is taken and is listed under the lock; when
it is dropped it is unlisted first, and its channel closes after that.

`Bus.step` is one step of any thread. In every run the channel of a listed subscription goes through
the turns of a bounded queue of its own, whatever the other subscriptions and topics do
(`turns_of_run`), so a subscriber gets the events of its topic in order, loses events only while its
own channel is full (`received_of_run`), and gets none that were published before it was listed.
-/

set_option linter.unusedSectionVars false

namespace EngineConsole.EventBus

open Mailbox

variable {τ ε : Type*} [DecidableEq τ] [DecidableEq ε]

def busQueue : ℕ :=
  256

/-- The table of the bus, and its subscriptions by the stage they are in. -/
structure Bus (τ ε : Type*) where
  subs : τ → List ℕ
  next : ℕ
  queue : ℕ → List ε
  closed : ℕ → Bool
  /-- Numbered, and not yet listed. -/
  opening : List (ℕ × τ)
  /-- Held by a subscriber. -/
  held : List (ℕ × τ)
  /-- Unlisted by the drop, with the channel still open. -/
  leaving : List ℕ

def Bus.new : Bus τ ε :=
  ⟨fun _ => [], 0, fun _ => [], fun _ => false, [], [], []⟩

inductive Act (τ ε : Type*) where
  | number (t : τ)
  | list (i : ℕ) (t : τ)
  | publish (t : τ) (e : ε)
  | recv (i : ℕ) (e : ε)
  | unlist (i : ℕ) (t : τ)
  | close (i : ℕ)

/-! ## The steps -/

/-- The event is offered to one channel after the other. -/
def sendAll (e : ε) : List ℕ → (ℕ → List ε) → ℕ → List ε
  | [], queue => queue
  | i :: is, queue => sendAll e is (Function.update queue i (offer busQueue (queue i) e))

/-- Closed channels are forgotten, the others are offered the event. -/
def Bus.publish (s : Bus τ ε) (t : τ) (e : ε) : Bus τ ε :=
  { s with
    subs := Function.update s.subs t ((s.subs t).filter fun i => !s.closed i)
    queue := sendAll e ((s.subs t).filter fun i => !s.closed i) s.queue }

def Bus.step (s : Bus τ ε) : Act τ ε → Option (Bus τ ε)
  | .number t => some { s with next := s.next + 1, opening := (s.next, t) :: s.opening }
  | .list i t =>
    if (i, t) ∈ s.opening then
      some { s with
        subs := Function.update s.subs t (s.subs t ++ [i])
        opening := s.opening.erase (i, t)
        held := (i, t) :: s.held }
    else none
  | .publish t e => some (s.publish t e)
  | .recv i e =>
    if i ∈ s.held.map Prod.fst ∧ (s.queue i).head? = some e then
      some { s with queue := Function.update s.queue i (s.queue i).tail }
    else none
  | .unlist i t =>
    if (i, t) ∈ s.held then
      some { s with
        subs := Function.update s.subs t ((s.subs t).filter fun j => j ≠ i)
        held := s.held.erase (i, t)
        leaving := i :: s.leaving }
    else none
  | .close i =>
    if i ∈ s.leaving then
      some { s with
        closed := Function.update s.closed i true
        leaving := s.leaving.erase i }
    else none

/-! ## The channels after a publish -/

variable {s s' : Bus τ ε} {t u : τ} {e : ε} {i j : ℕ} {is : List ℕ} {queue : ℕ → List ε}

theorem sendAll_of_not_mem : ∀ {is : List ℕ} {queue : ℕ → List ε}, i ∉ is →
    sendAll e is queue i = queue i
  | [], _, _ => rfl
  | j :: is, queue, h => by
    obtain ⟨hne, his⟩ := not_or.1 (mt List.mem_cons.2 h)
    exact (sendAll_of_not_mem his).trans (Function.update_of_ne hne _ _)

/-- A channel that is listed once is offered the event once. -/
theorem sendAll_of_mem : ∀ {is : List ℕ} {queue : ℕ → List ε}, is.Nodup → i ∈ is →
    sendAll e is queue i = offer busQueue (queue i) e
  | j :: is, queue, hn, h => by
    obtain ⟨hj, hn⟩ := List.nodup_cons.1 hn
    rcases List.mem_cons.1 h with rfl | h
    · exact (sendAll_of_not_mem hj).trans (Function.update_self ..)
    · have hne : i ≠ j := fun hij => hj (hij ▸ h)
      refine (sendAll_of_mem hn h).trans ?_
      rw [Function.update_of_ne hne]

/-! ## The invariant -/

/-- The numbers in use are distinct and were handed out; the table lists the held subscriptions
and no channel of the table is closed. -/
structure Inv (s : Bus τ ε) : Prop where
  nodup : (s.opening.map Prod.fst ++ s.held.map Prod.fst).Nodup
  lt : ∀ i ∈ s.opening.map Prod.fst ++ s.held.map Prod.fst, i < s.next
  listed : ∀ i t, i ∈ s.subs t ↔ (i, t) ∈ s.held
  once : ∀ t, (s.subs t).Nodup
  away : ∀ i ∈ s.opening.map Prod.fst ++ s.held.map Prod.fst, s.closed i = false ∧ i ∉ s.leaving
  old : ∀ i, s.closed i = true ∨ i ∈ s.leaving → i < s.next
  fresh : ∀ i, s.next ≤ i ∨ i ∈ s.opening.map Prod.fst → s.queue i = []
  short : ∀ i, (s.queue i).length ≤ busQueue

theorem inv_new : Inv (Bus.new : Bus τ ε) where
  nodup := List.nodup_nil
  lt _ h := absurd h List.not_mem_nil
  listed _ _ := iff_of_false List.not_mem_nil List.not_mem_nil
  once _ := List.nodup_nil
  away _ h := absurd h List.not_mem_nil
  old _ h := h.elim (fun h => absurd h Bool.false_ne_true) fun h => absurd h List.not_mem_nil
  fresh _ _ := rfl
  short _ := Nat.zero_le _

theorem Inv.mem_held (h : Inv s) (hi : i ∈ s.subs t) : i ∈ s.held.map Prod.fst :=
  List.mem_map_of_mem (f := Prod.fst) ((h.listed i t).1 hi)

/-- A subscription is listed under one topic. -/
theorem Inv.topic_unique (h : Inv s) (ht : i ∈ s.subs t) (hu : i ∈ s.subs u) : t = u := by
  have hnodup := (List.nodup_append.1 h.nodup).2.1
  have hpair := List.inj_on_of_nodup_map hnodup ((h.listed i t).1 ht) ((h.listed i u).1 hu) rfl
  exact congrArg Prod.snd hpair

/-- No listed channel is closed, so a publish forgets none. -/
theorem Inv.filter_open (h : Inv s) (t : τ) :
    (s.subs t).filter (fun i => !s.closed i) = s.subs t := by
  refine List.filter_eq_self.2 fun i hi => ?_
  rw [(h.away i (List.mem_append_right _ (h.mem_held hi))).1]
  rfl

theorem Inv.publish_subs (h : Inv s) (t : τ) (e : ε) : (s.publish t e).subs = s.subs := by
  show Function.update s.subs t _ = s.subs
  rw [h.filter_open]
  exact Function.update_eq_self t s.subs

theorem Inv.publish_queue (h : Inv s) (t : τ) (e : ε) (i : ℕ) :
    (s.publish t e).queue i =
      if i ∈ s.subs t then offer busQueue (s.queue i) e else s.queue i := by
  show sendAll e _ s.queue i = _
  rw [h.filter_open]
  split_ifs with hi
  · exact sendAll_of_mem (h.once t) hi
  · exact sendAll_of_not_mem hi

/-! ## The steps keep the invariant -/

theorem Inv.number (h : Inv s) (t : τ) :
    Inv { s with next := s.next + 1, opening := (s.next, t) :: s.opening } where
  nodup := List.nodup_cons.2 ⟨fun hi => lt_irrefl _ (h.lt _ hi), h.nodup⟩
  lt i hi := by
    rcases List.mem_cons.1 hi with rfl | hi
    · exact Nat.lt_succ_self _
    · exact (h.lt i hi).trans (Nat.lt_succ_self _)
  listed := h.listed
  once := h.once
  away i hi := by
    rcases List.mem_cons.1 hi with rfl | hi
    · refine ⟨Bool.eq_false_iff.2 fun hc => ?_, fun hl => ?_⟩
      · exact lt_irrefl _ (h.old _ (.inl hc))
      · exact lt_irrefl _ (h.old _ (.inr hl))
    · exact h.away i hi
  old i hi := (h.old i hi).trans (Nat.lt_succ_self _)
  fresh i hi := by
    rcases hi with hi | hi
    · exact h.fresh i (.inl ((Nat.le_succ _).trans hi))
    · rcases List.mem_cons.1 hi with rfl | hi
      · exact h.fresh _ (.inl le_rfl)
      · exact h.fresh i (.inr hi)
  short := h.short

theorem perm_erase (hi : (i, t) ∈ s.opening) :
    (s.opening.map Prod.fst).Perm (i :: (s.opening.erase (i, t)).map Prod.fst) :=
  (List.perm_cons_erase hi).map Prod.fst

theorem Inv.list (h : Inv s) (hi : (i, t) ∈ s.opening) :
    Inv { s with
      subs := Function.update s.subs t (s.subs t ++ [i])
      opening := s.opening.erase (i, t)
      held := (i, t) :: s.held } := by
  have hperm : (s.opening.map Prod.fst ++ s.held.map Prod.fst).Perm
      ((s.opening.erase (i, t)).map Prod.fst ++ i :: s.held.map Prod.fst) :=
    ((perm_erase hi).append_right _).trans List.perm_middle.symm
  have hopen : i ∈ s.opening.map Prod.fst := List.mem_map_of_mem (f := Prod.fst) hi
  have hheld : i ∉ s.held.map Prod.fst := fun hj =>
    (List.nodup_append.1 h.nodup).2.2 i hopen i hj rfl
  have hnew : i ∉ s.subs t := fun hj => hheld (h.mem_held hj)
  refine ⟨hperm.nodup_iff.1 h.nodup, fun j hj => h.lt j (hperm.mem_iff.2 hj), fun j u => ?_,
    fun u => ?_, fun j hj => h.away j (hperm.mem_iff.2 hj), h.old, fun j hj => h.fresh j ?_,
    h.short⟩
  · show j ∈ Function.update s.subs t _ u ↔ (j, u) ∈ (i, t) :: s.held
    by_cases hu : u = t
    · obtain rfl := hu
      rw [Function.update_self, List.mem_append, List.mem_singleton, List.mem_cons, h.listed,
        Prod.mk.injEq, or_comm]
      exact or_congr_left (and_iff_left rfl).symm
    · rw [Function.update_of_ne hu, List.mem_cons, h.listed]
      exact (or_iff_right fun heq => hu (congrArg Prod.snd heq)).symm
  · show (Function.update s.subs t _ u).Nodup
    by_cases hu : u = t
    · obtain rfl := hu
      rw [Function.update_self]
      exact (h.once u).append (List.nodup_singleton i) fun j hj hji =>
        hnew (List.mem_singleton.1 hji ▸ hj)
    · rw [Function.update_of_ne hu]
      exact h.once u
  · exact hj.imp_right fun hj =>
      (perm_erase hi).mem_iff.2 (List.mem_cons_of_mem _ hj)

theorem Inv.publish (h : Inv s) (t : τ) (e : ε) : Inv (s.publish t e) := by
  refine ⟨h.nodup, h.lt, ?_, ?_, h.away, h.old, fun i hi => ?_, fun i => ?_⟩
  · rw [h.publish_subs]
    exact h.listed
  · rw [h.publish_subs]
    exact h.once
  · -- a channel that is not listed is offered nothing
    have hnot : i ∉ s.subs t := fun hm => by
      have hheld := h.mem_held hm
      rcases hi with hi | hi
      · exact absurd (h.lt i (List.mem_append_right _ hheld)) (Nat.not_lt.2 hi)
      · exact (List.nodup_append.1 h.nodup).2.2 i hi i hheld rfl
    rw [h.publish_queue, if_neg hnot]
    exact h.fresh i hi
  · rw [h.publish_queue]
    split_ifs
    · exact length_offer_le (h.short i)
    · exact h.short i

theorem Inv.recv (h : Inv s) (i : ℕ) :
    Inv { s with queue := Function.update s.queue i (s.queue i).tail } where
  nodup := h.nodup
  lt := h.lt
  listed := h.listed
  once := h.once
  away := h.away
  old := h.old
  fresh j hj := by
    show Function.update s.queue i _ j = []
    by_cases hji : j = i
    · obtain rfl := hji
      rw [Function.update_self, h.fresh j hj]
      rfl
    · rw [Function.update_of_ne hji]
      exact h.fresh j hj
  short j := by
    show (Function.update s.queue i _ j).length ≤ busQueue
    by_cases hji : j = i
    · obtain rfl := hji
      rw [Function.update_self, List.length_tail]
      exact (Nat.sub_le _ _).trans (h.short j)
    · rw [Function.update_of_ne hji]
      exact h.short j

theorem Inv.unlist (h : Inv s) (hi : (i, t) ∈ s.held) :
    Inv { s with
      subs := Function.update s.subs t ((s.subs t).filter fun j => j ≠ i)
      held := s.held.erase (i, t)
      leaving := i :: s.leaving } := by
  have hperm : (s.held.map Prod.fst).Perm (i :: (s.held.erase (i, t)).map Prod.fst) :=
    (List.perm_cons_erase hi).map Prod.fst
  have hall : (s.opening.map Prod.fst ++ s.held.map Prod.fst).Perm
      (i :: (s.opening.map Prod.fst ++ (s.held.erase (i, t)).map Prod.fst)) :=
    (hperm.append_left _).trans List.perm_middle
  obtain ⟨hgone, hnodup⟩ := List.nodup_cons.1 (hall.nodup_iff.1 h.nodup)
  have hkept : ∀ j u, (j, u) ∈ s.held.erase (i, t) ↔ j ≠ i ∧ (j, u) ∈ s.held := by
    refine fun j u => ⟨fun hj => ⟨?_, List.mem_of_mem_erase hj⟩, fun hj => ?_⟩
    · rintro rfl
      exact hgone (List.mem_append_right _ (List.mem_map_of_mem (f := Prod.fst) hj))
    · exact (List.mem_erase_of_ne fun heq => hj.1 (congrArg Prod.fst heq)).2 hj.2
  refine ⟨hnodup, fun j hj => h.lt j (hall.mem_iff.2 (List.mem_cons_of_mem _ hj)), fun j u => ?_,
    fun u => ?_, fun j hj => ?_, fun j hj => ?_, h.fresh, h.short⟩
  · show j ∈ Function.update s.subs t _ u ↔ (j, u) ∈ s.held.erase (i, t)
    rw [hkept]
    by_cases hu : u = t
    · obtain rfl := hu
      rw [Function.update_self, List.mem_filter, decide_eq_true_iff, h.listed]
      exact and_comm
    · rw [Function.update_of_ne hu, h.listed]
      refine (and_iff_right_of_imp fun hj => ?_).symm
      rintro rfl
      exact hu (h.topic_unique ((h.listed j u).2 hj) ((h.listed j t).2 hi))
  · show (Function.update s.subs t _ u).Nodup
    by_cases hu : u = t
    · obtain rfl := hu
      rw [Function.update_self]
      exact (h.once u).filter _
    · rw [Function.update_of_ne hu]
      exact h.once u
  · obtain ⟨hopen, hleave⟩ := h.away j (hall.mem_iff.2 (List.mem_cons_of_mem _ hj))
    refine ⟨hopen, fun hm => ?_⟩
    rcases List.mem_cons.1 hm with rfl | hm
    · exact hgone hj
    · exact hleave hm
  · rcases hj with hj | hj
    · exact h.old j (.inl hj)
    · rcases List.mem_cons.1 hj with rfl | hj
      · exact h.lt j (hall.mem_iff.2 List.mem_cons_self)
      · exact h.old j (.inr hj)

theorem Inv.close (h : Inv s) (hi : i ∈ s.leaving) :
    Inv { s with closed := Function.update s.closed i true, leaving := s.leaving.erase i } := by
  refine ⟨h.nodup, h.lt, h.listed, h.once, fun j hj => ?_, fun j hj => ?_, h.fresh, h.short⟩
  · obtain ⟨hopen, hleave⟩ := h.away j hj
    have hne : j ≠ i := by
      rintro rfl
      exact hleave hi
    exact ⟨(Function.update_of_ne hne _ _).trans hopen, fun hm => hleave (List.mem_of_mem_erase hm)⟩
  · by_cases hji : j = i
    · obtain rfl := hji
      exact h.old j (.inr hi)
    · refine h.old j (hj.imp (fun hj => ?_) List.mem_of_mem_erase)
      exact (Function.update_of_ne hji _ _).symm.trans hj

/-- Every step keeps the invariant. -/
theorem Inv.step {a : Act τ ε} (h : Inv s) (ha : s.step a = some s') : Inv s' := by
  cases a with
  | number t =>
    obtain rfl := Option.some.inj ha
    exact h.number t
  | list i t =>
    obtain ⟨hi, ha⟩ := Option.ite_none_right_eq_some.1 ha
    obtain rfl := Option.some.inj ha
    exact h.list hi
  | publish t e =>
    obtain rfl := Option.some.inj ha
    exact h.publish t e
  | recv i e =>
    obtain ⟨-, ha⟩ := Option.ite_none_right_eq_some.1 ha
    obtain rfl := Option.some.inj ha
    exact h.recv i
  | unlist i t =>
    obtain ⟨hi, ha⟩ := Option.ite_none_right_eq_some.1 ha
    obtain rfl := Option.some.inj ha
    exact h.unlist hi
  | close i =>
    obtain ⟨hi, ha⟩ := Option.ite_none_right_eq_some.1 ha
    obtain rfl := Option.some.inj ha
    exact h.close hi

theorem Inv.reach (h : Reach Bus.step (Bus.new : Bus τ ε) s) : Inv s :=
  h.invariant Inv (fun _ _ _ _ hi ha => hi.step ha) inv_new

/-! ## One channel over a run -/

/-- The turn an action is to the channel of a subscription of a topic. -/
def turnOf (t : τ) (i : ℕ) : Act τ ε → List (Turn ε)
  | .publish u e => if u = t then [.offer e] else []
  | .recv j e => if j = i then [.take e] else []
  | _ => []

def eventOf (t : τ) : Act τ ε → List ε
  | .publish u e => if u = t then [e] else []
  | _ => []

def gotOf (i : ℕ) : Act τ ε → List ε
  | .recv j e => if j = i then [e] else []
  | _ => []

def seen (t : τ) (i : ℕ) : List (Act τ ε) → List (Turn ε) :=
  List.flatMap (turnOf t i)

/-- The events published on a topic. -/
def published (t : τ) : List (Act τ ε) → List ε :=
  List.flatMap (eventOf t)

/-- The events a subscriber got. -/
def received (i : ℕ) : List (Act τ ε) → List ε :=
  List.flatMap (gotOf i)

theorem offered_turnOf (t : τ) (i : ℕ) (a : Act τ ε) : offered (turnOf t i a) = eventOf t a := by
  cases a with
  | publish u e =>
    show offered (if u = t then [.offer e] else []) = if u = t then [e] else []
    split_ifs <;> rfl
  | recv j e =>
    show offered (if j = i then [Turn.take e] else []) = []
    split_ifs <;> rfl
  | number _ => rfl
  | list _ _ => rfl
  | unlist _ _ => rfl
  | close _ => rfl

theorem taken_turnOf (t : τ) (i : ℕ) (a : Act τ ε) : taken (turnOf t i a) = gotOf i a := by
  cases a with
  | publish u e =>
    show taken (if u = t then [Turn.offer e] else []) = []
    split_ifs <;> rfl
  | recv j e =>
    show taken (if j = i then [.take e] else []) = if j = i then [e] else []
    split_ifs <;> rfl
  | number _ => rfl
  | list _ _ => rfl
  | unlist _ _ => rfl
  | close _ => rfl

theorem offered_seen (t : τ) (i : ℕ) : ∀ as : List (Act τ ε),
    offered (seen t i as) = published t as
  | [] => rfl
  | a :: as => (offered_append (turnOf t i a) (seen t i as)).trans
      (congrArg₂ (· ++ ·) (offered_turnOf t i a) (offered_seen t i as))

theorem taken_seen (t : τ) (i : ℕ) : ∀ as : List (Act τ ε), taken (seen t i as) = received i as
  | [] => rfl
  | a :: as => (taken_append (turnOf t i a) (seen t i as)).trans
      (congrArg₂ (· ++ ·) (taken_turnOf t i a) (taken_seen t i as))

/-- A step that does not unlist the subscription is a turn of its channel, or leaves it alone. -/
theorem turn_of_step {a : Act τ ε} (h : Inv s) (hi : i ∈ s.subs t) (ha : s.step a = some s')
    (hstay : a ≠ .unlist i t) :
    i ∈ s'.subs t ∧ turns busQueue (s.queue i) (turnOf t i a) = some (s'.queue i) := by
  cases a with
  | number u =>
    obtain rfl := Option.some.inj ha
    exact ⟨hi, rfl⟩
  | list j u =>
    obtain ⟨-, ha⟩ := Option.ite_none_right_eq_some.1 ha
    obtain rfl := Option.some.inj ha
    refine ⟨?_, rfl⟩
    show i ∈ Function.update s.subs u (s.subs u ++ [j]) t
    by_cases hu : t = u
    · obtain rfl := hu
      rw [Function.update_self]
      exact List.mem_append_left _ hi
    · rwa [Function.update_of_ne hu]
  | publish u e =>
    obtain rfl := Option.some.inj ha
    rw [h.publish_subs, h.publish_queue]
    refine ⟨hi, ?_⟩
    by_cases hu : u = t
    · obtain rfl := hu
      rw [turnOf, if_pos rfl, if_pos hi]
      rfl
    · rw [turnOf, if_neg hu, if_neg fun hiu => hu (h.topic_unique hiu hi)]
      rfl
  | recv j e =>
    obtain ⟨⟨-, hhead⟩, ha⟩ := Option.ite_none_right_eq_some.1 ha
    obtain rfl := Option.some.inj ha
    refine ⟨hi, ?_⟩
    show _ = some (Function.update s.queue j (s.queue j).tail i)
    by_cases hj : j = i
    · obtain rfl := hj
      rw [turnOf, if_pos rfl, Function.update_self]
      exact congrArg (fun o : Option (List ε) => o.bind some) (if_pos hhead)
    · rw [turnOf, if_neg hj, Function.update_of_ne (Ne.symm hj)]
      rfl
  | unlist j u =>
    obtain ⟨hju, ha⟩ := Option.ite_none_right_eq_some.1 ha
    obtain rfl := Option.some.inj ha
    refine ⟨?_, rfl⟩
    show i ∈ Function.update s.subs u _ t
    by_cases hu : t = u
    · obtain rfl := hu
      rw [Function.update_self, List.mem_filter, decide_eq_true_iff]
      refine ⟨hi, fun hij => ?_⟩
      exact hstay (hij ▸ rfl)
    · rwa [Function.update_of_ne hu]
  | close j =>
    obtain ⟨-, ha⟩ := Option.ite_none_right_eq_some.1 ha
    obtain rfl := Option.some.inj ha
    exact ⟨hi, rfl⟩

/-- While it is listed a subscription is a bounded queue of its own. -/
theorem turns_of_run : ∀ {as : List (Act τ ε)} {s : Bus τ ε}, Inv s → i ∈ s.subs t →
    runActs Bus.step s as = some s' → .unlist i t ∉ as →
    i ∈ s'.subs t ∧ turns busQueue (s.queue i) (seen t i as) = some (s'.queue i)
  | [], s, _, hi, hrun, _ => by
    obtain rfl := Option.some.inj hrun
    exact ⟨hi, rfl⟩
  | a :: as, s, h, hi, hrun, hstay => by
    obtain ⟨r, hr, hrest⟩ := Option.bind_eq_some_iff.1 hrun
    obtain ⟨hfirst, hlater⟩ := not_or.1 (mt List.mem_cons.2 hstay)
    obtain ⟨hir, hturn⟩ := turn_of_step h hi hr (Ne.symm hfirst)
    obtain ⟨his, hturns⟩ := turns_of_run (h.step hr) hir hrest hlater
    exact ⟨his, (turns_append hturn).trans hturns⟩

/-! ## A subscription from its start -/

theorem runActs_append {σ α : Type*} {step : σ → α → Option σ} {r : σ} : ∀ {as bs : List α} {s : σ},
    runActs step s (as ++ bs) = some r → ∃ u, runActs step s as = some u ∧
      runActs step u bs = some r
  | [], _, s, h => ⟨s, rfl, h⟩
  | a :: as, bs, s, h => by
    obtain ⟨u, hu, hrest⟩ := Option.bind_eq_some_iff.1 h
    obtain ⟨v, hv, hbs⟩ := runActs_append hrest
    exact ⟨v, Option.bind_eq_some_iff.2 ⟨u, hu, hv⟩, hbs⟩

/-- A subscription that was listed once is never again waiting to be. -/
def Started (i : ℕ) (s : Bus τ ε) : Prop :=
  i < s.next ∧ i ∉ s.opening.map Prod.fst

theorem Inv.started (h : Inv s) (hi : i ∈ s.held.map Prod.fst) : Started i s :=
  ⟨h.lt i (List.mem_append_right _ hi), fun ho => (List.nodup_append.1 h.nodup).2.2 i ho i hi rfl⟩

theorem Started.step {a : Act τ ε} (h : Started i s) (ha : s.step a = some s') : Started i s' := by
  obtain ⟨hlt, hnot⟩ := h
  cases a with
  | number t =>
    obtain rfl := Option.some.inj ha
    refine ⟨hlt.trans (Nat.lt_succ_self _), fun hi => ?_⟩
    rcases List.mem_cons.1 hi with rfl | hi
    · exact lt_irrefl _ hlt
    · exact hnot hi
  | list j t =>
    obtain ⟨-, ha⟩ := Option.ite_none_right_eq_some.1 ha
    obtain rfl := Option.some.inj ha
    refine ⟨hlt, fun hi => hnot ?_⟩
    obtain ⟨p, hp, rfl⟩ := List.mem_map.1 hi
    exact List.mem_map_of_mem (List.mem_of_mem_erase hp)
  | publish t e =>
    obtain rfl := Option.some.inj ha
    exact ⟨hlt, hnot⟩
  | recv j e =>
    obtain ⟨-, ha⟩ := Option.ite_none_right_eq_some.1 ha
    obtain rfl := Option.some.inj ha
    exact ⟨hlt, hnot⟩
  | unlist j t =>
    obtain ⟨-, ha⟩ := Option.ite_none_right_eq_some.1 ha
    obtain rfl := Option.some.inj ha
    exact ⟨hlt, hnot⟩
  | close j =>
    obtain ⟨-, ha⟩ := Option.ite_none_right_eq_some.1 ha
    obtain rfl := Option.some.inj ha
    exact ⟨hlt, hnot⟩

theorem Started.run : ∀ {as : List (Act τ ε)} {s : Bus τ ε}, Started i s →
    runActs Bus.step s as = some s' → Started i s'
  | [], _, h, hrun => Option.some.inj hrun ▸ h
  | _ :: _, _, h, hrun => by
    obtain ⟨_, hr, hrest⟩ := Option.bind_eq_some_iff.1 hrun
    exact (h.step hr).run hrest

/-- Before it is listed a subscription gets nothing. -/
theorem received_eq_nil : ∀ {as : List (Act τ ε)} {s : Bus τ ε}, Inv s →
    runActs Bus.step s as = some s' → ¬ Started i s' → received i as = []
  | [], _, _, _, _ => rfl
  | a :: as, s, h, hrun, hnot => by
    obtain ⟨r, hr, hrest⟩ := Option.bind_eq_some_iff.1 hrun
    have hfirst : gotOf i a = [] := by
      cases a with
      | recv j e =>
        obtain ⟨⟨hheld, -⟩, -⟩ := Option.ite_none_right_eq_some.1 hr
        refine if_neg fun hij => hnot ?_
        exact (((hij ▸ h.started hheld : Started i s)).step hr).run hrest
      | number _ => rfl
      | list _ _ => rfl
      | publish _ _ => rfl
      | unlist _ _ => rfl
      | close _ => rfl
    show gotOf i a ++ received i as = []
    rw [hfirst, received_eq_nil (h.step hr) hrest hnot]
    rfl

theorem inv_run : ∀ {as : List (Act τ ε)} {s : Bus τ ε}, Inv s →
    runActs Bus.step s as = some s' → Inv s'
  | [], _, h, hrun => Option.some.inj hrun ▸ h
  | _ :: _, _, h, hrun => by
    obtain ⟨_, hr, hrest⟩ := Option.bind_eq_some_iff.1 hrun
    exact inv_run (h.step hr) hrest

/-- What a subscriber got and what is queued for it are events published on its topic since it was
listed, in their order, at most 256 of them queued. They are all of them just when no event found
the channel of this subscription full. -/
theorem received_of_run {before as : List (Act τ ε)}
    (hrun : runActs Bus.step Bus.new (before ++ .list i t :: as) = some s')
    (hstay : .unlist i t ∉ as) :
    (s'.queue i).length ≤ busQueue ∧
      (received i (before ++ .list i t :: as) ++ s'.queue i).Sublist (published t as) ∧
      (received i (before ++ .list i t :: as) ++ s'.queue i = published t as ↔
        Roomy busQueue [] (seen t i as)) := by
  obtain ⟨r, hbefore, hrest⟩ := runActs_append hrun
  obtain ⟨u, hlist, hrest⟩ := Option.bind_eq_some_iff.1 hrest
  have hr : Inv r := inv_run inv_new hbefore
  have hu : Inv u := hr.step hlist
  obtain ⟨hopen, hlisted⟩ := Option.ite_none_right_eq_some.1 hlist
  have hopen' : i ∈ r.opening.map Prod.fst := List.mem_map_of_mem (f := Prod.fst) hopen
  have hiu : i ∈ u.subs t := by
    obtain rfl := Option.some.inj hlisted
    show i ∈ Function.update r.subs t (r.subs t ++ [i]) t
    rw [Function.update_self]
    exact List.mem_append_right _ (List.mem_singleton_self i)
  have hqueue : u.queue i = [] := by
    obtain rfl := Option.some.inj hlisted
    exact hr.fresh i (.inr hopen')
  have hnone : received i before = [] :=
    received_eq_nil inv_new hbefore fun hs => hs.2 hopen'
  have hgot : received i (before ++ .list i t :: as) = received i as := by
    refine (List.flatMap_append (f := gotOf i)).trans ?_
    show received i before ++ received i as = _
    rw [hnone]
    rfl
  obtain ⟨-, hturns⟩ := turns_of_run hu hiu hrest hstay
  rw [hqueue] at hturns
  have hsub := sublist_of_turns hturns
  have hall := eq_iff_roomy hturns
  rw [taken_seen, offered_seen] at hsub hall
  rw [hgot]
  exact ⟨(inv_run hu hrest).short i, hsub, hall⟩

/-- Two subscriptions of a topic are numbered, and the first is listed. -/
def twoOpen : List (Act ℕ ℕ) :=
  [.number 0, .number 0, .list 0 0]

/-- The second reads between two events of its topic and one of another. -/
def secondReads : List (Act ℕ ℕ) :=
  [.publish 0 7, .publish 2 8, .recv 1 7, .publish 0 9]

theorem received_of_run_two : ∃ s' : Bus ℕ ℕ, (s'.queue 1).length ≤ busQueue ∧
    (received 1 (twoOpen ++ .list 1 0 :: secondReads) ++ s'.queue 1).Sublist
      (published 0 secondReads) ∧
    (received 1 (twoOpen ++ .list 1 0 :: secondReads) ++ s'.queue 1 = published 0 secondReads ↔
      Roomy busQueue [] (seen 0 1 secondReads)) :=
  ⟨_, received_of_run rfl (by simp [secondReads])⟩

end EngineConsole.EventBus
