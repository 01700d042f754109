import EngineConsole.Router
import EngineConsole.Transition

/-!
# The progress of a download

How the loop of a download (`Inner::execute`, with `transfer` and `write_remote`) counts what
it has done. Before the loop, the bytes of the items that are complete and those of the partial
files are counted; then the bytes that are sent, without those of a partial file that a server
starts over; and the whole size of an item whose blob this run has already written.

The partial file of a blob is counted once for each of the items that share it, and again in the
size of all but the first. So a run ends with as much more than its total (`done_counted`), and
stays between zero and the total just when no partial file is shared (`exact_iff_apart`).
-/

set_option linter.unusedSectionVars false

namespace EngineConsole

namespace Progress

open Web

/-! ## Items and what the node has of them -/

/-- Where the bytes of an item come from; each item of a plan has its source. -/
inductive Origin where
  | hf
  | node
deriving DecidableEq

/-- `Item`. -/
structure Item where
  dest : Text
  size : ℕ
  origin : Origin
deriving DecidableEq

/-- `Stat`. -/
structure Stat where
  here : Bool
  size : ℕ
  part : ℕ

/-- `Plan`. -/
structure Plan where
  items : List Item
  layout : Text

variable (stats : Text → Stat)

/-- A content-addressed blob that is there is that content. A file under its own name counts
where this row finished it. -/
def complete (plan : Plan) (finished : List Text) (it : Item) : Bool :=
  (stats it.dest).here && decide ((stats it.dest).size = it.size) &&
    (decide (plan.layout ≠ ascii "files") || decide (it.dest ∈ finished))

/-- The part of an item that is not sent again. -/
def partOf (it : Item) : ℕ :=
  let p := (stats it.dest).part
  if 0 < p ∧ p ≤ it.size then p else 0

/-- `total`. -/
def total (items : List Item) : ℕ :=
  (items.map Item.size).sum

/-! ## The loop -/

/-- The state of the loop : the items to come, each with whether it was complete before; the
item that is sent, and how much of it. -/
structure Run where
  todo : List (Item × Bool)
  written : List Text
  finished : List Text
  done : ℤ
  filesDone : ℕ
  sending : Option (Item × ℕ)
  failed : Bool

/-- The state before the loop. -/
def start (plan : Plan) (finished : List Text) : Run :=
  let marked := plan.items.map fun it => (it, complete stats plan finished it)
  let already := total ((marked.filter fun e => e.2).map Prod.fst)
  let partialSum := (((marked.filter fun e => !e.2).map Prod.fst).map (partOf stats)).sum
  ⟨marked, [], finished, already + partialSum, (marked.filter fun e => e.2).length, none, false⟩

/-- What happens in the loop. -/
inductive Act where
  /-- an item that is complete, or whose blob has been written -/
  | pass
  /-- the source of an item is opened, and starts at `offset` -/
  | opens (offset : ℕ)
  /-- `n` bytes are sent -/
  | chunk (n : ℕ)
  /-- the node has verified the item -/
  | verified
  /-- an error ends the run -/
  | fail

/-- Where a source may start : a whole partial file needs none, and a server may ignore the
range that is asked for. -/
def startsAt (it : Item) (begins offset : ℕ) : Bool :=
  offset = begins || decide (begins < it.size) && decide (it.origin = .hf) && offset == 0

/-- The steps between items. -/
def stepIdle (r : Run) : Act → Option Run
  | .pass =>
    match r.todo with
    | [] => none
    | (it, ok) :: rest =>
      if ok then some { r with todo := rest }
      else if it.dest ∈ r.written then
        some { r with todo := rest, done := r.done + it.size, filesDone := r.filesDone + 1 }
      else none
  | .opens offset =>
    match r.todo with
    | [] => none
    | (it, ok) :: rest =>
      let begins := partOf stats it
      if !ok ∧ it.dest ∉ r.written ∧ startsAt it begins offset then
        some { r with
          todo := rest
          done := r.done - (begins - offset)
          sending := some (it, offset) }
      else none
  | _ => none

/-- The steps of a transfer. -/
def stepSending (r : Run) (it : Item) (sent : ℕ) : Act → Option Run
  | .chunk n =>
    if sent + n ≤ it.size then
      some { r with done := r.done + n, sending := some (it, sent + n) }
    else none
  | .verified =>
    if sent = it.size then
      some { r with
        written := it.dest :: r.written
        finished := it.dest :: r.finished
        filesDone := r.filesDone + 1
        sending := none }
    else none
  | _ => none

/-- One step of the loop. -/
def step (r : Run) (a : Act) : Option Run :=
  if r.failed then none
  else
    match a, r.sending with
    | .fail, _ => some { r with failed := true }
    | a, none => stepIdle stats r a
    | a, some (it, sent) => stepSending r it sent a

/-- The loop has ended without an error. -/
def Run.Ended (r : Run) : Prop :=
  r.todo = [] ∧ r.sending = none ∧ r.failed = false

/-- What is counted stays between zero and the total, and is the total at the end. -/
def Exact (plan : Plan) (finished : List Text) : Prop :=
  ∀ r, Reach (step stats) (start stats plan finished) r →
    0 ≤ r.done ∧ r.done ≤ total plan.items ∧ (r.Ended → r.done = total plan.items)

/-- No partial file is that of two items that are to be transferred. -/
def Apart (plan : Plan) (finished : List Text) : Prop :=
  (plan.items.filter fun it => !complete stats plan finished it).Pairwise fun a b =>
    a.dest = b.dest → partOf stats b = 0

/-! ## What a step does -/

variable {stats} {r r' : Run} {a : Act}

theorem partOf_le (it : Item) : partOf stats it ≤ it.size := by
  rw [partOf]
  split_ifs with h
  · exact h.2
  · exact Nat.zero_le _

theorem le_of_startsAt {it : Item} {offset : ℕ} (h : startsAt it (partOf stats it) offset) :
    offset ≤ it.size := by
  simp only [startsAt, Bool.or_eq_true, decide_eq_true_eq, Bool.and_eq_true, beq_iff_eq] at h
  rcases h with rfl | ⟨-, rfl⟩
  · exact partOf_le it
  · exact Nat.zero_le _

/-- The cases of a step. -/
theorem step_cases (h : step stats r a = some r') :
    r' = { r with failed := true } ∨
    (r.sending = none ∧ ∃ it rest, r.todo = (it, true) :: rest ∧ r' = { r with todo := rest }) ∨
    (r.sending = none ∧ ∃ it rest, r.todo = (it, false) :: rest ∧ it.dest ∈ r.written ∧
      r' = { r with todo := rest, done := r.done + it.size, filesDone := r.filesDone + 1 }) ∨
    (r.sending = none ∧ ∃ it rest offset, r.todo = (it, false) :: rest ∧ it.dest ∉ r.written ∧
      offset ≤ it.size ∧
      r' = { r with
        todo := rest
        done := r.done - (partOf stats it - offset)
        sending := some (it, offset) }) ∨
    (∃ it sent n, r.sending = some (it, sent) ∧ sent + n ≤ it.size ∧
      r' = { r with done := r.done + n, sending := some (it, sent + n) }) ∨
    ∃ it, r.sending = some (it, it.size) ∧
      r' = { r with
        written := it.dest :: r.written
        finished := it.dest :: r.finished
        filesDone := r.filesDone + 1
        sending := none } := by
  unfold step at h
  split_ifs at h with hf
  cases hs : r.sending with
  | none =>
    rw [hs] at h
    cases a with
    | fail => exact .inl (Option.some.inj h).symm
    | pass =>
      simp only [stepIdle] at h
      cases ht : r.todo with
      | nil => simp [ht] at h
      | cons e rest =>
        obtain ⟨it, ok⟩ := e
        rw [ht] at h
        dsimp only at h
        split_ifs at h with hok hw
        · subst hok
          exact .inr (.inl ⟨rfl, it, rest, rfl, by rw [← hs, Option.some.inj h]⟩)
        · obtain rfl : ok = false := by simpa using hok
          exact .inr (.inr (.inl ⟨rfl, it, rest, rfl, hw, by rw [← hs, Option.some.inj h]⟩))
    | opens offset =>
      simp only [stepIdle] at h
      cases ht : r.todo with
      | nil => simp [ht] at h
      | cons e rest =>
        obtain ⟨it, ok⟩ := e
        rw [ht] at h
        dsimp only at h
        split_ifs at h with hc
        obtain ⟨hok, hw, hat⟩ := hc
        obtain rfl : ok = false := by simpa using hok
        refine .inr (.inr (.inr (.inl ⟨rfl, it, rest, offset, rfl, hw, ?_,
          (Option.some.inj h).symm⟩)))
        exact le_of_startsAt hat
    | chunk n => simp [stepIdle] at h
    | verified => simp [stepIdle] at h
  | some e =>
    obtain ⟨it, sent⟩ := e
    rw [hs] at h
    cases a with
    | fail => exact .inl (Option.some.inj h).symm
    | pass => simp [stepSending] at h
    | opens offset => simp [stepSending] at h
    | chunk n =>
      simp only [stepSending] at h
      split_ifs at h with hn
      exact .inr (.inr (.inr (.inr (.inl ⟨it, sent, n, rfl, hn, (Option.some.inj h).symm⟩))))
    | verified =>
      simp only [stepSending] at h
      split_ifs at h with hn
      subst hn
      exact .inr (.inr (.inr (.inr (.inr ⟨it, rfl, (Option.some.inj h).symm⟩))))

/-! ## What is counted -/

/-- The sizes of the items that are to be transferred. -/
def sizes (todo : List (Item × Bool)) : ℕ :=
  total ((todo.filter fun e => !e.2).map Prod.fst)

variable (stats) in
/-- The partial files of the items that are to be transferred. -/
def parts (todo : List (Item × Bool)) : ℕ :=
  (((todo.filter fun e => !e.2).map Prod.fst).map (partOf stats)).sum

variable (stats) in
/-- What is counted a second time of the items to come, when the blobs `seen` are written. -/
def again (seen : List Text) : List (Item × Bool) → ℕ
  | [] => 0
  | (it, ok) :: rest =>
    if ok then again seen rest
    else if it.dest ∈ seen then partOf stats it + again seen rest
    else again (it.dest :: seen) rest

/-- The blobs that are written or being written. -/
def Run.seen (r : Run) : List Text :=
  match r.sending with
  | none => r.written
  | some (it, _) => it.dest :: r.written

/-- What is not yet sent of the item that is being sent. -/
def Run.unsent (r : Run) : ℤ :=
  match r.sending with
  | none => 0
  | some (it, sent) => it.size - sent

/-- The size of the item that is being sent. -/
def Run.sendingSize (r : Run) : ℕ :=
  match r.sending with
  | none => 0
  | some (it, _) => it.size

/-- What is counted, by what is still to come. -/
structure Counted (stats : Text → Stat) (plan : Plan) (extra : ℕ) (r : Run) : Prop where
  eq : r.done =
    total plan.items + parts stats r.todo - sizes r.todo - r.unsent +
      (extra - again stats r.seen r.todo)
  again_le : again stats r.seen r.todo ≤ extra
  room : sizes r.todo + r.sendingSize ≤ total plan.items
  sent : 0 ≤ r.unsent ∧ r.unsent ≤ r.sendingSize

section

variable {it : Item} {rest : List (Item × Bool)}

@[simp] theorem sizes_pass : sizes ((it, true) :: rest) = sizes rest :=
  rfl

@[simp] theorem sizes_due : sizes ((it, false) :: rest) = it.size + sizes rest :=
  rfl

@[simp] theorem parts_pass : parts stats ((it, true) :: rest) = parts stats rest :=
  rfl

@[simp] theorem parts_due : parts stats ((it, false) :: rest) = partOf stats it + parts stats rest :=
  rfl

theorem again_pass (seen : List Text) : again stats seen ((it, true) :: rest) = again stats seen rest :=
  rfl

theorem again_seen {seen : List Text} (h : it.dest ∈ seen) :
    again stats seen ((it, false) :: rest) = partOf stats it + again stats seen rest := by
  simp [again, h]

theorem again_new {seen : List Text} (h : it.dest ∉ seen) :
    again stats seen ((it, false) :: rest) = again stats (it.dest :: seen) rest := by
  simp [again, h]

end

/-- One step keeps count. -/
theorem counted_step {plan : Plan} {extra : ℕ} (h : step stats r a = some r')
    (hc : Counted stats plan extra r) : Counted stats plan extra r' := by
  obtain ⟨heq, hle, hroom, hsent⟩ := hc
  obtain rfl | ⟨hs, it, rest, ht, rfl⟩ | ⟨hs, it, rest, ht, hw, rfl⟩ |
    ⟨hs, it, rest, offset, ht, hw, hoff, rfl⟩ | ⟨it, sent, n, hs, hn, rfl⟩ | ⟨it, hs, rfl⟩ :=
    step_cases h
  · exact ⟨heq, hle, hroom, hsent⟩
  · simp only [Run.seen, Run.unsent, Run.sendingSize, hs, ht, sizes_pass, parts_pass,
      again_pass] at heq hle hroom hsent
    exact ⟨by simpa [Run.seen, Run.unsent, hs] using heq, by simpa [Run.seen, hs] using hle,
      by simpa [Run.sendingSize, hs] using hroom, by simp [Run.unsent, Run.sendingSize, hs]⟩
  · simp only [Run.seen, Run.unsent, Run.sendingSize, hs, ht, sizes_due, parts_due,
      again_seen hw] at heq hle hroom
    refine ⟨?_, ?_, ?_, ?_⟩
    · simp only [Run.seen, Run.unsent, hs, heq]
      push_cast
      ring
    · simp only [Run.seen, hs]
      omega
    · simp only [Run.sendingSize, hs]
      omega
    · simp [Run.unsent, Run.sendingSize, hs]
  · simp only [Run.seen, Run.unsent, Run.sendingSize, hs, ht, sizes_due, parts_due,
      again_new hw] at heq hle hroom
    refine ⟨?_, ?_, ?_, ?_⟩
    · simp only [Run.seen, Run.unsent, heq]
      push_cast
      ring
    · exact hle
    · simp only [Run.sendingSize]
      omega
    · simp only [Run.unsent, Run.sendingSize]
      omega
  · simp only [Run.seen, Run.unsent, Run.sendingSize, hs] at heq hle hroom
    refine ⟨?_, hle, hroom, ?_⟩
    · simp only [Run.seen, Run.unsent, heq]
      push_cast
      ring
    · simp only [Run.unsent, Run.sendingSize]
      push_cast
      omega
  · simp only [Run.seen, Run.unsent, Run.sendingSize, hs, sub_self] at heq hle hroom
    refine ⟨heq, hle, ?_, ?_⟩
    · simp only [Run.sendingSize]
      omega
    · simp [Run.unsent, Run.sendingSize]

/-- A list is split by a property of its members. -/
theorem total_split (p : Item → Bool) : ∀ items : List Item,
    total (items.filter p) + total (items.filter fun it => !p it) = total items
  | [] => rfl
  | it :: items => by
    have ih := total_split p items
    cases hp : p it <;> simp [total, hp] at ih ⊢ <;> omega

/-- What is counted before the loop. -/
theorem counted_start (plan : Plan) (finished : List Text) :
    Counted stats plan (again stats [] (start stats plan finished).todo)
      (start stats plan finished) := by
  have hall : total (((start stats plan finished).todo.filter fun e => e.2).map Prod.fst) +
      sizes (start stats plan finished).todo = total plan.items := by
    have hsplit := total_split (complete stats plan finished) plan.items
    simpa [start, sizes, List.filter_map, Function.comp_def] using hsplit
  have hdone : (start stats plan finished).done =
      total (((start stats plan finished).todo.filter fun e => e.2).map Prod.fst) +
        parts stats (start stats plan finished).todo := rfl
  refine ⟨?_, le_rfl, ?_, ?_⟩
  · rw [hdone]
    simp only [Run.unsent, Run.seen, start] at hall ⊢
    push_cast [← hall]
    ring
  · simp only [Run.sendingSize, start] at hall ⊢
    omega
  · simp [Run.unsent, Run.sendingSize, start]

/-- What is counted in any run. -/
theorem counted_run {plan : Plan} {finished : List Text}
    (h : Reach (step stats) (start stats plan finished) r) :
    Counted stats plan (again stats [] (start stats plan finished).todo) r :=
  ReachBy.invariant (Counted stats plan _) (fun _ _ _ _ hc hs => counted_step hs hc) h
    (counted_start plan finished)

/-- A run that ends has counted the shared partial files again. -/
theorem done_counted {plan : Plan} {finished : List Text}
    (h : Reach (step stats) (start stats plan finished) r) (hend : r.Ended) :
    r.done = total plan.items + again stats [] (start stats plan finished).todo := by
  obtain ⟨ht, hs, -⟩ := hend
  have heq := (counted_run h).eq
  rw [ht] at heq
  simp only [Run.unsent, hs] at heq
  rw [heq]
  simp [parts, sizes, again, total]

theorem parts_le_sizes : ∀ todo : List (Item × Bool), parts stats todo ≤ sizes todo
  | [] => le_rfl
  | (it, true) :: rest => parts_le_sizes rest
  | (it, false) :: rest => by
    rw [parts_due, sizes_due]
    exact Nat.add_le_add (partOf_le it) (parts_le_sizes rest)

/-! ## Runs to the end -/

theorem step_of_idle (hf : r.failed = false) (hs : r.sending = none) (ha : a ≠ .fail) :
    step stats r a = stepIdle stats r a := by
  unfold step
  rw [if_neg (by simp [hf]), hs]
  cases a <;> first | rfl | exact absurd rfl ha

theorem step_of_sending {it : Item} {sent : ℕ} (hf : r.failed = false)
    (hs : r.sending = some (it, sent)) (ha : a ≠ .fail) :
    step stats r a = stepSending r it sent a := by
  unfold step
  rw [if_neg (by simp [hf]), hs]
  cases a <;> first | rfl | exact absurd rfl ha

/-- An item is sent as a whole. -/
theorem sends_item {it : Item} {rest : List (Item × Bool)} (hf : r.failed = false)
    (hs : r.sending = none) (ht : r.todo = (it, false) :: rest) (hw : it.dest ∉ r.written) :
    ∃ r', Reach (step stats) r r' ∧ r'.failed = false ∧ r'.sending = none ∧ r'.todo = rest := by
  have hsum : partOf stats it + (it.size - partOf stats it) = it.size :=
    Nat.add_sub_cancel' (partOf_le it)
  obtain ⟨r₁, h₁, hf₁, hs₁, ht₁⟩ : ∃ r₁, step stats r (.opens (partOf stats it)) = some r₁ ∧
      r₁.failed = false ∧ r₁.sending = some (it, partOf stats it) ∧ r₁.todo = rest := by
    rw [step_of_idle hf hs (by simp)]
    simp [stepIdle, ht, hw, startsAt, hf]
  obtain ⟨r₂, h₂, hf₂, hs₂, ht₂⟩ : ∃ r₂,
      step stats r₁ (.chunk (it.size - partOf stats it)) = some r₂ ∧
      r₂.failed = false ∧ r₂.sending = some (it, it.size) ∧ r₂.todo = rest := by
    rw [step_of_sending hf₁ hs₁ (by simp)]
    simp [stepSending, hsum, hf₁, ht₁]
  obtain ⟨r₃, h₃, hf₃, hs₃, ht₃⟩ : ∃ r₃, step stats r₂ .verified = some r₃ ∧
      r₃.failed = false ∧ r₃.sending = none ∧ r₃.todo = rest := by
    rw [step_of_sending hf₂ hs₂ (by simp)]
    simp [stepSending, hf₂, ht₂]
  refine ⟨r₃, ?_, hf₃, hs₃, ht₃⟩
  exact (((ReachBy.refl r).tail trivial h₁).tail trivial h₂).tail trivial h₃

/-- From each state between items there is a run to the end. -/
theorem runs_to_end : ∀ (todo : List (Item × Bool)) (r : Run), r.todo = todo →
    r.failed = false → r.sending = none → ∃ r', Reach (step stats) r r' ∧ r'.Ended
  | [], r, ht, hf, hs => ⟨r, ReachBy.refl r, ht, hs, hf⟩
  | (it, true) :: rest, r, ht, hf, hs => by
    have hstep : step stats r .pass = some { r with todo := rest } := by
      rw [step_of_idle hf hs (by simp)]
      simp [stepIdle, ht]
    obtain ⟨r', hr, hend⟩ := runs_to_end rest { r with todo := rest } rfl hf hs
    exact ⟨r', ((ReachBy.refl r).tail trivial hstep).trans hr, hend⟩
  | (it, false) :: rest, r, ht, hf, hs => by
    by_cases hw : it.dest ∈ r.written
    · have hstep : step stats r .pass = some { r with
          todo := rest, done := r.done + it.size, filesDone := r.filesDone + 1 } := by
        rw [step_of_idle hf hs (by simp)]
        simp [stepIdle, ht, hw]
      obtain ⟨r', hr, hend⟩ := runs_to_end rest { r with
        todo := rest, done := r.done + it.size, filesDone := r.filesDone + 1 } rfl hf hs
      exact ⟨r', ((ReachBy.refl r).tail trivial hstep).trans hr, hend⟩
    · obtain ⟨r₁, hr₁, hf₁, hs₁, ht₁⟩ : ∃ r₁, Reach (step stats) r r₁ ∧ r₁.failed = false ∧
          r₁.sending = none ∧ r₁.todo = rest := sends_item hf hs ht hw
      obtain ⟨r', hr, hend⟩ := runs_to_end rest r₁ ht₁ hf₁ hs₁
      exact ⟨r', hr₁.trans hr, hend⟩

/-- Nothing is counted again just when no partial file is shared. -/
theorem again_eq_zero : ∀ (todo : List (Item × Bool)) (seen : List Text),
    again stats seen todo = 0 ↔
      (∀ it ∈ (todo.filter fun e => !e.2).map Prod.fst, it.dest ∈ seen → partOf stats it = 0) ∧
        ((todo.filter fun e => !e.2).map Prod.fst).Pairwise fun a b =>
          a.dest = b.dest → partOf stats b = 0
  | [], seen => by simp [again]
  | (it, true) :: rest, seen => by
    rw [again_pass, again_eq_zero rest seen]
    rfl
  | (it, false) :: rest, seen => by
    have hlist : ((((it, false) :: rest).filter fun e => !e.2).map Prod.fst) =
        it :: ((rest.filter fun e => !e.2).map Prod.fst) := rfl
    rw [hlist, List.forall_mem_cons, List.pairwise_cons]
    by_cases hw : it.dest ∈ seen
    · rw [again_seen hw, Nat.add_eq_zero_iff, again_eq_zero rest seen]
      constructor
      · rintro ⟨hp, hall, hpair⟩
        exact ⟨⟨fun _ => hp, hall⟩, fun b hb hd => hall b hb (hd ▸ hw), hpair⟩
      · rintro ⟨⟨hp, hall⟩, -, hpair⟩
        exact ⟨hp hw, hall, hpair⟩
    · rw [again_new hw, again_eq_zero rest (it.dest :: seen)]
      constructor
      · rintro ⟨hall, hpair⟩
        exact ⟨⟨fun h => absurd h hw, fun b hb hd => hall b hb (List.mem_cons_of_mem _ hd)⟩,
          fun b hb hd => hall b hb (hd ▸ List.mem_cons_self), hpair⟩
      · rintro ⟨⟨-, hall⟩, hfirst, hpair⟩
        refine ⟨fun b hb hd => ?_, hpair⟩
        rcases List.mem_cons.1 hd with hd | hd
        · exact hfirst b hb hd.symm
        · exact hall b hb hd

theorem apart_iff (plan : Plan) (finished : List Text) :
    Apart stats plan finished ↔ again stats [] (start stats plan finished).todo = 0 := by
  have hlist : (((start stats plan finished).todo.filter fun e => !e.2).map Prod.fst) =
      plan.items.filter fun it => !complete stats plan finished it := by
    simp [start, List.filter_map, Function.comp_def]
  rw [again_eq_zero, hlist, Apart]
  simp

theorem apart_of_exact {plan : Plan} {finished : List Text} (h : Exact stats plan finished) :
    again stats [] (start stats plan finished).todo = 0 := by
  obtain ⟨r, hr, hend⟩ : ∃ r, Reach (step stats) (start stats plan finished) r ∧ r.Ended :=
    runs_to_end _ _ rfl rfl rfl
  have hexact := (h r hr).2.2 hend
  rw [done_counted hr hend] at hexact
  omega

variable (stats) in
/-- The count is exact in every run just when no partial file is shared. -/
theorem exact_iff_apart (plan : Plan) (finished : List Text) :
    Exact stats plan finished ↔ Apart stats plan finished := by
  rw [apart_iff]
  refine ⟨apart_of_exact, fun h0 r hr => ?_⟩
  obtain ⟨heq, hle, hroom, hsent⟩ := counted_run hr
  have hparts : parts stats r.todo ≤ sizes r.todo := parts_le_sizes r.todo
  rw [h0] at heq hle
  refine ⟨by omega, by omega, fun hend => ?_⟩
  rw [done_counted hr hend, h0]
  simp

/-- A partial file of 4 bytes of a blob that two files share is counted twice. -/
theorem shared_part_counted_twice : ¬ ∀ stats plan finished, Exact stats plan finished := by
  intro h
  have h0 := apart_of_exact (h (fun _ => ⟨false, 0, 4⟩)
    ⟨[⟨ascii "blobs/x", 10, .hf⟩, ⟨ascii "blobs/x", 10, .hf⟩], "hf-home"⟩ [])
  exact absurd h0 (by decide)

end Progress

end EngineConsole
