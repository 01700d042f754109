import EngineConsole.Keyed
import EngineConsole.Router
import EngineConsole.Transition

/-!
# The memory of the metrics service

Series come from nodes, and their names with them : a ring of points, the last counters and the
times of the last push and pull are kept by series, and `keys` lists for each host the series
that it has. A claim lists a series, and forgets the stalest of a host that has too many. Calls
interleave by the sections in which they hold the lock, and by their statements on the rollups.

`memory_bounded` : where no call comes between the check of a claim and its listing, a series
keeps its place until its point is in the ring, and a pull that brings nothing is of a series
that is listed, everything remembered is listed when no call is in flight, no host lists too
much, and a claim drops nothing of a series of another host.

A pull that fails leaves the time of the pull of a series that no host lists, and a series that is
forgotten between its claim and its point leaves a ring that no host lists (`unlisted`).
-/

set_option linter.unusedSectionVars false

namespace EngineConsole

namespace Metrics

open Web

/-! ## Values -/

/-- Values by their names, in order. -/
abbrev Vals := List (Text × ℚ)

/-- `put` -/
def put (vals : Vals) (k : Text) (v : ℚ) : Vals :=
  if k ∈ Keyed.keys Prod.fst vals then Keyed.update Prod.fst k (fun x => (x.1, v)) vals
  else vals ++ [(k, v)]

/-- `get` -/
def get (vals : Vals) (k : Text) : Option ℚ :=
  (Keyed.find Prod.fst k vals).map Prod.snd

/-- `host_memory` of an instance. -/
structure HostMemory where
  totalGib : ℚ
  anonGib : ℚ
  cacheGib : ℚ
  shmemGib : ℚ

/-- What the service reads of an instance. -/
structure Instance where
  id : Text
  hostId : Text
  state : Text
  management : Text
  port : Option ℕ
  hostMemory : Option HostMemory

/-- The values with the memory of the host. -/
def Instance.values (inst : Instance) (vals : Vals) : Vals :=
  match inst.hostMemory with
  | none => vals
  | some mem =>
    put (put (put (put vals "host_ram_gib" mem.totalGib) "host_ram_anon_gib" mem.anonGib)
      "host_ram_cache_gib" mem.cacheGib) "host_ram_shmem_gib" mem.shmemGib

/-- `MetricPoint` -/
structure Point where
  t : ℚ
  values : Vals
  deriving DecidableEq

/-- The lifetime counters among the values. -/
def counters (vals : Vals) : Vals :=
  ["prompt_tokens_total", "generation_tokens_total"].filterMap fun k : Text =>
    (get vals k).map fun v => (k, v)

/-- The values with the rate of a counter, where it did not fall and no rate was reported. -/
def putRate (cur prev : Vals) (dt : ℚ) (vals : Vals) (total rate : Text) : Vals :=
  match get vals rate, get cur total, get prev total with
  | none, some c, some p => if p ≤ c then put vals rate ((c - p) / dt) else vals
  | _, _, _ => vals

/-- `derive_rates`, given the counters of the scrape before. -/
def deriveRates (last : Option (ℚ × Vals)) (t : ℚ) (vals : Vals) : Vals :=
  match last with
  | none => vals
  | some (pt, prev) =>
    let cur := counters vals
    if cur ≠ [] ∧ pt < t then
      putRate cur prev (t - pt)
        (putRate cur prev (t - pt) vals "prompt_tokens_total" "prompt_tps")
        "generation_tokens_total" "generation_tps"
    else vals

/-! ## Rollups -/

/-- The resolutions. -/
inductive Res
  | h
  | d
  deriving DecidableEq

/-- The length of a bucket. -/
def Res.step : Res → ℤ
  | .h => 3600
  | .d => 86400

/-- `HOURLY_KEEP_S`, `DAILY_KEEP_S` -/
def Res.keep : Res → ℤ
  | .h => 14 * 86400
  | .d => 400 * 86400

/-- A row of `metric_rollups`. -/
structure Row where
  series : Text
  res : Res
  bucket : ℤ
  key : Text
  sum : ℚ
  count : ℕ
  max : ℚ
  host : Option Text
  deriving DecidableEq

/-- The columns of the unique index. -/
def Row.index (r : Row) : Text × Res × ℤ × Text :=
  (r.series, r.res, r.bucket, r.key)

/-- `INSERT … ON CONFLICT … DO UPDATE` : the host of a row that is there stays. -/
def insertRow (rows : List Row) (new : Row) : List Row :=
  if new.index ∈ Keyed.keys Row.index rows then
    Keyed.update Row.index new.index
      (fun r => { r with sum := r.sum + new.sum, count := r.count + 1, max := max r.max new.max })
      rows
  else rows ++ [new]

/-- `rollup` -/
def rollup (rows : List Row) (key : Text) (pt : Point) (host : Text) : List Row :=
  ([Res.h, Res.d].flatMap fun res =>
    let bucket := (pt.t / res.step).floor * res.step
    pt.values.map fun (k, v) => ⟨key, res, bucket, k, v, 1, v, some host⟩).foldl insertRow rows

/-- `DELETE FROM metric_rollups WHERE instance_id=? AND host_id IS ?` -/
def deleteRows (rows : List Row) (host key : Text) : List Row :=
  rows.filter fun r => !(r.series = key && r.host = some host)

/-- The host and the series of the rows, with the last bucket of each. -/
def lastRows (rows : List Row) : List (Text × Text × ℚ) :=
  (rows.filterMap fun r => r.host.map fun h => (h, r.series)).dedup.map fun (h, k) =>
    (h, k, (((rows.filter fun r => r.series = k && r.host = some h).map Row.bucket).max?.getD 0))

/-! ## Memory -/

/-- The period of the rounds, and the cap of a host. -/
structure Config where
  intervalS : ℚ
  maxKeys : ℕ
  two_le : 2 ≤ maxKeys

/-- `ring_cap` -/
def Config.ringCap (cfg : Config) : ℕ :=
  (15 * 60 / max cfg.intervalS (1 / 2)).floor.toNat + 1

/-- `KEY_TTL_S` -/
def keyTtlS : ℚ :=
  3600

/-- `PRUNE_EVERY_S` -/
def pruneEveryS : ℚ :=
  300

/-- `system_key` -/
def systemKey (host : Text) : Text :=
  if host = ascii "local" then "system" else "system:" ++ host

/-- What is held under the lock. -/
structure Mem where
  ring : Text → Option (List Point)
  lastCounters : Text → Option (ℚ × Vals)
  lastPush : Text → Option ℚ
  lastPull : Text → Option ℚ
  /-- by host, the `seq` of the last sample; `none` for null -/
  lastSeq : Text → Option (Option Text)
  /-- by host, the series and when each was updated -/
  keys : List (Text × List (Text × ℚ))
  nextPrune : ℚ
  adopted : Bool

/-- After a start. -/
def Mem.empty : Mem where
  ring := fun _ => none
  lastCounters := fun _ => none
  lastPush := fun _ => none
  lastPull := fun _ => none
  lastSeq := fun _ => none
  keys := []
  nextPrune := 0
  adopted := false

/-- What a host lists. -/
def Mem.listed (m : Mem) (host : Text) : List (Text × ℚ) :=
  ((Keyed.find Prod.fst host m.keys).map Prod.snd).getD []

/-- The series that a host lists. -/
def Mem.names (m : Mem) (host : Text) : List Text :=
  (m.listed host).map Prod.fst

/-- `keys.keys()` -/
def Mem.hosts (m : Mem) : List Text :=
  Keyed.keys Prod.fst m.keys

/-- `keys.entry(host).or_default()`, and a change to it. -/
def Mem.entry (m : Mem) (host : Text) (f : List (Text × ℚ) → List (Text × ℚ)) : Mem :=
  if host ∈ m.hosts then
    { m with keys := Keyed.update Prod.fst host (fun x => (x.1, f x.2)) m.keys }
  else { m with keys := m.keys ++ [(host, f [])] }

/-- A series, with the time of its update. -/
def stamp (key : Text) (t : ℚ) (keys : List (Text × ℚ)) : List (Text × ℚ) :=
  if key ∈ Keyed.keys Prod.fst keys then Keyed.update Prod.fst key (fun x => (x.1, t)) keys
  else keys ++ [(key, t)]

/-- A series that was in the rollups. -/
def adoptKey (key : Text) (last : ℚ) (keys : List (Text × ℚ)) : List (Text × ℚ) :=
  if key ∈ Keyed.keys Prod.fst keys then keys else keys ++ [(key, last)]

/-- The first of the series that were updated least recently. -/
def stalest (p : Text → Bool) (keys : List (Text × ℚ)) : Option Text :=
  (keys.foldl (fun best x =>
    if p x.1 && best.all fun b => decide (x.2 < b.2) then some x else best) none).map Prod.fst

/-- The memory part of `forget`. -/
def Mem.forget (m : Mem) (host key : Text) : Mem :=
  { m with
    keys := Keyed.update Prod.fst host (fun x => (x.1, Keyed.remove Prod.fst key x.2)) m.keys
    ring := Function.update m.ring key none
    lastCounters := Function.update m.lastCounters key none
    lastPush := Function.update m.lastPush key none
    lastPull := Function.update m.lastPull key none }

/-- A host that lists nothing is dropped. -/
def Mem.dropEmpty (m : Mem) (host : Text) : Mem :=
  if m.listed host = [] then { m with keys := Keyed.remove Prod.fst host m.keys } else m

/-- `push_ring` -/
def Mem.pushRing (m : Mem) (cap : ℕ) (key : Text) (pt : Point) : Mem :=
  let ring := (m.ring key).getD []
  let ring := if ring.length = cap then ring.tail else ring
  { m with ring := Function.update m.ring key (some (ring ++ [pt])) }

/-- The rows that `adopt` read, counted against their hosts. -/
def Mem.merge (m : Mem) (found : List (Text × Text × ℚ)) : Mem :=
  found.foldl (fun m r => m.entry r.1 (adoptKey r.2.1 r.2.2)) { m with adopted := true }

/-! ## Calls -/

/-- Where a call is : what it does next. -/
inductive Stage
  /-- `record` notes the push and derives the rates -/
  | counters (inst : Instance) (vals : Vals) (t : ℚ) (pushed : Bool)
  /-- `claim` looks for a victim -/
  | check (host key : Text) (pt : Point)
  | evict (host victim key : Text) (pt : Point)
  | evictRows (host victim key : Text) (pt : Point)
  | list (host key : Text) (pt : Point)
  | push (host key : Text) (pt : Point)
  | rollup (host key : Text) (pt : Point)
  /-- `scrape_once` looks how long an instance was silent -/
  | silence (inst : Instance) (t : ℚ)
  | note (inst : Instance) (t : ℚ)
  /-- `pull` waits for its answer -/
  | pull (inst : Instance) (t : ℚ)
  /-- `sample_system` -/
  | sample (host : Text) (seq : Option Text) (values : Vals) (t : ℚ)
  /-- `prune` -/
  | throttle (t : ℚ) (force : Bool)
  | adopted (t : ℚ)
  /-- `adopt` reads the rollups -/
  | load (t : ℚ)
  | merge (t : ℚ) (found : List (Text × Text × ℚ))
  | cutHosts (t : ℚ)
  | cut (t : ℚ) (hosts : List Text)
  | cutForget (t : ℚ) (host victim : Text) (hosts : List Text)
  | cutRows (t : ℚ) (host victim : Text) (hosts : List Text)
  /-- `prune` goes on with the hosts -/
  | hosts (t : ℚ)
  | stale (t : ℚ) (hosts : List Text)
  | drop (t : ℚ) (host : Text) (keys hosts : List Text)
  | known (t : ℚ)
  | expire (t : ℚ) (todo : List Res)

/-- How the outside of a step ends. -/
inductive Outcome
  | done
  /-- the statement, or the pull, fails -/
  | fails
  /-- the pull brings values -/
  | brings (vals : Vals)

/-- The start of `record`. -/
def record (inst : Instance) (vals : Vals) (t : ℚ) (pushed : Bool) : Option Stage :=
  if inst.values vals = [] then none else some (.counters inst (inst.values vals) t pushed)

/-- What `scrape_once` does with an instance that it found silent for that long. -/
def afterSilence (cfg : Config) (inst : Instance) (t silent sincePull : ℚ) : Option Stage :=
  if inst.management = ascii "managed" ∧ inst.state = ascii "ready" ∧
      inst.port.any (fun p => decide (p ≠ 0)) = true ∧ 3 * cfg.intervalS < silent ∧
      cfg.intervalS ≤ sincePull then
    some (.note inst t)
  else if 2 * cfg.intervalS < silent ∧ inst.hostMemory.isSome = true then record inst [] t false
  else none

/-- The victim of a claim. -/
def Mem.victim (m : Mem) (cfg : Config) (host key : Text) : Option Text :=
  if key ∉ m.names host ∧ cfg.maxKeys ≤ (m.listed host).length then
    stalest (fun k => decide (k ≠ systemKey host)) (m.listed host)
  else none

/-- `as i64` -/
def truncate (x : ℚ) : ℤ :=
  if 0 ≤ x then x.floor else -(-x).floor

/-- The next step of a call. -/
def Stage.exec (cfg : Config) (fleet : List Text) (m : Mem) (rows : List Row) (o : Outcome) :
    Stage → Mem × List Row × Option Stage
  | .counters inst vals t pushed =>
    ({ m with
        lastPush := if pushed then Function.update m.lastPush inst.id (some t) else m.lastPush
        lastCounters := Function.update m.lastCounters inst.id (some (t, Metrics.counters vals)) },
      rows,
      some (.check inst.hostId inst.id ⟨t, deriveRates (m.lastCounters inst.id) t vals⟩))
  | .check host key pt =>
    (m.entry host id, rows,
      match m.victim cfg host key with
      | some v => some (.evict host v key pt)
      | none => some (.list host key pt))
  | .evict host victim key pt => (m.forget host victim, rows, some (.evictRows host victim key pt))
  | .evictRows host victim key pt =>
    (m, match o with | .fails => rows | _ => deleteRows rows host victim, some (.list host key pt))
  | .list host key pt => (m.entry host (stamp key pt.t), rows, some (.push host key pt))
  | .push host key pt => (m.pushRing cfg.ringCap key pt, rows, some (.rollup host key pt))
  | .rollup host key pt =>
    (m, match o with | .fails => rows | _ => Metrics.rollup rows key pt host, none)
  | .silence inst t =>
    (m, rows, afterSilence cfg inst t (t - (m.lastPush inst.id).getD 0)
      (t - (m.lastPull inst.id).getD 0))
  | .note inst t =>
    ({ m with lastPull := Function.update m.lastPull inst.id (some t) }, rows,
      some (.pull inst t))
  | .pull inst t =>
    (m, rows, match o with | .brings vals => record inst vals t false | _ => none)
  | .sample host seq values t =>
    if seq.isSome ∧ m.lastSeq host = some seq then (m, rows, none)
    else
      ({ m with lastSeq := Function.update m.lastSeq host (some seq) }, rows,
        some (.check host (systemKey host) ⟨t, values⟩))
  | .throttle t force =>
    if force = false ∧ t < m.nextPrune then (m, rows, none)
    else ({ m with nextPrune := t + pruneEveryS }, rows, some (.adopted t))
  | .adopted t => (m, rows, some (if m.adopted then .hosts t else .load t))
  | .load t => (m, rows, some (.merge t (match o with | .fails => [] | _ => lastRows rows)))
  | .merge t found => (m.merge found, rows, some (.cutHosts t))
  | .cutHosts t => (m, rows, some (.cut t m.hosts))
  | .cut t [] => (m, rows, some (.hosts t))
  | .cut t (host :: rest) =>
    (m, rows,
      if (m.listed host).length ≤ cfg.maxKeys then some (.cut t rest)
      else
        match stalest (fun _ => true) (m.listed host) with
        | some v => some (.cutForget t host v rest)
        | none => some (.cut t rest))
  | .cutForget t host victim rest =>
    (m.forget host victim, rows, some (.cutRows t host victim rest))
  | .cutRows t host victim rest =>
    (m, match o with | .fails => rows | _ => deleteRows rows host victim,
      some (.cut t (host :: rest)))
  | .hosts t => (m, rows, some (.stale t m.hosts))
  | .stale t [] => (m, rows, some (.known t))
  | .stale t (host :: rest) =>
    (m, rows, some (.drop t host
      (((m.listed host).filter fun x => decide (keyTtlS < t - x.2)).map Prod.fst) rest))
  | .drop t host (k :: keys) rest => (m.forget host k, rows, some (.drop t host keys rest))
  | .drop t host [] rest => (m.dropEmpty host, rows, some (.stale t rest))
  | .known t =>
    ({ m with lastSeq := fun h => if h ∈ fleet then m.lastSeq h else none }, rows,
      some (.expire t [.h, .d]))
  | .expire _ [] => (m, rows, none)
  | .expire t (res :: todo) =>
    (m, match o with
      | .fails => rows
      | _ => rows.filter fun r => !(r.res = res && decide (r.bucket < truncate (t - res.keep))),
      some (.expire t todo))

/-- The service, the hosts that the hub has, and the calls in flight. -/
structure Service where
  mem : Mem
  rows : List Row
  fleet : List Text
  calls : List Stage

/-- What happens. -/
inductive Act
  /-- a push that was found to be of an instance, with its values -/
  | ingest (inst : Instance) (vals : Vals) (t : ℚ)
  /-- a round comes to an instance -/
  | scrape (inst : Instance) (connected : Bool) (t : ℚ)
  /-- a round comes to a host with a sample of its memory -/
  | sample (host : Text) (seq : Option Text) (used available shmem swap t : ℚ)
  | prune (t : ℚ) (force : Bool)
  /-- hosts come and go -/
  | fleet (hosts : List Text)
  /-- a call goes on -/
  | next (i : ℕ) (o : Outcome)

/-- The round leaves the instance. -/
def Instance.skipped (inst : Instance) (connected : Bool) : Prop :=
  inst.state = ascii "stopped" ∨ inst.state = ascii "failed" ∨ inst.state = ascii "unreachable" ∨
    connected = false

instance (inst : Instance) (connected : Bool) : Decidable (inst.skipped connected) :=
  inferInstanceAs (Decidable (_ ∨ _ ∨ _ ∨ _))

/-- The call at `i` is now at `c`, or has ended. -/
def settle (calls : List Stage) (i : ℕ) : Option Stage → List Stage
  | some c => calls.set i c
  | none => calls.eraseIdx i

/-- What happens, if it can. -/
def step (cfg : Config) (s : Service) : Act → Option Service
  | .ingest inst vals t =>
    some { s with calls := s.calls ++ (record inst vals t true).toList }
  | .scrape inst connected t =>
    if inst.skipped connected then none
    else some { s with calls := s.calls ++ [.silence inst t] }
  | .sample host seq used available shmem swap t =>
    some { s with
      calls := s.calls ++ [.sample host seq
        [("ram_used_gib", used), ("ram_available_gib", available), ("shmem_gib", shmem),
          ("swap_used_gib", swap)] t] }
  | .prune t force => some { s with calls := s.calls ++ [.throttle t force] }
  | .fleet hosts => some { s with fleet := hosts }
  | .next i o =>
    match s.calls[i]? with
    | none => none
    | some c =>
      let r := c.exec cfg s.fleet s.mem s.rows o
      some { s with mem := r.1, rows := r.2.1, calls := settle s.calls i r.2.2 }

/-- After a start, with the rollups of before. -/
def start (rows : List Row) : Service :=
  ⟨.empty, rows, [], []⟩

/-! ## What a host lists -/

section

variable {m : Mem} {host h key k : Text} {t last : ℚ} {l : List (Text × ℚ)}

theorem listed_entry (f : List (Text × ℚ) → List (Text × ℚ)) :
    (m.entry host f).listed h = if h = host then f (m.listed host) else m.listed h := by
  unfold Mem.entry Mem.listed
  by_cases hmem : host ∈ m.hosts
  · rw [if_pos hmem]
    dsimp only
    rw [Keyed.find_update (f := fun x : Text × List (Text × ℚ) => (x.1, f x.2)) fun _ => rfl]
    obtain ⟨x, hx⟩ := Option.isSome_iff_exists.1 (Keyed.isSome_find.2 hmem)
    by_cases hh : h = host
    · subst hh
      simp [hx, Keyed.key_of_find hx]
    · rw [if_neg hh]
      cases hfind : Keyed.find Prod.fst h m.keys with
      | none => rfl
      | some y => simp [Keyed.key_of_find hfind, hh]
  · rw [if_neg hmem]
    dsimp only
    by_cases hh : h = host
    · subst hh
      rw [if_pos rfl, Keyed.find_append_of_not_mem hmem, Keyed.find_eq_none.2 hmem]
      simp [Keyed.find]
    · rw [if_neg hh, Keyed.find, Keyed.find, List.find?_append]
      simp [Ne.symm hh]

theorem listed_forget :
    (m.forget host key).listed h =
      if h = host then Keyed.remove Prod.fst key (m.listed host) else m.listed h := by
  unfold Mem.forget Mem.listed
  dsimp only
  rw [Keyed.find_update
    (f := fun x : Text × List (Text × ℚ) => (x.1, Keyed.remove Prod.fst key x.2)) fun _ => rfl]
  by_cases hh : h = host
  · subst hh
    rw [if_pos rfl]
    cases hfind : Keyed.find Prod.fst h m.keys with
    | none => rfl
    | some y => simp [Keyed.key_of_find hfind]
  · rw [if_neg hh]
    cases hfind : Keyed.find Prod.fst h m.keys with
    | none => rfl
    | some y => simp [Keyed.key_of_find hfind, hh]

theorem listed_dropEmpty : (m.dropEmpty host).listed h = m.listed h := by
  unfold Mem.dropEmpty
  split_ifs with hempty
  · by_cases hh : h = host
    · subst hh
      rw [hempty]
      unfold Mem.listed
      dsimp only
      rw [Keyed.find_eq_none.2 (Keyed.not_mem_keys_remove h m.keys)]
      rfl
    · unfold Mem.listed
      dsimp only
      rw [Keyed.find_remove hh]
  · rfl

theorem names_stamp :
    Keyed.keys Prod.fst (stamp key t l) =
      if key ∈ Keyed.keys Prod.fst l then Keyed.keys Prod.fst l
      else Keyed.keys Prod.fst l ++ [key] := by
  unfold stamp
  split_ifs
  · exact Keyed.keys_update (f := fun x : Text × ℚ => (x.1, t)) (fun _ => rfl) key l
  · simp

theorem names_adoptKey :
    Keyed.keys Prod.fst (adoptKey key last l) =
      if key ∈ Keyed.keys Prod.fst l then Keyed.keys Prod.fst l
      else Keyed.keys Prod.fst l ++ [key] := by
  unfold adoptKey
  split_ifs
  · rfl
  · simp

/-- A host that lists something is among the hosts. -/
theorem mem_hosts (hne : m.listed host ≠ []) : host ∈ m.hosts := by
  refine Keyed.isSome_find.1 (Option.isSome_iff_ne_none.2 fun hnone => hne ?_)
  rw [Mem.listed, hnone]
  rfl

/-! ## The victim -/

/-- The stalest is one of those looked at, and there is one if there is any. -/
theorem stalest_spec (p : Text → Bool) (best : Option (Text × ℚ)) :
    (∀ x, (l.foldl (fun best x =>
        if p x.1 && best.all fun b => decide (x.2 < b.2) then some x else best) best) = some x →
      best = some x ∨ x ∈ l ∧ p x.1 = true) ∧
    ((best.isSome ∨ ∃ x ∈ l, p x.1 = true) → (l.foldl (fun best x =>
      if p x.1 && best.all fun b => decide (x.2 < b.2) then some x else best) best).isSome) := by
  induction l generalizing best with
  | nil =>
    refine ⟨fun x hx => .inl hx, fun h => h.resolve_right ?_⟩
    rintro ⟨x, hx, -⟩
    simp at hx
  | cons y l ih =>
    rw [List.foldl_cons]
    split_ifs with hy
    · obtain ⟨hfound, hsome⟩ := ih (some y)
      refine ⟨fun x hx => ?_, fun _ => hsome (.inl rfl)⟩
      rcases hfound x hx with heq | ⟨hmem, hp⟩
      · obtain rfl := Option.some.inj heq
        exact .inr ⟨List.mem_cons_self, (Bool.and_eq_true _ _ ▸ hy).1⟩
      · exact .inr ⟨List.mem_cons_of_mem _ hmem, hp⟩
    · obtain ⟨hfound, hsome⟩ := ih best
      refine ⟨fun x hx => ?_, fun h => hsome ?_⟩
      · rcases hfound x hx with heq | ⟨hmem, hp⟩
        · exact .inl heq
        · exact .inr ⟨List.mem_cons_of_mem _ hmem, hp⟩
      · rcases h with hbest | ⟨x, hx, hp⟩
        · exact .inl hbest
        · rcases List.mem_cons.1 hx with rfl | hx
          · left
            cases best with
            | none => simp [hp] at hy
            | some b => rfl
          · exact .inr ⟨x, hx, hp⟩

theorem mem_of_stalest {p : Text → Bool} (h : stalest p l = some k) :
    k ∈ Keyed.keys Prod.fst l := by
  obtain ⟨x, hx, rfl⟩ := Option.map_eq_some_iff.1 h
  have hfound := (stalest_spec p none).1 x hx
  exact List.mem_map_of_mem (hfound.resolve_left (by simp)).1

theorem stalest_isSome {p : Text → Bool} (h : ∃ x ∈ l, p x.1 = true) :
    (stalest p l).isSome := by
  rw [stalest, Option.isSome_map]
  exact (stalest_spec p none).2 (.inr h)

/-- Of two series or more, one is not the system's. -/
theorem exists_other (hnodup : (Keyed.keys Prod.fst l).Nodup) (hlen : 2 ≤ l.length) (keep : Text) :
    ∃ x ∈ l, decide (x.1 ≠ keep) = true := by
  match l, hlen with
  | x :: y :: l, _ =>
    by_cases hx : x.1 = keep
    · refine ⟨y, by simp, ?_⟩
      have hne : x.1 ≠ y.1 := fun heq => (List.nodup_cons.1 hnodup).1 (by simp [heq])
      exact decide_eq_true fun hy => hne (hx.trans hy.symm)
    · exact ⟨x, by simp, decide_eq_true hx⟩

end

/-! ## When the memory stays bounded -/

/-- The host for which a call has looked for a victim and not listed its series yet. -/
def Stage.claims : Stage → Option Text
  | .evict host .. => some host
  | .evictRows host .. => some host
  | .list host .. => some host
  | _ => none

/-- The call cuts hosts back. -/
def Stage.cuts : Stage → Bool
  | .cutHosts .. | .cut .. | .cutForget .. | .cutRows .. => true
  | _ => false

/-- What a step must find : a claim looks for its victim, and the rollups are counted, while no other
claim is under way; a point comes to a series that is listed still; and a pull that brings
nothing is of a series that its host lists, or has not been noted. -/
def Stage.Free (calls : List Stage) (m : Mem) (o : Outcome) : Stage → Prop
  | .check host _ _ => ∀ c ∈ calls, c.claims ≠ some host ∧ c.cuts = false
  | .merge _ _ => ∀ c ∈ calls, c.claims = none
  | .push host key _ => key ∈ m.names host
  | .pull inst t =>
    (match o with | .brings vals => record inst vals t false | _ => none) = none →
      inst.id ∈ m.names inst.hostId ∨ m.lastPull inst.id = none
  | _ => True

/-- The steps that keep the memory bounded, where `owner` is the host of each series. -/
def Calm (owner : Text → Text) (s : Service) : Act → Prop
  | .ingest inst _ _ => owner inst.id = inst.hostId
  | .scrape inst _ _ => owner inst.id = inst.hostId
  | .sample host _ _ _ _ _ _ => owner (systemKey host) = host
  | .next i o => ∀ c ∈ s.calls[i]?, c.Free s.calls s.mem o
  | _ => True

/-- Some host lists the series. -/
def Mem.Lists (m : Mem) (k : Text) : Prop :=
  ∃ host, k ∈ m.names host

/-- Nothing is remembered of a series. -/
def Mem.Blank (m : Mem) (k : Text) : Prop :=
  m.ring k = none ∧ m.lastCounters k = none ∧ m.lastPush k = none ∧ m.lastPull k = none

/-- Counters or a push are remembered. -/
def Mem.Counted (m : Mem) (k : Text) : Prop :=
  m.lastCounters k ≠ none ∨ m.lastPush k ≠ none

/-- The memory is bounded : what is remembered is listed, and no host lists too much. -/
structure Bounded (cfg : Config) (m : Mem) : Prop where
  listed : ∀ k, ¬m.Blank k → m.Lists k
  capped : ∀ host, (m.listed host).length ≤ cfg.maxKeys

/-! ## Calls in flight -/

section

variable {calls : List Stage} {i : ℕ} {c d : Stage} {next : Option Stage}

/-- The call that goes on, and the others. -/
theorem calls_perm (hc : calls[i]? = some c) : calls.Perm (c :: calls.eraseIdx i) := by
  obtain ⟨hi, rfl⟩ := List.getElem?_eq_some_iff.1 hc
  exact (List.getElem_cons_eraseIdx_perm hi).symm

theorem settle_perm (hc : calls[i]? = some c) :
    (settle calls i next).Perm (next.toList ++ calls.eraseIdx i) := by
  cases next with
  | none => exact .refl _
  | some c' => exact List.set_perm_cons_eraseIdx (List.getElem?_eq_some_iff.1 hc).1 c'

theorem mem_calls (hc : calls[i]? = some c) : d ∈ calls ↔ d = c ∨ d ∈ calls.eraseIdx i := by
  rw [(calls_perm hc).mem_iff, List.mem_cons]

theorem mem_settle (hc : calls[i]? = some c) :
    d ∈ settle calls i next ↔ d ∈ next ∨ d ∈ calls.eraseIdx i := by
  rw [(settle_perm hc).mem_iff, List.mem_append, Option.mem_toList, Option.mem_def]

end

/-! ## What is remembered is listed -/

/-- The series that a call is going to list. -/
def Stage.lists : Stage → List Text
  | .check _ key _ => [key]
  | .evict _ _ key _ => [key]
  | .evictRows _ _ key _ => [key]
  | .list _ key _ => [key]
  | _ => []

/-- The series whose pull a call has noted. -/
def Stage.pulls : Stage → List Text
  | .pull inst _ => [inst.id]
  | .counters inst _ _ _ => [inst.id]
  | c => c.lists

/-- What a step does to what is remembered and listed. -/
structure Keeps (m : Mem) (c : Stage) (m' : Mem) (next : Option Stage) : Prop where
  lists : ∀ k, m.Lists k → m'.Lists k ∨ m'.Blank k
  ring : ∀ k, m'.ring k ≠ none → m.ring k ≠ none ∨ m'.Lists k
  counted : ∀ k, m'.Counted k → m.Counted k ∨ ∃ c' ∈ next, k ∈ c'.lists
  pulled : ∀ k, m'.lastPull k ≠ none → m.lastPull k ≠ none ∨ ∃ c' ∈ next, k ∈ c'.pulls
  listing : ∀ k ∈ c.lists, m'.Lists k ∨ ∃ c' ∈ next, k ∈ c'.lists
  pulling : ∀ k ∈ c.pulls, m'.Lists k ∨ (∃ c' ∈ next, k ∈ c'.pulls) ∨ m'.lastPull k = none

section

variable {m m' : Mem} {c : Stage} {next : Option Stage} {host key : Text}

theorem lists_of_keys (h : m'.keys = m.keys) (k : Text) : m'.Lists k ↔ m.Lists k := by
  unfold Mem.Lists Mem.names Mem.listed
  rw [h]

/-- A step that leaves what is remembered and listed. -/
theorem Keeps.same (hlists : ∀ k, m.Lists k → m'.Lists k) (hring : m'.ring = m.ring)
    (hcounters : m'.lastCounters = m.lastCounters) (hpush : m'.lastPush = m.lastPush)
    (hpull : m'.lastPull = m.lastPull)
    (hlisting : ∀ k ∈ c.lists, m'.Lists k ∨ ∃ c' ∈ next, k ∈ c'.lists)
    (hpulling : ∀ k ∈ c.pulls, m'.Lists k ∨ (∃ c' ∈ next, k ∈ c'.pulls) ∨ m'.lastPull k = none) :
    Keeps m c m' next where
  lists := fun k hk => .inl (hlists k hk)
  ring := fun k hk => .inl (hring ▸ hk)
  counted := fun k hk => .inl (by rw [Mem.Counted, hcounters, hpush] at hk; exact hk)
  pulled := fun k hk => .inl (hpull ▸ hk)
  listing := hlisting
  pulling := hpulling

/-- A step that has no series of its own. -/
theorem Keeps.idle (hlists : ∀ k, m.Lists k → m'.Lists k) (hring : m'.ring = m.ring)
    (hcounters : m'.lastCounters = m.lastCounters) (hpush : m'.lastPush = m.lastPush)
    (hpull : m'.lastPull = m.lastPull) (hc : c.pulls = []) (hc' : c.lists = []) :
    Keeps m c m' next :=
  .same hlists hring hcounters hpush hpull (by simp [hc']) (by simp [hc])

theorem names_entry (f : List (Text × ℚ) → List (Text × ℚ)) (h : Text) :
    (m.entry host f).names h =
      if h = host then Keyed.keys Prod.fst (f (m.listed host)) else m.names h := by
  rw [Mem.names, listed_entry]
  split_ifs <;> rfl

theorem lists_entry {f : List (Text × ℚ) → List (Text × ℚ)}
    (hf : ∀ k ∈ Keyed.keys Prod.fst (m.listed host), k ∈ Keyed.keys Prod.fst (f (m.listed host)))
    (k : Text) (hk : m.Lists k) : (m.entry host f).Lists k := by
  obtain ⟨h, hk⟩ := hk
  refine ⟨h, ?_⟩
  rw [names_entry]
  split_ifs with hh
  · subst hh
    exact hf k hk
  · exact hk

/-- `entry` changes the lists only. -/
theorem entry_fields (f : List (Text × ℚ) → List (Text × ℚ)) :
    (m.entry host f).ring = m.ring ∧ (m.entry host f).lastCounters = m.lastCounters ∧
      (m.entry host f).lastPush = m.lastPush ∧ (m.entry host f).lastPull = m.lastPull := by
  unfold Mem.entry
  split_ifs <;> exact ⟨rfl, rfl, rfl, rfl⟩

theorem Keeps.entry {f : List (Text × ℚ) → List (Text × ℚ)}
    (hf : ∀ k ∈ Keyed.keys Prod.fst (m.listed host), k ∈ Keyed.keys Prod.fst (f (m.listed host)))
    (hlisting : ∀ k ∈ c.lists, (m.entry host f).Lists k ∨ ∃ c' ∈ next, k ∈ c'.lists)
    (hpulls : c.pulls = c.lists)
    (hnext : ∀ c' ∈ next, ∀ k ∈ c'.lists, k ∈ c'.pulls) : Keeps m c (m.entry host f) next := by
  obtain ⟨hring, hcounters, hpush, hpull⟩ := entry_fields (m := m) f
  refine .same (lists_entry hf) hring hcounters hpush hpull hlisting fun k hk => ?_
  rw [hpulls] at hk
  rcases hlisting k hk with hl | ⟨c', hc', hk'⟩
  · exact .inl hl
  · exact .inr (.inl ⟨c', hc', hnext c' hc' k hk'⟩)

theorem merge_spec (found : List (Text × Text × ℚ)) :
    (∀ k, m.Lists k → (m.merge found).Lists k) ∧ (m.merge found).ring = m.ring ∧
      (m.merge found).lastCounters = m.lastCounters ∧ (m.merge found).lastPush = m.lastPush ∧
      (m.merge found).lastPull = m.lastPull := by
  have hfold (m : Mem) :
      let m' := found.foldl (fun m r => m.entry r.1 (adoptKey r.2.1 r.2.2)) m
      (∀ k, m.Lists k → m'.Lists k) ∧ m'.ring = m.ring ∧ m'.lastCounters = m.lastCounters ∧
        m'.lastPush = m.lastPush ∧ m'.lastPull = m.lastPull := by
    induction found generalizing m with
    | nil => exact ⟨fun _ => id, rfl, rfl, rfl, rfl⟩
    | cons r found ih =>
      obtain ⟨hlists, hring, hcounters, hpush, hpull⟩ := ih (m.entry r.1 (adoptKey r.2.1 r.2.2))
      obtain ⟨hring', hcounters', hpush', hpull'⟩ :=
        entry_fields (m := m) (adoptKey r.2.1 r.2.2)
      refine ⟨fun k hk => hlists k (lists_entry (fun k hk => ?_) k hk), hring.trans hring',
        hcounters.trans hcounters', hpush.trans hpush', hpull.trans hpull'⟩
      rw [names_adoptKey]
      split_ifs
      · exact hk
      · exact List.mem_append_left _ hk
  exact hfold { m with adopted := true }

theorem Keeps.forget (hlisting : ∀ k ∈ c.lists, ∃ c' ∈ next, k ∈ c'.lists)
    (hpulling : ∀ k ∈ c.pulls, ∃ c' ∈ next, k ∈ c'.pulls) :
    Keeps m c (m.forget host key) next where
  lists := fun k hk => by
    by_cases heq : k = key
    · subst heq
      exact .inr ⟨Function.update_self .., Function.update_self .., Function.update_self ..,
        Function.update_self ..⟩
    · obtain ⟨h, hk⟩ := hk
      refine .inl ⟨h, ?_⟩
      rw [Mem.names, listed_forget]
      split_ifs with hh
      · subst hh
        change k ∈ Keyed.keys Prod.fst _
        rw [Keyed.keys_remove]
        exact List.mem_filter.2 ⟨hk, by simpa using heq⟩
      · exact hk
  ring := fun k hk => by
    by_cases heq : k = key
    · subst heq
      exact absurd (Function.update_self ..) hk
    · refine .inl ?_
      rwa [show (m.forget host key).ring k = m.ring k from Function.update_of_ne heq _ _] at hk
  counted := fun k hk => by
    by_cases heq : k = key
    · subst heq
      rcases hk with hk | hk <;> exact absurd (Function.update_self ..) hk
    · refine .inl (hk.imp (fun hk => ?_) fun hk => ?_)
      · rwa [show (m.forget host key).lastCounters k = m.lastCounters k from
          Function.update_of_ne heq _ _] at hk
      · rwa [show (m.forget host key).lastPush k = m.lastPush k from
          Function.update_of_ne heq _ _] at hk
  pulled := fun k hk => by
    by_cases heq : k = key
    · subst heq
      exact absurd (Function.update_self ..) hk
    · refine .inl ?_
      rwa [show (m.forget host key).lastPull k = m.lastPull k from
        Function.update_of_ne heq _ _] at hk
  listing := fun k hk => .inr (hlisting k hk)
  pulling := fun k hk => .inr (.inl (hpulling k hk))

end

theorem pulls_of_lists {c : Stage} {k : Text} (hk : k ∈ c.lists) : k ∈ c.pulls := by
  cases c <;> first | exact hk | simp [Stage.lists] at hk

/-- What follows a record lists, or has to list, no series but the one recorded. -/
theorem record_pulls {inst : Instance} {vals : Vals} {t : ℚ} {pushed : Bool} {c : Stage}
    (hc : c ∈ record inst vals t pushed) : inst.id ∈ c.pulls := by
  unfold record at hc
  split_ifs at hc with hvals
  · simp at hc
  · obtain rfl := Option.some.inj hc
    exact List.mem_singleton_self _

section

variable {cfg : Config} {fleet : List Text} {m : Mem} {rows : List Row} {o : Outcome}
  {calls : List Stage} {c : Stage}

theorem Keeps.exec (hfree : c.Free calls m o) :
    Keeps m c (c.exec cfg fleet m rows o).1 (c.exec cfg fleet m rows o).2.2 := by
  have hsame (k : Text) (hk : m.Lists k) : m.Lists k := hk
  cases c with
  | counters inst vals t pushed =>
    refine ⟨fun k hk => .inl hk, fun k hk => .inl hk, fun k hk => ?_, fun k hk => .inl hk,
      by simp [Stage.lists], fun k hk => .inr (.inl ⟨_, rfl, hk⟩)⟩
    by_cases heq : k = inst.id
    · exact .inr ⟨_, rfl, List.mem_singleton.2 heq⟩
    · refine .inl (hk.imp (fun hk => ?_) fun hk => ?_)
      · dsimp only [Stage.exec] at hk
        rwa [Function.update_of_ne heq] at hk
      · dsimp only [Stage.exec] at hk
        split_ifs at hk
        · rwa [Function.update_of_ne heq] at hk
        · exact hk
  | check host key pt =>
    have hnext : ∀ k ∈ Stage.lists (.check host key pt),
        ∃ c' ∈ ((Stage.check host key pt).exec cfg fleet m rows o).2.2, k ∈ c'.lists := by
      intro k hk
      dsimp only [Stage.exec]
      split <;> exact ⟨_, rfl, hk⟩
    exact .entry (fun _ => id) (fun k hk => .inr (hnext k hk)) rfl
      fun c' _ k hk => pulls_of_lists hk
  | evict host victim key pt =>
    exact .forget (fun k hk => ⟨_, rfl, hk⟩) fun k hk => ⟨_, rfl, hk⟩
  | evictRows host victim key pt =>
    exact .same hsame rfl rfl rfl rfl (fun k hk => .inr ⟨_, rfl, hk⟩)
      fun k hk => .inr (.inl ⟨_, rfl, hk⟩)
  | list host key pt =>
    refine .entry (fun k hk => ?_) (fun k hk => .inl ⟨host, ?_⟩) rfl
      fun c' hc' k hk => ?_
    · rw [names_stamp]
      split_ifs
      · exact hk
      · exact List.mem_append_left _ hk
    · rw [names_entry, if_pos rfl, names_stamp, List.mem_singleton.1 hk]
      split_ifs with hmem
      · exact hmem
      · exact List.mem_append_right _ (List.mem_singleton_self key)
    · obtain rfl := Option.some.inj hc'
      exact hk
  | push host key pt =>
    refine ⟨fun k hk => .inl hk, fun k hk => ?_, fun k hk => .inl hk, fun k hk => .inl hk,
      by simp [Stage.lists], by simp [Stage.pulls, Stage.lists]⟩
    by_cases heq : k = key
    · exact .inr ⟨host, heq ▸ hfree⟩
    · dsimp only [Stage.exec, Mem.pushRing] at hk
      rw [Function.update_of_ne heq] at hk
      exact .inl hk
  | rollup host key pt => exact .idle hsame rfl rfl rfl rfl rfl rfl
  | silence inst t => exact .idle hsame rfl rfl rfl rfl rfl rfl
  | note inst t =>
    refine ⟨fun k hk => .inl hk, fun k hk => .inl hk, fun k hk => .inl hk, fun k hk => ?_,
      by simp [Stage.lists], by simp [Stage.pulls, Stage.lists]⟩
    by_cases heq : k = inst.id
    · exact .inr ⟨_, rfl, List.mem_singleton.2 heq⟩
    · dsimp only [Stage.exec] at hk
      rw [Function.update_of_ne heq] at hk
      exact .inl hk
  | pull inst t =>
    refine .same hsame rfl rfl rfl rfl (by simp [Stage.lists]) fun k hk => ?_
    obtain rfl := List.mem_singleton.1 hk
    -- the record goes on with the series, or nothing comes of the pull
    cases hnext : (match o with | .brings vals => record inst vals t false | _ => none) with
    | none =>
      rcases hfree hnext with hmem | hnone
      · exact .inl ⟨inst.hostId, hmem⟩
      · exact .inr (.inr hnone)
    | some c' =>
      refine .inr (.inl ⟨c', hnext, ?_⟩)
      cases o with
      | done => simp at hnext
      | fails => simp at hnext
      | brings vals => exact record_pulls hnext
  | sample host seq values t =>
    dsimp only [Stage.exec]
    split_ifs <;> exact .idle hsame rfl rfl rfl rfl rfl rfl
  | throttle t force =>
    dsimp only [Stage.exec]
    split_ifs <;> exact .idle hsame rfl rfl rfl rfl rfl rfl
  | adopted t => exact .idle hsame rfl rfl rfl rfl rfl rfl
  | load t => exact .idle hsame rfl rfl rfl rfl rfl rfl
  | merge t found =>
    obtain ⟨hlists, hring, hcounters, hpush, hpull⟩ := merge_spec (m := m) found
    exact .idle hlists hring hcounters hpush hpull rfl rfl
  | cutHosts t => exact .idle hsame rfl rfl rfl rfl rfl rfl
  | cut t hosts => cases hosts <;> exact .idle hsame rfl rfl rfl rfl rfl rfl
  | cutForget t host victim rest =>
    exact .forget (by simp [Stage.lists]) (by simp [Stage.pulls, Stage.lists])
  | cutRows t host victim rest => exact .idle hsame rfl rfl rfl rfl rfl rfl
  | hosts t => exact .idle hsame rfl rfl rfl rfl rfl rfl
  | stale t hosts => cases hosts <;> exact .idle hsame rfl rfl rfl rfl rfl rfl
  | drop t host keys rest =>
    cases keys with
    | cons k keys => exact .forget (by simp [Stage.lists]) (by simp [Stage.pulls, Stage.lists])
    | nil =>
      have hlists (k : Text) (hk : m.Lists k) : (m.dropEmpty host).Lists k := by
        obtain ⟨h, hk⟩ := hk
        exact ⟨h, by rwa [Mem.names, listed_dropEmpty]⟩
      dsimp only [Stage.exec]
      unfold Mem.dropEmpty at hlists ⊢
      split_ifs at hlists ⊢
      · exact .idle hlists rfl rfl rfl rfl rfl rfl
      · exact .idle hsame rfl rfl rfl rfl rfl rfl
  | known t => exact .idle hsame rfl rfl rfl rfl rfl rfl
  | expire t todo => cases todo <;> exact .idle hsame rfl rfl rfl rfl rfl rfl

end

/-- What is remembered is listed, or a call is going to list it. -/
structure Remembered (s : Service) : Prop where
  ring : ∀ k, s.mem.ring k ≠ none → s.mem.Lists k
  counted : ∀ k, s.mem.Counted k → s.mem.Lists k ∨ ∃ c ∈ s.calls, k ∈ c.lists
  pulled : ∀ k, s.mem.lastPull k ≠ none → s.mem.Lists k ∨ ∃ c ∈ s.calls, k ∈ c.pulls

theorem remembered_start (rows : List Row) : Remembered (start rows) where
  ring := by simp [start, Mem.empty]
  counted := by simp [start, Mem.empty, Mem.Counted]
  pulled := by simp [start, Mem.empty]

section

variable {cfg : Config} {owner : Text → Text} {s t : Service} {i : ℕ} {c : Stage} {o : Outcome}

/-- More calls, or other hosts. -/
theorem Remembered.more (h : Remembered s) (hmem : t.mem = s.mem)
    (hcalls : ∀ c ∈ s.calls, c ∈ t.calls) : Remembered t where
  ring := hmem ▸ h.ring
  counted := fun k hk => by
    rw [hmem] at hk ⊢
    exact (h.counted k hk).imp_right fun ⟨c, hc, hk⟩ => ⟨c, hcalls c hc, hk⟩
  pulled := fun k hk => by
    rw [hmem] at hk ⊢
    exact (h.pulled k hk).imp_right fun ⟨c, hc, hk⟩ => ⟨c, hcalls c hc, hk⟩

theorem Remembered.next {m : Mem} {rows : List Row} {n : Option Stage} (h : Remembered s)
    (hc : s.calls[i]? = some c) (hkeeps : Keeps s.mem c m n) :
    Remembered { s with mem := m, rows := rows, calls := settle s.calls i n } := by
  have hmore {k : Text} {p : Stage → List Text} (hn : ∃ c' ∈ n, k ∈ p c') :
      ∃ c' ∈ settle s.calls i n, k ∈ p c' := by
    obtain ⟨c', hc', hk⟩ := hn
    exact ⟨c', (mem_settle hc).2 (.inl hc'), hk⟩
  refine ⟨fun k hk => ?_, fun k hk => ?_, fun k hk => ?_⟩
  · rcases hkeeps.ring k hk with hold | hl
    · exact (hkeeps.lists k (h.ring k hold)).resolve_right fun hblank => hk hblank.1
    · exact hl
  · rcases hkeeps.counted k hk with hold | hn
    · rcases h.counted k hold with hl | ⟨d, hd, hkd⟩
      · refine .inl ((hkeeps.lists k hl).resolve_right fun hblank => ?_)
        exact hk.elim (fun hk => hk hblank.2.1) fun hk => hk hblank.2.2.1
      · rcases (mem_calls hc).1 hd with rfl | hd
        · exact (hkeeps.listing k hkd).imp_right hmore
        · exact .inr ⟨d, (mem_settle hc).2 (.inr hd), hkd⟩
    · exact .inr (hmore hn)
  · rcases hkeeps.pulled k hk with hold | hn
    · rcases h.pulled k hold with hl | ⟨d, hd, hkd⟩
      · exact .inl ((hkeeps.lists k hl).resolve_right fun hblank => hk hblank.2.2.2)
      · rcases (mem_calls hc).1 hd with rfl | hd
        · rcases hkeeps.pulling k hkd with hl | hn | hnone
          · exact .inl hl
          · exact .inr (hmore hn)
          · exact absurd hnone hk
        · exact .inr ⟨d, (mem_settle hc).2 (.inr hd), hkd⟩
    · exact .inr (hmore hn)

/-- A step of a call. -/
theorem step_next (h : step cfg s (.next i o) = some t) :
    ∃ c, s.calls[i]? = some c ∧
      t = { s with
        mem := (c.exec cfg s.fleet s.mem s.rows o).1
        rows := (c.exec cfg s.fleet s.mem s.rows o).2.1
        calls := settle s.calls i (c.exec cfg s.fleet s.mem s.rows o).2.2 } := by
  unfold step at h
  dsimp only at h
  split at h
  · simp at h
  · next c hc => exact ⟨c, hc, (Option.some.inj h).symm⟩

theorem Remembered.step (h : Remembered s) {a : Act} (hcalm : Calm owner s a)
    (hstep : step cfg s a = some t) : Remembered t := by
  have hmore {l : List Stage} : ∀ c ∈ s.calls, c ∈ s.calls ++ l := fun c hc =>
    List.mem_append_left _ hc
  cases a with
  | ingest inst vals time =>
    obtain rfl := Option.some.inj hstep
    exact h.more rfl hmore
  | scrape inst connected time =>
    obtain ⟨-, heq⟩ := Option.ite_none_left_eq_some.1 hstep
    obtain rfl := Option.some.inj heq
    exact h.more rfl hmore
  | sample host seq used available shmem swap time =>
    obtain rfl := Option.some.inj hstep
    exact h.more rfl hmore
  | prune time force =>
    obtain rfl := Option.some.inj hstep
    exact h.more rfl hmore
  | fleet hosts =>
    obtain rfl := Option.some.inj hstep
    exact h.more rfl fun _ => id
  | next i o =>
    obtain ⟨c, hc, rfl⟩ := step_next hstep
    exact h.next hc (.exec (hcalm c hc))

end

/-! ## No host lists too much -/

/-- The hosts that a call is going to cut back. -/
def Stage.Cutting (host : Text) : Stage → Prop
  | .cutHosts _ => True
  | .cut _ rest => host ∈ rest
  | .cutForget _ h _ rest => host ∈ h :: rest
  | .cutRows _ h _ rest => host ∈ h :: rest
  | _ => False

/-- There is room for what a claim is going to list, or will be without its victim. -/
def Stage.Room (cfg : Config) (m : Mem) : Stage → Prop
  | .evict host victim _ _ => (m.names host).length ≤ cfg.maxKeys ∧
      (victim ∈ m.names host ∨ (m.names host).length < cfg.maxKeys)
  | .evictRows host _ key _ => (m.names host).length ≤ cfg.maxKeys ∧
      (key ∈ m.names host ∨ (m.names host).length < cfg.maxKeys)
  | .list host key _ => (m.names host).length ≤ cfg.maxKeys ∧
      (key ∈ m.names host ∨ (m.names host).length < cfg.maxKeys)
  | _ => True

/-- A host that lists too much is going to be cut back, and claims have room, one at a time. -/
structure Capped (cfg : Config) (s : Service) : Prop where
  nodup : ∀ host, (s.mem.names host).Nodup
  cap : ∀ host, cfg.maxKeys < (s.mem.names host).length → ∃ c ∈ s.calls, c.Cutting host
  room : ∀ c ∈ s.calls, c.Room cfg s.mem
  alone : ∀ host, s.calls.countP (fun c => c.claims = some host) ≤ 1
  apart : ∀ c ∈ s.calls, ∀ d ∈ s.calls, c.cuts = true → d.claims = none

/-- What a step does to what hosts list, beside other calls. -/
structure Moves (cfg : Config) (rest : List Stage) (m : Mem) (c : Stage) (m' : Mem)
    (next : Option Stage) : Prop where
  nodup : ∀ host, (m'.names host).Nodup
  cap : ∀ host, cfg.maxKeys < (m'.names host).length →
    (cfg.maxKeys < (m.names host).length ∧ ¬c.Cutting host) ∨ ∃ n ∈ next, n.Cutting host
  sub : ∀ d ∈ rest, ∀ host, d.claims = some host → (m'.names host).Sublist (m.names host)
  room : ∀ n ∈ next, n.Room cfg m'
  claims : ∀ n ∈ next, n.claims = none ∨ n.claims = c.claims ∨
    ∀ d ∈ rest, d.claims ≠ n.claims ∧ d.cuts = false
  cuts : ∀ n ∈ next, n.cuts = true → c.cuts = true ∨ ∀ d ∈ rest, d.claims = none

section

variable {cfg : Config} {m m' : Mem} {c : Stage} {next : Option Stage} {rest : List Stage}
  {host key k : Text}

theorem room_of_claims (h : c.claims = none) : c.Room cfg m := by
  cases c <;> trivial

theorem claims_of_cuts (h : c.cuts = true) : c.claims = none := by
  cases c <;> first | rfl | simp [Stage.cuts] at h

theorem cuts_of_cutting (h : c.Cutting host) : c.cuts = true := by
  cases c <;> first | rfl | exact h.elim

/-- What is still there, or room for it, once a host lists less. -/
theorem room_sublist {l l' : List Text} {n : ℕ} (hsub : l'.Sublist l)
    (h : l.length ≤ n ∧ (k ∈ l ∨ l.length < n)) : l'.length ≤ n ∧ (k ∈ l' ∨ l'.length < n) := by
  have hle := hsub.length_le
  refine ⟨hle.trans h.1, ?_⟩
  rcases h.2 with hk | hlt
  · by_cases hk' : k ∈ l'
    · exact .inl hk'
    · right
      refine lt_of_lt_of_le (lt_of_le_of_ne hle fun heq => hk' ?_) h.1
      exact (hsub.eq_of_length heq) ▸ hk
  · exact .inr (hle.trans_lt hlt)

theorem Stage.Room.sublist (h : c.Room cfg m)
    (hsub : ∀ host, c.claims = some host → (m'.names host).Sublist (m.names host)) :
    c.Room cfg m' := by
  cases c with
  | evict host victim key pt => exact room_sublist (hsub host rfl) h
  | evictRows host victim key pt => exact room_sublist (hsub host rfl) h
  | list host key pt => exact room_sublist (hsub host rfl) h
  | _ => trivial

/-- A step that leaves what hosts list, or forgets some of it. -/
theorem Moves.less (hnodup : ∀ host, (m.names host).Nodup)
    (hsub : ∀ host, (m'.names host).Sublist (m.names host))
    (hcut : ∀ host, c.Cutting host → cfg.maxKeys < (m'.names host).length →
      ∃ n ∈ next, n.Cutting host)
    (hroom : ∀ n ∈ next, n.Room cfg m')
    (hclaims : ∀ n ∈ next, n.claims = none ∨ n.claims = c.claims)
    (hcuts : ∀ n ∈ next, n.cuts = true → c.cuts = true) : Moves cfg rest m c m' next where
  nodup := fun host => (hnodup host).sublist (hsub host)
  cap := fun host hlt => by
    by_cases hc : c.Cutting host
    · exact .inr (hcut host hc hlt)
    · exact .inl ⟨hlt.trans_le (hsub host).length_le, hc⟩
  sub := fun _ _ host _ => hsub host
  room := hroom
  claims := fun n hn => (hclaims n hn).imp_right .inl
  cuts := fun n hn h => .inl (hcuts n hn h)

/-- A step outside claims and cuts. -/
theorem Moves.idle (hnodup : ∀ host, (m.names host).Nodup)
    (hsub : ∀ host, (m'.names host).Sublist (m.names host)) (hc : c.cuts = false)
    (hclaims : ∀ n ∈ next, n.claims = none) (hcuts : ∀ n ∈ next, n.cuts = false) :
    Moves cfg rest m c m' next :=
  .less hnodup hsub (fun host h => by simp [cuts_of_cutting h] at hc)
    (fun n hn => room_of_claims (hclaims n hn)) (fun n hn => .inl (hclaims n hn))
    fun n hn h => by simp [hcuts n hn] at h

theorem names_forget (h : Text) : (m.forget host key).names h =
    if h = host then (m.names host).filter (· ≠ key) else m.names h := by
  rw [Mem.names, listed_forget]
  split_ifs
  · exact Keyed.keys_remove key _
  · rfl

theorem forget_sublist (h : Text) : ((m.forget host key).names h).Sublist (m.names h) := by
  rw [names_forget]
  split_ifs with hh
  · exact hh ▸ List.filter_sublist
  · exact .refl _

theorem record_claims {inst : Instance} {vals : Vals} {t : ℚ} {pushed : Bool} {n : Stage}
    (hn : n ∈ record inst vals t pushed) : n.claims = none ∧ n.cuts = false := by
  unfold record at hn
  split_ifs at hn with hvals
  · simp at hn
  · obtain rfl := Option.some.inj hn
    exact ⟨rfl, rfl⟩

theorem names_merge (found : List (Text × Text × ℚ)) (hnodup : ∀ host, (m.names host).Nodup) :
    ∀ host, ((m.merge found).names host).Nodup := by
  have hfold (m : Mem) (hnodup : ∀ host, (m.names host).Nodup) : ∀ host,
      ((found.foldl (fun m r => m.entry r.1 (adoptKey r.2.1 r.2.2)) m).names host).Nodup := by
    induction found generalizing m with
    | nil => exact hnodup
    | cons r found ih =>
      refine ih _ fun host => ?_
      rw [names_entry]
      split_ifs with hh
      · rw [names_adoptKey]
        split_ifs with hmem
        · exact hnodup r.1
        · exact List.nodup_append.2 ⟨hnodup r.1, List.nodup_singleton _, fun a ha b hb heq =>
            hmem (List.mem_singleton.1 hb ▸ heq ▸ ha)⟩
      · exact hnodup host
  exact hfold _ hnodup

theorem mem_of_victim {v : Text} (h : m.victim cfg host key = some v) : v ∈ m.names host := by
  unfold Mem.victim at h
  split_ifs at h with hfull
  exact mem_of_stalest h

/-- Without a victim there is room. -/
theorem room_of_no_victim (hnodup : (m.names host).Nodup) (h : m.victim cfg host key = none) :
    key ∈ m.names host ∨ (m.names host).length < cfg.maxKeys := by
  unfold Mem.victim at h
  split_ifs at h with hfull
  · have hlen : 2 ≤ (m.listed host).length := cfg.two_le.trans hfull.2
    have hsome := stalest_isSome (p := fun k => decide (k ≠ systemKey host))
      (exists_other hnodup hlen (systemKey host))
    rw [h] at hsome
    simp at hsome
  · by_cases hkey : key ∈ m.names host
    · exact .inl hkey
    · right
      rw [Mem.names, List.length_map]
      exact Nat.lt_of_not_le fun hle => hfull ⟨hkey, hle⟩

theorem names_entry_id (h : Text) : (m.entry host id).names h = m.names h := by
  rw [names_entry]
  split_ifs with hh
  · rw [hh]
    rfl
  · rfl

variable {fleet : List Text} {rows : List Row} {o : Outcome} {calls : List Stage}

theorem Moves.check {pt : Point} (hfree : (Stage.check host key pt).Free calls m o)
    (hrest : ∀ d ∈ rest, d ∈ calls) (hnodup : ∀ host, (m.names host).Nodup)
    (hcap : (m.names host).length ≤ cfg.maxKeys) :
    Moves cfg rest m (.check host key pt)
      ((Stage.check host key pt).exec cfg fleet m rows o).1
      ((Stage.check host key pt).exec cfg fleet m rows o).2.2 := by
  have hsub (h : Text) : ((m.entry host id).names h).Sublist (m.names h) := by
    rw [names_entry_id]
  have hother : ∀ d ∈ rest, d.claims ≠ some host ∧ d.cuts = false := fun d hd =>
    hfree d (hrest d hd)
  dsimp only [Stage.exec]
  cases hvictim : m.victim cfg host key with
  | some v =>
    refine ⟨fun h => (hnodup h).sublist (hsub h), fun h hlt => .inl ⟨?_, id⟩, fun _ _ h _ => hsub h,
      fun n hn => ?_, fun n hn => ?_, fun n hn => ?_⟩
    · rwa [names_entry_id] at hlt
    · obtain rfl := Option.some.inj hn
      rw [Stage.Room, names_entry_id]
      exact ⟨hcap, .inl (mem_of_victim hvictim)⟩
    · obtain rfl := Option.some.inj hn
      exact .inr (.inr hother)
    · obtain rfl := Option.some.inj hn
      simp [Stage.cuts]
  | none =>
    refine ⟨fun h => (hnodup h).sublist (hsub h), fun h hlt => .inl ⟨?_, id⟩, fun _ _ h _ => hsub h,
      fun n hn => ?_, fun n hn => ?_, fun n hn => ?_⟩
    · rwa [names_entry_id] at hlt
    · obtain rfl := Option.some.inj hn
      rw [Stage.Room, names_entry_id]
      exact ⟨hcap, room_of_no_victim (hnodup host) hvictim⟩
    · obtain rfl := Option.some.inj hn
      exact .inr (.inr hother)
    · obtain rfl := Option.some.inj hn
      simp [Stage.cuts]

theorem Moves.list {pt : Point} (hnodup : ∀ host, (m.names host).Nodup)
    (hroom : (Stage.list host key pt).Room cfg m)
    (halone : ∀ d ∈ rest, d.claims ≠ some host) :
    Moves cfg rest m (.list host key pt) (m.entry host (stamp key pt.t))
      (some (.push host key pt)) := by
  have hnames (h : Text) : (m.entry host (stamp key pt.t)).names h =
      if h = host then (if key ∈ m.names host then m.names host else m.names host ++ [key])
      else m.names h := by
    rw [names_entry, names_stamp]
    rfl
  have hother {h : Text} (hh : h ≠ host) :
      (m.entry host (stamp key pt.t)).names h = m.names h := by
    rw [hnames, if_neg hh]
  refine ⟨fun h => ?_, fun h hlt => .inl ⟨?_, id⟩, fun d hd h hclaims => ?_, fun n hn => ?_,
    fun n hn => ?_, fun n hn => ?_⟩
  · by_cases hh : h = host
    · rw [hnames, if_pos hh]
      split_ifs with hkey
      · exact hnodup host
      · exact List.nodup_append.2 ⟨hnodup host, List.nodup_singleton _, fun a ha b hb heq =>
          hkey (List.mem_singleton.1 hb ▸ heq ▸ ha)⟩
    · rw [hother hh]
      exact hnodup h
  · by_cases hh : h = host
    · subst hh
      obtain ⟨hle, hcase⟩ := hroom
      rw [hnames, if_pos rfl] at hlt
      split_ifs at hlt with hkey
      · exact hlt
      · have hlen := hcase.resolve_left hkey
        rw [List.length_append, List.length_singleton] at hlt
        omega
    · rwa [hother hh] at hlt
  · have hh : h ≠ host := fun heq => halone d hd (heq ▸ hclaims)
    rw [hother hh]
  · obtain rfl := Option.some.inj hn
    trivial
  · obtain rfl := Option.some.inj hn
    exact .inl rfl
  · obtain rfl := Option.some.inj hn
    simp [Stage.cuts]

/-- A host that lists too much is cut back. -/
theorem Moves.cut {t : ℚ} {hosts : List Text} (hnodup : ∀ host, (m.names host).Nodup) :
    Moves cfg rest m (.cut t hosts) ((Stage.cut t hosts).exec cfg fleet m rows o).1
      ((Stage.cut t hosts).exec cfg fleet m rows o).2.2 := by
  cases hosts with
  | nil =>
    refine .less hnodup (fun _ => .refl _) (fun h hcut => absurd hcut (by simp [Stage.Cutting]))
      ?_ ?_ ?_
    all_goals
      intro n hn
      obtain rfl := Option.some.inj hn
      simp [Stage.Room, Stage.claims, Stage.cuts]
  | cons host hosts =>
    have hnext : ∃ n, ((Stage.cut t (host :: hosts)).exec cfg fleet m rows o).2.2 = some n ∧
        n.claims = none ∧ ∀ h ∈ host :: hosts, cfg.maxKeys < (m.names h).length →
          n.Cutting h := by
      dsimp only [Stage.exec]
      split_ifs with hle
      · refine ⟨_, rfl, rfl, fun h hmem hlt => (List.mem_cons.1 hmem).resolve_left fun heq => ?_⟩
        rw [heq, Mem.names, List.length_map] at hlt
        omega
      · have hne : ∃ x ∈ m.listed host, (fun _ : Text => true) x.1 = true := by
          refine (List.exists_mem_of_ne_nil (m.listed host) fun hnil => hle ?_).imp fun x hx =>
            ⟨hx, rfl⟩
          simp [hnil]
        obtain ⟨v, hv⟩ := Option.isSome_iff_exists.1 (stalest_isSome (p := fun _ => true) hne)
        rw [hv]
        exact ⟨_, rfl, rfl, fun h hmem _ => hmem⟩
    obtain ⟨n, hn, hclaims, hcut⟩ := hnext
    rw [hn]
    refine .less hnodup (fun _ => .refl _)
      (fun h hmem hlt => ⟨n, rfl, hcut h hmem hlt⟩) ?_ ?_ fun _ _ _ => rfl
    · rintro _ ⟨⟩
      exact room_of_claims hclaims
    · rintro _ ⟨⟩
      exact .inl hclaims

theorem Moves.exec (hfree : c.Free calls m o) (hrest : ∀ d ∈ rest, d ∈ calls)
    (hnodup : ∀ host, (m.names host).Nodup) (hroom : c.Room cfg m)
    (hcap : (∀ d ∈ calls, d.cuts = false) → ∀ host, (m.names host).length ≤ cfg.maxKeys)
    (halone : ∀ host, c.claims = some host → ∀ d ∈ rest, d.claims ≠ some host) :
    Moves cfg rest m c (c.exec cfg fleet m rows o).1 (c.exec cfg fleet m rows o).2.2 := by
  have hrefl (h : Text) : (m.names h).Sublist (m.names h) := .refl _
  cases c with
  | counters inst vals t pushed =>
    exact .idle hnodup hrefl rfl (by rintro _ ⟨⟩; rfl) (by rintro _ ⟨⟩; rfl)
  | check host key pt =>
    exact .check hfree hrest hnodup (hcap (fun d hd => (hfree d hd).2) host)
  | evict host victim key pt =>
    refine .less hnodup forget_sublist (fun h => False.elim) ?_ (by rintro _ ⟨⟩; exact .inr rfl)
      (by rintro _ ⟨⟩; simp [Stage.cuts])
    rintro _ ⟨⟩
    obtain ⟨hle, hcase⟩ := hroom
    have hlt : ((m.forget host victim).names host).length < cfg.maxKeys := by
      rcases hcase with hmem | hlt
      · have hshort : ((m.forget host victim).names host).length < (m.names host).length := by
          rw [names_forget, if_pos rfl]
          exact List.length_filter_lt_length_iff_exists.2 ⟨victim, hmem, by simp⟩
        exact hshort.trans_le hle
      · exact (forget_sublist host).length_le.trans_lt hlt
    exact ⟨hlt.le, .inr hlt⟩
  | evictRows host victim key pt =>
    exact .less hnodup hrefl (fun h => False.elim) (by rintro _ ⟨⟩; exact hroom)
      (by rintro _ ⟨⟩; exact .inr rfl) (by rintro _ ⟨⟩; simp [Stage.cuts])
  | list host key pt => exact .list hnodup hroom (halone host rfl)
  | push host key pt =>
    exact .idle hnodup hrefl rfl (by rintro _ ⟨⟩; rfl) (by rintro _ ⟨⟩; rfl)
  | rollup host key pt => exact .idle hnodup hrefl rfl (by simp [Stage.exec]) (by simp [Stage.exec])
  | silence inst t =>
    have hnext : ∀ n ∈ ((Stage.silence inst t).exec cfg fleet m rows o).2.2,
        n.claims = none ∧ n.cuts = false := by
      intro n hn
      dsimp only [Stage.exec] at hn
      unfold afterSilence at hn
      split_ifs at hn
      · obtain rfl := Option.some.inj hn
        exact ⟨rfl, rfl⟩
      · exact record_claims hn
      · simp at hn
    exact .idle hnodup hrefl rfl (fun n hn => (hnext n hn).1) fun n hn => (hnext n hn).2
  | note inst t => exact .idle hnodup hrefl rfl (by rintro _ ⟨⟩; rfl) (by rintro _ ⟨⟩; rfl)
  | pull inst t =>
    have hnext : ∀ n ∈ ((Stage.pull inst t).exec cfg fleet m rows o).2.2,
        n.claims = none ∧ n.cuts = false := by
      intro n hn
      cases o with
      | done => simp [Stage.exec] at hn
      | fails => simp [Stage.exec] at hn
      | brings vals => exact record_claims hn
    exact .idle hnodup hrefl rfl (fun n hn => (hnext n hn).1) fun n hn => (hnext n hn).2
  | sample host seq values t =>
    dsimp only [Stage.exec]
    split_ifs
    · exact .idle hnodup hrefl rfl (by simp) (by simp)
    · exact .idle hnodup hrefl rfl (by rintro _ ⟨⟩; rfl) (by rintro _ ⟨⟩; rfl)
  | throttle t force =>
    dsimp only [Stage.exec]
    split_ifs
    · exact .idle hnodup hrefl rfl (by simp) (by simp)
    · exact .idle hnodup hrefl rfl (by rintro _ ⟨⟩; rfl) (by rintro _ ⟨⟩; rfl)
  | adopted t =>
    dsimp only [Stage.exec]
    split_ifs
    · exact .idle hnodup hrefl rfl (by rintro _ ⟨⟩; rfl) (by rintro _ ⟨⟩; rfl)
    · exact .idle hnodup hrefl rfl (by rintro _ ⟨⟩; rfl) (by rintro _ ⟨⟩; rfl)
  | load t => exact .idle hnodup hrefl rfl (by rintro _ ⟨⟩; rfl) (by rintro _ ⟨⟩; rfl)
  | merge t found =>
    exact ⟨names_merge found hnodup, fun h _ => .inr ⟨_, rfl, trivial⟩,
      fun d hd h hclaims => by simp [hfree d (hrest d hd)] at hclaims,
      by rintro _ ⟨⟩; trivial, by rintro _ ⟨⟩; exact .inl rfl,
      by rintro _ ⟨⟩ _; exact .inr fun d hd => hfree d (hrest d hd)⟩
  | cutHosts t =>
    refine .less hnodup hrefl (fun h _ hlt => ⟨_, rfl, mem_hosts fun hnil => ?_⟩)
      (by rintro _ ⟨⟩; trivial) (by rintro _ ⟨⟩; exact .inl rfl) fun _ _ _ => rfl
    change cfg.maxKeys < (m.names h).length at hlt
    simp [Mem.names, hnil] at hlt
  | cut t hosts => exact .cut hnodup
  | cutForget t host victim rest =>
    exact .less hnodup forget_sublist (fun h hcut _ => ⟨_, rfl, hcut⟩)
      (by rintro _ ⟨⟩; trivial) (by rintro _ ⟨⟩; exact .inl rfl) fun _ _ _ => rfl
  | cutRows t host victim rest =>
    exact .less hnodup hrefl (fun h hcut _ => ⟨_, rfl, hcut⟩)
      (by rintro _ ⟨⟩; trivial) (by rintro _ ⟨⟩; exact .inl rfl) fun _ _ _ => rfl
  | hosts t => exact .idle hnodup hrefl rfl (by rintro _ ⟨⟩; rfl) (by rintro _ ⟨⟩; rfl)
  | stale t hosts =>
    cases hosts <;> exact .idle hnodup hrefl rfl (by rintro _ ⟨⟩; rfl) (by rintro _ ⟨⟩; rfl)
  | drop t host keys rest =>
    cases keys with
    | cons k keys =>
      exact .idle hnodup forget_sublist rfl (by rintro _ ⟨⟩; rfl) (by rintro _ ⟨⟩; rfl)
    | nil =>
      have hsame (h : Text) : ((m.dropEmpty host).names h).Sublist (m.names h) := by
        rw [Mem.names, listed_dropEmpty]
        exact .refl _
      exact .idle hnodup hsame rfl (by rintro _ ⟨⟩; rfl) (by rintro _ ⟨⟩; rfl)
  | known t => exact .idle hnodup hrefl rfl (by rintro _ ⟨⟩; rfl) (by rintro _ ⟨⟩; rfl)
  | expire t todo =>
    cases todo with
    | nil => exact .idle hnodup hrefl rfl (by simp [Stage.exec]) (by simp [Stage.exec])
    | cons res todo => exact .idle hnodup hrefl rfl (by rintro _ ⟨⟩; rfl) (by rintro _ ⟨⟩; rfl)

end

theorem capped_start (cfg : Config) (rows : List Row) : Capped cfg (start rows) where
  nodup := by simp [start, Mem.empty, Mem.names, Mem.listed, Keyed.find]
  cap := by simp [start, Mem.empty, Mem.names, Mem.listed, Keyed.find]
  room := by simp [start]
  alone := by simp [start]
  apart := by simp [start]

section

variable {cfg : Config} {owner : Text → Text} {s t : Service} {i : ℕ} {c : Stage} {o : Outcome}

theorem Capped.next {m : Mem} {rows : List Row} {n : Option Stage} (h : Capped cfg s)
    (hc : s.calls[i]? = some c) (hmoves : Moves cfg (s.calls.eraseIdx i) s.mem c m n) :
    Capped cfg { s with mem := m, rows := rows, calls := settle s.calls i n } := by
  have hrest {d : Stage} (hd : d ∈ s.calls.eraseIdx i) : d ∈ s.calls :=
    (mem_calls hc).2 (.inr hd)
  have hmem : c ∈ s.calls := (mem_calls hc).2 (.inl rfl)
  refine ⟨hmoves.nodup, fun host hlt => ?_, fun d hd => ?_, fun host => ?_,
    fun d hd e he hcuts => ?_⟩
  · rcases hmoves.cap host hlt with ⟨hold, hnot⟩ | ⟨n', hn', hcut⟩
    · obtain ⟨d, hd, hcut⟩ := h.cap host hold
      rcases (mem_calls hc).1 hd with rfl | hd
      · exact absurd hcut hnot
      · exact ⟨d, (mem_settle hc).2 (.inr hd), hcut⟩
    · exact ⟨n', (mem_settle hc).2 (.inl hn'), hcut⟩
  · rcases (mem_settle hc).1 hd with hn | hd
    · exact hmoves.room d hn
    · exact (h.room d (hrest hd)).sublist (hmoves.sub d hd)
  · have hcount := h.alone host
    rw [(calls_perm hc).countP_eq, List.countP_cons] at hcount
    rw [(settle_perm hc).countP_eq, List.countP_append]
    cases n with
    | none =>
      simp only [Option.toList_none, List.countP_nil]
      omega
    | some n =>
      simp only [Option.toList_some, List.countP_singleton]
      rcases hmoves.claims n rfl with hnone | hsame | hother
      · rw [hnone]
        simp only [reduceCtorEq, decide_false, Bool.false_eq_true, if_false]
        omega
      · rw [hsame]
        omega
      · by_cases hn : n.claims = some host
        · have hzero : (s.calls.eraseIdx i).countP (fun c => c.claims = some host) = 0 := by
            refine List.countP_eq_zero.2 fun d hd => ?_
            rw [← hn]
            simpa using (hother d hd).1
          rw [hzero]
          split_ifs <;> omega
        · simp only [hn, decide_false, Bool.false_eq_true, if_false]
          omega
  · rcases (mem_settle hc).1 hd with hn | hd
    · rcases (mem_settle hc).1 he with hn' | he
      · obtain rfl := Option.some.inj (hn.symm.trans hn')
        exact claims_of_cuts hcuts
      · rcases hmoves.cuts d hn hcuts with hcut | hnone
        · exact h.apart c hmem e (hrest he) hcut
        · exact hnone e he
    · rcases (mem_settle hc).1 he with hn | he
      · rcases hmoves.claims e hn with hnone | hsame | hother
        · exact hnone
        · rw [hsame]
          exact h.apart d (hrest hd) c hmem hcuts
        · simp [(hother d hd).2] at hcuts
      · exact h.apart d (hrest hd) e (hrest he) hcuts

/-- New calls that neither claim nor cut yet. -/
theorem Capped.more {l : List Stage} (h : Capped cfg s) (hmem : t.mem = s.mem)
    (hcalls : t.calls = s.calls ++ l) (hl : ∀ c ∈ l, c.claims = none ∧ c.cuts = false) :
    Capped cfg t := by
  refine ⟨hmem ▸ h.nodup, fun host hlt => ?_, fun d hd => ?_, fun host => ?_,
    fun d hd e he hcuts => ?_⟩
  · obtain ⟨d, hd, hcut⟩ := h.cap host (hmem ▸ hlt)
    exact ⟨d, hcalls ▸ List.mem_append_left _ hd, hcut⟩
  · rw [hcalls] at hd
    rcases List.mem_append.1 hd with hd | hd
    · exact hmem ▸ h.room d hd
    · exact room_of_claims (hl d hd).1
  · have hzero : l.countP (fun c => c.claims = some host) = 0 :=
      List.countP_eq_zero.2 fun d hd => by simp [(hl d hd).1]
    rw [hcalls, List.countP_append, hzero]
    exact h.alone host
  · rw [hcalls] at hd he
    rcases List.mem_append.1 hd with hd | hd
    · rcases List.mem_append.1 he with he | he
      · exact h.apart d hd e he hcuts
      · exact (hl e he).1
    · simp [(hl d hd).2] at hcuts

theorem Capped.step (h : Capped cfg s) {a : Act} (hcalm : Calm owner s a)
    (hstep : step cfg s a = some t) : Capped cfg t := by
  cases a with
  | ingest inst vals time =>
    obtain rfl := Option.some.inj hstep
    exact h.more rfl rfl fun c hc => record_claims (Option.mem_toList.1 hc)
  | scrape inst connected time =>
    obtain ⟨-, heq⟩ := Option.ite_none_left_eq_some.1 hstep
    obtain rfl := Option.some.inj heq
    exact h.more rfl rfl fun c hc => by simp [List.mem_singleton.1 hc, Stage.claims, Stage.cuts]
  | sample host seq used available shmem swap time =>
    obtain rfl := Option.some.inj hstep
    exact h.more rfl rfl fun c hc => by simp [List.mem_singleton.1 hc, Stage.claims, Stage.cuts]
  | prune time force =>
    obtain rfl := Option.some.inj hstep
    exact h.more rfl rfl fun c hc => by simp [List.mem_singleton.1 hc, Stage.claims, Stage.cuts]
  | fleet hosts =>
    obtain rfl := Option.some.inj hstep
    exact h.more rfl (List.append_nil _).symm (by simp)
  | next i o =>
    obtain ⟨c, hc, rfl⟩ := step_next hstep
    have hmem : c ∈ s.calls := (mem_calls hc).2 (.inl rfl)
    refine h.next hc (.exec (hcalm c hc) (fun d hd => (mem_calls hc).2 (.inr hd)) h.nodup
      (h.room c hmem) (fun hcuts host => ?_) fun host hclaims d hd hsame => ?_)
    · by_contra hlt
      obtain ⟨d, hd, hcut⟩ := h.cap host (Nat.lt_of_not_le hlt)
      exact absurd (cuts_of_cutting hcut) (by simp [hcuts d hd])
    · have hcount := h.alone host
      rw [(calls_perm hc).countP_eq, List.countP_cons, if_pos (decide_eq_true hclaims)] at hcount
      have hpos : 0 < (s.calls.eraseIdx i).countP (fun c => c.claims = some host) :=
        List.countP_pos_iff.2 ⟨d, hd, decide_eq_true hsame⟩
      omega

end

/-! ## Rings -/

/-- No ring holds more than its cap. -/
def Rings (cfg : Config) (m : Mem) : Prop :=
  ∀ k pts, m.ring k = some pts → pts.length ≤ cfg.ringCap

section

variable {cfg : Config} {fleet : List Text} {m : Mem} {rows : List Row} {o : Outcome} {c : Stage}

theorem rings_forget {host key : Text} (h : Rings cfg m) : Rings cfg (m.forget host key) := by
  intro k pts hk
  by_cases heq : k = key
  · subst heq
    exact absurd ((Function.update_self ..).symm.trans hk) (by simp)
  · exact h k pts ((Function.update_of_ne heq _ _).symm.trans hk)

theorem rings_push {key : Text} {pt : Point} (h : Rings cfg m) :
    Rings cfg (m.pushRing cfg.ringCap key pt) := by
  intro k pts hk
  by_cases heq : k = key
  · subst heq
    unfold Mem.pushRing at hk
    dsimp only at hk
    rw [Function.update_self] at hk
    have hpts := Option.some.inj hk
    have hold : ((m.ring k).getD []).length ≤ cfg.ringCap := by
      cases hring : m.ring k with
      | none => simp
      | some old => exact h k old hring
    have hpos : 1 ≤ cfg.ringCap := Nat.le_add_left _ _
    rw [← hpts, List.length_append, List.length_singleton]
    split_ifs with hfull
    · rw [List.length_tail]
      omega
    · omega
  · exact h k pts ((Function.update_of_ne heq _ _).symm.trans hk)

theorem rings_exec (h : Rings cfg m) : Rings cfg (c.exec cfg fleet m rows o).1 := by
  have hring {m' : Mem} (hm : m'.ring = m.ring) : Rings cfg m' := fun k pts hk => h k pts (hm ▸ hk)
  cases c with
  | check host key pt => exact hring (entry_fields _).1
  | evict host victim key pt => exact rings_forget h
  | list host key pt => exact hring (entry_fields _).1
  | push host key pt => exact rings_push h
  | sample host seq values t =>
    dsimp only [Stage.exec]
    split_ifs <;> exact hring rfl
  | throttle t force =>
    dsimp only [Stage.exec]
    split_ifs <;> exact hring rfl
  | merge t found => exact hring (merge_spec found).2.1
  | cut t hosts => cases hosts <;> exact h
  | cutForget t host victim rest => exact rings_forget h
  | stale t hosts => cases hosts <;> exact h
  | drop t host keys rest =>
    cases keys with
    | cons k keys => exact rings_forget h
    | nil =>
      dsimp only [Stage.exec]
      unfold Mem.dropEmpty
      split_ifs <;> exact hring rfl
  | expire t todo => cases todo <;> exact h
  | _ => exact h

/-- A step outside the calls leaves the memory. -/
theorem step_mem {s t : Service} {a : Act} (hstep : step cfg s a = some t) :
    t.mem = s.mem ∧ t.rows = s.rows ∨ ∃ i o, a = .next i o := by
  cases a with
  | next i o => exact .inr ⟨i, o, rfl⟩
  | scrape inst connected time =>
    obtain ⟨-, heq⟩ := Option.ite_none_left_eq_some.1 hstep
    obtain rfl := Option.some.inj heq
    exact .inl ⟨rfl, rfl⟩
  | _ =>
    obtain rfl := Option.some.inj hstep
    exact .inl ⟨rfl, rfl⟩

theorem rings_step {s t : Service} {a : Act} (h : Rings cfg s.mem) (hstep : step cfg s a = some t) :
    Rings cfg t.mem := by
  rcases step_mem hstep with ⟨hmem, -⟩ | ⟨i, o, rfl⟩
  · rwa [hmem]
  · obtain ⟨c, -, rfl⟩ := step_next hstep
    exact rings_exec h

end

/-! ## One host for each series -/

/-- What the service holds of a series. -/
def Mem.recall (m : Mem) (k : Text) :
    Option (List Point) × Option (ℚ × Vals) × Option ℚ × Option ℚ :=
  (m.ring k, m.lastCounters k, m.lastPush k, m.lastPull k)

/-- The rollups of a series. -/
def rowsOf (rows : List Row) (k : Text) : List Row :=
  rows.filter fun r => r.series = k

/-- The host for which a call claims a series. -/
def Stage.claiming : Stage → Option Text
  | .check host .. => some host
  | c => c.claims

/-- A row is of the host of its series. -/
def Row.Owned (owner : Text → Text) (r : Row) : Prop :=
  ∀ h ∈ r.host, owner r.series = h

/-- A call handles each series under its host. -/
def Stage.Owned (owner : Text → Text) : Stage → Prop
  | .counters inst .. | .silence inst _ | .note inst _ | .pull inst _ => owner inst.id = inst.hostId
  | .check host key _ | .list host key _ | .push host key _ | .rollup host key _ => owner key = host
  | .evict host victim key _ | .evictRows host victim key _ => owner victim = host ∧ owner key = host
  | .sample host .. => owner (systemKey host) = host
  | .merge _ found => ∀ r ∈ found, owner r.2.1 = r.1
  | _ => True

/-- Each series is listed, handled and rolled up under its host. -/
structure Owned (owner : Text → Text) (s : Service) : Prop where
  names : ∀ host, ∀ k ∈ s.mem.names host, owner k = host
  rows : ∀ r ∈ s.rows, r.Owned owner
  calls : ∀ c ∈ s.calls, c.Owned owner

section

variable {cfg : Config} {owner : Text → Text} {fleet : List Text} {m : Mem} {rows : List Row}
  {o : Outcome} {c : Stage} {host key k : Text}

theorem insertRow_owned {new : Row} (h : ∀ r ∈ rows, r.Owned owner) (hnew : new.Owned owner) :
    ∀ r ∈ insertRow rows new, r.Owned owner := by
  intro r hr
  unfold insertRow at hr
  split_ifs at hr with hmem
  · obtain ⟨r', hr', rfl | ⟨-, rfl⟩⟩ := Keyed.mem_update hr
    · exact h _ hr'
    · exact h r' hr'
  · rcases List.mem_append.1 hr with hr | hr
    · exact h r hr
    · rwa [List.mem_singleton.1 hr]

theorem rollup_owned {pt : Point} (h : ∀ r ∈ rows, r.Owned owner) (howner : owner key = host) :
    ∀ r ∈ rollup rows key pt host, r.Owned owner := by
  have hfold (new : List Row) (hnew : ∀ r ∈ new, r.Owned owner) (rows : List Row)
      (h : ∀ r ∈ rows, r.Owned owner) : ∀ r ∈ new.foldl insertRow rows, r.Owned owner := by
    induction new generalizing rows with
    | nil => exact h
    | cons n new ih =>
      exact ih (fun r hr => hnew r (List.mem_cons_of_mem _ hr)) _
        (insertRow_owned h (hnew n List.mem_cons_self))
  refine hfold _ (fun r hr => ?_) rows h
  obtain ⟨res, -, hr⟩ := List.mem_flatMap.1 hr
  obtain ⟨x, -, rfl⟩ := List.mem_map.1 hr
  intro h' hh'
  obtain rfl := Option.some.inj hh'
  exact howner

theorem lastRows_owned (h : ∀ r ∈ rows, r.Owned owner) :
    ∀ x ∈ lastRows rows, owner x.2.1 = x.1 := by
  intro x hx
  obtain ⟨⟨host, k⟩, hmem, rfl⟩ := List.mem_map.1 hx
  obtain ⟨r, hr, heq⟩ := List.mem_filterMap.1 (List.mem_dedup.1 hmem)
  obtain ⟨h', hh', heq⟩ := Option.map_eq_some_iff.1 heq
  obtain ⟨rfl, rfl⟩ := Prod.mk.inj heq
  exact h r hr h' hh'

theorem names_merge_owned {found : List (Text × Text × ℚ)}
    (hnames : ∀ host, ∀ k ∈ m.names host, owner k = host)
    (hfound : ∀ r ∈ found, owner r.2.1 = r.1) :
    ∀ host, ∀ k ∈ (m.merge found).names host, owner k = host := by
  have hfold (m : Mem) (hnames : ∀ host, ∀ k ∈ m.names host, owner k = host) : ∀ host,
      ∀ k ∈ (found.foldl (fun m r => m.entry r.1 (adoptKey r.2.1 r.2.2)) m).names host,
        owner k = host := by
    induction found generalizing m with
    | nil => exact hnames
    | cons r found ih =>
      refine ih (fun r hr => hfound r (List.mem_cons_of_mem _ hr)) _ fun host k hk => ?_
      rw [names_entry] at hk
      split_ifs at hk with hh
      · subst hh
        rw [names_adoptKey] at hk
        split_ifs at hk
        · exact hnames r.1 k hk
        · rcases List.mem_append.1 hk with hk | hk
          · exact hnames r.1 k hk
          · rw [List.mem_singleton.1 hk]
            exact hfound r List.mem_cons_self
      · exact hnames host k hk
  exact hfold _ hnames

/-- A step lists each series under its host. -/
theorem names_exec_owned (hnames : ∀ host, ∀ k ∈ m.names host, owner k = host)
    (hc : c.Owned owner) :
    ∀ host, ∀ k ∈ (c.exec cfg fleet m rows o).1.names host, owner k = host := by
  have hforget (h' v : Text) : ∀ host, ∀ k ∈ (m.forget h' v).names host, owner k = host :=
    fun host k hk => hnames host k ((forget_sublist host).subset hk)
  cases c with
  | check h' key pt =>
    intro host k hk
    dsimp only [Stage.exec] at hk
    rw [names_entry_id] at hk
    exact hnames host k hk
  | evict h' victim key pt => exact hforget h' victim
  | list h' key pt =>
    intro host k hk
    dsimp only [Stage.exec] at hk
    rw [names_entry] at hk
    split_ifs at hk with hh
    · subst hh
      rw [names_stamp] at hk
      split_ifs at hk
      · exact hnames host k hk
      · rcases List.mem_append.1 hk with hk | hk
        · exact hnames host k hk
        · rw [List.mem_singleton.1 hk]
          exact hc
    · exact hnames host k hk
  | sample h' seq values t =>
    dsimp only [Stage.exec]
    split_ifs <;> exact hnames
  | throttle t force =>
    dsimp only [Stage.exec]
    split_ifs <;> exact hnames
  | merge t found => exact names_merge_owned hnames hc
  | cut t hosts => cases hosts <;> exact hnames
  | cutForget t h' victim rest => exact hforget h' victim
  | stale t hosts => cases hosts <;> exact hnames
  | drop t h' keys rest =>
    cases keys with
    | cons k keys => exact hforget h' k
    | nil =>
      intro host k hk
      dsimp only [Stage.exec] at hk
      rw [Mem.names, listed_dropEmpty] at hk
      exact hnames host k hk
  | expire t todo => cases todo <;> exact hnames
  | _ => exact hnames

theorem record_owned {inst : Instance} {vals : Vals} {t : ℚ} {pushed : Bool} {n : Stage}
    (hn : n ∈ record inst vals t pushed) (h : owner inst.id = inst.hostId) : n.Owned owner := by
  unfold record at hn
  split_ifs at hn with hvals
  · simp at hn
  · obtain rfl := Option.some.inj hn
    exact h

/-- A call goes on with the series of its host. -/
theorem next_exec_owned (hnames : ∀ host, ∀ k ∈ m.names host, owner k = host)
    (hrows : ∀ r ∈ rows, r.Owned owner) (hc : c.Owned owner) :
    ∀ n ∈ (c.exec cfg fleet m rows o).2.2, n.Owned owner := by
  cases c with
  | counters inst vals t pushed => rintro _ ⟨⟩; exact hc
  | check host key pt =>
    intro n hn
    dsimp only [Stage.exec] at hn
    cases hvictim : m.victim cfg host key with
    | none =>
      rw [hvictim] at hn
      obtain rfl := Option.some.inj hn
      exact hc
    | some v =>
      rw [hvictim] at hn
      obtain rfl := Option.some.inj hn
      exact ⟨hnames host v (mem_of_victim hvictim), hc⟩
  | evict host victim key pt => rintro _ ⟨⟩; exact hc
  | evictRows host victim key pt => rintro _ ⟨⟩; exact hc.2
  | list host key pt => rintro _ ⟨⟩; exact hc
  | push host key pt => rintro _ ⟨⟩; exact hc
  | rollup host key pt => simp [Stage.exec]
  | silence inst t =>
    intro n hn
    dsimp only [Stage.exec] at hn
    unfold afterSilence at hn
    split_ifs at hn
    · obtain rfl := Option.some.inj hn
      exact hc
    · exact record_owned hn hc
    · simp at hn
  | note inst t => rintro _ ⟨⟩; exact hc
  | pull inst t =>
    intro n hn
    cases o with
    | done => simp [Stage.exec] at hn
    | fails => simp [Stage.exec] at hn
    | brings vals => exact record_owned hn hc
  | sample host seq values t =>
    dsimp only [Stage.exec]
    split_ifs
    · simp
    · rintro _ ⟨⟩
      exact hc
  | throttle t force =>
    dsimp only [Stage.exec]
    split_ifs
    · simp
    · rintro _ ⟨⟩
      trivial
  | adopted t =>
    dsimp only [Stage.exec]
    split_ifs <;> (rintro _ ⟨⟩; trivial)
  | load t =>
    rintro _ ⟨⟩
    cases o with
    | fails => simp [Stage.Owned]
    | done => exact lastRows_owned hrows
    | brings vals => exact lastRows_owned hrows
  | merge t found => rintro _ ⟨⟩; trivial
  | cutHosts t => rintro _ ⟨⟩; trivial
  | cut t hosts =>
    cases hosts with
    | nil => rintro _ ⟨⟩; trivial
    | cons host hosts =>
      intro n hn
      dsimp only [Stage.exec] at hn
      split_ifs at hn
      · obtain rfl := Option.some.inj hn
        trivial
      · split at hn <;>
        · obtain rfl := Option.some.inj hn
          trivial
  | cutForget t host victim rest => rintro _ ⟨⟩; trivial
  | cutRows t host victim rest => rintro _ ⟨⟩; trivial
  | hosts t => rintro _ ⟨⟩; trivial
  | stale t hosts => cases hosts <;> (rintro _ ⟨⟩; trivial)
  | drop t host keys rest => cases keys <;> (rintro _ ⟨⟩; trivial)
  | known t => rintro _ ⟨⟩; trivial
  | expire t todo =>
    cases todo with
    | nil => simp [Stage.exec]
    | cons res todo => rintro _ ⟨⟩; trivial

theorem rows_exec_owned (hrows : ∀ r ∈ rows, r.Owned owner) (hc : c.Owned owner) :
    ∀ r ∈ (c.exec cfg fleet m rows o).2.1, r.Owned owner := by
  have hfilter (p : Row → Bool) : ∀ r ∈ rows.filter p, r.Owned owner := fun r hr =>
    hrows r (List.mem_of_mem_filter hr)
  cases c with
  | evictRows host victim key pt => cases o <;> first | exact hrows | exact hfilter _
  | rollup host key pt => cases o <;> first | exact hrows | exact rollup_owned hrows hc
  | sample host seq values t =>
    dsimp only [Stage.exec]
    split_ifs <;> exact hrows
  | throttle t force =>
    dsimp only [Stage.exec]
    split_ifs <;> exact hrows
  | cut t hosts => cases hosts <;> exact hrows
  | cutRows t host victim rest => cases o <;> first | exact hrows | exact hfilter _
  | stale t hosts => cases hosts <;> exact hrows
  | drop t host keys rest => cases keys <;> exact hrows
  | expire t todo =>
    cases todo with
    | nil => exact hrows
    | cons res todo => cases o <;> first | exact hrows | exact hfilter _
  | _ => exact hrows

/-- A claim leaves the series of other hosts. -/
theorem exec_claiming (hnames : ∀ host, ∀ k ∈ m.names host, owner k = host) (hc : c.Owned owner)
    (hclaim : c.claiming = some host) {h' : Text} (hh : h' ≠ host) (hk : k ∈ m.names h') :
    (c.exec cfg fleet m rows o).1.recall k = m.recall k ∧
      rowsOf (c.exec cfg fleet m rows o).2.1 k = rowsOf rows k := by
  have hentry (host : Text) (f : List (Text × ℚ) → List (Text × ℚ)) :
      (m.entry host f).recall k = m.recall k := by
    obtain ⟨hring, hcounters, hpush, hpull⟩ := entry_fields (m := m) f
    rw [Mem.recall, hring, hcounters, hpush, hpull]
    rfl
  have hne {v : Text} (hv : owner v = host) : k ≠ v := fun heq =>
    hh ((hnames h' k hk).symm.trans ((congrArg owner heq).trans hv))
  cases c with
  | check host' key pt => exact ⟨hentry host' id, rfl⟩
  | evict host' victim key pt =>
    obtain rfl := Option.some.inj hclaim
    have hkv := hne hc.1
    refine ⟨?_, rfl⟩
    simp [Mem.recall, Stage.exec, Mem.forget, Function.update_of_ne hkv]
  | evictRows host' victim key pt =>
    obtain rfl := Option.some.inj hclaim
    have hrows : rowsOf (deleteRows rows host' victim) k = rowsOf rows k := by
      rw [rowsOf, deleteRows, List.filter_filter]
      refine List.filter_congr fun r _ => ?_
      by_cases hr : r.series = k
      · simp [hr, hne hc.1]
      · simp [hr]
    refine ⟨rfl, ?_⟩
    cases o <;> first | exact hrows | rfl
  | list host' key pt => exact ⟨hentry host' _, rfl⟩
  | _ => simp [Stage.claiming, Stage.claims] at hclaim

end

section

variable {cfg : Config} {owner : Text → Text} {s t : Service}

theorem owned_start {rows : List Row} (hrows : ∀ r ∈ rows, r.Owned owner) :
    Owned owner (start rows) where
  names := by simp [start, Mem.empty, Mem.names, Mem.listed, Keyed.find]
  rows := hrows
  calls := by simp [start]

theorem Owned.more {l : List Stage} (h : Owned owner s) (hmem : t.mem = s.mem)
    (hrows : t.rows = s.rows) (hcalls : t.calls = s.calls ++ l) (hl : ∀ c ∈ l, c.Owned owner) :
    Owned owner t where
  names := hmem ▸ h.names
  rows := hrows ▸ h.rows
  calls := fun c hc => by
    rw [hcalls] at hc
    exact (List.mem_append.1 hc).elim (h.calls c) (hl c)

theorem Owned.step (h : Owned owner s) {a : Act} (hcalm : Calm owner s a)
    (hstep : step cfg s a = some t) : Owned owner t := by
  cases a with
  | ingest inst vals time =>
    obtain rfl := Option.some.inj hstep
    exact h.more rfl rfl rfl fun c hc => record_owned (Option.mem_toList.1 hc) hcalm
  | scrape inst connected time =>
    obtain ⟨-, heq⟩ := Option.ite_none_left_eq_some.1 hstep
    obtain rfl := Option.some.inj heq
    exact h.more rfl rfl rfl fun c hc => by rw [List.mem_singleton.1 hc]; exact hcalm
  | sample host seq used available shmem swap time =>
    obtain rfl := Option.some.inj hstep
    exact h.more rfl rfl rfl fun c hc => by rw [List.mem_singleton.1 hc]; exact hcalm
  | prune time force =>
    obtain rfl := Option.some.inj hstep
    exact h.more rfl rfl rfl fun c hc => by rw [List.mem_singleton.1 hc]; trivial
  | fleet hosts =>
    obtain rfl := Option.some.inj hstep
    exact ⟨h.names, h.rows, h.calls⟩
  | next i o =>
    obtain ⟨c, hc, rfl⟩ := step_next hstep
    have hown : c.Owned owner := h.calls c ((mem_calls hc).2 (.inl rfl))
    refine ⟨names_exec_owned h.names hown, rows_exec_owned h.rows hown, fun d hd => ?_⟩
    rcases (mem_settle hc).1 hd with hn | hd
    · exact next_exec_owned h.names h.rows hown d hn
    · exact h.calls d ((mem_calls hc).2 (.inr hd))

/-! ## The bound -/

/-- In a calm run, what is remembered is listed and no host lists too much when no call is in
flight, rings keep to their cap, and a claim leaves what is held of the series of other hosts. -/
theorem memory_bounded {rows : List Row} (hrows : ∀ r ∈ rows, r.Owned owner)
    (hrun : ReachBy (step cfg) (Calm owner) (start rows) s) :
    (s.calls = [] → Bounded cfg s.mem) ∧ Rings cfg s.mem ∧
      ∀ i o c host, s.calls[i]? = some c → c.claiming = some host →
        step cfg s (.next i o) = some t → ∀ h' ≠ host, ∀ k ∈ s.mem.names h',
          t.mem.recall k = s.mem.recall k ∧ rowsOf t.rows k = rowsOf s.rows k := by
  have hremembered : Remembered s :=
    hrun.invariant Remembered (fun s a t hok h hstep => h.step hok hstep) (remembered_start rows)
  have hcapped : Capped cfg s :=
    hrun.invariant (Capped cfg) (fun s a t hok h hstep => h.step hok hstep) (capped_start cfg rows)
  have howned : Owned owner s :=
    hrun.invariant (Owned owner) (fun s a t hok h hstep => h.step hok hstep) (owned_start hrows)
  have hrings : Rings cfg s.mem :=
    hrun.invariant (fun s => Rings cfg s.mem) (fun s a t _ h hstep => rings_step h hstep)
      (fun k pts hk => by simp [start, Mem.empty] at hk)
  refine ⟨fun hcalls => ⟨fun k hk => ?_, fun host => ?_⟩, hrings, ?_⟩
  · by_contra hnone
    refine hk ⟨?_, ?_, ?_, ?_⟩
    · by_contra hring
      exact hnone (hremembered.ring k hring)
    · by_contra hcount
      simpa [hcalls, hnone] using hremembered.counted k (.inl hcount)
    · by_contra hcount
      simpa [hcalls, hnone] using hremembered.counted k (.inr hcount)
    · by_contra hpull
      simpa [hcalls, hnone] using hremembered.pulled k hpull
  · by_contra hlt
    rw [not_le] at hlt
    obtain ⟨c, hc, -⟩ := hcapped.cap host (by rwa [Mem.names, List.length_map])
    simp [hcalls] at hc
  · intro i o c host hc hclaim hstep h' hh k hk
    obtain ⟨c', hc', rfl⟩ := step_next hstep
    obtain rfl := Option.some.inj (hc.symm.trans hc')
    exact exec_claiming howned.names (howned.calls c ((mem_calls hc).2 (.inl rfl))) hclaim hh hk

end

/-! ## Runs -/

instance (calls : List Stage) (m : Mem) (o : Outcome) : (c : Stage) → Decidable (c.Free calls m o)
  | .check .. => inferInstanceAs (Decidable (∀ c ∈ calls, _ ∧ _))
  | .merge .. => inferInstanceAs (Decidable (∀ c ∈ calls, _))
  | .push .. => inferInstanceAs (Decidable (_ ∈ _))
  | .pull inst t =>
    decidable_of_iff (((match o with | .brings vals => record inst vals t false | _ => none).isNone
      = true) → inst.id ∈ m.names inst.hostId ∨ (m.lastPull inst.id).isNone = true)
      (by simp only [Option.isNone_iff_eq_none, Stage.Free])
  | .counters .. | .evict .. | .evictRows .. | .list .. | .rollup .. | .silence .. | .note ..
  | .sample .. | .throttle .. | .adopted .. | .load .. | .cutHosts .. | .cut .. | .cutForget ..
  | .cutRows .. | .hosts .. | .stale .. | .drop .. | .known .. | .expire .. => .isTrue trivial

instance (owner : Text → Text) (s : Service) : (a : Act) → Decidable (Calm owner s a)
  | .ingest .. | .scrape .. | .sample .. => inferInstanceAs (Decidable (_ = _))
  | .next .. => inferInstanceAs (Decidable (∀ c ∈ _, Stage.Free _ _ _ c))
  | .prune .. | .fleet .. => .isTrue trivial

/-- An engine that is managed and ready. -/
def engine (id host : Text) : Instance :=
  ⟨id, host, "ready", "managed", some 8000, none⟩

/-- A push for an engine, and every step of it. -/
def pushes (id host : Text) (t : ℚ) (n : ℕ) : List Act :=
  .ingest (engine id host) [("requests_running", 1)] t :: List.replicate n (.next 0 .done)

/-- A host with room for two series. -/
def twoKeys : Config :=
  ⟨5, 2, le_rfl⟩

/-- The cap of the console. -/
def maxKeysPerHost : Config :=
  ⟨5, 256, by decide⟩

/-- A third series costs its host the first, and no other host anything. -/
theorem memory_bounded_three :
    ∃ s, ReachBy (step twoKeys) (Calm fun k => if k = ascii "x" then "g" else "h") (start []) s ∧
      s.mem.names "h" = [ascii "b", ascii "c"] ∧ s.mem.names "g" = [ascii "x"] ∧ Bounded twoKeys s.mem := by
  have hrun : ((runBy (step twoKeys) (Calm fun k => if k = ascii "x" then "g" else "h") (start [])
      (pushes "x" "g" 0 5 ++ pushes "a" "h" 1 5 ++ pushes "b" "h" 2 5 ++
        pushes "c" "h" 3 7)).any fun s =>
      s.calls.isEmpty ∧ s.mem.names "h" = [ascii "b", ascii "c"] ∧ s.mem.names "g" = [ascii "x"]) = true := by
    decide +kernel
  obtain ⟨s, hs, hp⟩ := (Option.any_eq_true _ _).1 hrun
  obtain ⟨hcalls, hh, hg⟩ := of_decide_eq_true hp
  have hreach := ReachBy.of_runBy hs
  exact ⟨s, hreach, hh, hg,
    (memory_bounded (t := s) (by simp) hreach).1 (List.isEmpty_iff.1 hcalls)⟩

theorem not_lists {m : Mem} (h : m.keys.isEmpty = true) (k : Text) : ¬m.Lists k := by
  rintro ⟨host, hk⟩
  simp [Mem.names, Mem.listed, List.isEmpty_iff.1 h, Keyed.find] at hk

/-- A pull that fails leaves its time for a series that no host lists; a point that comes after
its series was pruned leaves a ring that no host lists; and two claims at the same time list more
than a host may. -/
theorem unbounded :
    (∃ s, Reach (step maxKeysPerHost) (start []) s ∧ s.calls = [] ∧
      s.mem.lastPull "x" ≠ none ∧ ¬s.mem.Lists "x") ∧
    (∃ s, Reach (step maxKeysPerHost) (start []) s ∧ s.calls = [] ∧
      s.mem.ring "x" ≠ none ∧ ¬s.mem.Lists "x") ∧
    ∃ s, Reach (step twoKeys) (start []) s ∧ s.calls = [] ∧
      twoKeys.maxKeys < (s.mem.listed "h").length := by
  refine ⟨?_, ?_, ?_⟩
  · have hrun : ((runActs (step maxKeysPerHost) (start [])
        [.scrape (engine "x" "h") true 1000, .next 0 .done, .next 0 .done, .next 0 .fails]).any
        fun s => s.calls.isEmpty ∧ (s.mem.lastPull "x").isSome ∧ s.mem.keys.isEmpty) = true := by
      decide +kernel
    obtain ⟨s, hs, hp⟩ := (Option.any_eq_true _ _).1 hrun
    obtain ⟨hcalls, hpull, hkeys⟩ := of_decide_eq_true hp
    exact ⟨s, Reach.of_runActs hs, List.isEmpty_iff.1 hcalls, Option.isSome_iff_ne_none.1 hpull,
      not_lists hkeys _⟩
  · have hrun : ((runActs (step maxKeysPerHost) (start [])
        (pushes "x" "h" 0 3 ++ .prune 4000 false :: List.replicate 16 (.next 1 .done) ++
          List.replicate 2 (.next 0 .done))).any
        fun s => s.calls.isEmpty ∧ (s.mem.ring "x").isSome ∧ s.mem.keys.isEmpty) = true := by
      decide +kernel
    obtain ⟨s, hs, hp⟩ := (Option.any_eq_true _ _).1 hrun
    obtain ⟨hcalls, hring, hkeys⟩ := of_decide_eq_true hp
    exact ⟨s, Reach.of_runActs hs, List.isEmpty_iff.1 hcalls, Option.isSome_iff_ne_none.1 hring,
      not_lists hkeys _⟩
  · have hrun : ((runActs (step twoKeys) (start [])
        (pushes "a" "h" 0 5 ++ pushes "b" "h" 1 2 ++
          .ingest (engine "c" "h") [("requests_running", 1)] 2 ::
          List.replicate 2 (.next 1 .done) ++ List.replicate 6 (.next 0 .done))).any
        fun s => s.calls.isEmpty ∧ twoKeys.maxKeys < (s.mem.listed "h").length) = true := by
      decide +kernel
    obtain ⟨s, hs, hp⟩ := (Option.any_eq_true _ _).1 hrun
    obtain ⟨hcalls, hlt⟩ := of_decide_eq_true hp
    exact ⟨s, Reach.of_runActs hs, List.isEmpty_iff.1 hcalls, hlt⟩

end Metrics

end EngineConsole
