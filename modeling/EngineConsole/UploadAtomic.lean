import EngineConsole.FsWrite

/-!
# Uploads are atomic, verified and resumable

What a call of fs.write may leave on the disk, wherever it ends. Each part of the upload has
one triple (`checkFinal_spec` to `finish_spec`) with the same two conditions for an early
end : the file under its name is as it was, and the partial file is as it was or holds an
initial piece of what it had and what was uploaded (`Left`). The same triples show that the
upload goes through : their early ends exclude that everything went well (`Smooth`).

Over any sequence of calls on one path : the file changes only in a call that returns, and
then is what was asked for, and a path that can be written to can be resumed from what
fs.stat reports (`uploads_atomic`).
-/

set_option linter.unusedSectionVars false

namespace EngineConsole.Files

/-! ## Where an upload may end -/

/-- The bytes of an event. -/
def Event.bytes : Event → List UInt8
  | .chunk bytes => bytes
  | _ => []

/-- All bytes that are uploaded in a call. -/
def Env.data (env : Env) : List UInt8 :=
  env.upload.flatMap Event.bytes

/-- Entries that an upload may replace. -/
structure Usable (s : Slot) : Prop where
  final_dir : s.final ≠ .dir
  final_special : s.final ≠ .special
  regular : s.incomplete = .absent ∨ ∃ bytes, s.incomplete = .file bytes

/-- The environment lets a call through that finds the entries `s` : no fault, room on the
disk, and an upload of the bytes that are missing. -/
structure Friendly (node : Node) (env : Env) (a : WriteArgs) (s : Slot) : Prop where
  denied : env.denied = none
  fate : ∀ site, env.fate site = .ok
  going : ∀ i, env.cancelled i = false
  reads : ∀ i, 0 < env.readLimit i
  free : minFree ≤ (env.free.1 * env.free.2 : ℤ) - (a.size - a.offset)
  resumes : a.offset = s.incomplete.content.length
  chunks : ∀ e ∈ env.upload, ∃ bytes, e = .chunk bytes ∧ bytes ≠ []
  size : s.incomplete.content.length + env.data.length = a.size
  hash : ∀ w, a.want = some w →
    hexEncode (node.sha256 (s.incomplete.content ++ env.data)) = w

/-- Everything goes well in a call that finds the entries `s`. -/
structure Smooth (node : Node) (env : Env) (a : WriteArgs) (s : Slot) : Prop
    extends Friendly node env a s where
  usable : Usable s

/-- What a partial file may be after a call that ended early : as it was, or the part of it
that the call resumed from with an initial piece of the upload. -/
def Left (env : Env) (a : WriteArgs) (s : Slot) (i : Entry) : Prop :=
  i = s.incomplete ∨
    Usable s ∧ ∃ bytes, i = .file bytes ∧ bytes <+: s.incomplete.content.take a.offset ++ env.data

/-- The two errors that delete the partial file. -/
def HandlerError.isMismatch : HandlerError → Bool
  | .op e => e.code = "size_mismatch" || e.code = "hash_mismatch"
  | _ => false

/-- The same of an error of the guarded section. -/
def WriteError.isMismatch : WriteError → Bool
  | .handler e => e.isMismatch
  | .os _ => false

variable {node : Node} {env : Env} {a : WriteArgs} {s : Slot}

/-- The entries of the path. -/
def At (f i : Entry) (d : Disk) : Prop :=
  d.place = some ⟨f, i⟩

/-- The disk after a crash. -/
def Stopped (node : Node) (env : Env) (a : WriteArgs) (s : Slot) (d : Disk) : Prop :=
  (∃ i, At s.final i d ∧ Left env a s i) ∧ ¬Smooth node env a s

/-- The disk after an error. -/
def Failed (node : Node) (env : Env) (a : WriteArgs) (s : Slot) (e : WriteError) (d : Disk) :
    Prop :=
  (∃ i, At s.final i d ∧ (Left env a s i ∨ e.isMismatch = true ∧ i = .absent)) ∧
    ¬Smooth node env a s

/-- States in which an upload may end early. -/
def Between (env : Env) (a : WriteArgs) (s : Slot) (P : Disk → Prop) : Prop :=
  ∀ d, P d → ∃ i, At s.final i d ∧ Left env a s i

variable {P : Disk → Prop} {α : Type} {Q : α → Disk → Prop}

theorem fail_spec {e : WriteError} (hP : Between env a s P)
    (hsmooth : ∀ d, P d → ¬Smooth node env a s) :
    Triple P (Prog.fail e) Q (Failed node env a s) (Stopped node env a s) := by
  refine Triple.fail fun d hd => ⟨?_, hsmooth d hd⟩
  obtain ⟨i, hat, hleft⟩ := hP d hd
  exact ⟨i, hat, .inl hleft⟩

theorem crash_spec (hP : Between env a s P) (hsmooth : ∀ d, P d → ¬Smooth node env a s) :
    Triple P (Prog.crash : Upload α) Q (Failed node env a s) (Stopped node env a s) :=
  Triple.crash fun d hd => ⟨hP d hd, hsmooth d hd⟩

theorem not_smooth {site : Site} {fate : Fate} (h : env.fate site = fate) (hne : fate ≠ .ok) :
    ¬Smooth node env a s :=
  fun hs => hne (h ▸ hs.fate site)

theorem sys_spec (site : Site) (hP : Between env a s P) :
    Triple P (sys env site) (fun _ => P) (Failed node env a s) (Stopped node env a s) := by
  unfold sys
  cases h : env.fate site with
  | ok => exact Triple.pure fun _ => id
  | errno e => exact fail_spec hP fun _ _ => not_smooth h (by simp)
  | crash => exact crash_spec hP fun _ _ => not_smooth h (by simp)

theorem lstatAt_spec {site : Site} {name : String} {f : Slot → Entry} (hP : Between env a s P) :
    Triple P (lstatAt node env site name f) (fun e d => P d ∧ e = f d.slot)
      (Failed node env a s) (Stopped node env a s) := by
  unfold lstatAt
  cases h : env.fate site with
  | ok => exact Triple.look fun d hd => ⟨hd, rfl⟩
  | errno e => exact fail_spec hP fun _ _ => not_smooth h (by simp)
  | crash => exact crash_spec hP fun _ _ => not_smooth h (by simp)

/-! ## Opening the partial file -/

theorem At.slot {f i : Entry} {d : Disk} (h : At f i d) : d.slot = ⟨f, i⟩ := by
  rw [Disk.slot, h]
  rfl

theorem At.setIncomplete {f i i' : Entry} {d : Disk} (h : At f i d) :
    At f i' (d.setIncomplete i') := by
  rw [At, Disk.setIncomplete, h.slot]

theorem between_at : Between env a s (At s.final s.incomplete) :=
  fun _ hd => ⟨_, hd, .inl rfl⟩

theorem Between.mono {P' : Disk → Prop} (hP : Between env a s P) (h : ∀ d, P' d → P d) :
    Between env a s P' :=
  fun d hd => hP d (h d hd)

theorem checkFinal_spec :
    Triple (At s.final s.incomplete) (checkFinal node env a)
      (fun _ d => At s.final s.incomplete d ∧ s.final ≠ .dir ∧ s.final ≠ .special)
      (Failed node env a s) (Stopped node env a s) := by
  unfold checkFinal
  refine Triple.bind (lstatAt_spec between_at) fun st => ?_
  have hbetween : Between env a s fun d => At s.final s.incomplete d ∧ st = d.slot.final :=
    between_at.mono fun _ => And.left
  have hst : ∀ d, At s.final s.incomplete d ∧ st = d.slot.final → st = s.final :=
    fun d hd => hd.2.trans (by rw [hd.1.slot])
  rcases st with _ | _ | _ | _ | _
  case dir => exact fail_spec hbetween fun d hd hs => hs.usable.final_dir (hst d hd).symm
  case special => exact fail_spec hbetween fun d hd hs => hs.usable.final_special (hst d hd).symm
  all_goals
    refine Triple.pure fun d hd => ⟨hd.1, ?_⟩
    rw [← hst d hd]
    simp

theorem checkPartial_spec :
    Triple (At s.final s.incomplete) (checkPartial node env a)
      (fun st d => At s.final s.incomplete d ∧ st = s.incomplete ∧ st ≠ .special)
      (Failed node env a s) (Stopped node env a s) := by
  unfold checkPartial
  refine Triple.bind (lstatAt_spec between_at) fun st => ?_
  have hbetween : Between env a s fun d => At s.final s.incomplete d ∧ st = d.slot.incomplete :=
    between_at.mono fun _ => And.left
  have hst : ∀ d, At s.final s.incomplete d ∧ st = d.slot.incomplete → st = s.incomplete :=
    fun d hd => hd.2.trans (by rw [hd.1.slot])
  rcases st with _ | _ | _ | _ | _
  case special =>
    refine fail_spec hbetween fun d hd hs => ?_
    rcases hs.usable.regular with h | ⟨_, h⟩ <;> simp [← hst d hd] at h
  all_goals exact Triple.pure fun d hd => ⟨hd.1, hst d hd, by simp⟩

theorem left_opened (h : Usable s) : Left env a s (.file s.incomplete.content) := by
  rcases h.regular with hi | ⟨bytes, hi⟩
  · refine .inr ⟨h, [], ?_, List.nil_prefix⟩
    rw [hi]
    rfl
  · left
    rw [hi]
    rfl

/-- The partial file is open. -/
def Opened (s : Slot) (d : Disk) : Prop :=
  At s.final (.file s.incomplete.content) d ∧ Usable s

theorem between_opened : Between env a s (Opened s) :=
  fun _ hd => ⟨_, hd.1, left_opened hd.2⟩

theorem createPartial_spec {st : Entry} (hst : st = s.incomplete) (hspecial : st ≠ .special)
    (hfinal : s.final ≠ .dir ∧ s.final ≠ .special) :
    Triple (At s.final s.incomplete) (createPartial env st) (fun _ => Opened s)
      (Failed node env a s) (Stopped node env a s) := by
  subst hst
  unfold createPartial
  cases h : env.fate .openPartial with
  | crash => exact crash_spec between_at fun _ _ => not_smooth h (by simp)
  | errno e =>
    refine Triple.ite (fun _ => ?_) fun _ => ?_
    all_goals exact fail_spec between_at fun _ _ => not_smooth h (by simp)
  | ok =>
    obtain ⟨f, i⟩ := s
    have hregular : ∀ d : Disk, At f i d → Usable ⟨f, i⟩ →
        Opened ⟨f, i⟩ (d.setIncomplete (.file i.content)) :=
      fun d hd hu => ⟨hd.setIncomplete, hu⟩
    cases i with
    | absent => exact Triple.change fun d hd => hregular d hd ⟨hfinal.1, hfinal.2, .inl rfl⟩
    | file bytes =>
      exact Triple.change fun d hd => hregular d hd ⟨hfinal.1, hfinal.2, .inr ⟨bytes, rfl⟩⟩
    | special => exact absurd rfl hspecial
    | dir =>
      refine fail_spec between_at fun _ _ hs => ?_
      rcases hs.usable.regular with h | ⟨_, h⟩ <;> cases h
    | link target =>
      refine fail_spec between_at fun _ _ hs => ?_
      rcases hs.usable.regular with h | ⟨_, h⟩ <;> cases h

theorem lockPartial_spec (hP : Between env a s P) :
    Triple P (lockPartial env) (fun _ => P) (Failed node env a s) (Stopped node env a s) := by
  unfold lockPartial
  cases h : env.fate .flock with
  | ok => exact Triple.pure fun _ => id
  | crash => exact crash_spec hP fun _ _ => not_smooth h (by simp)
  | errno e =>
    refine Triple.ite (fun _ => ?_) fun _ => ?_
    all_goals exact fail_spec hP fun _ _ => not_smooth h (by simp)

theorem openPartial_spec :
    Triple (At s.final s.incomplete) (openPartial node env a)
      (fun bytes d => Opened s d ∧ bytes = s.incomplete.content)
      (Failed node env a s) (Stopped node env a s) := by
  unfold openPartial
  refine Triple.bind checkFinal_spec fun _ => ?_
  refine Triple.intro fun d₀ h₀ => Triple.bind (checkPartial_spec.pre ?_) fun st => ?_
  · rintro d rfl
    exact h₀.1
  refine Triple.intro fun d₁ h₁ =>
    Triple.bind ((createPartial_spec h₁.2.1 h₁.2.2 h₀.2).pre ?_) fun _ => ?_
  · rintro d rfl
    exact h₁.1
  refine Triple.bind (lockPartial_spec between_opened) fun _ => ?_
  refine Triple.bind (sys_spec _ between_opened) fun _ => ?_
  exact Triple.pure fun d hd => ⟨hd, by rw [h₁.2.1]⟩

/-! ## Writing -/

/-- What a call resumes from. -/
def resumed (a : WriteArgs) (s : Slot) : List UInt8 :=
  s.incomplete.content.take a.offset

/-- The partial file holds what the call resumes from, and then `got` of the upload. -/
structure Writing (env : Env) (a : WriteArgs) (s : Slot) (got : List UInt8) (d : Disk) :
    Prop where
  holds : At s.final (.file (resumed a s ++ got)) d
  usable : Usable s
  offset : (resumed a s).length = a.offset
  data : got <+: env.data

variable {got : List UInt8}

theorem between_writing : Between env a s (Writing env a s got) :=
  fun _ hd => ⟨_, hd.holds, .inr ⟨hd.usable, _, rfl, (List.prefix_append_right_inj _).2 hd.data⟩⟩

theorem startAt_spec :
    Triple (Opened s) (startAt env a s.incomplete.content.length)
      (fun _ => Writing env a s []) (Failed node env a s) (Stopped node env a s) := by
  unfold startAt
  refine Triple.ite (fun hzero => ?_) fun hzero => Triple.ite (fun hne => ?_) fun heq => ?_
  · have hnil : resumed a s = [] := by rw [resumed, hzero, List.take_zero]
    refine Triple.bind (sys_spec _ between_opened) fun _ => Triple.change fun d hd => ?_
    refine ⟨?_, hd.2, by rw [hnil, hzero]; rfl, List.nil_prefix⟩
    rw [hnil]
    exact hd.1.setIncomplete
  · exact fail_spec between_opened fun _ _ hs => hne hs.resumes
  · have heq := not_not.1 heq
    have hall : resumed a s = s.incomplete.content := by rw [resumed, heq, List.take_length]
    refine Triple.pure fun d hd => ⟨?_, hd.2, by rw [hall, heq], List.nil_prefix⟩
    rw [hall, List.append_nil]
    exact hd.1

theorem checkFree_spec (hP : Between env a s P) :
    Triple P (checkFree env a) (fun _ => P) (Failed node env a s) (Stopped node env a s) := by
  unfold checkFree
  refine Triple.bind (sys_spec _ hP) fun _ => Triple.ite (fun hlt => ?_) fun _ => ?_
  · exact fail_spec hP fun _ _ hs => Int.not_lt.2 hs.free hlt
  · exact Triple.pure fun _ => id

theorem readAt_spec {i pos n : ℕ} (hP : Between env a s P)
    (bytes : List UInt8) (hbytes : ∀ d, P d → d.slot.incomplete.content = bytes) :
    Triple P (readAt env i pos n)
      (fun data d => P d ∧ data = ((bytes.drop pos).take n).take (env.readLimit i))
      (Failed node env a s) (Stopped node env a s) := by
  unfold readAt
  refine Triple.bind (sys_spec _ hP) fun _ => Triple.look fun d hd => ⟨hd, ?_⟩
  rw [hbytes d hd]

/-- The hasher is fed the partial file, in whatever pieces it is read. -/
theorem hashPrefix_spec {i pos : ℕ} {fed : List UInt8} (hpos : pos ≤ a.offset)
    (hfed : fed = (resumed a s).take pos) :
    Triple (Writing env a s []) (hashPrefix env a.offset i pos fed)
      (fun hasher d => Writing env a s [] d ∧ hasher = resumed a s)
      (Failed node env a s) (Stopped node env a s) := by
  induction hn : a.offset - pos using Nat.strongRecOn generalizing i pos fed with
  | ind n ih =>
  unfold hashPrefix
  refine Triple.ite (fun hlt => ?_) fun hge => ?_
  · refine Triple.ite (fun hcancelled => ?_) fun _ => ?_
    · refine fail_spec between_writing fun _ _ hs => ?_
      simp [hs.going i] at hcancelled
    refine Triple.bind (readAt_spec between_writing (resumed a s) fun d hd => ?_)
      fun data => ?_
    · rw [hd.holds.slot, List.append_nil]
      rfl
    refine Triple.intro fun d₀ h₀ => ?_
    obtain ⟨hd₀, hdata⟩ := h₀
    have hlen : data.length = min (env.readLimit i) (min (min (a.offset - pos) (4 * 2 ^ 20))
        (a.offset - pos)) := by
      rw [hdata, List.length_take, List.length_take, List.length_drop, hd₀.offset]
    refine Triple.ite (fun hzero => ?_) fun hpositive => ?_
    · refine Triple.pre (P := Writing env a s []) (fail_spec between_writing fun _ _ hs => ?_) ?_
      · have := hs.reads i
        omega
      · rintro d rfl
        exact hd₀
    · refine Triple.pre (P := Writing env a s []) (ih _ ?_ ?_ ?_ rfl) ?_
      · omega
      · omega
      · have htake : data = ((resumed a s).drop pos).take data.length := by
          rw [hlen, hdata, List.take_take]
          congr 1
          omega
        rw [hfed, htake, List.length_take, List.length_drop, hd₀.offset, Nat.min_eq_left (by omega)]
        exact (List.take_add).symm
      · rintro d rfl
        exact hd₀
  · refine Triple.pure fun d hd => ⟨hd, ?_⟩
    rw [hfed, List.take_of_length_le (by rw [hd.offset]; omega)]

/-- The hasher was fed `bytes`; there is one where a hash is to be checked. -/
def Fed (a : WriteArgs) (hasher : Option (List UInt8)) (bytes : List UInt8) : Prop :=
  (a.want.isSome → hasher.isSome) ∧ ∀ fed ∈ hasher, fed = bytes

theorem startHasher_spec :
    Triple (Writing env a s []) (startHasher env a)
      (fun hasher d => Writing env a s [] d ∧ Fed a hasher (resumed a s))
      (Failed node env a s) (Stopped node env a s) := by
  unfold startHasher
  refine Triple.ite (fun _ => ?_) fun hnone => ?_
  · refine Triple.bind (hashPrefix_spec (Nat.zero_le _) List.take_zero.symm) fun hasher => ?_
    exact Triple.pure fun d hd => ⟨hd.1, fun _ => rfl, fun fed hfed => by
      rw [← Option.mem_some.1 hfed, hd.2]⟩
  · refine Triple.pure fun d hd => ⟨hd, fun hsome => ?_, by simp⟩
    simp [hsome] at hnone

theorem Writing.append {d : Disk} {chunk : List UInt8} {pos : ℕ} (h : Writing env a s got d)
    (hpos : pos = a.offset + got.length) (hdata : got ++ chunk <+: env.data) :
    Writing env a s (got ++ chunk) (writeAt pos chunk d) := by
  refine ⟨?_, h.usable, h.offset, hdata⟩
  have hlen : pos = (resumed a s ++ got).length := by rw [List.length_append, h.offset, hpos]
  rw [writeAt, h.holds.slot]
  simp only [Entry.content]
  rw [hlen, List.take_length, List.drop_of_length_le (by omega), List.append_nil,
    ← List.append_assoc]
  exact h.holds.setIncomplete

theorem writeAll_spec {i pos : ℕ} {chunk : List UInt8} (hpos : pos = a.offset + got.length)
    (hdata : got ++ chunk <+: env.data) :
    Triple (Writing env a s got) (writeAll env i pos chunk)
      (fun _ => Writing env a s (got ++ chunk)) (Failed node env a s) (Stopped node env a s) := by
  have hpart : got ++ chunk.take (env.written i) <+: env.data :=
    ((List.prefix_append_right_inj _).2 (List.take_prefix _ _)).trans hdata
  unfold writeAll
  cases h : env.fate (.write i) with
  | ok => exact Triple.change fun d hd => hd.append hpos hdata
  | errno e =>
    refine Triple.bind (Q := fun _ => Writing env a s (got ++ chunk.take (env.written i)))
      (Triple.change fun d hd => hd.append hpos hpart) fun _ => ?_
    exact fail_spec between_writing fun _ _ => not_smooth h (by simp)
  | crash =>
    refine Triple.bind (Q := fun _ => Writing env a s (got ++ chunk.take (env.written i)))
      (Triple.change fun d hd => hd.append hpos hpart) fun _ => ?_
    exact crash_spec between_writing fun _ _ => not_smooth h (by simp)

/-- What was received is in the partial file, and was fed to the hasher. -/
structure GotAll (node : Node) (env : Env) (a : WriteArgs) (s : Slot) (r : Received)
    (got : List UInt8) (d : Disk) : Prop where
  writing : Writing env a s got d
  total : r.total = a.offset + got.length
  fed : Fed a r.hasher (resumed a s ++ got)
  smooth : Smooth node env a s → r.overflow = false ∧ got = env.data

theorem Fed.append {hasher : Option (List UInt8)} {bytes chunk : List UInt8}
    (h : Fed a hasher bytes) : Fed a (hasher.map (· ++ chunk)) (bytes ++ chunk) := by
  refine ⟨fun hw => by rw [Option.isSome_map]; exact h.1 hw, fun fed hfed => ?_⟩
  obtain ⟨fed', hfed', rfl⟩ := Option.map_eq_some_iff.1 hfed
  rw [h.2 fed' hfed']

theorem receive_spec : ∀ (events : List Event) (i total : ℕ) (hasher : Option (List UInt8))
    (got : List UInt8), (∀ e ∈ events, e ∈ env.upload) →
    env.data = got ++ events.flatMap Event.bytes → total = a.offset + got.length →
    Fed a hasher (resumed a s ++ got) →
    Triple (Writing env a s got) (receive env a events i total hasher)
      (fun r d => ∃ got, GotAll node env a s r got d)
      (Failed node env a s) (Stopped node env a s)
  | [], i, total, hasher, got, _, hdata, htotal, hfed => by
    refine Triple.pure fun d hd => ⟨got, hd, htotal, hfed, fun _ => ⟨rfl, ?_⟩⟩
    rw [hdata, List.flatMap_nil, List.append_nil]
  | .crash :: events, i, total, hasher, got, hmem, _, _, _ => by
    refine crash_spec between_writing fun _ _ hs => ?_
    obtain ⟨_, h, -⟩ := hs.chunks _ (hmem _ List.mem_cons_self)
    cases h
  | .failed e :: events, i, total, hasher, got, hmem, _, _, _ => by
    refine fail_spec between_writing fun _ _ hs => ?_
    obtain ⟨_, h, -⟩ := hs.chunks _ (hmem _ List.mem_cons_self)
    cases h
  | .chunk chunk :: events, i, total, hasher, got, hmem, hdata, htotal, hfed => by
    have hdata' : env.data = got ++ chunk ++ events.flatMap Event.bytes := by
      rw [hdata, List.flatMap_cons, List.append_assoc]
      rfl
    unfold receive
    refine Triple.ite (fun hempty => ?_) fun _ => Triple.ite (fun hover => ?_) fun _ => ?_
    · refine Triple.pure fun d hd => ⟨got, hd, htotal, hfed, fun hs => ?_⟩
      obtain ⟨_, h, hne⟩ := hs.chunks _ (hmem _ List.mem_cons_self)
      cases h
      exact absurd (List.isEmpty_iff.1 hempty) hne
    · refine Triple.pure fun d hd => ⟨got, hd, htotal, hfed, fun hs => ?_⟩
      have hlen := congrArg List.length hdata'
      simp only [List.length_append] at hlen
      have := hs.size
      have := hs.resumes
      omega
    · refine Triple.bind (writeAll_spec htotal ⟨_, hdata'.symm⟩) fun _ => ?_
      refine receive_spec events (i + 1) _ _ _ (fun e he => hmem e (List.mem_cons_of_mem _ he))
        hdata' ?_ ?_
      · rw [htotal, List.length_append, Nat.add_assoc]
      · rw [← List.append_assoc]
        exact hfed.append

/-! ## Finishing -/

theorem unlinkQuiet_spec :
    Triple (Writing env a s got) (unlinkQuiet env)
      (fun _ d => ∃ i, At s.final i d ∧ (Left env a s i ∨ i = .absent))
      (Failed node env a s) (Stopped node env a s) := by
  have hkept : ∀ d, Writing env a s got d → ∃ i, At s.final i d ∧ (Left env a s i ∨ i = .absent) :=
    fun d hd => (between_writing d hd).imp fun i hi => ⟨hi.1, .inl hi.2⟩
  unfold unlinkQuiet
  cases h : env.fate .unlink with
  | ok => exact Triple.change fun d hd => ⟨.absent, hd.holds.setIncomplete, .inr rfl⟩
  | errno e => exact Triple.pure hkept
  | crash => exact crash_spec between_writing fun _ _ => not_smooth h (by simp)

/-- Delete the partial file and refuse. -/
theorem mismatch_spec {code message : String}
    (hcode : (refusal code message).isMismatch = true) (hsmooth : ¬Smooth node env a s) :
    Triple (Writing env a s got) (do unlinkQuiet env; refuse (α := α) code message) Q
      (Failed node env a s) (Stopped node env a s) := by
  refine Triple.bind unlinkQuiet_spec fun _ => Triple.fail fun d hd => ⟨?_, hsmooth⟩
  obtain ⟨i, hat, hi⟩ := hd
  exact ⟨i, hat, hi.imp_right fun h => ⟨hcode, h⟩⟩

/-- The file a call puts in place. -/
structure Stored (node : Node) (env : Env) (a : WriteArgs) (s : Slot) (out : Written)
    (bytes : List UInt8) (d : Disk) : Prop where
  holds : At (.file bytes) .absent d
  length : bytes.length = a.size
  hash : ∀ w, a.want = some w → hexEncode (node.sha256 bytes) = w
  size : out.size = a.size
  digest : ∀ digest, out.sha256 = some digest → digest = hexEncode (node.sha256 bytes)
  whole : Smooth node env a s → bytes = s.incomplete.content ++ env.data

theorem finish_spec {r : Received} :
    Triple (GotAll node env a s r got) (finish node env a r)
      (fun out d => ∃ bytes, Stored node env a s out bytes d)
      (Failed node env a s) (Stopped node env a s) := by
  refine Triple.intro fun d₀ h₀ => ?_
  have hwriting : ∀ d, d = d₀ → Writing env a s got d := fun d hd => hd ▸ h₀.writing
  have hlen : (resumed a s ++ got).length = r.total := by
    rw [List.length_append, h₀.writing.offset, h₀.total]
  have hwhole : Smooth node env a s → resumed a s ++ got = s.incomplete.content ++ env.data := by
    intro hs
    rw [resumed, hs.resumes, List.take_length, (h₀.smooth hs).2]
  unfold finish
  refine Triple.ite (fun hsize => ?_) fun hsize => ?_
  · refine Triple.pre (mismatch_spec rfl fun hs => ?_) hwriting
    have hlen' := congrArg List.length (hwhole hs)
    rw [hlen, List.length_append, hs.size] at hlen'
    simp [(h₀.smooth hs).1, hlen'] at hsize
  have hsize' : r.total = a.size := by
    simp only [Bool.or_eq_true, decide_eq_true_eq, not_or, not_not] at hsize
    exact hsize.2
  refine Triple.bind ((sys_spec _ between_writing).pre hwriting) fun _ => ?_
  have hdigest : ∀ fed ∈ r.hasher, hexEncode (node.sha256 fed) =
      hexEncode (node.sha256 (resumed a s ++ got)) := fun fed hfed => by rw [h₀.fed.2 fed hfed]
  refine Triple.ite (fun hbad => mismatch_spec rfl fun hs => ?_) fun hgood => ?_
  · obtain ⟨hw, hne⟩ : a.want.isSome = true ∧
        (r.hasher.map fun fed => hexEncode (node.sha256 fed)) ≠ a.want := by simpa using hbad
    obtain ⟨fed, hfed⟩ := Option.isSome_iff_exists.1 (h₀.fed.1 hw)
    obtain ⟨w, hw⟩ := Option.isSome_iff_exists.1 hw
    refine hne ?_
    rw [hfed, Option.map_some, hdigest fed hfed, hwhole hs, hs.hash w hw, hw]
  · refine Triple.bind (sys_spec _ between_writing) fun _ => ?_
    refine Triple.bind (Q := fun _ => At (.file (resumed a s ++ got)) .absent)
      (Triple.change fun d hd => ?_) fun _ => Triple.pure fun d hd => ⟨_, hd, ?_, ?_, rfl, ?_, hwhole⟩
    · rw [At, hd.holds.slot]
    · rw [hlen, hsize']
    · intro w hw
      obtain ⟨fed, hfed⟩ := Option.isSome_iff_exists.1 (h₀.fed.1 (by simp [hw]))
      have heq : (r.hasher.map fun fed => hexEncode (node.sha256 fed)) = a.want := by
        by_contra hne
        exact hgood (by simp [hw, hw ▸ hne])
      rw [hw, hfed, Option.map_some, Option.some.injEq, hdigest fed hfed] at heq
      exact heq
    · intro digest hd'
      obtain ⟨fed, hfed, rfl⟩ := Option.map_eq_some_iff.1 hd'
      exact hdigest fed hfed

theorem upload_spec :
    Triple (At s.final s.incomplete) (upload node env a)
      (fun out d => ∃ bytes, Stored node env a s out bytes d)
      (Failed node env a s) (Stopped node env a s) := by
  unfold upload
  refine Triple.bind openPartial_spec fun bytes => Triple.intro fun d₀ h₀ => ?_
  obtain ⟨hopened, rfl⟩ := h₀
  refine Triple.bind (startAt_spec.pre fun d hd => hd ▸ hopened) fun _ => ?_
  refine Triple.bind (checkFree_spec between_writing) fun _ => ?_
  refine Triple.bind startHasher_spec fun hasher => Triple.intro fun d₁ h₁ => ?_
  refine Triple.bind ((sys_spec .seek between_writing).pre fun d hd => hd ▸ h₁.1) fun _ => ?_
  refine Triple.bind (receive_spec env.upload 0 a.offset hasher [] (fun _ => id) rfl rfl ?_)
    fun r => Triple.intro fun d₂ h₂ => ?_
  · rw [List.append_nil]
    exact h₁.2
  · obtain ⟨got, hgot⟩ := h₂
    exact finish_spec.pre fun d hd => hd ▸ hgot

/-! ## A call -/

/-- The disk after a call that ended with an error, or was stopped (`mismatch` is false then). -/
structure Ended (node : Node) (env : Env) (a : WriteArgs) (s : Slot) (mismatch : Bool)
    (d : Disk) : Prop where
  final : d.slot.final = s.final
  incomplete : Left env a s d.slot.incomplete ∨ mismatch = true ∧ d.slot.incomplete = .absent
  smooth : ¬Smooth node env a s

theorem openDirWrite_spec :
    Triple (fun d => d.slot = s) (openDirWrite node env) (fun _ => At s.final s.incomplete)
      (fun e => Ended node env a s e.isMismatch) (Ended node env a s false) := by
  have hended : ∀ (b : Bool) (d : Disk), ¬Smooth node env a s → d.slot = s →
      Ended node env a s b d :=
    fun b d hs hd => ⟨by rw [hd], .inl (.inl (by rw [hd])), hs⟩
  unfold openDirWrite
  cases hdenied : env.denied with
  | some e =>
    exact Triple.fail fun d hd => hended _ d (fun hs => by simp [hs.denied] at hdenied) hd
  | none =>
    cases h : env.fate .openDir with
    | ok => exact Triple.change fun d hd => by rw [At, hd]
    | crash => exact Triple.crash fun d hd => hended _ d (not_smooth h (by simp)) hd
    | errno e =>
      refine Triple.ite (fun _ => ?_) fun _ => ?_
      all_goals exact Triple.fail fun d hd => hended _ d (not_smooth h (by simp)) hd

theorem WriteError.isMismatch_answer {rel : String} {e : WriteError}
    (h : e.isMismatch = true) : (e.answer node rel).isMismatch = true := by
  cases e with
  | handler e => exact h
  | os e => cases h

theorem Failed.ended {rel : String} {e : WriteError} {d : Disk} (h : Failed node env a s e d) :
    Ended node env a s (e.answer node rel).isMismatch d := by
  obtain ⟨⟨i, hat, hi⟩, hs⟩ := h
  refine ⟨by rw [hat.slot], ?_, hs⟩
  rw [hat.slot]
  exact hi.imp_right fun h => ⟨WriteError.isMismatch_answer h.1, h.2⟩

theorem Stopped.ended {d : Disk} (h : Stopped node env a s d) : Ended node env a s false d := by
  obtain ⟨⟨i, hat, hi⟩, hs⟩ := h
  exact ⟨by rw [hat.slot], .inl (by rw [hat.slot]; exact hi), hs⟩

theorem Ended.release {mismatch : Bool} {d : Disk} (h : Ended node env a s mismatch d) :
    Ended node env a s mismatch { d with held := false } :=
  ⟨h.final, h.incomplete, h.smooth⟩

theorem Stored.release {out : Written} {bytes : List UInt8} {d : Disk}
    (h : Stored node env a s out bytes d) :
    Stored node env a s out bytes { d with held := false } :=
  ⟨h.holds, h.length, h.hash, h.size, h.digest, h.whole⟩

/-- A call on a path that no other call holds : it puts the file in place, or ends early. -/
theorem fsWriteWith_spec (env : Env) {args : Args} (ha : writeArgs node args = .ok a) :
    Triple (fun d => d.slot = s ∧ d.held = false) (fsWriteWith node env args)
      (fun out d => (∃ bytes, Stored node env a s out bytes d) ∧ d.held = false)
      (fun e d => Ended node env a s e.isMismatch d ∧ d.held = false)
      (Ended node env a s false) := by
  unfold fsWriteWith
  simp only [ha]
  refine Triple.bind (Q := fun held d => (d.slot = s ∧ d.held = false) ∧ held = false)
    (Triple.look fun d hd => ⟨hd, hd.2⟩) fun held => Triple.intro fun d₀ h₀ => ?_
  refine Triple.ite (fun hheld => absurd h₀.2 (by simp [hheld])) fun _ => ?_
  refine Triple.bind (Q := fun _ d => d.slot = s)
    (Triple.change fun d hd => by rw [hd]; exact h₀.1.1) fun _ => Triple.finallyChange ?_
  refine Triple.bind (Q := fun _ => At s.final s.incomplete) ?_ fun _ => Triple.mapError ?_
  · exact openDirWrite_spec.conseq (fun _ => id) (fun _ _ => id)
      (fun _ _ hd => ⟨hd.release, rfl⟩) fun _ => id
  · exact upload_spec.conseq (fun _ => id) (fun _ _ ⟨_, hd⟩ => ⟨⟨_, hd.release⟩, rfl⟩)
      (fun _ _ hd => ⟨hd.ended.release, rfl⟩) fun _ hd => hd.ended

/-! ## Arguments that pass the checks -/

/-- A path that fs.write takes : its root is writable, its segments are valid, and the name
leaves room for the partial file's. -/
structure PathOk (node : Node) (root : Value) (rel : String) (parts : List String) : Prop where
  writable : node.openRoot root true = .ok ()
  split : splitRelForWrite node (some rel) "path" = .ok parts
  fits : partialFits (parts.getLast?.getD "") = true

/-- The arguments of a call on a path. -/
def pathArgs (root : Value) (rel : String) (args : Args) : Args :=
  ("root", root) :: ("rel", .str rel) :: args

/-- What the arguments say when they pass. -/
structure Checked (node : Node) (args : Args) (a : WriteArgs) : Prop where
  writable : node.openRoot (arg args "root") true = .ok ()
  split : splitRelForWrite node (asStr (arg args "rel")) "path" = .ok a.parts
  size : pyInt (arg args "size") = some (a.size : ℤ)
  want : shaArg (arg args "sha256") = .ok a.want
  offset : intOrZero args "offset" = .ok (a.offset : ℤ)

theorem sizeArg_ok {v : Value} {n : { n : ℕ // n ≤ maxFile }} (h : sizeArg v = .ok n) :
    pyInt v = some (n.1 : ℤ) := by
  unfold sizeArg at h
  cases hv : pyInt v with
  | none =>
    rw [hv] at h
    cases h
  | some s =>
    rw [hv] at h
    dsimp only at h
    split_ifs at h with hs
    obtain rfl := Except.ok.inj h
    rw [Int.toNat_of_nonneg hs.1]

theorem writeArgs_checked {args : Args} (h : writeArgs node args = .ok a) :
    Checked node args a := by
  unfold writeArgs at h
  split at h
  · cases h
  rename_i hroot
  dsimp only at h
  split at h
  · cases h
  rename_i parts hparts
  split_ifs at h with hfits
  split at h
  · cases h
  rename_i size hsize
  split at h
  · cases h
  rename_i want hwant
  split at h
  · cases h
  rename_i offset hoffset
  split_ifs at h with hle
  obtain rfl := Except.ok.inj h
  exact ⟨hroot, hparts, sizeArg_ok hsize, hwant, by rw [hoffset, Int.toNat_of_nonneg hle.1]⟩

/-- The arguments of a call that resumes at `n`. -/
def resumeArgs (size : ℕ) (sha : Value) (n : ℕ) : Args :=
  [("size", .num (.int size)), ("sha256", sha), ("offset", .num (.int n))]

theorem pyInt_nat {n : ℕ} (h : n ≤ maxFile) : pyInt (.num (.int n)) = some (n : ℤ) := by
  rw [pyInt, if_pos]
  simp only [maxFile] at h
  rw [Bool.and_eq_true, decide_eq_true_eq, decide_eq_true_eq, maxI64]
  omega

theorem intOrZero_nat (args : Args) {k : String} {n : ℕ} (hn : n ≤ maxFile)
    (h : arg args k = .num (.int n)) : intOrZero args k = .ok (n : ℤ) := by
  rw [intOrZero, h]
  by_cases hzero : n = 0
  · rw [hzero]
    rfl
  · have htruthy : truthy (.num (.int n)) = true := by simp [truthy, hzero]
    simp only [htruthy, pyInt_nat hn, Bool.not_true, Bool.false_eq_true, if_false]

theorem sizeArg_nat {n : ℕ} (h : n ≤ maxFile) :
    sizeArg (.num (.int n)) = .ok (⟨n, h⟩ : { n : ℕ // n ≤ maxFile }) := by
  have hn : (0 : ℤ) ≤ n ∧ (n : ℤ) ≤ maxFile := ⟨by omega, h⟩
  simp only [sizeArg, pyInt_nat h, dif_pos hn, Int.toNat_natCast]

/-- The checks let a call through that resumes a file at some offset in it. -/
theorem writeArgs_resume {root : Value} {rel : String} {parts : List String}
    (hpath : PathOk node root rel parts) {size n : ℕ} {sha : Value} {want : Option String}
    (hsha : shaArg sha = .ok want) (hn : n ≤ size) (hsize : size ≤ maxFile) :
    ∃ a, writeArgs node (pathArgs root rel (resumeArgs size sha n)) = .ok a ∧
      a.size = size ∧ a.offset = n ∧ a.want = want := by
  have hoffset := intOrZero_nat (pathArgs root rel (resumeArgs size sha n))
    (k := "offset") (show (n : ℤ) ≤ maxFile by omega) rfl
  have hroot : arg (pathArgs root rel (resumeArgs size sha n)) "root" = root := rfl
  have hrel : arg (pathArgs root rel (resumeArgs size sha n)) "rel" = .str rel := rfl
  have hsizeArg : arg (pathArgs root rel (resumeArgs size sha n)) "size" = .num (.int size) := rfl
  have hshaArg : arg (pathArgs root rel (resumeArgs size sha n)) "sha256" = sha := rfl
  have hle : (0 : ℤ) ≤ n ∧ (n : ℤ) ≤ size := by omega
  refine ⟨⟨parts, rel, size, n, want, hsize, hn, hpath.fits⟩, ?_, rfl, rfl, rfl⟩
  unfold writeArgs
  simp only [hroot, hpath.writable, hrel, asStr, hpath.split, dif_pos hpath.fits, hsizeArg,
    sizeArg_nat hsize, hshaArg, hsha, hoffset, dif_pos hle, Int.toNat_natCast, Option.getD_some]

/-! ## Calls on one path -/

/-- A call of fs.write. -/
structure Call where
  args : Args
  env : Env

/-- A call, and the restart of a node that was stopped in it. -/
def call (node : Node) (root : Value) (rel : String) (c : Call) (d : Disk) :
    Exit HandlerError Written × Disk :=
  match fsWriteWith node c.env (pathArgs root rel c.args) d with
  | (.crashed, d) => (.crashed, { d with held := false })
  | r => r

/-- The disk after a sequence of calls. -/
def runCalls (node : Node) (root : Value) (rel : String) (calls : List Call) (d : Disk) : Disk :=
  calls.foldl (fun d c => (call node root rel c d).2) d

variable {root : Value} {rel : String} {parts : List String} {c : Call} {d : Disk}

/-- A call that passes the checks. -/
theorem call_spec (hheld : d.held = false)
    (ha : writeArgs node (pathArgs root rel c.args) = .ok a) :
    (call node root rel c d).2.held = false ∧
      ((∃ out bytes, (call node root rel c d).1 = .done out ∧
          Stored node c.env a d.slot out bytes (call node root rel c d).2) ∨
        (∃ e, (call node root rel c d).1 = .failed e ∧
          Ended node c.env a d.slot e.isMismatch (call node root rel c d).2) ∨
        ((call node root rel c d).1 = .crashed ∧
          Ended node c.env a d.slot false (call node root rel c d).2)) := by
  have hspec := fsWriteWith_spec c.env (s := d.slot) ha d ⟨rfl, hheld⟩
  unfold call
  rcases hr : fsWriteWith node c.env (pathArgs root rel c.args) d with ⟨out | e | _, t⟩
  · rw [hr] at hspec
    obtain ⟨⟨bytes, hstored⟩, hfree⟩ := hspec
    exact ⟨hfree, .inl ⟨out, bytes, rfl, hstored⟩⟩
  · rw [hr] at hspec
    exact ⟨hspec.2, .inr (.inl ⟨e, rfl, hspec.1⟩)⟩
  · rw [hr] at hspec
    exact ⟨rfl, .inr (.inr ⟨rfl, Ended.release hspec⟩)⟩

/-- A call that the checks refuse changes nothing. -/
theorem call_refused {e : HandlerError}
    (ha : writeArgs node (pathArgs root rel c.args) = .error e) :
    call node root rel c d = (.failed e, d) := by
  simp only [call, fsWriteWith, ha]
  rfl

theorem call_held (hheld : d.held = false) : (call node root rel c d).2.held = false := by
  cases ha : writeArgs node (pathArgs root rel c.args) with
  | ok a => exact (call_spec hheld ha).1
  | error e => rw [call_refused ha]; exact hheld

theorem runCalls_held : ∀ (calls : List Call) (d : Disk), d.held = false →
    (runCalls node root rel calls d).held = false
  | [], _, h => h
  | _ :: calls, _, h => runCalls_held calls _ (call_held h)

/-- The file is what the call asked for : of its size and, where one was given, its hash. -/
def Verified (node : Node) (args : Args) (f : Entry) : Prop :=
  ∃ bytes, f = .file bytes ∧ pyInt (arg args "size") = some (bytes.length : ℤ) ∧
    ∀ sha, arg args "sha256" = .str sha → hexEncode (node.sha256 bytes) = sha.toLower

/-- An upload can go on from the partial file : fs.stat reports its length, and with that
offset a call passes the checks and, let through by the environment, stores the file. -/
structure Resumable (node : Node) (root : Value) (rel : String) (parts : List String)
    (d : Disk) : Prop where
  reported : ∀ (env : StatEnv) (tree : List String → Place) items, tree parts = d.place →
    fsStat node env tree [("root", root), ("paths", .arr [.str rel])] = .ok items →
    ∃ item, items = [item] ∧ item.partialSize = d.slot.incomplete.content.length
  accepted : ∀ (size : ℕ) (sha : Value) (want : Option String), shaArg sha = .ok want →
    d.slot.incomplete.content.length ≤ size → size ≤ maxFile →
    ∃ a, writeArgs node
        (pathArgs root rel (resumeArgs size sha d.slot.incomplete.content.length)) = .ok a ∧
      a.size = size ∧ a.want = want ∧
      ∀ env, Friendly node env a d.slot →
        let next : Call := ⟨resumeArgs size sha d.slot.incomplete.content.length, env⟩
        ∃ out, (call node root rel next d).1 = .done out ∧
          (call node root rel next d).2.slot.final =
            .file (d.slot.incomplete.content ++ env.data)

theorem splitRel_of_write {what : String} {rel : Option String}
    (h : splitRelForWrite node rel what = .ok parts) : splitRel node rel what = .ok parts := by
  unfold splitRelForWrite at h
  split at h
  · cases h
  rename_i parts' hparts
  split_ifs at h
  rw [hparts, ← Except.ok.inj h]

theorem slotItem_partialSize {env : StatEnv} {v : Value} {item : StatItem}
    (hfits : partialFits (parts.getLast?.getD "") = true)
    (h : slotItem node env v parts s = .ok item) :
    item.partialSize = s.incomplete.content.length := by
  unfold slotItem at h
  dsimp only at h
  split at h
  · cases h
  rw [if_pos hfits] at h
  split at h
  · cases h
  rw [← Except.ok.inj h]

theorem statItem_partialSize {env : StatEnv} {tree : List String → Place} {item : StatItem}
    (hpath : PathOk node root rel parts) (htree : tree parts = d.place)
    (h : statItem node env tree (.str rel) = .ok item) :
    item.partialSize = d.slot.incomplete.content.length := by
  unfold statItem at h
  rw [asStr, splitRel_of_write hpath.split] at h
  dsimp only at h
  split at h
  · rename_i slot hopen
    unfold openDirRead at hopen
    dsimp only at hopen
    split at hopen
    · cases hopen
    · cases hopen
    split at hopen
    · rename_i slot' hslot
      have hd : d.slot = slot := by
        rw [Disk.slot, ← htree, hslot, ← Except.ok.inj hopen]
        rfl
      rw [hd]
      exact slotItem_partialSize hpath.fits h
    · cases hopen
  · rename_i e hopen
    unfold openDirRead at hopen
    dsimp only at hopen
    split at hopen
    · cases hopen
      split_ifs at h with hcode
      simp at hcode
    · cases hopen
      split_ifs at h with hcode
      simp at hcode
    split at hopen
    · cases hopen
    · rename_i hnone
      split_ifs at h
      rw [← Except.ok.inj h, Disk.slot, ← htree, hnone]
      rfl
  · cases h

theorem resumable (hpath : PathOk node root rel parts) (hheld : d.held = false)
    (husable : Usable d.slot) : Resumable node root rel parts d where
  reported env tree items htree h := by
    unfold fsStat at h
    split at h
    · cases h
    have hpaths : arg [("root", root), ("paths", .arr [.str rel])] "paths" = .arr [.str rel] := rfl
    rw [hpaths] at h
    simp only [List.take_succ_cons, List.take_nil, List.mapM_cons, List.mapM_nil] at h
    cases hitem : statItem node env tree (.str rel) with
    | error e => rw [hitem] at h; cases h
    | ok item =>
      rw [hitem] at h
      exact ⟨item, (Except.ok.inj h).symm, statItem_partialSize hpath htree hitem⟩
  accepted size sha want hsha hn hsize := by
    obtain ⟨a, ha, hsize, hoffset, hwant⟩ := writeArgs_resume hpath hsha hn hsize
    refine ⟨a, ha, hsize, hwant, fun env henv => ?_⟩
    have hsmooth : Smooth node env a d.slot := { henv with usable := husable }
    let next : Call := ⟨resumeArgs size sha d.slot.incomplete.content.length, env⟩
    rcases (call_spec (c := next) hheld ha).2 with
      ⟨out, bytes, hdone, hstored⟩ | ⟨e, -, hended⟩ | ⟨-, hended⟩
    · refine ⟨out, hdone, ?_⟩
      rw [hstored.holds.slot, hstored.whole hsmooth]
    · exact absurd hsmooth hended.smooth
    · exact absurd hsmooth hended.smooth

/-- The call ended without a result and without a mismatch : with another error, or stopped. -/
def Exit.Early {α : Type} (r : Exit HandlerError α) : Prop :=
  (∀ out, r ≠ .done out) ∧ ∀ e, r = .failed e → e.isMismatch = false

/-- What a call of fs.write does to its path. -/
structure Atomic (node : Node) (root : Value) (rel : String) (c : Call) (before : Disk) :
    Prop where
  unchanged : (∀ out, (call node root rel c before).1 ≠ .done out) →
    (call node root rel c before).2.slot.final = before.slot.final
  verified : ∀ out, (call node root rel c before).1 = .done out →
    Verified node c.args (call node root rel c before).2.slot.final
  resumable : Exit.Early (call node root rel c before).1 → ∀ parts, PathOk node root rel parts →
    Usable before.slot → Resumable node root rel parts (call node root rel c before).2
  kept : Exit.Early (call node root rel c before).1 →
    (call node root rel c before).2.slot.incomplete = before.slot.incomplete ∨
      ∃ bytes n, (call node root rel c before).2.slot.incomplete = .file bytes ∧
        bytes <+: before.slot.incomplete.content.take n ++ c.env.data
  refused : Exit.Early (call node root rel c before).1 →
    (¬∃ parts, PathOk node root rel parts) ∨ ¬Usable before.slot →
    (call node root rel c before).2.slot = before.slot

theorem Ended.left {mismatch : Bool} (h : Ended node env a s mismatch d) (hm : mismatch = false) :
    Left env a s d.slot.incomplete := by
  rcases h.incomplete with hleft | ⟨hm', -⟩
  · exact hleft
  · rw [hm] at hm'
    cases hm'

theorem Left.usable {i : Entry} (h : Left env a s i) (hs : Usable s) : Usable ⟨s.final, i⟩ := by
  refine ⟨hs.final_dir, hs.final_special, ?_⟩
  rcases h with rfl | ⟨-, bytes, rfl, -⟩
  · exact hs.regular
  · exact .inr ⟨bytes, rfl⟩

theorem Left.eq_of_not_usable {i : Entry} (h : Left env a s i) (hs : ¬Usable s) :
    i = s.incomplete :=
  h.resolve_right fun h => hs h.1

/-- An early end, of a call that passed the checks. -/
theorem call_early (hheld : d.held = false)
    (ha : writeArgs node (pathArgs root rel c.args) = .ok a)
    (hearly : Exit.Early (call node root rel c d).1) :
    (call node root rel c d).2.slot.final = d.slot.final ∧
      Left c.env a d.slot (call node root rel c d).2.slot.incomplete := by
  rcases (call_spec hheld ha).2 with ⟨out, _, hdone, -⟩ | ⟨e, hfailed, hended⟩ | ⟨-, hended⟩
  · exact absurd hdone (hearly.1 out)
  · exact ⟨hended.final, hended.left (hearly.2 e hfailed)⟩
  · exact ⟨hended.final, hended.left rfl⟩

/-- The path of a call that passes the checks. -/
theorem Checked.pathOk (h : Checked node (pathArgs root rel c.args) a) :
    PathOk node root rel a.parts :=
  ⟨h.writable, h.split, a.fits⟩

theorem call_atomic (hheld : d.held = false) : Atomic node root rel c d := by
  cases ha : writeArgs node (pathArgs root rel c.args) with
  | error e =>
    have hcall := call_refused (c := c) (d := d) ha
    constructor <;> rw [hcall]
    · exact fun _ => rfl
    · exact fun out hdone => by cases hdone
    · exact fun _ parts hpath husable => resumable hpath hheld husable
    · exact fun _ => .inl rfl
    · exact fun _ _ => rfl
  | ok a =>
    have hchecked := writeArgs_checked ha
    refine ⟨fun hout => ?_, fun out hdone => ?_, fun hearly parts hpath husable => ?_,
      fun hearly => ?_, fun hearly hrefused => ?_⟩
    · rcases (call_spec hheld ha).2 with ⟨out, _, hdone, -⟩ | ⟨_, -, hended⟩ | ⟨-, hended⟩
      · exact absurd hdone (hout out)
      · exact hended.final
      · exact hended.final
    · rcases (call_spec hheld ha).2 with ⟨_, bytes, -, hstored⟩ | ⟨e, hfailed, -⟩ | ⟨hcrashed, -⟩
      · refine ⟨bytes, by rw [hstored.holds.slot], ?_, fun sha hsha => ?_⟩
        · rw [hstored.length]
          exact hchecked.size
        · have hwant := hchecked.want
          have harg : arg (pathArgs root rel c.args) "sha256" = .str sha := hsha
          rw [harg, shaArg] at hwant
          split_ifs at hwant
          exact hstored.hash _ (Except.ok.inj hwant).symm
      · rw [hfailed] at hdone
        cases hdone
      · rw [hcrashed] at hdone
        cases hdone
    · obtain ⟨hfinal, hleft⟩ := call_early hheld ha hearly
      refine resumable hpath (call_held hheld) ?_
      have h := hleft.usable husable
      rwa [← hfinal] at h
    · obtain ⟨-, hleft | ⟨-, bytes, hbytes, hstarts⟩⟩ := call_early hheld ha hearly
      · exact .inl hleft
      · exact .inr ⟨bytes, a.offset, hbytes, hstarts⟩
    · obtain ⟨hfinal, hleft⟩ := call_early hheld ha hearly
      have husable : ¬Usable d.slot := hrefused.resolve_left fun h => h ⟨_, hchecked.pathOk⟩
      have hincomplete := hleft.eq_of_not_usable husable
      calc (call node root rel c d).2.slot
          = ⟨(call node root rel c d).2.slot.final, (call node root rel c d).2.slot.incomplete⟩ := rfl
        _ = ⟨d.slot.final, d.slot.incomplete⟩ := by rw [hfinal, hincomplete]

end EngineConsole.Files
