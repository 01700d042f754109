import EngineConsole.Keyed
import EngineConsole.Transition

/-!
# Votes in the arena

`ChatService::vote` of ec-hub (`chat.rs`) as one step for each statement it executes; calls
run at the same time, and any statement may fail. It reads the match, notes the winner, reads
the two ratings and writes both.

The check that a match has no vote and the note of the winner are two statements, and so are
the reads and the writes of a rating. So each vote is counted once in a run where no call
reads a match that another is about to note, or a rating that another is about to write, and
none fails once its winner is noted (`votes_counted`); else a match is counted twice, or a
rating is overwritten (`miscounted`).

Ratings are rationals, and the expected score is any function of two ratings.
-/

set_option linter.unusedSectionVars false

namespace EngineConsole

namespace Arena

/-! ## Tables -/

/-- The winners that the route accepts. -/
inductive Winner where
  | a
  | b
  | tie
deriving DecidableEq

/-- A row of `arena_matches`. -/
structure Match where
  id : String
  modelA : String
  modelB : String
  winner : Option Winner
deriving DecidableEq

/-- A row of `arena_ratings`. -/
structure Rating where
  model : String
  rating : ℚ
  games : ℕ
  wins : ℕ
  losses : ℕ
  ties : ℕ
deriving DecidableEq

/-- `ELO_K` -/
def eloK : ℚ := 32

/-- `ELO_START` -/
def eloStart : ℚ := 1000

/-- The two tables. -/
structure Db where
  arenaMatches : List Match
  arenaRatings : List Rating
deriving DecidableEq

/-- `rating` -/
def Db.rating (db : Db) (model : String) : ℚ :=
  ((Keyed.find Rating.model model db.arenaRatings).map Rating.rating).getD eloStart

/-- The `UPDATE` that notes the winner. -/
def Db.noteWinner (db : Db) (mid : String) (w : Winner) : Db :=
  { db with arenaMatches := Keyed.update Match.id mid (fun m => { m with winner := some w }) db.arenaMatches }

/-- One game with this score. -/
def oneGame (model : String) (new score : ℚ) : Rating where
  model := model
  rating := new
  games := 1
  wins := if score = 1 then 1 else 0
  losses := if score = 0 then 1 else 0
  ties := if score = 1 / 2 then 1 else 0

/-- `ON CONFLICT(model) DO UPDATE` -/
def Rating.merge (r g : Rating) : Rating :=
  { r with
    rating := g.rating
    games := r.games + 1
    wins := r.wins + g.wins
    losses := r.losses + g.losses
    ties := r.ties + g.ties }

/-- Count one game of a model. -/
def Db.upsert (db : Db) (g : Rating) : Db :=
  { db with
    arenaRatings :=
      match Keyed.find Rating.model g.model db.arenaRatings with
      | none => g :: db.arenaRatings
      | some _ => Keyed.update Rating.model g.model (·.merge g) db.arenaRatings }

/-- The score of the first model. -/
def Winner.score : Winner → ℚ
  | .a => 1
  | .b => 0
  | .tie => 1 / 2

/-! ## A call -/

/-- Where a call of `vote` is : the statement that comes next, and what it knows. -/
inductive Vote where
  /-- read the match -/
  | asked (mid : String) (w : Winner)
  /-- note the winner -/
  | checked (mid : String) (w : Winner) (a b : String)
  /-- read the rating of `a` -/
  | noted (mid : String) (w : Winner) (a b : String)
  /-- read the rating of `b` -/
  | readA (mid : String) (w : Winner) (a b : String) (ra : ℚ)
  /-- write the rating of `a` -/
  | rated (mid : String) (w : Winner) (a b : String) (na nb : ℚ)
  /-- write the rating of `b` -/
  | wroteA (mid : String) (w : Winner) (a b : String) (na nb : ℚ)
  /-- read the match for the answer -/
  | told (mid : String) (ratings : List (String × ℚ))
deriving DecidableEq

/-- What a call answers. -/
inductive Reply where
  | notFound (mid : String)
  | alreadyVoted
  | voted (m : Match) (ratings : List (String × ℚ))
  | internal
deriving DecidableEq

/-- The next statement of a call. -/
def exec (expected : ℚ → ℚ → ℚ) (db : Db) : Vote → Db × (Vote ⊕ Reply)
  | .asked mid w =>
    match Keyed.find Match.id mid db.arenaMatches with
    | none => (db, .inr (.notFound mid))
    | some m =>
      if m.winner.isSome then (db, .inr .alreadyVoted)
      else (db, .inl (.checked mid w m.modelA m.modelB))
  | .checked mid w a b => (db.noteWinner mid w, .inl (.noted mid w a b))
  | .noted mid w a b =>
    -- two instances of one model: a vote says nothing about relative strength
    if a = b then (db, .inl (.told mid [(a, db.rating a)]))
    else (db, .inl (.readA mid w a b (db.rating a)))
  | .readA mid w a b ra =>
    let rb := db.rating b
    let ea := expected ra rb
    let sa := w.score
    (db, .inl (.rated mid w a b (ra + eloK * (sa - ea)) (rb + eloK * ((1 - sa) - (1 - ea)))))
  | .rated mid w a b na nb =>
    (db.upsert (oneGame a na w.score), .inl (.wroteA mid w a b na nb))
  | .wroteA mid w a b na nb =>
    (db.upsert (oneGame b nb (1 - w.score)), .inl (.told mid [(a, na), (b, nb)]))
  | .told mid ratings =>
    match Keyed.find Match.id mid db.arenaMatches with
    | none => (db, .inr (.notFound mid))
    | some m => (db, .inr (.voted m ratings))

/-! ## Calls at the same time -/

/-- The tables, the calls in flight, what was answered, and the matches that were counted. -/
structure Hall where
  db : Db
  calls : List Vote
  replies : List Reply
  counted : List String
deriving DecidableEq

/-- What happens. -/
inductive Act where
  /-- a new match -/
  | play (id a b : String)
  | vote (mid : String) (w : Winner)
  /-- the next statement of a call -/
  | next (i : ℕ)
  /-- it fails -/
  | fail (i : ℕ)
deriving DecidableEq

/-- The match that the next statement counts in full. -/
def Vote.counts : Vote → List String
  | .wroteA mid .. => [mid]
  | _ => []

/-- A call goes on, or ends. -/
def Hall.settle (s : Hall) (i : ℕ) (r : Db × (Vote ⊕ Reply)) : Hall :=
  match r.2 with
  | .inl v => { s with db := r.1, calls := s.calls.set i v }
  | .inr reply => { s with db := r.1, calls := s.calls.eraseIdx i, replies := s.replies ++ [reply] }

/-- What happens, if it can. -/
def step (expected : ℚ → ℚ → ℚ) (s : Hall) : Act → Option Hall
  | .play id a b =>
    match Keyed.find Match.id id s.db.arenaMatches with
    | none => some { s with db.arenaMatches := ⟨id, a, b, none⟩ :: s.db.arenaMatches }
    | some _ => none
  | .vote mid w => some { s with calls := s.calls ++ [.asked mid w] }
  | .next i =>
    match s.calls[i]? with
    | none => none
    | some v =>
      some { s.settle i (exec expected s.db v) with counted := s.counted ++ v.counts }
  | .fail i =>
    match s.calls[i]? with
    | none => none
    | some _ => some (s.settle i (s.db, .inr .internal))

/-- Matches, and no vote. -/
def start (played : List Match) : Hall :=
  ⟨⟨played, []⟩, [], [], []⟩

/-! ## What a call holds and owes -/

/-- The matches that a call is about to note. -/
def Vote.notes : Vote → List String
  | .checked mid .. => [mid]
  | _ => []

/-- The models whose rating a call has read and is going to write. -/
def Vote.holds : Vote → List String
  | .readA _ _ a _ _ => [a]
  | .rated _ _ a b _ _ => [a, b]
  | .wroteA _ _ _ b _ _ => [b]
  | _ => []

/-- The models whose game a call still has to count. -/
def Vote.owes : Vote → List String
  | .noted _ _ a b => if a = b then [] else [a, b]
  | .readA _ _ a b _ => [a, b]
  | .rated _ _ a b _ _ => [a, b]
  | .wroteA _ _ _ b _ _ => [b]
  | _ => []

/-- The match that a call is going to count. -/
def Vote.open : Vote → List String
  | .noted mid _ a b => if a = b then [] else [mid]
  | .readA mid .. => [mid]
  | .rated mid .. => [mid]
  | .wroteA mid .. => [mid]
  | _ => []

/-- What the next statement of a call must find free : the match it reads, or the rating. -/
def Vote.free (calls : List Vote) : Vote → Prop
  | .asked mid _ => mid ∉ calls.flatMap Vote.notes
  | .noted _ _ a b => a ≠ b → a ∉ calls.flatMap Vote.holds
  | .readA _ _ _ b _ => b ∉ calls.flatMap Vote.holds
  | _ => True

instance (calls : List Vote) : (v : Vote) → Decidable (v.free calls)
  | .asked .. => inferInstanceAs (Decidable (_ ∉ _))
  | .noted .. => inferInstanceAs (Decidable (_ → _))
  | .readA .. => inferInstanceAs (Decidable (_ ∉ _))
  | .checked .. | .rated .. | .wroteA .. | .told .. => .isTrue trivial

/-- No call reads what another is about to write, and none fails that still has to count. -/
def Apart (s : Hall) : Act → Prop
  | .next i => ∀ v ∈ s.calls[i]?, v.free s.calls
  | .fail i => ∀ v ∈ s.calls[i]?, v.owes = []
  | _ => True

instance (s : Hall) : (a : Act) → Decidable (Apart s a)
  | .next _ => inferInstanceAs (Decidable (∀ v ∈ _, _))
  | .fail _ => inferInstanceAs (Decidable (∀ v ∈ _, _))
  | .play .. | .vote .. => .isTrue trivial

/-! ## The tables under their statements -/

/-- The vote of a match says which of two models is better. -/
def Match.decides (m : Match) : Bool :=
  m.winner.isSome && m.modelA ≠ m.modelB

/-- A match of two models that was voted on and involves `x`. -/
def Match.involves (x : String) (m : Match) : Bool :=
  m.decides && (m.modelA = x || m.modelB = x)

/-- How many matches of two models that involve `x` were voted on. -/
def Db.votedOf (db : Db) (x : String) : ℕ :=
  db.arenaMatches.countP (Match.involves x)

/-- How often a match of two models was voted on. -/
def Db.votedOn (db : Db) (mid : String) : ℕ :=
  db.arenaMatches.countP fun m => m.id = mid && m.decides

/-- `games` of a model. -/
def Db.games (db : Db) (x : String) : ℕ :=
  ((Keyed.find Rating.model x db.arenaRatings).map Rating.games).getD 0

/-- What the ratings hold beyond where they start. -/
def Db.surplus (db : Db) : ℚ :=
  (db.arenaRatings.map fun r => r.rating - eloStart).sum

section

variable {expected : ℚ → ℚ → ℚ} {db : Db} {g : Rating} {m : Match} {x mid : String} {w : Winner}
  {a b : String} {new score : ℚ}

/-- One entry that changes changes a count by one. -/
theorem countP_update {p : Match → Bool} {f : Match → Match}
    (hn : (Keyed.keys Match.id db.arenaMatches).Nodup)
    (hm : Keyed.find Match.id mid db.arenaMatches = some m) (hp : p m = false) :
    (Keyed.update Match.id mid f db.arenaMatches).countP p =
      db.arenaMatches.countP p + if p (f m) then 1 else 0 := by
  obtain ⟨l, r, hl, h₁, h₂⟩ := Keyed.split_of_find hn hm
  rw [hl, Keyed.update_split h₁ h₂ (Keyed.key_of_find hm)]
  simp only [List.countP_append, List.countP_cons, hp]
  simp only [Bool.false_eq_true, if_false]
  omega

theorem votedOf_noteWinner (hn : (Keyed.keys Match.id db.arenaMatches).Nodup)
    (hm : Keyed.find Match.id mid db.arenaMatches = some m) (hw : m.winner = none) :
    (db.noteWinner mid w).votedOf x =
      db.votedOf x + (Vote.noted mid w m.modelA m.modelB).owes.count x := by
  refine (countP_update hn hm (by simp [Match.involves, Match.decides, hw])).trans ?_
  simp only [Match.involves, Match.decides, Vote.owes, Option.isSome_some, Bool.true_and]
  by_cases hab : m.modelA = m.modelB
  · simp [hab, Db.votedOf]
  · by_cases ha : m.modelA = x
    · have hb : m.modelB ≠ x := fun hb => hab (ha.trans hb.symm)
      simp [ha, hb, Db.votedOf, ha ▸ hab]
    · by_cases hb : m.modelB = x <;> simp [hab, ha, hb, Db.votedOf]

theorem votedOn_noteWinner (hn : (Keyed.keys Match.id db.arenaMatches).Nodup)
    (hm : Keyed.find Match.id mid db.arenaMatches = some m) (hw : m.winner = none) :
    (db.noteWinner mid w).votedOn x =
      db.votedOn x + (Vote.noted mid w m.modelA m.modelB).open.count x := by
  refine (countP_update hn hm (by simp [Match.decides, hw])).trans ?_
  have hid : m.id = mid := Keyed.key_of_find hm
  simp only [Match.decides, Vote.open, Option.isSome_some, Bool.true_and, hid]
  by_cases hab : m.modelA = m.modelB
  · simp [hab, Db.votedOn, Match.decides]
  · by_cases hx : mid = x <;> simp [hab, hx, Db.votedOn, Match.decides]

/-- A rating and what it counts, after one game more. -/
theorem find_upsert :
    Keyed.find Rating.model x (db.upsert g).arenaRatings =
      if x = g.model then
        some (((Keyed.find Rating.model g.model db.arenaRatings).map (·.merge g)).getD g)
      else Keyed.find Rating.model x db.arenaRatings := by
  unfold Db.upsert
  split
  · next hnone =>
    rw [Keyed.find_cons, hnone]
    by_cases hx : x = g.model
    · simp [hx]
    · simp [hx, Ne.symm hx]
  · next r hr =>
    rw [Keyed.find_update (f := fun r : Rating => r.merge g) (fun _ => rfl), hr]
    by_cases hx : x = g.model
    · simp [hx, hr, Keyed.key_of_find hr]
    · cases hfind : Keyed.find Rating.model x db.arenaRatings with
      | none => simp [hx]
      | some r' => simp [hx, Keyed.key_of_find hfind]

theorem rating_upsert :
    (db.upsert g).rating x = if x = g.model then g.rating else db.rating x := by
  unfold Db.rating
  rw [find_upsert]
  split_ifs
  · cases Keyed.find Rating.model g.model db.arenaRatings <;> rfl
  · rfl

theorem games_upsert :
    (db.upsert (oneGame a new score)).games x = db.games x + [a].count x := by
  unfold Db.games
  rw [find_upsert]
  by_cases hx : x = a
  · subst hx
    have hmodel : (oneGame x new score).model = x := rfl
    rw [hmodel, if_pos rfl]
    cases Keyed.find Rating.model x db.arenaRatings <;> simp [Rating.merge, oneGame]
  · rw [if_neg (show x ≠ (oneGame a new score).model from hx)]
    simp [Ne.symm hx]

theorem models_upsert (hn : (Keyed.keys Rating.model db.arenaRatings).Nodup) :
    (Keyed.keys Rating.model (db.upsert g).arenaRatings).Nodup := by
  unfold Db.upsert
  split
  · next hnone => exact List.nodup_cons.2 ⟨Keyed.find_eq_none.1 hnone, hn⟩
  · rw [Keyed.keys_update (f := fun r : Rating => r.merge g) fun _ => rfl]
    exact hn

/-- What is written beyond what a rating was. -/
theorem surplus_upsert (hn : (Keyed.keys Rating.model db.arenaRatings).Nodup) :
    (db.upsert g).surplus = db.surplus + (g.rating - db.rating g.model) := by
  unfold Db.upsert Db.surplus Db.rating
  split
  · next hnone =>
    rw [hnone, List.map_cons, List.sum_cons, Option.map_none, Option.getD_none]
    ring
  · next r hr =>
    obtain ⟨l, l', hl, h₁, h₂⟩ := Keyed.split_of_find hn hr
    dsimp only
    rw [hr, hl, Keyed.update_split h₁ h₂ (Keyed.key_of_find hr)]
    simp only [List.map_append, List.map_cons, List.sum_append, List.sum_cons, Rating.merge,
      Option.map_some, Option.getD_some]
    ring

/-- Every game is won, lost or tied. -/
def Rating.Tally (r : Rating) : Prop :=
  r.wins + r.losses + r.ties = r.games

theorem oneGame_tally (h : score = 1 ∨ score = 0 ∨ score = 1 / 2) :
    (oneGame a new score).Tally := by
  rcases h with rfl | rfl | rfl <;> norm_num [Rating.Tally, oneGame]

theorem score_cases (w : Winner) : w.score = 1 ∨ w.score = 0 ∨ w.score = 1 / 2 := by
  cases w <;> simp [Winner.score]

theorem other_score_cases (w : Winner) :
    1 - w.score = 1 ∨ 1 - w.score = 0 ∨ 1 - w.score = 1 / 2 := by
  cases w <;> norm_num [Winner.score]

theorem tally_upsert (hg : g.Tally) (hone : g.games = 1) (h : ∀ r ∈ db.arenaRatings, r.Tally) :
    ∀ r ∈ (db.upsert g).arenaRatings, r.Tally := by
  unfold Db.upsert
  intro r hr
  split at hr
  · rcases List.mem_cons.1 hr with rfl | hr
    · exact hg
    · exact h r hr
  · obtain ⟨r', hr', rfl | ⟨-, rfl⟩⟩ := Keyed.mem_update hr
    · exact h _ hr'
    · have h' := h r' hr'
      unfold Rating.Tally Rating.merge at *
      dsimp only
      omega

/-! ## What is counted -/

/-- The votes that are noted, and that calls still have to count, are those that were cast. -/
structure Counts (s : Hall) : Prop where
  ids : (Keyed.keys Match.id s.db.arenaMatches).Nodup
  models : (Keyed.keys Rating.model s.db.arenaRatings).Nodup
  tally : ∀ r ∈ s.db.arenaRatings, r.Tally
  games : ∀ x, s.db.games x + (s.calls.flatMap Vote.owes).count x = s.db.votedOf x
  once : ∀ x, s.counted.count x + (s.calls.flatMap Vote.open).count x = s.db.votedOn x
  notes : (s.calls.flatMap Vote.notes).Nodup
  unvoted : ∀ mid w a b, .checked mid w a b ∈ s.calls →
    ∃ m, Keyed.find Match.id mid s.db.arenaMatches = some m ∧ m.winner = none ∧
      m.modelA = a ∧ m.modelB = b

/-- What a call wrote of one rating and has not yet written of the other. -/
def Vote.debt (rating : String → ℚ) : Vote → ℚ
  | .wroteA _ _ _ b _ nb => nb - rating b
  | _ => 0

/-- What a call has read is still there, and what it adds to one rating it takes from the
other. -/
def Vote.Fresh (rating : String → ℚ) : Vote → Prop
  | .readA _ _ a b ra => a ≠ b ∧ rating a = ra
  | .rated _ _ a b na nb => a ≠ b ∧ na - rating a + (nb - rating b) = 0
  | _ => True

/-- No rating is held by two calls, and what was not written yet makes up for what was. -/
structure Balanced (s : Hall) : Prop where
  models : (Keyed.keys Rating.model s.db.arenaRatings).Nodup
  holds : (s.calls.flatMap Vote.holds).Nodup
  fresh : ∀ v ∈ s.calls, v.Fresh s.db.rating
  balance : s.db.surplus + (s.calls.map (Vote.debt s.db.rating)).sum = 0

section

variable {l r new : List Vote} {v u : Vote} {replies replies' : List Reply}
  {counted counted' : List String} {db' : Db}

/-- A statement that counts nothing. -/
theorem Counts.same (h : Counts ⟨db, l ++ v :: r, replies, counted⟩) (new : List Vote)
    (hnotes : v.notes = []) (hnew : ∀ u ∈ new, u.notes = [])
    (howes : new.flatMap Vote.owes = v.owes) (hopen : new.flatMap Vote.open = v.open) :
    Counts ⟨db, l ++ (new ++ r), replies', counted⟩ := by
  have hnil : new.flatMap Vote.notes = [] := List.flatMap_eq_nil_iff.2 hnew
  refine ⟨h.ids, h.models, h.tally, fun x => ?_, fun x => ?_, ?_, fun mid w a b hmem => ?_⟩
  · have hgames := h.games x
    simp only [List.flatMap_append, List.flatMap_cons] at hgames ⊢
    rw [howes]
    exact hgames
  · have honce := h.once x
    simp only [List.flatMap_append, List.flatMap_cons] at honce ⊢
    rw [hopen]
    exact honce
  · have hn := h.notes
    simp only [List.flatMap_append, List.flatMap_cons, hnotes, hnil] at hn ⊢
    exact hn
  · refine h.unvoted mid w a b ?_
    simp only [List.mem_append, List.mem_cons] at hmem ⊢
    rcases hmem with hmem | hmem | hmem
    · exact .inl hmem
    · exact absurd (hnew _ hmem) (by simp [Vote.notes])
    · exact .inr (.inr hmem)

/-- A match that no call is about to note is read. -/
theorem Counts.check (h : Counts ⟨db, l ++ .asked mid w :: r, replies, counted⟩)
    (hfree : mid ∉ (l ++ .asked mid w :: r).flatMap Vote.notes)
    (hm : Keyed.find Match.id mid db.arenaMatches = some m) (hw : m.winner = none) :
    Counts ⟨db, l ++ .checked mid w m.modelA m.modelB :: r, replies', counted⟩ := by
  refine ⟨h.ids, h.models, h.tally, fun x => ?_, fun x => ?_, ?_, fun mid' w' a b hmem => ?_⟩
  · have hgames := h.games x
    simp only [List.flatMap_append, List.flatMap_cons, Vote.owes] at hgames ⊢
    exact hgames
  · have honce := h.once x
    simp only [List.flatMap_append, List.flatMap_cons, Vote.open] at honce ⊢
    exact honce
  · have hn := h.notes
    simp only [List.flatMap_append, List.flatMap_cons, Vote.notes, List.nil_append,
      List.mem_append] at hn hfree ⊢
    rw [List.singleton_append]
    exact (List.perm_middle.nodup_iff).2 (List.nodup_cons.2 ⟨by simpa using hfree, hn⟩)
  · simp only [List.mem_append, List.mem_cons, Vote.checked.injEq] at hmem
    rcases hmem with hmem | ⟨rfl, rfl, rfl, rfl⟩ | hmem
    · exact h.unvoted mid' w' a b (by simp [hmem])
    · exact ⟨m, hm, hw, rfl, rfl⟩
    · exact h.unvoted mid' w' a b (by simp [hmem])

/-- The winner is noted. -/
theorem Counts.note (h : Counts ⟨db, l ++ .checked mid w a b :: r, replies, counted⟩) :
    Counts ⟨db.noteWinner mid w, l ++ .noted mid w a b :: r, replies', counted⟩ := by
  obtain ⟨m, hm, hw, rfl, rfl⟩ := h.unvoted mid w a b (by simp)
  have hids : (Keyed.keys Match.id (db.noteWinner mid w).arenaMatches).Nodup := by
    rw [Db.noteWinner, Keyed.keys_update (f := fun m : Match => { m with winner := some w })
      fun _ => rfl]
    exact h.ids
  have hn := h.notes
  simp only [List.flatMap_append, List.flatMap_cons, Vote.notes, List.singleton_append] at hn
  obtain ⟨hmid, hn⟩ := List.nodup_cons.1 (List.perm_middle.nodup_iff.1 hn)
  refine ⟨hids, h.models, h.tally, fun x => ?_, fun x => ?_, ?_, fun mid' w' a b hmem => ?_⟩
  · have hgames := h.games x
    rw [votedOf_noteWinner h.ids hm hw]
    simp only [List.flatMap_append, List.flatMap_cons, List.count_append] at hgames ⊢
    have hsame : (db.noteWinner mid w).games x = db.games x := rfl
    have howes : (Vote.checked mid w m.modelA m.modelB).owes = [] := rfl
    rw [howes, List.count_nil] at hgames
    omega
  · have honce := h.once x
    rw [votedOn_noteWinner h.ids hm hw]
    simp only [List.flatMap_append, List.flatMap_cons, List.count_append] at honce ⊢
    have hopen : (Vote.checked mid w m.modelA m.modelB).open = [] := rfl
    rw [hopen, List.count_nil] at honce
    omega
  · simp only [List.flatMap_append, List.flatMap_cons, Vote.notes, List.nil_append]
    exact hn
  · have hother : .checked mid' w' a b ∈ l ++ r := by simpa using hmem
    have hne : mid' ≠ mid := by
      rintro rfl
      refine hmid ?_
      rw [← List.flatMap_append]
      exact List.mem_flatMap.2 ⟨_, hother, by simp [Vote.notes]⟩
    obtain ⟨m', hm', hw', ha, hb⟩ := h.unvoted mid' w' a b (by
      simp only [List.mem_append, List.mem_cons] at hother ⊢
      tauto)
    refine ⟨m', ?_, hw', ha, hb⟩
    rw [Db.noteWinner, Keyed.find_update (f := fun m : Match => { m with winner := some w })
      fun _ => rfl, hm', Option.map_some, if_neg (by rwa [Keyed.key_of_find hm'])]

/-- A game is counted. -/
theorem Counts.count (h : Counts ⟨db, l ++ v :: r, replies, counted⟩)
    (hscore : score = 1 ∨ score = 0 ∨ score = 1 / 2) (hv : v.notes = []) (hu : u.notes = [])
    (howes : v.owes = a :: u.owes) (hopen : v.open = v.counts ++ u.open) {na : ℚ} :
    Counts ⟨db.upsert (oneGame a na score), l ++ u :: r, replies', counted ++ v.counts⟩ := by
  refine ⟨h.ids, models_upsert h.models, tally_upsert (oneGame_tally hscore) rfl h.tally,
    fun x => ?_, fun x => ?_, ?_, fun mid w a b hmem => ?_⟩
  · have hgames := h.games x
    rw [games_upsert]
    simp only [List.flatMap_append, List.flatMap_cons, List.count_append, howes] at hgames ⊢
    have hsame : (db.upsert (oneGame a na score)).votedOf x = db.votedOf x := rfl
    rw [← List.singleton_append, List.count_append] at hgames
    omega
  · have honce := h.once x
    simp only [List.flatMap_append, List.flatMap_cons, List.count_append, hopen] at honce ⊢
    have hsame : (db.upsert (oneGame a na score)).votedOn x = db.votedOn x := rfl
    omega
  · have hn := h.notes
    simp only [List.flatMap_append, List.flatMap_cons, hv, hu] at hn ⊢
    exact hn
  · refine h.unvoted mid w a b ?_
    simp only [List.mem_append, List.mem_cons] at hmem ⊢
    rcases hmem with hmem | hmem | hmem
    · exact .inl hmem
    · exact absurd (hmem ▸ hu) (by simp [Vote.notes])
    · exact .inr (.inr hmem)

/-! ## What is written -/

theorem debt_of_holds {ρ : String → ℚ} (h : v.holds = []) : v.debt ρ = 0 ∧ v.Fresh ρ := by
  cases v with
  | asked | checked | noted | told => exact ⟨rfl, trivial⟩
  | readA | rated | wroteA => cases h

/-- What a call knows depends on the ratings that it holds, and on that of `b`. -/
theorem debt_congr {ρ ρ' : String → ℚ} (h : ∀ x ∈ v.holds, ρ' x = ρ x) :
    v.debt ρ' = v.debt ρ ∧ (v.Fresh ρ → v.Fresh ρ') := by
  cases v with
  | asked | checked | noted | told => exact ⟨rfl, id⟩
  | readA mid w a b ra =>
    refine ⟨rfl, fun hf => ⟨hf.1, ?_⟩⟩
    rw [h a (by simp [Vote.holds]), hf.2]
  | rated mid w a b na nb =>
    refine ⟨rfl, fun hf => ⟨hf.1, ?_⟩⟩
    rw [h a (by simp [Vote.holds]), h b (by simp [Vote.holds]), hf.2]
  | wroteA mid w a b na nb =>
    refine ⟨?_, id⟩
    show nb - ρ' b = nb - ρ b
    rw [h b (by simp [Vote.holds])]

/-- A statement that reads and writes no rating. -/
theorem Balanced.same (h : Balanced ⟨db, l ++ v :: r, replies, counted⟩) (new : List Vote)
    (hdb : db'.arenaRatings = db.arenaRatings) (hholds : v.holds = [])
    (hnew : ∀ u ∈ new, u.holds = []) :
    Balanced ⟨db', l ++ (new ++ r), replies', counted'⟩ := by
  have hrating : db'.rating = db.rating := by
    funext x
    rw [Db.rating, hdb, Db.rating]
  refine ⟨hdb ▸ h.models, ?_, fun u hu => ?_, ?_⟩
  · have hn := h.holds
    simp only [List.flatMap_append, List.flatMap_cons, hholds] at hn ⊢
    rw [List.flatMap_eq_nil_iff.2 hnew]
    exact hn
  · simp only [List.mem_append] at hu
    rw [hrating]
    rcases hu with hu | hu | hu
    · exact h.fresh u (by simp [hu])
    · exact (debt_of_holds (hnew u hu)).2
    · exact h.fresh u (by simp [hu])
  · have hb := h.balance
    have hzero : (new.map (Vote.debt db.rating)).sum = 0 := by
      refine List.sum_eq_zero fun q hq => ?_
      obtain ⟨u, hu, rfl⟩ := List.mem_map.1 hq
      exact (debt_of_holds (hnew u hu)).1
    rw [Db.surplus, hdb, ← Db.surplus, hrating]
    simp only [List.map_append, List.map_cons, List.sum_append, List.sum_cons,
      (debt_of_holds hholds).1] at hb ⊢
    rw [hzero]
    linarith

/-- A statement that writes no rating, and reads one that no other call holds. -/
theorem Balanced.read (h : Balanced ⟨db, l ++ v :: r, replies, counted⟩)
    (hfree : x ∉ (l ++ v :: r).flatMap Vote.holds) (hholds : u.holds.Perm (x :: v.holds))
    (hfresh : u.Fresh db.rating) (hv : v.debt db.rating = 0) (hu : u.debt db.rating = 0) :
    Balanced ⟨db, l ++ u :: r, replies', counted⟩ := by
  refine ⟨h.models, ?_, fun y hy => ?_, ?_⟩
  · have hperm : ((l ++ u :: r).flatMap Vote.holds).Perm (x :: (l ++ v :: r).flatMap Vote.holds) := by
      simp only [List.flatMap_append, List.flatMap_cons]
      refine ((hholds.append_right _).append_left _).trans ?_
      exact List.perm_middle
    exact hperm.nodup_iff.2 (List.nodup_cons.2 ⟨hfree, h.holds⟩)
  · simp only [List.mem_append, List.mem_cons] at hy
    rcases hy with hy | rfl | hy
    · exact h.fresh y (by simp [hy])
    · exact hfresh
    · exact h.fresh y (by simp [hy])
  · have hb := h.balance
    simp only [List.map_append, List.map_cons, List.sum_append, List.sum_cons, hv, hu] at hb ⊢
    exact hb

/-- A rating is written, which no other call holds. -/
theorem Balanced.write (h : Balanced ⟨db, l ++ v :: r, replies, counted⟩)
    (hholds : v.holds = g.model :: u.holds) (hfresh : u.Fresh (db.upsert g).rating)
    (hdebt : g.rating - db.rating g.model + u.debt (db.upsert g).rating = v.debt db.rating) :
    Balanced ⟨db.upsert g, l ++ u :: r, replies', counted'⟩ := by
  have hn := h.holds
  simp only [List.flatMap_append, List.flatMap_cons, hholds, List.cons_append] at hn
  obtain ⟨hnot, hn⟩ := List.nodup_cons.1 (List.perm_middle.nodup_iff.1 hn)
  have hother (y : Vote) (hy : y ∈ l ∨ y ∈ r) :
      y.debt (db.upsert g).rating = y.debt db.rating ∧ y.Fresh (db.upsert g).rating := by
    have hmem : y ∈ l ++ v :: r := by
      rcases hy with hy | hy <;> simp [hy]
    have hsame : ∀ z ∈ y.holds, (db.upsert g).rating z = db.rating z := by
      intro z hz
      rw [rating_upsert, if_neg]
      rintro rfl
      refine hnot ?_
      rcases hy with hy | hy
      · exact List.mem_append_left _ (List.mem_flatMap.2 ⟨y, hy, hz⟩)
      · exact List.mem_append_right _ (List.mem_append_right _ (List.mem_flatMap.2 ⟨y, hy, hz⟩))
    obtain ⟨hd, hf⟩ := debt_congr hsame
    exact ⟨hd, hf (h.fresh y hmem)⟩
  refine ⟨models_upsert h.models, ?_, fun y hy => ?_, ?_⟩
  · simpa only [List.flatMap_append, List.flatMap_cons] using hn
  · simp only [List.mem_append, List.mem_cons] at hy
    rcases hy with hy | rfl | hy
    · exact (hother y (.inl hy)).2
    · exact hfresh
    · exact (hother y (.inr hy)).2
  · have hb := h.balance
    have hl : l.map (Vote.debt (db.upsert g).rating) = l.map (Vote.debt db.rating) :=
      List.map_congr_left fun y hy => (hother y (.inl hy)).1
    have hr : r.map (Vote.debt (db.upsert g).rating) = r.map (Vote.debt db.rating) :=
      List.map_congr_left fun y hy => (hother y (.inr hy)).1
    rw [surplus_upsert h.models]
    simp only [List.map_append, List.map_cons, List.sum_append, List.sum_cons, hl, hr] at hb ⊢
    linarith

/-! ## Steps -/

/-- What holds between the statements of calls that keep apart. -/
def Inv (s : Hall) : Prop :=
  Counts s ∧ Balanced s

theorem Inv.same (h : Inv ⟨db, l ++ v :: r, replies, counted⟩) (new : List Vote)
    (hnotes : v.notes = []) (hnew : ∀ u ∈ new, u.notes = []) (howes : new.flatMap Vote.owes = v.owes)
    (hopen : new.flatMap Vote.open = v.open) (hholds : v.holds = [])
    (hnone : ∀ u ∈ new, u.holds = []) :
    Inv ⟨db, l ++ (new ++ r), replies', counted⟩ :=
  ⟨h.1.same new hnotes hnew howes hopen, h.2.same new rfl hholds hnone⟩

/-- A call that owes nothing holds nothing, and may end. -/
theorem Inv.leave (h : Inv ⟨db, l ++ v :: r, replies, counted⟩) (howes : v.owes = []) :
    Inv ⟨db, l ++ r, replies', counted⟩ := by
  have hrest : v.open = [] ∧ v.holds = [] := by
    cases v with
    | noted mid w a b =>
      have hab : a = b := by
        by_contra hab
        simp [Vote.owes, hab] at howes
      exact ⟨if_pos hab, rfl⟩
    | asked | checked | told => exact ⟨rfl, rfl⟩
    | readA | rated | wroteA => cases howes
  refine ⟨⟨h.1.ids, h.1.models, h.1.tally, fun x => ?_, fun x => ?_, ?_, fun mid w a b hm => ?_⟩,
    h.2.same [] rfl hrest.2 (by simp)⟩
  · simpa [howes] using h.1.games x
  · simpa [hrest.1] using h.1.once x
  · refine List.Nodup.sublist ?_ h.1.notes
    simp only [List.flatMap_append, List.flatMap_cons]
    exact (List.sublist_append_right _ _).append_left _
  · refine h.1.unvoted mid w a b ?_
    simp only [List.mem_append, List.mem_cons] at hm ⊢
    tauto

/-- The calls once the next statement of one is done. -/
def after (l r : List Vote) : Vote ⊕ Reply → List Vote
  | .inl u => l ++ u :: r
  | .inr _ => l ++ r

/-- What a statement keeps. -/
theorem Inv.next (h : Inv ⟨db, l ++ v :: r, replies, counted⟩) (expected : ℚ → ℚ → ℚ)
    (replies' : List Reply) (hfree : v.free (l ++ v :: r)) :
    Inv ⟨(exec expected db v).1, after l r (exec expected db v).2, replies',
      counted ++ v.counts⟩ := by
  cases v with
  | asked mid w =>
    show Inv ⟨_, _, _, counted ++ []⟩
    rw [List.append_nil, exec]
    split
    · exact h.leave rfl
    · next m hm =>
      split_ifs with hw
      · exact h.leave rfl
      · exact ⟨h.1.check hfree hm (by simpa using hw),
          h.2.same [_] rfl rfl (by simp [Vote.holds])⟩
  | checked mid w a b =>
    show Inv ⟨_, _, _, counted ++ []⟩
    rw [List.append_nil]
    exact ⟨h.1.note, h.2.same [.noted mid w a b] rfl rfl (by simp [Vote.holds])⟩
  | noted mid w a b =>
    show Inv ⟨_, _, _, counted ++ []⟩
    rw [List.append_nil, exec]
    split_ifs with hab
    · exact h.same [.told mid _] rfl (by simp [Vote.notes]) (by simp [Vote.owes, hab])
        (by simp [Vote.open, hab]) rfl (by simp [Vote.holds])
    · refine ⟨h.1.same [.readA mid w a b _] rfl (by simp [Vote.notes])
        (by simp [Vote.owes, hab]) (by simp [Vote.open, hab]), ?_⟩
      exact h.2.read (u := .readA mid w a b (db.rating a)) (hfree hab) (List.Perm.refl _)
        ⟨hab, rfl⟩ rfl rfl
  | readA mid w a b ra =>
    show Inv ⟨_, _, _, counted ++ []⟩
    rw [List.append_nil]
    obtain ⟨hab, hra⟩ := h.2.fresh (.readA mid w a b ra) (by simp)
    refine ⟨h.1.same [.rated mid w a b _ _] rfl (by simp [Vote.notes])
      (by simp [Vote.owes]) (by simp [Vote.open]), ?_⟩
    refine h.2.read (u := .rated mid w a b _ _) hfree (List.Perm.swap _ _ _) ⟨hab, ?_⟩ rfl rfl
    rw [hra]
    ring
  | rated mid w a b na nb =>
    obtain ⟨hab, hsum⟩ := h.2.fresh (.rated mid w a b na nb) (by simp)
    refine ⟨h.1.count (u := .wroteA mid w a b na nb) (score_cases w) rfl rfl rfl rfl,
      h.2.write (u := .wroteA mid w a b na nb) rfl trivial ?_⟩
    show na - db.rating a + (nb - (db.upsert (oneGame a na w.score)).rating b) = 0
    rw [rating_upsert, if_neg (show b ≠ (oneGame a na w.score).model from Ne.symm hab)]
    exact hsum
  | wroteA mid w a b na nb =>
    refine ⟨h.1.count (u := .told mid _) (other_score_cases w) rfl rfl rfl rfl,
      h.2.write (u := .told mid _) rfl trivial ?_⟩
    exact add_zero _
  | told mid ratings =>
    show Inv ⟨_, _, _, counted ++ []⟩
    rw [List.append_nil, exec]
    split
    · exact h.leave rfl
    · exact h.leave rfl

/-- A call in its place among the others. -/
theorem split_of_getElem? {calls : List Vote} {i : ℕ} (h : calls[i]? = some v) :
    ∃ l r, calls = l ++ v :: r ∧ (∀ u, calls.set i u = l ++ u :: r) ∧
      calls.eraseIdx i = l ++ r := by
  obtain ⟨hi, rfl⟩ := List.getElem?_eq_some_iff.1 h
  refine ⟨calls.take i, calls.drop (i + 1), ?_, fun u => ?_, List.eraseIdx_eq_take_drop_succ ..⟩
  · rw [List.getElem_cons_drop, List.take_append_drop]
  · rw [List.set_eq_take_append_cons_drop, if_pos hi]

/-- A new match has no vote. -/
theorem Inv.play {s : Hall} (h : Inv s)
    (hnew : Keyed.find Match.id mid s.db.arenaMatches = none) :
    Inv { s with db.arenaMatches := ⟨mid, a, b, none⟩ :: s.db.arenaMatches } := by
  refine ⟨⟨List.nodup_cons.2 ⟨Keyed.find_eq_none.1 hnew, h.1.ids⟩, h.1.models, h.1.tally,
    fun x => ?_, fun x => ?_, h.1.notes, fun mid' w a' b' hmem => ?_⟩,
    h.2.models, h.2.holds, h.2.fresh, h.2.balance⟩
  · exact (h.1.games x).trans (by simp [Db.votedOf, Match.involves, Match.decides])
  · exact (h.1.once x).trans (by simp [Db.votedOn, Match.decides])
  · obtain ⟨m, hm, hw⟩ := h.1.unvoted mid' w a' b' hmem
    refine ⟨m, ?_, hw⟩
    have hne : mid ≠ mid' := by
      rintro rfl
      rw [hnew] at hm
      cases hm
    rw [Keyed.find_cons, if_neg hne]
    exact hm

/-- A call that starts holds and owes nothing. -/
theorem Inv.vote {s : Hall} (h : Inv s) : Inv { s with calls := s.calls ++ [.asked mid w] } := by
  refine ⟨⟨h.1.ids, h.1.models, h.1.tally, fun x => ?_, fun x => ?_, ?_, fun mid' w' a b hm => ?_⟩,
    h.2.models, ?_, fun v hv => ?_, ?_⟩
  · simpa [Vote.owes] using h.1.games x
  · simpa [Vote.open] using h.1.once x
  · simpa [Vote.notes] using h.1.notes
  · exact h.1.unvoted mid' w' a b (by simpa using hm)
  · simpa [Vote.holds] using h.2.holds
  · rcases List.mem_append.1 hv with hv | hv
    · exact h.2.fresh v hv
    · rw [List.mem_singleton.1 hv]
      trivial
  · simpa [Vote.debt] using h.2.balance

theorem Inv.step {s t : Hall} {act : Act} (h : Inv s) (hok : Apart s act)
    (hstep : step expected s act = some t) : Inv t := by
  cases act with
  | play mid a b =>
    simp only [Arena.step] at hstep
    split at hstep
    · next hnew =>
      obtain rfl := Option.some.inj hstep
      exact h.play hnew
    · cases hstep
  | vote mid w =>
    obtain rfl := Option.some.inj hstep
    exact h.vote
  | next i =>
    simp only [Arena.step] at hstep
    split at hstep
    · cases hstep
    · next v hv =>
      obtain rfl := Option.some.inj hstep
      have hfree := hok v hv
      obtain ⟨l, r, hl, hset, herase⟩ := split_of_getElem? hv
      obtain ⟨db, calls, replies, counted⟩ := s
      dsimp only at hl hset herase h hfree
      subst hl
      have hnext (replies' : List Reply) := h.next expected replies' hfree
      unfold Hall.settle
      split
      · next u hu =>
        rw [hu] at hnext
        dsimp only
        rw [hset]
        exact hnext _
      · next reply hr =>
        rw [hr] at hnext
        dsimp only
        rw [herase]
        exact hnext _
  | fail i =>
    simp only [Arena.step] at hstep
    split at hstep
    · cases hstep
    · next v hv =>
      obtain rfl := Option.some.inj hstep
      obtain ⟨l, r, hl, -, herase⟩ := split_of_getElem? hv
      obtain ⟨db, calls, replies, counted⟩ := s
      dsimp only at hl herase h
      subst hl
      show Inv ⟨db, (l ++ v :: r).eraseIdx i, _, counted⟩
      rw [herase]
      exact h.leave (hok v hv)

/-- No vote was cast. -/
theorem Inv.start {played : List Match} (hids : (Keyed.keys Match.id played).Nodup)
    (hnone : ∀ m ∈ played, m.winner = none) : Inv (Arena.start played) := by
  refine ⟨⟨hids, List.nodup_nil, by simp [Arena.start], fun x => ?_, fun x => ?_, List.nodup_nil,
    by simp [Arena.start]⟩, List.nodup_nil, List.nodup_nil, by simp [Arena.start],
    by simp [Arena.start, Db.surplus]⟩
  · refine Eq.symm (List.countP_eq_zero.2 fun m hm => ?_)
    simp [Match.involves, Match.decides, hnone m hm]
  · refine Eq.symm (List.countP_eq_zero.2 fun m hm => ?_)
    simp [Match.decides, hnone m hm]

/-- A match is in the table once. -/
theorem votedOn_le (h : (Keyed.keys Match.id db.arenaMatches).Nodup) (mid : String) :
    db.votedOn mid ≤ 1 := by
  calc db.votedOn mid ≤ db.arenaMatches.countP fun m => m.id = mid :=
        List.countP_mono_left fun m _ hm => by
          rw [Bool.and_eq_true] at hm
          exact hm.1
    _ = (Keyed.keys Match.id db.arenaMatches).count mid := by
        rw [List.count, List.countP_map]
        exact List.countP_congr fun m _ => by simp
    _ ≤ 1 := List.nodup_iff_count_le_one.1 h mid

/-- The ratings are as far above where they start as below. -/
theorem surplus_eq (db : Db) :
    db.surplus = (db.arenaRatings.map Rating.rating).sum - eloStart * db.arenaRatings.length := by
  unfold Db.surplus
  induction db.arenaRatings with
  | nil => simp
  | cons r l ih =>
    simp only [List.map_cons, List.sum_cons, List.length_cons, ih]
    push_cast
    ring

/-- Every vote is counted once, every game is won, lost or tied, and no rating is lost. -/
structure CountedOnce (s : Hall) : Prop where
  once : ∀ mid, s.counted.count mid ≤ 1
  games : ∀ x, s.db.games x = s.db.votedOf x
  tally : ∀ r ∈ s.db.arenaRatings, r.wins + r.losses + r.ties = r.games
  sum : (s.db.arenaRatings.map Rating.rating).sum = eloStart * s.db.arenaRatings.length

/-- Votes are counted once when calls keep apart : none reads a match that another has found
without a vote and not yet noted, or a rating that another has read and not yet written, and
none fails between the note of its winner and its last write. -/
theorem votes_counted {played : List Match} {s : Hall}
    (hids : (Keyed.keys Match.id played).Nodup) (hnone : ∀ m ∈ played, m.winner = none)
    (hrun : ReachBy (step expected) Apart (start played) s) (hdone : s.calls = []) :
    CountedOnce s := by
  have hinv : Inv s :=
    hrun.invariant Inv (fun s act t hok h hstep => h.step hok hstep) (Inv.start hids hnone)
  have hbalance := hinv.2.balance
  rw [hdone, surplus_eq, List.map_nil, List.sum_nil, add_zero] at hbalance
  refine ⟨fun mid => ?_, fun x => ?_, hinv.1.tally, sub_eq_zero.1 hbalance⟩
  · have honce := hinv.1.once mid
    rw [hdone, List.flatMap_nil, List.count_nil, add_zero] at honce
    exact honce ▸ votedOn_le hinv.1.ids mid
  · have hgames := hinv.1.games x
    rwa [hdone, List.flatMap_nil, List.count_nil, add_zero] at hgames

end

end

/-! ## Runs -/

/-- Two matches that share a model. -/
def twoMatches : List Match :=
  [⟨"m", "x", "y", none⟩, ⟨"n", "x", "z", none⟩]

/-- Every statement of the first call in flight. -/
def whole : List Act :=
  List.replicate 7 (.next 0)

/-- A vote on each, one after the other. -/
theorem votes_counted_two :
    ∃ s, ReachBy (step fun _ _ => 1 / 2) Apart (start twoMatches) s ∧ s.db.votedOf "x" = 2 ∧
      CountedOnce s := by
  have hrun : (runBy (step fun _ _ => 1 / 2) Apart (start twoMatches)
      ([.vote "m" .a] ++ whole ++ [.vote "n" .tie] ++ whole)).any (fun s =>
        s.calls = [] ∧ s.db.votedOf "x" = 2) = true := by decide +kernel
  obtain ⟨s, hrun, hs⟩ := (Option.any_eq_true _ _).1 hrun
  obtain ⟨hdone, hvoted⟩ := of_decide_eq_true hs
  have hreach := ReachBy.of_runBy hrun
  exact ⟨s, hreach, hvoted, votes_counted (by decide) (by decide) hreach hdone⟩

/-- Two votes on one match are both counted; of two votes at the same time that share a model,
one rating is lost; and a vote that fails once its winner is noted is not counted. -/
theorem miscounted :
    ¬(∀ s, Reach (step fun _ _ => 1 / 2) (start twoMatches) s → s.calls = [] →
      ∀ mid, s.counted.count mid ≤ 1) ∧
    ¬(∀ s, Reach (step fun _ _ => 1 / 2) (start twoMatches) s → s.calls = [] →
      (s.db.arenaRatings.map Rating.rating).sum = eloStart * s.db.arenaRatings.length) ∧
    ¬(∀ s, Reach (step fun _ _ => 1 / 2) (start twoMatches) s → s.calls = [] →
      ∀ x, s.db.games x = s.db.votedOf x) := by
  refine ⟨fun hall => ?_, fun hall => ?_, fun hall => ?_⟩
  · have hrun : (runActs (step fun _ _ => 1 / 2) (start twoMatches)
        ([.vote "m" .a, .vote "m" .a, .next 0, .next 1] ++ List.replicate 12 (.next 0))).any
          (fun s => s.calls = [] ∧ s.counted.count "m" = 2) = true := by decide +kernel
    obtain ⟨s, hrun, hs⟩ := (Option.any_eq_true _ _).1 hrun
    obtain ⟨hdone, htwo⟩ := of_decide_eq_true hs
    have honce := hall s (Reach.of_runActs hrun) hdone "m"
    omega
  · have hrun : (runActs (step fun _ _ => 1 / 2) (start twoMatches)
        ([.vote "m" .a, .vote "n" .a, .next 0, .next 0, .next 0, .next 1, .next 1, .next 1] ++
          List.replicate 8 (.next 0))).any
          (fun s => s.calls = [] ∧ (s.db.arenaRatings.map Rating.rating).sum ≠
            eloStart * s.db.arenaRatings.length) = true := by decide +kernel
    obtain ⟨s, hrun, hs⟩ := (Option.any_eq_true _ _).1 hrun
    obtain ⟨hdone, hlost⟩ := of_decide_eq_true hs
    exact hlost (hall s (Reach.of_runActs hrun) hdone)
  · have hrun : (runActs (step fun _ _ => 1 / 2) (start twoMatches)
        [.vote "m" .a, .next 0, .next 0, .fail 0]).any
          (fun s => s.calls = [] ∧ s.db.games "x" ≠ s.db.votedOf "x") = true := by decide +kernel
    obtain ⟨s, hrun, hs⟩ := (Option.any_eq_true _ _).1 hrun
    obtain ⟨hdone, hmissed⟩ := of_decide_eq_true hs
    exact hmissed (hall s (Reach.of_runActs hrun) hdone "x")

end Arena

end EngineConsole
