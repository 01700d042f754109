import EngineConsole.Keyed
import EngineConsole.Regex

/-!
# Patterns that repeat a group

Anchored expressions built from those of `Regex` by sequence, options, repetition of a whole
expression and named groups. `run` tries a repetition before it goes on, and a round of it
takes at least one character.

A match splits the text into words of the languages of its parts, and a group that holds no
other notes the word of its part (`run_some`); it leaves the groups of other names as they are
(`run_find`). A word of the language matches (`captures_of_mem`).
-/

set_option linter.unusedSectionVars false

namespace EngineConsole

namespace Regex

variable {α β : Type*}

/-! ## Repetition of a class, counted -/

/-- At most so many of a class. -/
def atMost (p : α → Bool) : ℕ → Regex α
  | 0 => eps
  | n + 1 => opt (cat (cls p) (atMost p n))

/-- Exactly so many of a class. -/
def exactly (p : α → Bool) : ℕ → Regex α
  | 0 => eps
  | n + 1 => cat (cls p) (exactly p n)

theorem mem_atMost {p : α → Bool} : ∀ {n : ℕ} {w : List α},
    w ∈ lang (atMost p n) ↔ w.length ≤ n ∧ ∀ c ∈ w, p c = true
  | 0, w => by
    rw [atMost, mem_eps, Nat.le_zero, List.length_eq_zero_iff]
    exact ⟨fun h => ⟨h, by simp [h]⟩, fun h => h.1⟩
  | n + 1, w => by
    rw [atMost, mem_opt, mem_cat]
    constructor
    · rintro (⟨x, hx, y, hy, rfl⟩ | rfl)
      · obtain ⟨c, hc, rfl⟩ := mem_cls.1 hx
        obtain ⟨hlen, hall⟩ := mem_atMost.1 hy
        refine ⟨by simpa using hlen, fun d hd => ?_⟩
        rcases List.mem_cons.1 hd with rfl | hd
        exacts [hc, hall d hd]
      · simp
    · rintro ⟨hlen, hall⟩
      cases w with
      | nil => exact .inr rfl
      | cons c w =>
        refine .inl ⟨[c], mem_cls.2 ⟨c, hall c (by simp), rfl⟩, w, mem_atMost.2 ⟨?_, ?_⟩, rfl⟩
        · simpa using hlen
        · exact fun d hd => hall d (List.mem_cons_of_mem c hd)

theorem mem_exactly {p : α → Bool} : ∀ {n : ℕ} {w : List α},
    w ∈ lang (exactly p n) ↔ w.length = n ∧ ∀ c ∈ w, p c = true
  | 0, w => by
    rw [exactly, mem_eps, List.length_eq_zero_iff]
    exact ⟨fun h => ⟨h, by simp [h]⟩, fun h => h.1⟩
  | n + 1, w => by
    rw [exactly, mem_cat]
    constructor
    · rintro ⟨x, hx, y, hy, rfl⟩
      obtain ⟨c, hc, rfl⟩ := mem_cls.1 hx
      obtain ⟨hlen, hall⟩ := mem_exactly.1 hy
      refine ⟨by simpa using hlen, fun d hd => ?_⟩
      rcases List.mem_cons.1 hd with rfl | hd
      exacts [hc, hall d hd]
    · rintro ⟨hlen, hall⟩
      cases w with
      | nil => simp at hlen
      | cons c w =>
        refine ⟨[c], mem_cls.2 ⟨c, hall c (by simp), rfl⟩, w, mem_exactly.2 ⟨?_, ?_⟩, rfl⟩
        · simpa using hlen
        · exact fun d hd => hall d (List.mem_cons_of_mem c hd)

/-! ## The characters of a word -/

/-- Every character that an expression takes has a property. -/
def Over (P : α → Prop) : Regex α → Prop
  | eps => True
  | cls p | many p => ∀ c, p c = true → P c
  | cat a b | alt a b => a.Over P ∧ b.Over P
  | opt a | group _ a => a.Over P

theorem Over.of_mem {P : α → Prop} : ∀ {r : Regex α} {w : List α}, r.Over P → w ∈ lang r →
    ∀ c ∈ w, P c
  | eps, w, _, hw => by
    rw [mem_eps.1 hw]
    simp
  | cls p, w, h, hw => by
    obtain ⟨c, hc, rfl⟩ := mem_cls.1 hw
    simpa using h c hc
  | many p, w, h, hw => fun c hc => h c (mem_many.1 hw c hc)
  | cat a b, w, h, hw => by
    obtain ⟨x, hx, y, hy, rfl⟩ := mem_cat.1 hw
    intro c hc
    exact (List.mem_append.1 hc).elim (h.1.of_mem hx c) (h.2.of_mem hy c)
  | alt a b, w, h, hw => (mem_alt.1 hw).elim h.1.of_mem h.2.of_mem
  | opt a, w, h, hw => by
    rcases mem_opt.1 hw with hw | rfl
    · exact Over.of_mem (r := a) h hw
    · simp
  | group name a, w, h, hw => Over.of_mem (r := a) h hw

theorem over_lit [DecidableEq α] {P : α → Prop} {l : List α} (h : ∀ c ∈ l, P c) :
    (lit l).Over P := by
  induction l with
  | nil => trivial
  | cons c l ih =>
    refine ⟨fun d hd => ?_, ih fun d hd => h d (List.mem_cons_of_mem c hd)⟩
    rw [of_decide_eq_true hd]
    exact h c (by simp)

theorem over_atMost {P : α → Prop} {p : α → Bool} (h : ∀ c, p c = true → P c) :
    ∀ n, (atMost p n).Over P
  | 0 => trivial
  | n + 1 => ⟨h, over_atMost h n⟩

theorem over_exactly {P : α → Prop} {p : α → Bool} (h : ∀ c, p c = true → P c) :
    ∀ n, (exactly p n).Over P
  | 0 => trivial
  | n + 1 => ⟨h, over_exactly h n⟩

/-! ## What a match was -/

/-- No group. -/
def silent : Regex α → Bool
  | eps | cls _ | many _ => true
  | cat a b | alt a b => a.silent && b.silent
  | opt a => a.silent
  | group _ _ => false

theorem silent_lit [DecidableEq α] : ∀ l : List α, (lit l).silent = true
  | [] => rfl
  | _ :: l => silent_lit l

theorem silent_atMost (p : α → Bool) : ∀ n, (atMost p n).silent = true
  | 0 => rfl
  | n + 1 => silent_atMost p n

theorem silent_exactly (p : α → Bool) : ∀ n, (exactly p n).silent = true
  | 0 => rfl
  | n + 1 => silent_exactly p n

theorem runMany_some {p : α → Bool} {k : List α → Option β} {v : β} : ∀ {s : List α},
    runMany p k s = some v → ∃ w rest, (∀ c ∈ w, p c = true) ∧ w ++ rest = s ∧ k rest = some v
  | [], h => ⟨[], [], by simp, rfl, h⟩
  | c :: s, h => by
    unfold runMany at h
    split_ifs at h with hc
    · rcases Option.or_eq_some_iff.1 h with h | ⟨-, h⟩
      · obtain ⟨w, rest, hw, rfl, hk⟩ := runMany_some h
        refine ⟨c :: w, rest, fun d hd => ?_, rfl, hk⟩
        rcases List.mem_cons.1 hd with rfl | hd
        exacts [hc, hw d hd]
      · exact ⟨[], c :: s, by simp, rfl, h⟩
    · exact ⟨[], c :: s, by simp, rfl, h⟩

/-- What a match returns is returned for a split of the text. -/
theorem run_some : ∀ (r : Regex α) {s : List α} {gs : Groups α}
    {k : List α → Groups α → Option β} {v : β}, run r s gs k = some v →
    ∃ w rest gs', w ∈ lang r ∧ w ++ rest = s ∧ k rest gs' = some v ∧ (r.silent → gs' = gs)
  | eps, s, gs, k, v, h => ⟨[], s, gs, mem_eps.2 rfl, rfl, h, fun _ => rfl⟩
  | cls p, [], gs, k, v, h => by simp [run] at h
  | cls p, c :: s, gs, k, v, h => by
    unfold run at h
    split_ifs at h with hc
    exact ⟨[c], s, gs, ⟨c, hc, rfl⟩, rfl, h, fun _ => rfl⟩
  | many p, s, gs, k, v, h => by
    obtain ⟨w, rest, hw, hs, hk⟩ := runMany_some h
    exact ⟨w, rest, gs, hw, hs, hk, fun _ => rfl⟩
  | cat a b, s, gs, k, v, h => by
    obtain ⟨x, rest₁, gs₁, hx, rfl, hb, hgs₁⟩ := run_some a h
    obtain ⟨y, rest, gs', hy, rfl, hk, hgs'⟩ := run_some b hb
    refine ⟨x ++ y, rest, gs', mem_cat.2 ⟨x, hx, y, hy, rfl⟩, List.append_assoc _ _ _, hk, ?_⟩
    intro hsilent
    rw [silent, Bool.and_eq_true] at hsilent
    rw [hgs' hsilent.2, hgs₁ hsilent.1]
  | alt a b, s, gs, k, v, h => by
    rcases Option.or_eq_some_iff.1 h with h | ⟨-, h⟩
    · obtain ⟨w, rest, gs', hw, hs, hk, hgs⟩ := run_some a h
      refine ⟨w, rest, gs', mem_alt.2 (.inl hw), hs, hk, fun hsilent => hgs ?_⟩
      rw [silent, Bool.and_eq_true] at hsilent
      exact hsilent.1
    · obtain ⟨w, rest, gs', hw, hs, hk, hgs⟩ := run_some b h
      refine ⟨w, rest, gs', mem_alt.2 (.inr hw), hs, hk, fun hsilent => hgs ?_⟩
      rw [silent, Bool.and_eq_true] at hsilent
      exact hsilent.2
  | opt a, s, gs, k, v, h => by
    rcases Option.or_eq_some_iff.1 h with h | ⟨-, h⟩
    · obtain ⟨w, rest, gs', hw, hs, hk, hgs⟩ := run_some a h
      exact ⟨w, rest, gs', mem_opt.2 (.inl hw), hs, hk, hgs⟩
    · exact ⟨[], s, gs, mem_opt.2 (.inr rfl), rfl, h, fun _ => rfl⟩
  | group name a, s, gs, k, v, h => by
    obtain ⟨w, rest, gs', hw, hs, hk, -⟩ := run_some a h
    exact ⟨w, rest, _, hw, hs, hk, fun hsilent => Bool.noConfusion hsilent⟩

/-- A group is a part of the text. -/
theorem run_within : ∀ (r : Regex α) {s : List α} {gs : Groups α}
    {k : List α → Groups α → Option β} {v : β}, run r s gs k = some v →
    ∃ rest gs', k rest gs' = some v ∧ rest <:+ s ∧ ∀ g ∈ gs', g ∈ gs ∨ g.2 <:+: s
  | eps, s, gs, k, v, h => ⟨s, gs, h, List.suffix_rfl, fun _ => .inl⟩
  | cls p, [], gs, k, v, h => by cases h
  | cls p, c :: s, gs, k, v, h => by
    rw [run] at h
    split_ifs at h
    exact ⟨s, gs, h, List.suffix_cons c s, fun _ => .inl⟩
  | many p, s, gs, k, v, h => by
    obtain ⟨w, rest, -, hs, hk⟩ := runMany_some h
    exact ⟨rest, gs, hk, ⟨w, hs⟩, fun _ => .inl⟩
  | cat a b, s, gs, k, v, h => by
    obtain ⟨rest₁, gs₁, hb, hrest₁, hgs₁⟩ := run_within a h
    obtain ⟨rest, gs', hk, hrest, hgs'⟩ := run_within b hb
    refine ⟨rest, gs', hk, hrest.trans hrest₁, fun g hg => ?_⟩
    rcases hgs' g hg with hg | hg
    exacts [hgs₁ g hg, .inr (hg.trans hrest₁.isInfix)]
  | alt a b, s, gs, k, v, h => by
    rcases Option.or_eq_some_iff.1 h with h | ⟨-, h⟩
    exacts [run_within a h, run_within b h]
  | opt a, s, gs, k, v, h => by
    rcases Option.or_eq_some_iff.1 h with h | ⟨-, h⟩
    exacts [run_within a h, ⟨s, gs, h, List.suffix_rfl, fun _ => .inl⟩]
  | group name a, s, gs, k, v, h => by
    obtain ⟨rest, gs', hk, hrest, hgs'⟩ := run_within a h
    refine ⟨rest, _, hk, hrest, fun g hg => ?_⟩
    rcases List.mem_cons.1 hg with rfl | hg
    exacts [.inr (List.take_prefix _ _).isInfix, hgs' g hg]

/-- No group of this name. -/
def avoids (name : String) : Regex α → Bool
  | eps | cls _ | many _ => true
  | cat a b | alt a b => a.avoids name && b.avoids name
  | opt a => a.avoids name
  | group n a => n ≠ name && a.avoids name

/-- A match adds no group that is not in its pattern. -/
theorem run_find (name : String) : ∀ (r : Regex α) {s : List α} {gs : Groups α}
    {k : List α → Groups α → Option β} {v : β}, run r s gs k = some v →
    r.avoids name = true → ∃ rest gs', k rest gs' = some v ∧
      Keyed.find Prod.fst name gs' = Keyed.find Prod.fst name gs
  | eps, s, gs, k, v, h, _ => ⟨s, gs, h, rfl⟩
  | cls p, [], gs, k, v, h, _ => by cases h
  | cls p, c :: s, gs, k, v, h, _ => by
    rw [run_cls_cons] at h
    split_ifs at h
    exact ⟨s, gs, h, rfl⟩
  | many p, s, gs, k, v, h, _ => by
    obtain ⟨w, rest, -, -, hk⟩ := runMany_some h
    exact ⟨rest, gs, hk, rfl⟩
  | cat a b, s, gs, k, v, h, havoid => by
    rw [avoids, Bool.and_eq_true] at havoid
    obtain ⟨rest₁, gs₁, hb, hgs₁⟩ := run_find name a h havoid.1
    obtain ⟨rest, gs', hk, hgs'⟩ := run_find name b hb havoid.2
    exact ⟨rest, gs', hk, hgs'.trans hgs₁⟩
  | alt a b, s, gs, k, v, h, havoid => by
    rw [avoids, Bool.and_eq_true] at havoid
    rcases Option.or_eq_some_iff.1 h with h | ⟨-, h⟩
    · exact run_find name a h havoid.1
    · exact run_find name b h havoid.2
  | opt a, s, gs, k, v, h, havoid => by
    rcases Option.or_eq_some_iff.1 h with h | ⟨-, h⟩
    · exact run_find name a h havoid
    · exact ⟨s, gs, h, rfl⟩
  | group n a, s, gs, k, v, h, havoid => by
    rw [avoids, Bool.and_eq_true, decide_eq_true_eq] at havoid
    obtain ⟨rest, gs', hk, hgs'⟩ := run_find name a h havoid.2
    refine ⟨rest, _, hk, ?_⟩
    rw [Keyed.find_cons, if_neg havoid.1, hgs']

end Regex

/-! ## Patterns -/

/-- An expression that may repeat another. -/
inductive Pattern (α : Type*) where
  | plain (r : Regex α)
  | cat (a b : Pattern α)
  | opt (a : Pattern α)
  /-- as many rounds as there are -/
  | star (a : Pattern α)
  | group (name : String) (a : Pattern α)

namespace Pattern

variable {α β : Type*}

open Regex (Groups)

/-- Rounds of a repetition, at most so many. -/
def runStar (f : List α → Groups α → (List α → Groups α → Option β) → Option β)
    (k : List α → Groups α → Option β) : ℕ → List α → Groups α → Option β
  | 0, s, gs => k s gs
  | n + 1, s, gs =>
    (f s gs fun rest gs' => if rest.length < s.length then runStar f k n rest gs' else none).or
      (k s gs)

/-- Match a piece of the text and go on with what is left. -/
def run : Pattern α → List α → Groups α → (List α → Groups α → Option β) → Option β
  | plain r, s, gs, k => r.run s gs k
  | cat a b, s, gs, k => run a s gs fun rest gs => run b rest gs k
  | opt a, s, gs, k => (run a s gs k).or (k s gs)
  | star a, s, gs, k => runStar (run a) k s.length s gs
  | group name a, s, gs, k =>
    run a s gs fun rest gs => k rest ((name, s.take (s.length - rest.length)) :: gs)

/-- The groups of a match of the whole text. -/
def captures (r : Pattern α) (s : List α) : Option (Groups α) :=
  run r s [] fun rest gs => if rest.isEmpty then some gs else none

/-- The whole text matches. -/
def isMatch (r : Pattern α) (s : List α) : Bool :=
  (r.captures s).isSome

/-- The texts that match. -/
def lang : Pattern α → Language α
  | plain r => r.lang
  | cat a b => lang a * lang b
  | opt a => lang a + 1
  | star a => KStar.kstar (lang a)
  | group _ a => lang a

/-- No group. -/
def silent : Pattern α → Bool
  | plain r => r.silent
  | cat a b => a.silent && b.silent
  | opt a | star a => a.silent
  | group _ _ => false

theorem mem_cat {a b : Pattern α} {w : List α} :
    w ∈ lang (cat a b) ↔ ∃ x ∈ lang a, ∃ y ∈ lang b, x ++ y = w :=
  Language.mem_mul

theorem mem_opt {a : Pattern α} {w : List α} : w ∈ lang (opt a) ↔ w ∈ lang a ∨ w = [] := by
  rw [← Language.mem_one w]
  exact Language.mem_add _ _ w

theorem mem_star {a : Pattern α} {w : List α} :
    w ∈ lang (star a) ↔ ∃ l : List (List α), w = l.flatten ∧ ∀ x ∈ l, x ∈ lang a ∧ x ≠ [] :=
  Language.mem_kstar_iff_exists_nonempty

/-- Every character that a pattern takes has a property. -/
def Over (P : α → Prop) : Pattern α → Prop
  | plain r => r.Over P
  | cat a b => a.Over P ∧ b.Over P
  | opt a | star a | group _ a => a.Over P

theorem Over.of_mem {P : α → Prop} : ∀ {r : Pattern α} {w : List α}, r.Over P → w ∈ lang r →
    ∀ c ∈ w, P c
  | plain r, w, h, hw => Regex.Over.of_mem h hw
  | cat a b, w, h, hw => by
    obtain ⟨x, hx, y, hy, rfl⟩ := mem_cat.1 hw
    intro c hc
    exact (List.mem_append.1 hc).elim (h.1.of_mem hx c) (h.2.of_mem hy c)
  | opt a, w, h, hw => by
    rcases mem_opt.1 hw with hw | rfl
    · exact Over.of_mem (r := a) h hw
    · simp
  | star a, w, h, hw => by
    obtain ⟨l, rfl, hl⟩ := mem_star.1 hw
    intro c hc
    obtain ⟨x, hx, hc⟩ := List.mem_flatten.1 hc
    exact Over.of_mem (r := a) h (hl x hx).1 c hc
  | group name a, w, h, hw => Over.of_mem (r := a) h hw

/-- What rounds return is returned for a split of the text. -/
theorem runStar_some {a : Pattern α} {k : List α → Groups α → Option β} {v : β}
    (ha : ∀ {s : List α} {gs : Groups α} {k : List α → Groups α → Option β},
      run a s gs k = some v → ∃ w rest gs', w ∈ lang a ∧ w ++ rest = s ∧ k rest gs' = some v ∧
        (a.silent → gs' = gs)) :
    ∀ {n : ℕ} {s : List α} {gs : Groups α}, runStar (run a) k n s gs = some v →
      ∃ w rest gs', w ∈ lang (star a) ∧ w ++ rest = s ∧ k rest gs' = some v ∧
        (a.silent → gs' = gs)
  | 0, s, gs, h => ⟨[], s, gs, mem_star.2 ⟨[], rfl, by simp⟩, rfl, h, fun _ => rfl⟩
  | n + 1, s, gs, h => by
    rcases Option.or_eq_some_iff.1 h with h | ⟨-, h⟩
    · obtain ⟨x, rest₁, gs₁, hx, hs, h, hgs₁⟩ := ha h
      split_ifs at h with hlt
      obtain ⟨y, rest, gs', hy, hrest, hk, hgs'⟩ := runStar_some ha h
      obtain ⟨l, rfl, hl⟩ := mem_star.1 hy
      have hne : x ≠ [] := by
        rintro rfl
        rw [List.nil_append] at hs
        exact absurd hlt (by rw [hs]; exact lt_irrefl _)
      refine ⟨x ++ l.flatten, rest, gs', mem_star.2 ⟨x :: l, rfl, fun z hz => ?_⟩, ?_, hk, ?_⟩
      · rcases List.mem_cons.1 hz with rfl | hz
        exacts [⟨hx, hne⟩, hl z hz]
      · rw [List.append_assoc, hrest, hs]
      · exact fun hsilent => (hgs' hsilent).trans (hgs₁ hsilent)
    · exact ⟨[], s, gs, mem_star.2 ⟨[], rfl, by simp⟩, rfl, h, fun _ => rfl⟩

/-- What a match returns is returned for a split of the text. -/
theorem run_some : ∀ (r : Pattern α) {s : List α} {gs : Groups α}
    {k : List α → Groups α → Option β} {v : β}, run r s gs k = some v →
    ∃ w rest gs', w ∈ lang r ∧ w ++ rest = s ∧ k rest gs' = some v ∧ (r.silent → gs' = gs)
  | plain r, s, gs, k, v, h => Regex.run_some r h
  | cat a b, s, gs, k, v, h => by
    obtain ⟨x, rest₁, gs₁, hx, rfl, hb, hgs₁⟩ := run_some a h
    obtain ⟨y, rest, gs', hy, rfl, hk, hgs'⟩ := run_some b hb
    refine ⟨x ++ y, rest, gs', mem_cat.2 ⟨x, hx, y, hy, rfl⟩, List.append_assoc _ _ _, hk, ?_⟩
    intro hsilent
    rw [silent, Bool.and_eq_true] at hsilent
    rw [hgs' hsilent.2, hgs₁ hsilent.1]
  | opt a, s, gs, k, v, h => by
    rcases Option.or_eq_some_iff.1 h with h | ⟨-, h⟩
    · obtain ⟨w, rest, gs', hw, hs, hk, hgs⟩ := run_some a h
      exact ⟨w, rest, gs', mem_opt.2 (.inl hw), hs, hk, hgs⟩
    · exact ⟨[], s, gs, mem_opt.2 (.inr rfl), rfl, h, fun _ => rfl⟩
  | star a, s, gs, k, v, h => runStar_some (fun h => run_some a h) h
  | group name a, s, gs, k, v, h => by
    obtain ⟨w, rest, gs', hw, hs, hk, -⟩ := run_some a h
    exact ⟨w, rest, _, hw, hs, hk, fun hsilent => Bool.noConfusion hsilent⟩

theorem runStar_within {a : Pattern α} {k : List α → Groups α → Option β} {v : β}
    (ha : ∀ {s : List α} {gs : Groups α} {k : List α → Groups α → Option β},
      run a s gs k = some v → ∃ rest gs', k rest gs' = some v ∧ rest <:+ s ∧
        ∀ g ∈ gs', g ∈ gs ∨ g.2 <:+: s) :
    ∀ {n : ℕ} {s : List α} {gs : Groups α}, runStar (run a) k n s gs = some v →
      ∃ rest gs', k rest gs' = some v ∧ rest <:+ s ∧ ∀ g ∈ gs', g ∈ gs ∨ g.2 <:+: s
  | 0, s, gs, h => ⟨s, gs, h, List.suffix_rfl, fun _ => .inl⟩
  | n + 1, s, gs, h => by
    rcases Option.or_eq_some_iff.1 h with h | ⟨-, h⟩
    · obtain ⟨rest₁, gs₁, h, hrest₁, hgs₁⟩ := ha h
      split_ifs at h
      obtain ⟨rest, gs', hk, hrest, hgs'⟩ := runStar_within ha h
      refine ⟨rest, gs', hk, hrest.trans hrest₁, fun g hg => ?_⟩
      rcases hgs' g hg with hg | hg
      exacts [hgs₁ g hg, .inr (hg.trans hrest₁.isInfix)]
    · exact ⟨s, gs, h, List.suffix_rfl, fun _ => .inl⟩

/-- A group is a part of the text. -/
theorem run_within : ∀ (r : Pattern α) {s : List α} {gs : Groups α}
    {k : List α → Groups α → Option β} {v : β}, run r s gs k = some v →
    ∃ rest gs', k rest gs' = some v ∧ rest <:+ s ∧ ∀ g ∈ gs', g ∈ gs ∨ g.2 <:+: s
  | plain r, s, gs, k, v, h => Regex.run_within r h
  | cat a b, s, gs, k, v, h => by
    obtain ⟨rest₁, gs₁, hb, hrest₁, hgs₁⟩ := run_within a h
    obtain ⟨rest, gs', hk, hrest, hgs'⟩ := run_within b hb
    refine ⟨rest, gs', hk, hrest.trans hrest₁, fun g hg => ?_⟩
    rcases hgs' g hg with hg | hg
    exacts [hgs₁ g hg, .inr (hg.trans hrest₁.isInfix)]
  | opt a, s, gs, k, v, h => by
    rcases Option.or_eq_some_iff.1 h with h | ⟨-, h⟩
    exacts [run_within a h, ⟨s, gs, h, List.suffix_rfl, fun _ => .inl⟩]
  | star a, s, gs, k, v, h => runStar_within (fun h => run_within a h) h
  | group name a, s, gs, k, v, h => by
    obtain ⟨rest, gs', hk, hrest, hgs'⟩ := run_within a h
    refine ⟨rest, _, hk, hrest, fun g hg => ?_⟩
    rcases List.mem_cons.1 hg with rfl | hg
    exacts [.inr (List.take_prefix _ _).isInfix, hgs' g hg]

/-- A group notes the word of its part. -/
theorem run_group_some {name : String} {a : Pattern α} (ha : a.silent) {s : List α}
    {gs : Groups α} {k : List α → Groups α → Option β} {v : β}
    (h : run (group name a) s gs k = some v) :
    ∃ w rest, w ∈ lang a ∧ w ++ rest = s ∧ k rest ((name, w) :: gs) = some v := by
  obtain ⟨w, rest, gs', hw, rfl, hk, hgs⟩ := run_some a h
  refine ⟨w, rest, hw, rfl, ?_⟩
  rw [hgs ha, List.length_append, Nat.add_sub_cancel, List.take_left' rfl] at hk
  exact hk

theorem runStar_complete {a : Pattern α} {k : List α → Groups α → Option β} {rest : List α}
    (ha : ∀ {w rest : List α} {gs : Groups α} {k : List α → Groups α → Option β}, w ∈ lang a →
      (∀ gs, (k rest gs).isSome) → (run a (w ++ rest) gs k).isSome)
    (hk : ∀ gs, (k rest gs).isSome) : ∀ {l : List (List α)} {n : ℕ} {gs : Groups α},
      (∀ x ∈ l, x ∈ lang a ∧ x ≠ []) → l.length ≤ n →
        (runStar (run a) k n (l.flatten ++ rest) gs).isSome
  | [], 0, gs, _, _ => hk gs
  | [], n + 1, gs, _, _ => by
    rw [List.flatten_nil, List.nil_append, runStar, Option.isSome_or, hk gs, Bool.or_true]
  | x :: l, 0, gs, _, hn => by simp at hn
  | x :: l, n + 1, gs, hl, hn => by
    obtain ⟨hx, hne⟩ := hl x (by simp)
    have hrest (gs : Groups α) : (runStar (run a) k n (l.flatten ++ rest) gs).isSome :=
      runStar_complete ha hk (fun y hy => hl y (List.mem_cons_of_mem x hy)) (by simpa using hn)
    have hlt : (l.flatten ++ rest).length < ((x :: l).flatten ++ rest).length := by
      have hpos : 0 < x.length := List.length_pos_iff.2 hne
      simp only [List.flatten_cons, List.length_append]
      omega
    rw [runStar, Option.isSome_or, Bool.or_eq_true]
    left
    rw [List.flatten_cons, List.append_assoc]
    refine ha hx fun gs' => ?_
    rw [if_pos (by simpa [List.flatten_cons, List.append_assoc] using hlt)]
    exact hrest gs'

/-- A word of the language is matched where the rest is accepted with any groups. -/
theorem run_complete : ∀ (r : Pattern α) {w rest : List α} {gs : Groups α}
    {k : List α → Groups α → Option β}, w ∈ lang r → (∀ gs, (k rest gs).isSome) →
    (run r (w ++ rest) gs k).isSome
  | plain r, w, rest, gs, k, hw, hk => Regex.run_complete r hw hk
  | cat a b, w, rest, gs, k, hw, hk => by
    obtain ⟨x, hx, y, hy, rfl⟩ := mem_cat.1 hw
    rw [List.append_assoc]
    exact run_complete a hx fun gs => run_complete b hy hk
  | opt a, w, rest, gs, k, hw, hk => by
    rw [run, Option.isSome_or, Bool.or_eq_true]
    rcases mem_opt.1 hw with h | rfl
    · exact .inl (run_complete a h hk)
    · exact .inr (hk gs)
  | star a, w, rest, gs, k, hw, hk => by
    obtain ⟨l, rfl, hl⟩ := mem_star.1 hw
    refine runStar_complete (fun hw hk => run_complete a hw hk) hk hl ?_
    have hlen : l.length ≤ l.flatten.length := by
      clear hw
      induction l with
      | nil => simp
      | cons x l ih =>
        have hx : 0 < x.length := List.length_pos_iff.2 (hl x (by simp)).2
        have hrest := ih fun y hy => hl y (List.mem_cons_of_mem x hy)
        simp only [List.flatten_cons, List.length_append, List.length_cons]
        omega
    rw [List.length_append]
    omega
  | group name a, w, rest, gs, k, hw, hk => run_complete a hw fun _ => hk _

/-- A word of the language matches as a whole. -/
theorem captures_of_mem {r : Pattern α} {s : List α} (h : s ∈ r.lang) : (r.captures s).isSome := by
  have hmatch : (run r (s ++ []) [] fun rest gs => if rest.isEmpty then some gs else none).isSome :=
    run_complete r h fun _ => rfl
  rwa [List.append_nil] at hmatch

theorem mem_of_captures {r : Pattern α} {s : List α} {gs : Groups α}
    (h : r.captures s = some gs) : s ∈ r.lang := by
  obtain ⟨w, rest, gs', hw, rfl, hk, -⟩ := run_some r h
  split_ifs at hk with hrest
  rwa [List.isEmpty_iff.1 hrest, List.append_nil]

/-- The matcher decides the language. -/
theorem isMatch_iff {r : Pattern α} {s : List α} : r.isMatch s = true ↔ s ∈ r.lang := by
  refine ⟨fun h => ?_, captures_of_mem⟩
  obtain ⟨gs, hgs⟩ := Option.isSome_iff_exists.1 h
  exact mem_of_captures hgs

end Pattern

end EngineConsole
