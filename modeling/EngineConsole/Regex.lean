import Mathlib

/-!
# Regular expressions that capture

Anchored regular expressions with named groups, over any alphabet : classes, greedy
repetition of a class, sequence, alternatives, options. `run` is the backtracking matcher :
it tries alternatives in order and repetitions longest first, so the groups it returns are
those of the first way to match. `lang` is the language.

The matcher finds a match just when the text is in the language (`isMatch_iff`), so what a
text that matches looks like is read off the language.
-/

set_option linter.unusedSectionVars false

namespace EngineConsole

/-- A regular expression. -/
inductive Regex (α : Type*) where
  | eps
  | cls (p : α → Bool)
  /-- as many of a class as there are -/
  | many (p : α → Bool)
  | cat (a b : Regex α)
  | alt (a b : Regex α)
  | opt (a : Regex α)
  | group (name : String) (a : Regex α)

namespace Regex

variable {α β : Type*}

/-- The groups of a match, the last one first. -/
abbrev Groups (α : Type*) := List (String × List α)

/-! ## Matching -/

/-- Take as many of a class as let the rest succeed. -/
def runMany (p : α → Bool) (k : List α → Option β) : List α → Option β
  | [] => k []
  | c :: s => if p c then (runMany p k s).or (k (c :: s)) else k (c :: s)

/-- Match a piece of the text and go on with what is left. -/
def run : Regex α → List α → Groups α → (List α → Groups α → Option β) → Option β
  | eps, s, gs, k => k s gs
  | cls _, [], _, _ => none
  | cls p, c :: s, gs, k => if p c then k s gs else none
  | many p, s, gs, k => runMany p (fun rest => k rest gs) s
  | cat a b, s, gs, k => run a s gs fun rest gs => run b rest gs k
  | alt a b, s, gs, k => (run a s gs k).or (run b s gs k)
  | opt a, s, gs, k => (run a s gs k).or (k s gs)
  | group name a, s, gs, k =>
    run a s gs fun rest gs => k rest ((name, s.take (s.length - rest.length)) :: gs)

section
variable (p : α → Bool) (c : α) (a b : Regex α) (s : List α) (gs : Groups α)
  (k : List α → Groups α → Option β)

theorem run_cls_cons : run (cls p) (c :: s) gs k = if p c then k s gs else none :=
  rfl

theorem run_cat : run (cat a b) s gs k = run a s gs fun rest gs => run b rest gs k :=
  rfl

theorem run_alt : run (alt a b) s gs k = (run a s gs k).or (run b s gs k) :=
  rfl

theorem run_opt : run (opt a) s gs k = (run a s gs k).or (k s gs) :=
  rfl

theorem run_group (name : String) : run (group name a) s gs k = run a s gs fun rest gs =>
    k rest ((name, s.take (s.length - rest.length)) :: gs) :=
  rfl

end

/-- The groups of a match of the whole text. -/
def captures (r : Regex α) (s : List α) : Option (Groups α) :=
  run r s [] fun rest gs => if rest.isEmpty then some gs else none

/-- The whole text matches. -/
def isMatch (r : Regex α) (s : List α) : Bool :=
  (r.captures s).isSome

/-! ## The language -/

/-- The texts that match. -/
def lang : Regex α → Language α
  | eps => 1
  | cls p => {w | ∃ c, p c = true ∧ w = [c]}
  | many p => {w | ∀ c ∈ w, p c = true}
  | cat a b => lang a * lang b
  | alt a b => lang a + lang b
  | opt a => lang a + 1
  | group _ a => lang a

theorem mem_eps {w : List α} : w ∈ lang (eps : Regex α) ↔ w = [] :=
  Language.mem_one w

theorem mem_cls {p : α → Bool} {w : List α} : w ∈ lang (cls p) ↔ ∃ c, p c = true ∧ w = [c] :=
  Iff.rfl

theorem mem_many {p : α → Bool} {w : List α} : w ∈ lang (many p) ↔ ∀ c ∈ w, p c = true :=
  Iff.rfl

theorem mem_cat {a b : Regex α} {w : List α} :
    w ∈ lang (cat a b) ↔ ∃ x ∈ lang a, ∃ y ∈ lang b, x ++ y = w :=
  Language.mem_mul

theorem mem_alt {a b : Regex α} {w : List α} :
    w ∈ lang (alt a b) ↔ w ∈ lang a ∨ w ∈ lang b :=
  Language.mem_add _ _ w

theorem mem_opt {a : Regex α} {w : List α} : w ∈ lang (opt a) ↔ w ∈ lang a ∨ w = [] := by
  rw [← Language.mem_one w]
  exact Language.mem_add _ _ w

/-! ## The matcher decides the language -/

theorem runMany_sound {p : α → Bool} {k : List α → Option β} : ∀ {s : List α},
    (runMany p k s).isSome → ∃ w rest, (∀ c ∈ w, p c = true) ∧ w ++ rest = s ∧ (k rest).isSome
  | [], h => ⟨[], [], by simp, rfl, h⟩
  | c :: s, h => by
    unfold runMany at h
    split_ifs at h with hc
    · rw [Option.isSome_or, Bool.or_eq_true] at h
      rcases h with h | h
      · obtain ⟨w, rest, hw, rfl, hk⟩ := runMany_sound h
        refine ⟨c :: w, rest, fun d hd => ?_, rfl, hk⟩
        rcases List.mem_cons.1 hd with rfl | hd
        exacts [hc, hw d hd]
      · exact ⟨[], c :: s, by simp, rfl, h⟩
    · exact ⟨[], c :: s, by simp, rfl, h⟩

theorem runMany_complete {p : α → Bool} {k : List α → Option β} {rest : List α}
    (hk : (k rest).isSome) : ∀ {w : List α}, (∀ c ∈ w, p c = true) →
      (runMany p k (w ++ rest)).isSome
  | [], _ => by
    cases rest with
    | nil => exact hk
    | cons c s =>
      simp only [List.nil_append, runMany]
      split_ifs
      · rw [Option.isSome_or, hk, Bool.or_true]
      · exact hk
  | c :: w, hw => by
    have hrest := runMany_complete hk fun d hd => hw d (List.mem_cons_of_mem c hd)
    rw [List.cons_append, runMany, if_pos (hw c List.mem_cons_self), Option.isSome_or, hrest,
      Bool.true_or]

theorem runMany_none {p : α → Bool} {k : List α → Option β} : ∀ {s : List α},
    (∀ x y, s = x ++ y → (∀ c ∈ x, p c = true) → k y = none) → runMany p k s = none
  | [], h => h [] [] rfl (fun _ h => by cases h)
  | c :: s, h => by
    have hstop : k (c :: s) = none := h [] (c :: s) rfl (fun _ h => by cases h)
    rw [runMany]
    split_ifs with hc
    · rw [hstop, Option.or_none]
      refine runMany_none fun x y hxy hx => h (c :: x) y (by rw [hxy]; rfl) fun d hd => ?_
      rcases List.mem_cons.1 hd with rfl | hd
      exacts [hc, hx d hd]
    · exact hstop

/-- The longest repetition after which the rest succeeds is the one taken. -/
theorem runMany_last {p : α → Bool} {k : List α → Option β} {v : β} {t : List α}
    (hk : k t = some v) (hlast : ∀ x y, x ≠ [] → t = x ++ y → (∀ c ∈ x, p c = true) → k y = none) :
    ∀ {w : List α}, (∀ c ∈ w, p c = true) → runMany p k (w ++ t) = some v
  | [], _ => by
    cases t with
    | nil => exact hk
    | cons c t =>
      rw [List.nil_append, runMany]
      split_ifs with hc
      · have hrest : runMany p k t = none := by
          refine runMany_none fun x y hxy hx => hlast (c :: x) y (List.cons_ne_nil c x)
            (by rw [hxy]; rfl) fun d hd => ?_
          rcases List.mem_cons.1 hd with rfl | hd
          exacts [hc, hx d hd]
        rw [hrest, Option.none_or, hk]
      · exact hk
  | c :: w, hw => by
    have hrest := runMany_last hk hlast fun d hd => hw d (List.mem_cons_of_mem c hd)
    rw [List.cons_append, runMany, if_pos (hw c List.mem_cons_self), hrest, Option.some_or]

/-- A repetition takes all there is of its class, where the rest succeeds then. -/
theorem runMany_all {p : α → Bool} {k : List α → Option β} {v : β} {w t : List α}
    (hw : ∀ c ∈ w, p c = true) (ht : ∀ c ∈ t.head?, p c = false) (hk : k t = some v) :
    runMany p k (w ++ t) = some v := by
  refine runMany_last hk (fun x y hx hxy hall => ?_) hw
  cases x with
  | nil => exact absurd rfl hx
  | cons c x =>
    have hc := ht c (by rw [hxy]; rfl)
    rw [hall c List.mem_cons_self] at hc
    cases hc

/-- Where the rest fails on every character of its class, a repetition takes all there is. -/
theorem runMany_only {p : α → Bool} {k : List α → Option β}
    (hk : ∀ c s, p c = true → k (c :: s) = none) : ∀ s, runMany p k s = k (s.dropWhile p)
  | [] => rfl
  | c :: s => by
    rw [runMany]
    split_ifs with hc
    · rw [hk c s hc, Option.or_none, runMany_only hk s, List.dropWhile_cons_of_pos hc]
    · rw [List.dropWhile_cons_of_neg hc]

theorem take_word (w t : List α) : (w ++ t).take ((w ++ t).length - t.length) = w := by
  rw [List.length_append, Nat.add_sub_cancel, List.take_left]

/-- One character of a class and as many as there are of another. -/
theorem run_word {p q : α → Bool} {k : List α → Groups α → Option β} {gs : Groups α} {v : β}
    {c : α} {w t : List α} (hc : p c = true) (hw : ∀ x ∈ w, q x = true)
    (ht : ∀ x ∈ t.head?, q x = false) (hk : k t gs = some v) :
    run (cat (cls p) (many q)) (c :: w ++ t) gs k = some v := by
  rw [List.cons_append, run_cat, run_cls_cons, if_pos hc]
  exact runMany_all hw ht hk

/-- A group of such a word notes it. -/
theorem run_group_word {name : String} {p q : α → Bool} {k : List α → Groups α → Option β}
    {gs : Groups α} {v : β} {c : α} {w t : List α} (hc : p c = true) (hw : ∀ x ∈ w, q x = true)
    (ht : ∀ x ∈ t.head?, q x = false) (hk : k t ((name, c :: w) :: gs) = some v) :
    run (group name (cat (cls p) (many q))) (c :: w ++ t) gs k = some v := by
  rw [run_group]
  refine run_word hc hw ht ?_
  rw [take_word]
  exact hk

/-- A match splits the text into a word of the language and a rest that is accepted. -/
theorem run_sound : ∀ (r : Regex α) {s : List α} {gs : Groups α}
    {k : List α → Groups α → Option β}, (run r s gs k).isSome →
    ∃ w rest gs', w ∈ lang r ∧ w ++ rest = s ∧ (k rest gs').isSome
  | eps, s, gs, k, h => ⟨[], s, gs, mem_eps.2 rfl, rfl, h⟩
  | cls p, [], gs, k, h => by cases h
  | cls p, c :: s, gs, k, h => by
    rw [run_cls_cons] at h
    split_ifs at h with hc
    · exact ⟨[c], s, gs, ⟨c, hc, rfl⟩, rfl, h⟩
    · simp at h
  | many p, s, gs, k, h => by
    obtain ⟨w, rest, hw, hs, hk⟩ := runMany_sound h
    exact ⟨w, rest, gs, hw, hs, hk⟩
  | cat a b, s, gs, k, h => by
    obtain ⟨x, rest₁, gs₁, hx, rfl, hb⟩ := run_sound a h
    obtain ⟨y, rest, gs', hy, rfl, hk⟩ := run_sound b hb
    exact ⟨x ++ y, rest, gs', mem_cat.2 ⟨x, hx, y, hy, rfl⟩, List.append_assoc _ _ _, hk⟩
  | alt a b, s, gs, k, h => by
    rw [run_alt, Option.isSome_or, Bool.or_eq_true] at h
    rcases h with h | h
    · obtain ⟨w, rest, gs', hw, hs, hk⟩ := run_sound a h
      exact ⟨w, rest, gs', mem_alt.2 (.inl hw), hs, hk⟩
    · obtain ⟨w, rest, gs', hw, hs, hk⟩ := run_sound b h
      exact ⟨w, rest, gs', mem_alt.2 (.inr hw), hs, hk⟩
  | opt a, s, gs, k, h => by
    rw [run_opt, Option.isSome_or, Bool.or_eq_true] at h
    rcases h with h | h
    · obtain ⟨w, rest, gs', hw, hs, hk⟩ := run_sound a h
      exact ⟨w, rest, gs', mem_opt.2 (.inl hw), hs, hk⟩
    · exact ⟨[], s, gs, mem_opt.2 (.inr rfl), rfl, h⟩
  | group name a, s, gs, k, h => by
    obtain ⟨w, rest, gs', hw, hs, hk⟩ := run_sound a h
    exact ⟨w, rest, _, hw, hs, hk⟩

/-- A word of the language is matched where the rest is accepted with any groups. -/
theorem run_complete : ∀ (r : Regex α) {w rest : List α} {gs : Groups α}
    {k : List α → Groups α → Option β}, w ∈ lang r → (∀ gs, (k rest gs).isSome) →
    (run r (w ++ rest) gs k).isSome
  | eps, w, rest, gs, k, hw, hk => by
    rw [mem_eps.1 hw]
    exact hk gs
  | cls p, w, rest, gs, k, hw, hk => by
    obtain ⟨c, hc, rfl⟩ := mem_cls.1 hw
    rw [List.singleton_append, run_cls_cons, if_pos hc]
    exact hk gs
  | many p, w, rest, gs, k, hw, hk =>
    runMany_complete (k := fun rest => k rest gs) (hk gs) (mem_many.1 hw)
  | cat a b, w, rest, gs, k, hw, hk => by
    obtain ⟨x, hx, y, hy, rfl⟩ := mem_cat.1 hw
    rw [List.append_assoc]
    exact run_complete a hx fun gs => run_complete b hy hk
  | alt a b, w, rest, gs, k, hw, hk => by
    rw [run_alt, Option.isSome_or, Bool.or_eq_true]
    exact (mem_alt.1 hw).imp (fun h => run_complete a h hk) fun h => run_complete b h hk
  | opt a, w, rest, gs, k, hw, hk => by
    rw [run_opt, Option.isSome_or, Bool.or_eq_true]
    rcases mem_opt.1 hw with h | rfl
    · exact .inl (run_complete a h hk)
    · exact .inr (hk gs)
  | group name a, w, rest, gs, k, hw, hk => run_complete a hw fun _ => hk _

/-- The matcher decides the language. -/
theorem isMatch_iff {r : Regex α} {s : List α} : r.isMatch s = true ↔ s ∈ r.lang := by
  refine ⟨fun h => ?_, fun h => ?_⟩
  · obtain ⟨w, rest, gs, hw, hs, hk⟩ := run_sound r h
    have hrest : rest = [] := by
      rw [← List.isEmpty_iff]
      by_contra hne
      simp [hne] at hk
    rw [← hs, hrest, List.append_nil]
    exact hw
  · have hmatch := @run_complete _ _ r s [] [] (fun rest gs => if rest.isEmpty then some gs else none)
      h fun _ => rfl
    rwa [List.append_nil] at hmatch

theorem mem_lang_of_captures {r : Regex α} {s : List α} {gs : Groups α}
    (h : r.captures s = some gs) : s ∈ r.lang :=
  isMatch_iff.1 (by rw [isMatch, h, Option.isSome_some])

/-! ## Words -/

/-- Match a word. -/
def lit [DecidableEq α] (w : List α) : Regex α :=
  w.foldr (fun c r => cat (cls fun d => d = c) r) eps

theorem mem_lit [DecidableEq α] : ∀ {l w : List α}, w ∈ lang (lit l) ↔ w = l
  | [], w => mem_eps
  | c :: l, w => by
    have hcons : lit (c :: l) = cat (cls fun d => d = c) (lit l) := rfl
    rw [hcons, mem_cat]
    refine ⟨?_, ?_⟩
    · rintro ⟨x, hx, y, hy, rfl⟩
      obtain ⟨d, hd, rfl⟩ := mem_cls.1 hx
      rw [of_decide_eq_true hd, mem_lit.1 hy]
      rfl
    · rintro rfl
      exact ⟨[c], mem_cls.2 ⟨c, by simp, rfl⟩, l, mem_lit.2 rfl, rfl⟩

/-- A word is matched where it stands. -/
theorem run_lit [DecidableEq α] (k : List α → Groups α → Option β) (gs : Groups α) :
    ∀ w s : List α, run (lit w) s gs k = if w <+: s then k (s.drop w.length) gs else none
  | [], s => by
    rw [if_pos List.nil_prefix]
    rfl
  | c :: w, [] => by
    rw [if_neg (by simp)]
    rfl
  | c :: w, d :: s => by
    have hcons : lit (c :: w) = cat (cls fun d => d = c) (lit w) := rfl
    rw [hcons, run, run, run_lit k gs w s]
    by_cases hd : d = c
    · simp [hd, List.cons_prefix_cons]
    · rw [if_neg (by simpa using hd), if_neg fun h => hd (List.cons_prefix_cons.1 h).1.symm]

/-- What follows a word matches the rest. -/
theorem mem_cat_lit [DecidableEq α] {l w : List α} {r : Regex α} :
    w ∈ lang (cat (lit l) r) ↔ ∃ v ∈ lang r, l ++ v = w := by
  rw [mem_cat]
  refine ⟨?_, fun ⟨v, hv, h⟩ => ⟨l, mem_lit.2 rfl, v, hv, h⟩⟩
  rintro ⟨x, hx, y, hy, rfl⟩
  exact ⟨y, hy, by rw [mem_lit.1 hx]⟩

end Regex

end EngineConsole
