import Mathlib

/-!
# Mounts on mounts

A mount is put on the place of a tree that a path leads to at that time, which may lie on another
mount (`attach`). A path is walked from the root of the tree : at each place the mounts on it are
crossed (`cross`), and the mount it ends on is where it lives (`walk`).

A path lives on the last mount whose point it leads through (`walk_mountAll`). That is the last
one at the longest mount point that no later mount hides (`lives_of_walk`).
-/

set_option linter.unusedSectionVars false

namespace EngineConsole

namespace Mounts

variable {α : Type*} [DecidableEq α]

/-! ## The table -/

/-- A mount : the mount it is on, none for the tree below all of them, and the path it is at. -/
structure Attached (α : Type*) where
  parent : Option ℕ
  point : List α

/-- The mounts in their order; one is known by its place in the table. -/
abbrev Table (α : Type*) := List (Attached α)

/-- Cross the mounts on a place. A mount comes after the one it is on. -/
def cross (t : Table α) (cur : Option ℕ) (p : List α) : Option ℕ :=
  t.zipIdx.foldl (fun cur e => if e.1.parent = cur ∧ e.1.point = p then some e.2 else cur) cur

/-- The mount that a path ends on. -/
def walk (t : Table α) (q : List α) : Option ℕ :=
  q.inits.foldl (cross t) none

/-- Mount something at a path. -/
def attach (t : Table α) (p : List α) : Table α :=
  t ++ [⟨walk t p, p⟩]

/-- Mount something at each path. -/
def mountAll (ps : List (List α)) : Table α :=
  ps.foldl attach []

/-- Every mount is on one of the table. -/
def Grounded (t : Table α) : Prop :=
  ∀ e ∈ t, ∀ j, e.parent = some j → j < t.length

/-! ## Walks -/

section

variable {t : Table α} {e : Attached α} {cur : Option ℕ} {p q : List α} {j : ℕ}

theorem cross_append : cross (t ++ [e]) cur p =
    if e.parent = cross t cur p ∧ e.point = p then some t.length else cross t cur p := by
  unfold cross
  rw [List.zipIdx_append, List.foldl_append]
  simp

theorem walk_nil : walk t [] = cross t none [] := by
  simp [walk]

theorem walk_concat (x : α) : walk t (q ++ [x]) = cross t (walk t q) (q ++ [x]) := by
  unfold walk
  rw [List.inits_append, List.foldl_append]
  simp

/-- Where no mount is on the one that was reached, nothing is crossed. -/
theorem cross_bare (h : ∀ e ∈ t, e.parent ≠ cur) : cross t cur p = cur := by
  induction t using List.reverseRecOn with
  | nil => rfl
  | append_singleton t e ih =>
    rw [cross_append, ih fun e he => h e (List.mem_append_left _ he), if_neg]
    exact fun hc => h e (by simp) hc.1

/-- A place of the table that is there, or none. -/
def Within (n : ℕ) (cur : Option ℕ) : Prop :=
  ∀ j, cur = some j → j < n

theorem walk_empty (q : List α) : walk [] q = none := by
  induction q using List.reverseRecOn with
  | nil => rfl
  | append_singleton q x ih =>
    rw [walk_concat, ih]
    rfl

theorem cross_within (h : Within t.length cur) : Within t.length (cross t cur p) := by
  have hstep : ∀ u : Table α, cross u cur p = cur ∨ Within u.length (cross u cur p) := by
    intro u
    induction u using List.reverseRecOn with
    | nil => exact .inl rfl
    | append_singleton u e ih =>
      rw [cross_append, List.length_append, List.length_singleton]
      split_ifs
      · refine .inr fun j hj => ?_
        obtain rfl := Option.some.inj hj
        omega
      · exact ih.imp id fun h j hj => Nat.lt_succ_of_lt (h j hj)
  rcases hstep t with hc | hc
  · rw [hc]
    exact h
  · exact hc

theorem walk_within (t : Table α) (q : List α) : Within t.length (walk t q) := by
  induction q using List.reverseRecOn with
  | nil =>
    rw [walk_nil]
    exact cross_within nofun
  | append_singleton q x ih =>
    rw [walk_concat]
    exact cross_within ih

theorem grounded_attach (h : Grounded t) (p : List α) : Grounded (attach t p) := by
  intro e he j hj
  rw [attach, List.length_append, List.length_singleton]
  rcases List.mem_append.1 he with he | he
  · exact Nat.lt_succ_of_lt (h e he j hj)
  · obtain rfl := List.mem_singleton.1 he
    exact Nat.lt_succ_of_lt (walk_within t p j hj)

/-- The new mount takes the paths through its point, and no others. -/
theorem walk_attach (h : Grounded t) (p q : List α) :
    walk (attach t p) q = if p <+: q then some t.length else walk t q := by
  have hparent : walk t p ≠ some t.length := fun hc => (walk_within t p _ hc).false
  induction q using List.reverseRecOn with
  | nil =>
    rw [walk_nil, attach, cross_append, ← walk_nil]
    refine if_congr ?_ rfl rfl
    rw [List.prefix_nil]
    exact ⟨fun hc => hc.2, fun hc => ⟨by rw [hc], hc⟩⟩
  | append_singleton q x ih =>
    rw [walk_concat, ih, attach, cross_append]
    by_cases hp : p <+: q
    · have hbare : cross t (some t.length) (q ++ [x]) = some t.length :=
        cross_bare fun e he hc => (h e he _ hc).false
      rw [if_pos hp, hbare, if_neg fun hc => hparent hc.1,
        if_pos (hp.trans (List.prefix_append q [x]))]
    · rw [if_neg hp, ← walk_concat]
      refine if_congr ?_ rfl rfl
      rw [List.prefix_concat_iff]
      refine ⟨fun hc => .inl hc.2, fun hc => ?_⟩
      obtain rfl := hc.resolve_right hp
      exact ⟨rfl, rfl⟩

end

/-! ## Where a path lives -/

section

variable {ps : List (List α)} {p q : List α} {i : ℕ}

/-- The last point that leads to a path. -/
def lastCover (ps : List (List α)) (q : List α) : Option ℕ :=
  ps.zipIdx.foldl (fun best e => if e.1 <+: q then some e.2 else best) none

theorem lastCover_append : lastCover (ps ++ [p]) q =
    if p <+: q then some ps.length else lastCover ps q := by
  unfold lastCover
  rw [List.zipIdx_append, List.foldl_append]
  simp

theorem mountAll_append (ps : List (List α)) (p : List α) :
    mountAll (ps ++ [p]) = attach (mountAll ps) p := by
  simp [mountAll, List.foldl_append]

theorem mountAll_length (ps : List (List α)) : (mountAll ps).length = ps.length := by
  induction ps using List.reverseRecOn with
  | nil => rfl
  | append_singleton ps p ih =>
    rw [mountAll_append, attach, List.length_append, List.length_append, ih]
    rfl

theorem mountAll_grounded (ps : List (List α)) : Grounded (mountAll ps) := by
  induction ps using List.reverseRecOn with
  | nil => exact nofun
  | append_singleton ps p ih =>
    rw [mountAll_append]
    exact grounded_attach ih p

/-- A path lives on the last mount whose point it leads through. -/
theorem walk_mountAll (ps : List (List α)) (q : List α) :
    walk (mountAll ps) q = lastCover ps q := by
  induction ps using List.reverseRecOn with
  | nil => exact walk_empty q
  | append_singleton ps p ih =>
    rw [mountAll_append, walk_attach (mountAll_grounded ps), lastCover_append, ih,
      mountAll_length]

/-- A point with none after it that covers a path. -/
theorem lastCover_eq_some : lastCover ps q = some i ↔
    ∃ p, ps[i]? = some p ∧ p <+: q ∧ ∀ j p', i < j → ps[j]? = some p' → ¬p' <+: q := by
  induction ps using List.reverseRecOn generalizing i with
  | nil => simp [lastCover]
  | append_singleton ps p ih =>
    rw [lastCover_append]
    constructor
    · intro h
      split_ifs at h with hp
      · obtain rfl := Option.some.inj h
        refine ⟨p, by simp, hp, fun j p' hj hj' => ?_⟩
        have hlen := (List.getElem?_eq_some_iff.1 hj').1
        rw [List.length_append, List.length_singleton] at hlen
        omega
      · obtain ⟨p', hi, hcover, hlast⟩ := ih.1 h
        have hlt := (List.getElem?_eq_some_iff.1 hi).1
        refine ⟨p', by rw [List.getElem?_append_left hlt, hi], hcover, fun j p'' hj hj' => ?_⟩
        by_cases hjlt : j < ps.length
        · rw [List.getElem?_append_left hjlt] at hj'
          exact hlast j p'' hj hj'
        · have hlen := (List.getElem?_eq_some_iff.1 hj').1
          rw [List.length_append, List.length_singleton] at hlen
          obtain rfl : j = ps.length := by omega
          rw [List.getElem?_append_right le_rfl] at hj'
          simp only [Nat.sub_self, List.getElem?_cons_zero, Option.some.injEq] at hj'
          exact hj' ▸ hp
    · rintro ⟨p', hi, hcover, hlast⟩
      have hlen := (List.getElem?_eq_some_iff.1 hi).1
      rw [List.length_append, List.length_singleton] at hlen
      by_cases hlt : i < ps.length
      · have hp : ¬p <+: q := hlast ps.length p hlt (by simp)
        rw [if_neg hp]
        rw [List.getElem?_append_left hlt] at hi
        refine ih.2 ⟨p', hi, hcover, fun j p'' hj hj' => hlast j p'' hj ?_⟩
        rw [List.getElem?_append_left (List.getElem?_eq_some_iff.1 hj').1, hj']
      · obtain rfl : i = ps.length := by omega
        rw [List.getElem?_append_right le_rfl] at hi
        simp only [Nat.sub_self, List.getElem?_cons_zero, Option.some.injEq] at hi
        rw [if_pos (hi ▸ hcover)]

theorem lastCover_ne_none (hi : ps[i]? = some p) (hp : p <+: q) : lastCover ps q ≠ none := by
  induction ps using List.reverseRecOn with
  | nil => simp at hi
  | append_singleton ps p' ih =>
    rw [lastCover_append]
    split_ifs with hp'
    · simp
    · by_cases hlt : i < ps.length
      · rw [List.getElem?_append_left hlt] at hi
        exact ih hi
      · have hlen := (List.getElem?_eq_some_iff.1 hi).1
        rw [List.length_append, List.length_singleton] at hlen
        obtain rfl : i = ps.length := by omega
        rw [List.getElem?_append_right le_rfl] at hi
        simp only [Nat.sub_self, List.getElem?_cons_zero, Option.some.injEq] at hi
        exact absurd (hi ▸ hp) hp'

/-- Hidden by a later mount at a point above. -/
def HiddenBy (ps : List (List α)) (i j : ℕ) : Prop :=
  ∃ p p', ps[i]? = some p ∧ ps[j]? = some p' ∧ i < j ∧ p' <+: p ∧ p' ≠ p

/-- The last mount at the longest point of a path that no later mount hides. -/
structure Lives (ps : List (List α)) (q : List α) (i : ℕ) : Prop where
  covers : ∃ p, ps[i]? = some p ∧ p <+: q
  seen : ∀ j, ¬HiddenBy ps i j
  longest : ∀ p k p', ps[i]? = some p → ps[k]? = some p' → p' <+: q → (∀ j, ¬HiddenBy ps k j) →
    p' <+: p
  last : ∀ j, i < j → ps[j]? ≠ ps[i]?

theorem lives_of_walk (h : walk (mountAll ps) q = some i) : Lives ps q i := by
  rw [walk_mountAll, lastCover_eq_some] at h
  obtain ⟨p, hi, hcover, hlast⟩ := h
  refine ⟨⟨p, hi, hcover⟩, ?_, fun p₁ k p' hp₁ hk hcover' hseen => ?_, fun j hj hsame => ?_⟩
  · rintro j ⟨p₁, p', hp₁, hj, hlt, hpre, -⟩
    obtain rfl := Option.some.inj (hi.symm.trans hp₁)
    exact hlast j p' hlt hj (hpre.trans hcover)
  · obtain rfl := Option.some.inj (hi.symm.trans hp₁)
    rcases List.prefix_or_prefix_of_prefix hcover' hcover with hpre | hpre
    · exact hpre
    · by_cases heq : p = p'
      · exact heq ▸ List.prefix_rfl
      · have hle : k ≤ i := not_lt.1 fun hlt => hlast k p' hlt hk hcover'
        have hne : k ≠ i := by
          rintro rfl
          exact heq (Option.some.inj (hi.symm.trans hk))
        exact absurd ⟨p', p, hk, hi, lt_of_le_of_ne hle hne, hpre, heq⟩ (hseen i)
  · exact hlast j p hj (hsame.trans hi) hcover

end

end Mounts

end EngineConsole
