import Mathlib

/-!
# Edit scripts and common subsequences

A script says of the lines of two texts which are in both, which are taken out and which are put
in. The lines that stay are a common subsequence, so a script that keeps a longest one has the
fewest changes (`changes_le`).

The length of a longest common subsequence follows the heads of the lists (`IsLongest.cons`,
`IsLongest.cons_of_ne`); what the lists start or end with may be left out of the comparison
(`IsLongest.append_left`, `IsLongest.append_right`).
-/

set_option linter.unusedSectionVars false

namespace EngineConsole.EditScripts

variable {α : Type*}

/-! ## Longest common subsequences -/

/-- `n` is the length of a longest common subsequence. -/
def IsLongest (n : ℕ) (x y : List α) : Prop :=
  IsGreatest {n | ∃ l : List α, l.Sublist x ∧ l.Sublist y ∧ l.length = n} n

variable {a b : α} {x y s t : List α} {m n : ℕ}

theorem IsLongest.unique (hm : IsLongest m x y) (hn : IsLongest n x y) : m = n :=
  IsGreatest.unique hm hn

theorem isLongest_nil_left (y : List α) : IsLongest 0 [] y := by
  refine ⟨⟨[], List.nil_sublist _, List.nil_sublist _, rfl⟩, ?_⟩
  rintro _ ⟨l, hl, -, rfl⟩
  rw [List.sublist_nil.1 hl, List.length_nil]

theorem IsLongest.symm (h : IsLongest n x y) : IsLongest n y x := by
  obtain ⟨⟨l, hx, hy, hl⟩, hmax⟩ := h
  refine ⟨⟨l, hy, hx, hl⟩, ?_⟩
  rintro _ ⟨l', hy', hx', rfl⟩
  exact hmax ⟨l', hx', hy', rfl⟩

theorem isLongest_nil_right (x : List α) : IsLongest 0 x [] :=
  (isLongest_nil_left x).symm

/-- A common subsequence of lists with one head is one of their tails, and at most that head. -/
theorem tail_sublist {l : List α} (h : l.Sublist (a :: x)) : l.tail.Sublist x := by
  cases l with
  | nil => exact List.nil_sublist _
  | cons b l =>
    rcases List.sublist_cons_iff.1 h with h | ⟨r, hr, hx⟩
    · exact (List.sublist_cons_self b l).trans h
    · rw [List.tail_cons, (List.cons.inj hr).2]
      exact hx

/-- The same head stays. -/
theorem IsLongest.cons (a : α) (h : IsLongest n x y) : IsLongest (n + 1) (a :: x) (a :: y) := by
  obtain ⟨⟨l, hx, hy, rfl⟩, hmax⟩ := h
  refine ⟨⟨a :: l, hx.cons_cons a, hy.cons_cons a, rfl⟩, ?_⟩
  rintro _ ⟨l', hx', hy', rfl⟩
  have := hmax ⟨l'.tail, tail_sublist hx', tail_sublist hy', rfl⟩
  rw [List.length_tail] at this
  omega

/-- Of two other heads one is left out. -/
theorem IsLongest.cons_of_ne (hne : a ≠ b) (hm : IsLongest m x (b :: y))
    (hn : IsLongest n (a :: x) y) : IsLongest (max m n) (a :: x) (b :: y) := by
  constructor
  · rcases le_total m n with hle | hle
    · obtain ⟨l, hx, hy, hl⟩ := hn.1
      rw [max_eq_right hle]
      exact ⟨l, hx, hy.cons b, hl⟩
    · obtain ⟨l, hx, hy, hl⟩ := hm.1
      rw [max_eq_left hle]
      exact ⟨l, hx.cons a, hy, hl⟩
  · rintro _ ⟨l, hx, hy, rfl⟩
    rcases List.sublist_cons_iff.1 hx with hx' | ⟨r, rfl, -⟩
    · exact le_max_of_le_left (hm.2 ⟨l, hx', hy, rfl⟩)
    rcases List.sublist_cons_iff.1 hy with hy' | ⟨r', hr, -⟩
    · exact le_max_of_le_right (hn.2 ⟨a :: r, hx, hy', rfl⟩)
    · exact absurd (List.cons.inj hr).1 hne

/-- What both lists start with stays. -/
theorem IsLongest.append_left (h : IsLongest n x y) : ∀ s : List α,
    IsLongest (s.length + n) (s ++ x) (s ++ y)
  | [] => by
    rw [List.length_nil, Nat.zero_add]
    exact h
  | a :: s => by
    rw [List.length_cons, Nat.add_right_comm]
    exact (h.append_left s).cons a

theorem IsLongest.reverse (h : IsLongest n x y) : IsLongest n x.reverse y.reverse := by
  obtain ⟨⟨l, hx, hy, rfl⟩, hmax⟩ := h
  refine ⟨⟨l.reverse, hx.reverse, hy.reverse, l.length_reverse⟩, ?_⟩
  rintro _ ⟨l', hx', hy', rfl⟩
  refine hmax ⟨l'.reverse, ?_, ?_, l'.length_reverse⟩
  · simpa using hx'.reverse
  · simpa using hy'.reverse

/-- What both lists end with stays. -/
theorem IsLongest.append_right (h : IsLongest n x y) (t : List α) :
    IsLongest (n + t.length) (x ++ t) (y ++ t) := by
  have := (h.reverse.append_left t.reverse).reverse
  rwa [List.reverse_append, List.reverse_append, List.reverse_reverse, List.reverse_reverse,
    List.reverse_reverse, List.length_reverse, Nat.add_comm] at this

/-- The length of a longest common subsequence. -/
def lcs [DecidableEq α] : List α → List α → ℕ
  | [], _ => 0
  | _ :: _, [] => 0
  | a :: x, b :: y =>
    if a = b then lcs x y + 1 else max (lcs x (b :: y)) (lcs (a :: x) y)

section Lcs

variable [DecidableEq α]

theorem lcs_nil_left (y : List α) : lcs [] y = 0 := by
  rw [lcs]

theorem lcs_nil_right (x : List α) : lcs x [] = 0 := by
  cases x <;> rw [lcs]

theorem lcs_cons (x y : List α) : lcs (a :: x) (a :: y) = lcs x y + 1 := by
  rw [lcs, if_pos rfl]

theorem lcs_cons_of_ne (hne : a ≠ b) (x y : List α) :
    lcs (a :: x) (b :: y) = max (lcs x (b :: y)) (lcs (a :: x) y) := by
  rw [lcs, if_neg hne]

theorem isLongest_lcs (x y : List α) : IsLongest (lcs x y) x y := by
  induction x, y using lcs.induct with
  | case1 y =>
    rw [lcs_nil_left]
    exact isLongest_nil_left y
  | case2 a x =>
    rw [lcs_nil_right]
    exact isLongest_nil_right _
  | case3 x a y ih =>
    rw [lcs_cons]
    exact ih.cons a
  | case4 a x b y hne ihx ihy =>
    rw [lcs_cons_of_ne hne]
    exact ihx.cons_of_ne hne ihy

theorem lcs_le_length (x y : List α) : lcs x y ≤ x.length := by
  obtain ⟨⟨l, hx, -, hl⟩, -⟩ := isLongest_lcs x y
  exact hl ▸ hx.length_le

end Lcs

/-! ## Scripts -/

/-- Unchanged, removed or added. -/
inductive Op where
  | same | removed | added
  deriving DecidableEq

structure Entry (α : Type*) where
  op : Op
  text : α

/-- The lines of the first text. -/
def before (ops : List (Entry α)) : List α :=
  (ops.filter fun e => e.op ≠ .added).map Entry.text

/-- The lines of the second text. -/
def after (ops : List (Entry α)) : List α :=
  (ops.filter fun e => e.op ≠ .removed).map Entry.text

/-- How many entries are unchanged. -/
def kept (ops : List (Entry α)) : ℕ :=
  ops.countP fun e => e.op = .same

/-- How many entries are changed. -/
def changes (ops : List (Entry α)) : ℕ :=
  ops.countP fun e => e.op ≠ .same

section Script

variable {ops ops' : List (Entry α)} {e : Entry α}

@[simp] theorem before_nil : before ([] : List (Entry α)) = [] := rfl
@[simp] theorem after_nil : after ([] : List (Entry α)) = [] := rfl
@[simp] theorem kept_nil : kept ([] : List (Entry α)) = 0 := rfl

@[simp] theorem before_same : before (⟨.same, a⟩ :: ops) = a :: before ops := rfl
@[simp] theorem before_removed : before (⟨.removed, a⟩ :: ops) = a :: before ops := rfl
@[simp] theorem before_added : before (⟨.added, a⟩ :: ops) = before ops := rfl
@[simp] theorem after_same : after (⟨.same, a⟩ :: ops) = a :: after ops := rfl
@[simp] theorem after_removed : after (⟨.removed, a⟩ :: ops) = after ops := rfl
@[simp] theorem after_added : after (⟨.added, a⟩ :: ops) = a :: after ops := rfl
@[simp] theorem kept_removed : kept (⟨.removed, a⟩ :: ops) = kept ops := rfl
@[simp] theorem kept_added : kept (⟨.added, a⟩ :: ops) = kept ops := rfl

@[simp] theorem kept_same : kept (⟨.same, a⟩ :: ops) = kept ops + 1 := by
  rw [kept, List.countP_cons_of_pos (by simp), kept]

theorem before_append (ops ops' : List (Entry α)) :
    before (ops ++ ops') = before ops ++ before ops' := by
  rw [before, List.filter_append, List.map_append, before, before]

theorem after_append (ops ops' : List (Entry α)) :
    after (ops ++ ops') = after ops ++ after ops' := by
  rw [after, List.filter_append, List.map_append, after, after]

theorem kept_append (ops ops' : List (Entry α)) : kept (ops ++ ops') = kept ops + kept ops' :=
  List.countP_append

theorem script_same (x : List α) : before (x.map (Entry.mk .same)) = x ∧
    after (x.map (Entry.mk .same)) = x ∧ kept (x.map (Entry.mk .same)) = x.length := by
  induction x with
  | nil => exact ⟨rfl, rfl, rfl⟩
  | cons a x ih => simp [ih]

theorem script_removed (x : List α) : before (x.map (Entry.mk .removed)) = x ∧
    after (x.map (Entry.mk .removed)) = [] ∧ kept (x.map (Entry.mk .removed)) = 0 := by
  induction x with
  | nil => exact ⟨rfl, rfl, rfl⟩
  | cons a x ih => simp [ih]

theorem script_added (y : List α) : before (y.map (Entry.mk .added)) = [] ∧
    after (y.map (Entry.mk .added)) = y ∧ kept (y.map (Entry.mk .added)) = 0 := by
  induction y with
  | nil => exact ⟨rfl, rfl, rfl⟩
  | cons a y ih => simp [ih]

/-- The unchanged lines are a common subsequence. -/
theorem kept_le (h : IsLongest n (before ops) (after ops)) : kept ops ≤ n := by
  refine h.2 ⟨(ops.filter fun e => e.op = .same).map Entry.text, ?_, ?_, ?_⟩
  · refine (List.Sublist.map _ ?_)
    refine List.monotone_filter_right ops fun e he => ?_
    simp_all
  · refine (List.Sublist.map _ ?_)
    refine List.monotone_filter_right ops fun e he => ?_
    simp_all
  · rw [List.length_map, kept, List.countP_eq_length_filter]

/-- Both texts are the unchanged lines twice and the changed ones once. -/
theorem length_texts (ops : List (Entry α)) :
    (before ops).length + (after ops).length = 2 * kept ops + changes ops := by
  induction ops with
  | nil => rfl
  | cons e ops ih =>
    obtain ⟨op, a⟩ := e
    cases op <;> simp [changes] at ih ⊢ <;> omega

/-- A script that keeps a longest common subsequence has the fewest changes. -/
theorem changes_le (h : IsLongest (kept ops) (before ops) (after ops))
    (hbefore : before ops' = before ops) (hafter : after ops' = after ops) :
    changes ops ≤ changes ops' := by
  have hle : kept ops' ≤ kept ops := kept_le (by rwa [hbefore, hafter])
  have hlen := length_texts ops
  have hlen' := length_texts ops'
  rw [hbefore, hafter] at hlen'
  omega

end Script

end EngineConsole.EditScripts
