import EngineConsole.EditScripts
import EngineConsole.PosixPath

/-!
# The diff of an export

`lineDiff` and `diffText` of `cfg-diff.js`. What the two texts start and end with alike is cut off;
for the rest a table of the lengths of longest common subsequences is filled from the end
(`Filled`), and a walk through it gives the script (`walk_spec`).

`diffText` keeps the changed lines and those near them (`Near`), with a mark where lines are left
out.
-/

set_option linter.unusedSectionVars false

namespace EngineConsole.LineDiff

open EditScripts
open Posix (not_mem_of_mem_splitOn)

abbrev Text := List Char

/-! ## The code -/

/-- `MAX_CELLS` -/
def maxCells : ℕ := 4000000

section Table

variable {α : Type*} [DecidableEq α]

/-- How many elements two lists have alike at their start. -/
def common : List α → List α → ℕ
  | a :: x, b :: y => if a = b then common x y + 1 else 0
  | _, _ => 0

/-- A table of words of 32 bits, by its flat index. -/
abbrev Table := ℕ → ℕ

variable (x y : List α)

/-- The value of a cell. -/
def cell (w : ℕ) (L : Table) (i j : ℕ) : ℕ :=
  if x[i]? = y[j]? then L ((i + 1) * w + j + 1) + 1
  else max (L ((i + 1) * w + j)) (L (i * w + j + 1))

/-- The cells of row `i` before column `j`, from the last one. -/
def fillRow (w i : ℕ) : ℕ → Table → Table
  | 0, L => L
  | j + 1, L => fillRow w i j (Function.update L (i * w + j) (cell x y w L i j % 2 ^ 32))

/-- The rows before row `i`, from the last one. -/
def fillRows (w : ℕ) : ℕ → Table → Table
  | 0, L => L
  | i + 1, L => fillRows w i (fillRow x y w i y.length L)

/-- The table. -/
def table : Table :=
  fillRows x y (y.length + 1) x.length fun _ => 0

/-- The walk through the table. -/
def walk (w : ℕ) (L : Table) (i j : ℕ) : List (Entry α) :=
  if h : i < x.length ∧ j < y.length then
    if x[i] = y[j] then ⟨.same, x[i]⟩ :: walk w L (i + 1) (j + 1)
    else if L (i * w + j + 1) ≤ L ((i + 1) * w + j) then ⟨.removed, x[i]⟩ :: walk w L (i + 1) j
    else ⟨.added, y[j]⟩ :: walk w L i (j + 1)
  else (x.drop i).map (Entry.mk .removed) ++ (y.drop j).map (Entry.mk .added)
termination_by x.length - i + (y.length - j)

end Table

/-- `lineDiff` -/
def lineDiff (a b : Text) : Option (List (Entry Text)) :=
  let x := a.splitOn '\n'
  let y := b.splitOn '\n'
  let s := common x y
  let e := common (x.drop s).reverse (y.drop s).reverse
  let xm := (x.take (x.length - e)).drop s
  let ym := (y.take (y.length - e)).drop s
  if maxCells < (xm.length + 1) * (ym.length + 1) then none
  else
    some ((x.take s).map (Entry.mk .same) ++ walk xm ym (ym.length + 1) (table xm ym) 0 0 ++
      (x.drop (x.length - e)).map (Entry.mk .same))

/-- The mark of an entry. -/
def mark : Op → Char
  | .same => ' '
  | .removed => '-'
  | .added => '+'

/-- The line of an entry. -/
def render (e : Entry Text) : Text :=
  mark e.op :: ' ' :: e.text

/-- The line for lines that are left out. -/
def ellipsis : Text :=
  ['…']

/-- The indexes that are shown. -/
def keep (ops : List (Entry Text)) (context : ℕ) : List ℕ :=
  (List.range ops.length).flatMap fun i =>
    if (ops[i]?.map Entry.op).any (· ≠ .same) then
      List.range' (i - context) (min (ops.length - 1) (i + context) + 1 - (i - context))
    else []

/-- The lines from index `i` on; `gap` says that lines were left out before. -/
def rows (shown : List ℕ) : ℕ → Bool → List (Entry Text) → List Text
  | _, gap, [] => if gap then [ellipsis] else []
  | i, gap, e :: ops =>
    if i ∈ shown then (if gap then [ellipsis] else []) ++ render e :: rows shown (i + 1) false ops
    else rows shown (i + 1) true ops

/-- `diffText` -/
def diffText (ops : List (Entry Text)) (context : ℕ) : Text :=
  if ops.any fun e => e.op ≠ .same then
    ['\n'].intercalate (rows (keep ops context) 0 false ops)
  else []

/-! ## The table -/

section Fill

variable {α : Type*} [DecidableEq α] {x y : List α} {L : Table} {i j : ℕ}

/-- What two lists have alike at their start. -/
theorem common_split : ∀ x y : List α, ∃ s u v, x = s ++ u ∧ y = s ++ v ∧ s.length = common x y
  | [], y => ⟨[], [], y, rfl, rfl, rfl⟩
  | a :: x, [] => ⟨[], a :: x, [], rfl, rfl, rfl⟩
  | a :: x, b :: y => by
    by_cases hab : a = b
    · obtain ⟨s, u, v, hx, hy, hlen⟩ := common_split x y
      refine ⟨a :: s, u, v, ?_, ?_, ?_⟩
      · rw [List.cons_append, ← hx]
      · rw [List.cons_append, ← hy, hab]
      · rw [common, if_pos hab, List.length_cons, hlen]
    · exact ⟨[], a :: x, b :: y, rfl, rfl, by rw [common, if_neg hab]; rfl⟩

/-- The cells from row `i` and column `j` on are filled. -/
def Filled (x y : List α) (L : Table) (i j : ℕ) : Prop :=
  ∀ i' ≤ x.length, ∀ j' ≤ y.length, i < i' ∨ i' = i ∧ j ≤ j' ∨ j' = y.length →
    L (i' * (y.length + 1) + j') = lcs (x.drop i') (y.drop j')

/-- A flat index has one row and one column. -/
theorem index_inj {w i j i' j' : ℕ} (hj : j < w) (hj' : j' < w) (h : i * w + j = i' * w + j') :
    i = i' ∧ j = j' := by
  have hrow : i = i' := by
    have := congrArg (· / w) h
    simpa [Nat.mul_comm _ w, Nat.mul_add_div (Nat.zero_lt_of_lt hj), Nat.div_eq_of_lt hj,
      Nat.div_eq_of_lt hj'] using this
  subst hrow
  exact ⟨rfl, Nat.add_left_cancel h⟩

theorem cell_eq (hi : i < x.length) (hj : j < y.length) (h : Filled x y L i (j + 1)) :
    cell x y (y.length + 1) L i j = lcs (x.drop i) (y.drop j) := by
  have hdiag := h (i + 1) hi (j + 1) hj (.inl (Nat.lt_succ_self i))
  have hdown := h (i + 1) hi j hj.le (.inl (Nat.lt_succ_self i))
  have hright := h i hi.le (j + 1) hj (.inr (.inl ⟨rfl, le_rfl⟩))
  rw [cell, List.getElem?_eq_getElem hi, List.getElem?_eq_getElem hj,
    List.drop_eq_getElem_cons hi, List.drop_eq_getElem_cons hj]
  by_cases heq : x[i] = y[j]
  · rw [if_pos (congrArg some heq), Nat.add_assoc, hdiag, heq, lcs_cons]
  · rw [if_neg (mt Option.some.inj heq), hdown, Nat.add_assoc, hright, lcs_cons_of_ne heq,
      ← List.drop_eq_getElem_cons hi, ← List.drop_eq_getElem_cons hj]

/-- One more cell is filled. -/
theorem Filled.cell (hi : i < x.length) (hj : j < y.length) (hx : x.length < 2 ^ 32)
    (h : Filled x y L i (j + 1)) : Filled x y (Function.update L (i * (y.length + 1) + j)
      (cell x y (y.length + 1) L i j % 2 ^ 32)) i j := by
  intro i' hi' j' hj' hcell
  rw [Function.update_apply]
  split_ifs with hindex
  · obtain ⟨rfl, rfl⟩ := index_inj (by omega) (by omega) hindex
    have hle : lcs (x.drop i') (y.drop j') ≤ x.length :=
      (lcs_le_length _ _).trans (List.length_drop ▸ Nat.sub_le _ _)
    rw [cell_eq hi hj h, Nat.mod_eq_of_lt (by omega)]
  · refine h i' hi' j' hj' ?_
    rcases hcell with hcell | ⟨rfl, hle⟩ | hcell
    · exact .inl hcell
    · refine .inr (.inl ⟨rfl, ?_⟩)
      rcases Nat.eq_or_lt_of_le hle with rfl | hlt
      exacts [absurd rfl hindex, hlt]
    · exact .inr (.inr hcell)

theorem Filled.row (hi : i < x.length) (hx : x.length < 2 ^ 32) : ∀ (j : ℕ) {L : Table},
    j ≤ y.length → Filled x y L i j → Filled x y (fillRow x y (y.length + 1) i j L) i 0
  | 0, _, _, h => h
  | j + 1, _, hj, h => Filled.row hi hx j (Nat.le_of_lt hj) (h.cell hi hj hx)

/-- A filled row is the start of the row before it. -/
theorem Filled.next (h : Filled x y L (i + 1) 0) : Filled x y L i y.length := by
  intro i' hi' j' hj' hcell
  refine h i' hi' j' hj' ?_
  omega

theorem Filled.rows (hx : x.length < 2 ^ 32) : ∀ (i : ℕ) {L : Table}, i ≤ x.length →
    Filled x y L i 0 → Filled x y (fillRows x y (y.length + 1) i L) 0 0
  | 0, _, _, h => h
  | i + 1, _, hi, h => Filled.rows hx i (Nat.le_of_lt hi) (h.next.row hi hx y.length le_rfl)

/-- The table has the lengths of all longest common subsequences. -/
theorem filled_table (hx : x.length < 2 ^ 32) : Filled x y (table x y) 0 0 := by
  refine Filled.rows hx _ le_rfl fun i' hi' j' hj' hcell => ?_
  rcases hcell with hcell | ⟨rfl, -⟩ | rfl
  · omega
  · rw [List.drop_length, lcs_nil_left]
  · rw [List.drop_length, lcs_nil_right]

/-- The walk is a script for what is left, which keeps as much as the table says. -/
theorem walk_spec (h : Filled x y L 0 0) (hi : i ≤ x.length) (hj : j ≤ y.length) :
    before (walk x y (y.length + 1) L i j) = x.drop i ∧
      after (walk x y (y.length + 1) L i j) = y.drop j ∧
      kept (walk x y (y.length + 1) L i j) = lcs (x.drop i) (y.drop j) := by
  have hcell (i' j' : ℕ) (hi' : i' ≤ x.length) (hj' : j' ≤ y.length) :
      L (i' * (y.length + 1) + j') = lcs (x.drop i') (y.drop j') :=
    h i' hi' j' hj' (by omega)
  fun_induction walk x y (y.length + 1) L i j with
  | case1 i j hin heq ih =>
    obtain ⟨hbefore, hafter, hkept⟩ := ih hin.1 hin.2
    rw [List.drop_eq_getElem_cons hin.1, List.drop_eq_getElem_cons hin.2, heq, lcs_cons]
    simp [hbefore, hafter, hkept]
  | case2 i j hin hne hle ih =>
    obtain ⟨hbefore, hafter, hkept⟩ := ih hin.1 hj
    rw [Nat.add_assoc, hcell i (j + 1) hi hin.2, hcell (i + 1) j hin.1 hj] at hle
    have hlcs : lcs (x.drop i) (y.drop j) = lcs (x.drop (i + 1)) (y.drop j) := by
      rw [List.drop_eq_getElem_cons hin.1, List.drop_eq_getElem_cons hin.2, lcs_cons_of_ne hne,
        ← List.drop_eq_getElem_cons hin.1, ← List.drop_eq_getElem_cons hin.2, max_eq_left hle]
    rw [hlcs, List.drop_eq_getElem_cons hin.1]
    simp [hbefore, hafter, hkept]
  | case3 i j hin hne hlt ih =>
    obtain ⟨hbefore, hafter, hkept⟩ := ih hi hin.2
    rw [Nat.add_assoc, hcell i (j + 1) hi hin.2, hcell (i + 1) j hin.1 hj] at hlt
    have hlcs : lcs (x.drop i) (y.drop j) = lcs (x.drop i) (y.drop (j + 1)) := by
      rw [List.drop_eq_getElem_cons hin.1, List.drop_eq_getElem_cons hin.2, lcs_cons_of_ne hne,
        ← List.drop_eq_getElem_cons hin.1, ← List.drop_eq_getElem_cons hin.2,
        max_eq_right (Nat.le_of_not_le hlt)]
    rw [hlcs, List.drop_eq_getElem_cons hin.2]
    simp [hbefore, hafter, hkept]
  | case4 i j hout =>
    obtain ⟨hbefore, hafter, hkept⟩ := script_removed (x.drop i)
    obtain ⟨hbefore', hafter', hkept'⟩ := script_added (y.drop j)
    have hzero : lcs (x.drop i) (y.drop j) = 0 := by
      rcases Nat.eq_or_lt_of_le hi with rfl | hlt
      · rw [List.drop_length, lcs_nil_left]
      · obtain rfl : j = y.length := by omega
        rw [List.drop_length, lcs_nil_right]
    rw [before_append, after_append, kept_append, hbefore, hbefore', hafter, hafter', hkept, hkept',
      hzero]
    simp

end Fill

/-! ## The script of two texts -/

section Script

variable {a b : Text} {ops : List (Entry Text)}

/-- What is cut off at both ends is alike. -/
theorem trimmed {α : Type*} [DecidableEq α] (x y : List α) : ∃ s t u v,
    x = s ++ u ++ t ∧ y = s ++ v ++ t ∧ s.length = common x y ∧
      t.length = common (x.drop (common x y)).reverse (y.drop (common x y)).reverse := by
  obtain ⟨s, u, v, hx, hy, hs⟩ := common_split x y
  have hu : x.drop (common x y) = u := by
    conv_lhs => rw [← hs, hx]
    exact List.drop_left
  have hv : y.drop (common x y) = v := by
    conv_lhs => rw [← hs, hy]
    exact List.drop_left
  obtain ⟨t, u', v', hu', hv', ht⟩ := common_split u.reverse v.reverse
  refine ⟨s, t.reverse, u'.reverse, v'.reverse, ?_, ?_, hs, ?_⟩
  · rw [hx, List.append_assoc, ← List.reverse_append, ← hu', List.reverse_reverse]
  · rw [hy, List.append_assoc, ← List.reverse_append, ← hv', List.reverse_reverse]
  · rw [hu, hv, List.length_reverse, ht]

theorem lineDiff_script (h : lineDiff a b = some ops) :
    before ops = a.splitOn '\n' ∧ after ops = b.splitOn '\n' ∧
      IsLongest (kept ops) (a.splitOn '\n') (b.splitOn '\n') := by
  obtain ⟨s, t, u, v, hx, hy, hs, ht⟩ := trimmed (a.splitOn '\n') (b.splitOn '\n')
  have hlen (z : List Text) : (s ++ z ++ t).length - t.length = (s ++ z).length := by
    rw [List.length_append, Nat.add_sub_cancel]
  have hmid (z : List Text) : (((s ++ z ++ t).take ((s ++ z ++ t).length - t.length)).drop
      s.length) = z := by
    rw [hlen, List.take_left, List.drop_left]
  rw [lineDiff, ← ht, ← hs] at h
  rw [hx, hy, hmid, hmid] at h
  split_ifs at h with hcells
  obtain rfl := Option.some.inj h
  have hshort : u.length < 2 ^ 32 := by
    rw [maxCells] at hcells
    nlinarith
  obtain ⟨hbefore, hafter, hkept⟩ :=
    walk_spec (filled_table (y := v) hshort) (Nat.zero_le _) (Nat.zero_le _)
  obtain ⟨hbefore_s, hafter_s, hkept_s⟩ := script_same s
  obtain ⟨hbefore_t, hafter_t, hkept_t⟩ := script_same t
  have htake : (s ++ u ++ t).take s.length = s := by
    rw [List.append_assoc, List.take_left]
  have hdrop : (s ++ u ++ t).drop ((s ++ u ++ t).length - t.length) = t := by
    rw [hlen, List.drop_left]
  rw [htake, hdrop, hx, hy]
  simp only [before_append, after_append, kept_append, hbefore, hafter, hkept, hbefore_s, hafter_s,
    hkept_s, hbefore_t, hafter_t, hkept_t, List.drop_zero]
  exact ⟨trivial, trivial, ((isLongest_lcs u v).append_left s).append_right t⟩

/-- A text of a script is a line of one of the texts. -/
theorem mem_texts {e : Entry Text} (he : e ∈ ops) : e.text ∈ before ops ∨ e.text ∈ after ops := by
  cases hop : e.op with
  | added =>
    refine .inr (List.mem_map.2 ⟨e, List.mem_filter.2 ⟨he, ?_⟩, rfl⟩)
    rw [hop]
    rfl
  | same =>
    refine .inl (List.mem_map.2 ⟨e, List.mem_filter.2 ⟨he, ?_⟩, rfl⟩)
    rw [hop]
    rfl
  | removed =>
    refine .inl (List.mem_map.2 ⟨e, List.mem_filter.2 ⟨he, ?_⟩, rfl⟩)
    rw [hop]
    rfl

theorem lineDiff_lines (h : lineDiff a b = some ops) : ∀ e ∈ ops, '\n' ∉ e.text := by
  obtain ⟨hbefore, hafter, -⟩ := lineDiff_script h
  intro e he
  rcases mem_texts he with hmem | hmem
  · exact not_mem_of_mem_splitOn _ (hbefore ▸ hmem)
  · exact not_mem_of_mem_splitOn _ (hafter ▸ hmem)

end Script

/-! ## The text of a script -/

/-- The entry at an index is changed. -/
def Changed (ops : List (Entry Text)) (i : ℕ) : Prop :=
  (ops[i]?.map Entry.op).any (· ≠ .same) = true

/-- A changed entry is at most `context` entries away. -/
def Near (ops : List (Entry Text)) (context i : ℕ) : Prop :=
  ∃ j < ops.length, Changed ops j ∧ i ≤ j + context ∧ j ≤ i + context

instance (ops : List (Entry Text)) (i : ℕ) : Decidable (Changed ops i) :=
  inferInstanceAs (Decidable (_ = true))

instance (ops : List (Entry Text)) (context i : ℕ) : Decidable (Near ops context i) :=
  inferInstanceAs (Decidable (∃ j < ops.length, Changed ops j ∧ i ≤ j + context ∧ j ≤ i + context))

/-- The lines of a text other than the marks for what is left out. -/
def shownLines (t : Text) : List Text :=
  if t = [] then [] else (t.splitOn '\n').filter (· ≠ ellipsis)

section Rows

variable {ops : List (Entry Text)} {context i : ℕ} {shown : List ℕ} {gap : Bool} {e : Entry Text}

theorem mem_keep (hi : i < ops.length) : i ∈ keep ops context ↔ Near ops context i := by
  rw [keep, List.mem_flatMap]
  constructor
  · rintro ⟨j, hj, hmem⟩
    split_ifs at hmem with hchanged
    · have := List.mem_range'_1.1 hmem
      exact ⟨j, List.mem_range.1 hj, hchanged, by omega, by omega⟩
    · cases hmem
  · rintro ⟨j, hj, hchanged, hle, hge⟩
    refine ⟨j, List.mem_range.2 hj, ?_⟩
    have hif : (ops[j]?.map Entry.op).any (· ≠ .same) = true := hchanged
    rw [if_pos hif, List.mem_range'_1]
    omega

theorem render_ne (e : Entry Text) : render e ≠ ellipsis := by
  intro h
  cases (List.cons.inj h).2

theorem newline_render (h : '\n' ∉ e.text) : '\n' ∉ render e := by
  have hmark : '\n' ≠ mark e.op := by cases e.op <;> decide
  rw [render, List.mem_cons, List.mem_cons]
  rintro (hc | hc | hc)
  exacts [hmark hc, absurd hc (by decide), h hc]

/-- The rows without the marks are the shown entries. -/
theorem filter_rows : ∀ (ops : List (Entry Text)) (i : ℕ) (gap : Bool),
    (rows shown i gap ops).filter (· ≠ ellipsis) =
      ((ops.zipIdx i).filter fun p => p.2 ∈ shown).map fun p => render p.1
  | [], i, gap => by cases gap <;> rfl
  | e :: ops, i, gap => by
    rw [rows, List.zipIdx_cons]
    by_cases hi : i ∈ shown
    · have hgap : (if gap = true then [ellipsis] else []).filter (· ≠ ellipsis) = [] := by
        cases gap <;> rfl
      rw [if_pos hi, List.filter_append, hgap, List.nil_append,
        List.filter_cons_of_pos (by simpa using render_ne e), filter_rows ops,
        List.filter_cons_of_pos (by simpa using hi), List.map_cons]
    · rw [if_neg hi, filter_rows ops, List.filter_cons_of_neg (by simpa using hi)]

theorem newline_rows : ∀ {ops : List (Entry Text)}, (∀ e ∈ ops, '\n' ∉ e.text) →
    ∀ (i : ℕ) (gap : Bool), ∀ row ∈ rows shown i gap ops, '\n' ∉ row
  | [], _, i, gap, row, hrow => by
    cases gap with
    | false => cases hrow
    | true =>
      rw [List.mem_singleton.1 hrow]
      decide
  | e :: ops, h, i, gap, row, hrow => by
    obtain ⟨he, hrest⟩ := List.forall_mem_cons.1 h
    rw [rows] at hrow
    split_ifs at hrow with hi hgap
    · rcases List.mem_append.1 hrow with hrow | hrow
      · rw [List.mem_singleton.1 hrow]
        decide
      · rcases List.mem_cons.1 hrow with rfl | hrow
        exacts [newline_render he, newline_rows hrest _ _ _ hrow]
    · rcases List.mem_cons.1 hrow with rfl | hrow
      exacts [newline_render he, newline_rows hrest _ _ _ hrow]
    · exact newline_rows hrest _ _ _ hrow

theorem changed_of_any (h : ops.any (fun e => e.op ≠ .same) = true) :
    ∃ i < ops.length, Changed ops i := by
  obtain ⟨e, he, hop⟩ := List.any_eq_true.1 h
  obtain ⟨i, hi, rfl⟩ := List.getElem_of_mem he
  refine ⟨i, hi, ?_⟩
  rw [Changed, List.getElem?_eq_getElem hi]
  exact hop

theorem any_of_changed (h : Changed ops i) : ops.any (fun e => e.op ≠ .same) = true := by
  rw [Changed] at h
  cases hget : ops[i]? with
  | none =>
    rw [hget] at h
    cases h
  | some e =>
    rw [hget] at h
    exact List.any_eq_true.2 ⟨e, List.mem_of_getElem? hget, h⟩

/-- The text has the changed entries and the unchanged ones near them. -/
theorem shownLines_diffText (h : ∀ e ∈ ops, '\n' ∉ e.text) (context : ℕ) :
    shownLines (diffText ops context) =
      (ops.zipIdx.filter fun p => Near ops context p.2).map fun p => render p.1 := by
  rw [diffText]
  split_ifs with hany
  · have hnear : ops.zipIdx.filter (fun p => Near ops context p.2) =
        ops.zipIdx.filter fun p => p.2 ∈ keep ops context := by
      refine List.filter_congr fun p hp => ?_
      have hi : p.2 < ops.length := by simpa using List.snd_lt_of_mem_zipIdx hp
      exact decide_eq_decide.2 (mem_keep hi).symm
    have hrows : (rows (keep ops context) 0 false ops).filter (· ≠ ellipsis) = _ :=
      filter_rows ops 0 false
    rw [hnear, ← hrows]
    by_cases hempty : rows (keep ops context) 0 false ops = []
    · rw [hempty]
      rfl
    have hsplit : (['\n'].intercalate (rows (keep ops context) 0 false ops)).splitOn '\n' =
        rows (keep ops context) 0 false ops :=
      List.splitOn_intercalate '\n' (newline_rows h 0 false) hempty
    have hne : ['\n'].intercalate (rows (keep ops context) 0 false ops) ≠ [] := by
      -- a row would be empty, which the row of an entry is not
      intro htext
      rw [htext, List.splitOn_nil] at hsplit
      rw [← hsplit] at hrows
      have hmem : [] ∈ [([] : Text)].filter (· ≠ ellipsis) := List.mem_singleton.2 rfl
      rw [hrows] at hmem
      obtain ⟨p, -, hp⟩ := List.mem_map.1 hmem
      cases hp
    rw [shownLines, if_neg hne, hsplit]
  · have hnone : ops.zipIdx.filter (fun p => Near ops context p.2) = [] := by
      refine List.filter_eq_nil_iff.2 fun p _ hnear => hany ?_
      obtain ⟨j, -, hchanged, -⟩ := of_decide_eq_true hnear
      exact any_of_changed hchanged
    rw [hnone]
    rfl

end Rows

/-- The diff of two texts is a script from the one to the other with the fewest changes, and its
text shows every changed line, and just the unchanged ones near a change. -/
theorem lineDiff_smallest {a b : Text} {ops : List (Entry Text)} (h : lineDiff a b = some ops) :
    before ops = a.splitOn '\n' ∧ after ops = b.splitOn '\n' ∧
      IsLongest (kept ops) (a.splitOn '\n') (b.splitOn '\n') ∧
      (∀ ops' : List (Entry Text), before ops' = a.splitOn '\n' → after ops' = b.splitOn '\n' →
        changes ops ≤ changes ops') ∧
      ∀ context, shownLines (diffText ops context) =
        (ops.zipIdx.filter fun p => Near ops context p.2).map fun p => render p.1 := by
  obtain ⟨hbefore, hafter, hlongest⟩ := lineDiff_script h
  refine ⟨hbefore, hafter, hlongest, fun ops' hbefore' hafter' => ?_,
    shownLines_diffText (lineDiff_lines h)⟩
  rw [← hbefore, ← hafter] at hlongest
  exact changes_le hlongest (hbefore'.trans hbefore.symm) (hafter'.trans hafter.symm)

/-- One line is changed, between two that are not. -/
theorem lineDiff_smallest_changed :
    shownLines (diffText [⟨.same, ['a']⟩, ⟨.removed, ['b']⟩, ⟨.added, ['c']⟩, ⟨.same, ['d']⟩] 0) =
      ["- b".toList, "+ c".toList] := by
  have h : lineDiff "a\nb\nd".toList "a\nc\nd".toList =
      some [⟨.same, ['a']⟩, ⟨.removed, ['b']⟩, ⟨.added, ['c']⟩, ⟨.same, ['d']⟩] := by
    have hwalk : walk [['b']] [['c']] 2 (table [['b']] [['c']]) 0 0 =
        [⟨.removed, ['b']⟩, ⟨.added, ['c']⟩] := by
      rw [walk, dif_pos (by decide), if_neg (by decide), if_pos (by decide), walk,
        dif_neg (by decide)]
      rfl
    rw [lineDiff, if_neg (by decide)]
    change some ([⟨.same, ['a']⟩] ++ walk [['b']] [['c']] 2 (table [['b']] [['c']]) 0 0 ++
      [⟨.same, ['d']⟩]) = _
    rw [hwalk]
    rfl
  rw [(lineDiff_smallest h).2.2.2.2 0]
  decide

end EngineConsole.LineDiff
