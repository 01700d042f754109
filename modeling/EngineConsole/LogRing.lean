import Mathlib

/-!
# A ring over a log, and its readers

A log grows by one entry at a time, and a ring of a fixed length keeps its end. A reader has a
position in the log : it takes what the ring still has from there on, and is then at the end of
the log.

`Buffer.Of` relates a ring to the log that was pushed into it, and `Reads` a reader to the log. A
push keeps both (`Buffer.Of.push`, `Reads.push`), a read takes all that is kept (`Reads.read`), and
a reader that was never behind by more than the length of the ring has the log (`Reads.eq_log`).
-/

set_option linter.unusedSectionVars false

namespace EngineConsole

namespace LogRing

variable {α : Type*} {cap : ℕ} {log texts : List α} {pos base base' : ℕ} {late : Bool}

/-! ## The ring -/

/-- The end of a log, and the number of entries before it. -/
structure Buffer (α : Type*) where
  lines : List α
  base : ℕ

/-- Nothing was pushed. -/
def Buffer.empty : Buffer α :=
  ⟨[], 0⟩

/-- A full ring drops its first entry. -/
def Buffer.push (cap : ℕ) (r : Buffer α) (a : α) : Buffer α :=
  if r.lines.length = cap then ⟨r.lines.tail ++ [a], r.base + 1⟩ else ⟨r.lines ++ [a], r.base⟩

/-- The ring keeps the end of the log, and all of it while it is not full. -/
structure Buffer.Of (cap : ℕ) (log : List α) (r : Buffer α) : Prop where
  lines : r.lines = log.drop r.base
  le : r.base ≤ log.length
  full : 0 < r.base → r.lines.length = cap
  short : r.lines.length ≤ cap

theorem Buffer.Of.empty : (Buffer.empty : Buffer α).Of cap [] :=
  ⟨rfl, le_rfl, fun h => absurd h (lt_irrefl 0), Nat.zero_le _⟩

theorem Buffer.Of.length {r : Buffer α} (h : r.Of cap log) : r.base + r.lines.length = log.length := by
  have hlen := congrArg List.length h.lines
  have hle := h.le
  rw [List.length_drop] at hlen
  omega

theorem Buffer.Of.push {r : Buffer α} (h : r.Of cap log) (hcap : 0 < cap) (a : α) :
    (r.push cap a).Of cap (log ++ [a]) := by
  have hlen := h.length
  unfold Buffer.push
  split_ifs with hfull
  · have hlt : r.base < log.length := by omega
    refine ⟨?_, ?_, fun _ => ?_, ?_⟩
    · dsimp only
      rw [List.drop_append_of_le_length hlt, h.lines, List.tail_drop]
    · rw [List.length_append]
      exact Nat.add_le_add_right h.le 1
    · rw [List.length_append, List.length_tail, List.length_singleton]
      omega
    · rw [List.length_append, List.length_tail, List.length_singleton]
      omega
  · refine ⟨?_, ?_, fun hbase => absurd (h.full hbase) hfull, ?_⟩
    · dsimp only
      rw [List.drop_append_of_le_length h.le, h.lines]
    · rw [List.length_append]
      exact Nat.le_succ_of_le h.le
    · rw [List.length_append, List.length_singleton]
      exact Nat.lt_of_le_of_ne h.short hfull

theorem Buffer.base_le_push (r : Buffer α) (a : α) : r.base ≤ (r.push cap a).base := by
  unfold Buffer.push
  split_ifs
  · exact Nat.le_succ _
  · exact le_rfl

/-! ## Readers -/

/-- A reader at `pos` that has taken `texts` : entries of the log in order, each once, and of
those before its position all but what the ring had dropped; all of them if it was never
late. -/
def Reads (log : List α) (base pos : ℕ) (texts : List α) (late : Bool) : Prop :=
  pos ≤ log.length ∧ ∃ taken : List ℕ, taken.Pairwise (· < ·) ∧ (∀ n ∈ taken, n < pos) ∧
    texts.map some = taken.map (fun n => log[n]?) ∧ (∀ n < pos, n ∈ taken ∨ n < base) ∧
    (late = false → taken = List.range pos)

theorem Reads.start (log : List α) (base : ℕ) : Reads log base 0 [] false :=
  ⟨Nat.zero_le _, [], .nil, by simp, rfl, by simp, fun _ => rfl⟩

/-- The log grows, and the ring drops more. -/
theorem Reads.push (h : Reads log base pos texts late) (hbase : base ≤ base') (a : α) :
    Reads (log ++ [a]) base' pos texts late := by
  obtain ⟨hpos, taken, hsorted, hlt, htexts, hkept, hall⟩ := h
  refine ⟨?_, taken, hsorted, hlt, htexts.trans (List.map_congr_left fun n hn => ?_),
    fun n hn => (hkept n hn).imp_right fun hb => hb.trans_le hbase, hall⟩
  · rw [List.length_append]
    exact Nat.le_add_right_of_le hpos
  · exact (List.getElem?_append_left ((hlt n hn).trans_le hpos)).symm

/-- What a reader takes next. -/
def Buffer.from (r : Buffer α) (pos : ℕ) : List α :=
  r.lines.drop (max pos r.base - r.base)

theorem Buffer.Of.from_eq {r : Buffer α} (h : r.Of cap log) :
    r.from pos = log.drop (max pos r.base) := by
  rw [Buffer.from, h.lines, List.drop_drop]
  congr 1
  omega

/-- A reader takes all that the ring has from its position on, and is at the end. -/
theorem Reads.read {r : Buffer α} (hr : r.Of cap log) (h : Reads log r.base pos texts late) :
    max pos r.base + (r.from pos).length = log.length ∧
      Reads log r.base (max pos r.base + (r.from pos).length) (texts ++ r.from pos)
        (late || decide (cap < log.length - pos)) := by
  obtain ⟨hpos, taken, hsorted, hlt, htexts, hkept, hall⟩ := h
  have hle : max pos r.base ≤ log.length := max_le hpos hr.le
  have hend : max pos r.base + (r.from pos).length = log.length := by
    rw [hr.from_eq, List.length_drop]
    omega
  refine ⟨hend, hend.le, taken ++ List.range' (max pos r.base) (r.from pos).length, ?_, ?_, ?_, ?_,
    ?_⟩
  · refine List.pairwise_append.2 ⟨hsorted, List.pairwise_lt_range', fun n hn m hm => ?_⟩
    have hm' := (List.mem_range'_1.1 hm).1
    exact (hlt n hn).trans_le ((le_max_left _ _).trans hm')
  · intro n hn
    rcases List.mem_append.1 hn with hn | hn
    · exact ((hlt n hn).trans_le (le_max_left _ _)).trans_le (Nat.le_add_right _ _)
    · exact (List.mem_range'_1.1 hn).2
  · rw [List.map_append, List.map_append, htexts]
    congr 1
    refine List.ext_getElem? fun i => ?_
    rw [List.getElem?_map, List.getElem?_map, hr.from_eq, List.getElem?_drop]
    by_cases hi : max pos r.base + i < log.length
    · have hi' : i < log.length - max pos r.base := by omega
      rw [List.getElem?_range' (by rwa [List.length_drop]), Option.map_some, Nat.one_mul,
        List.getElem?_eq_getElem hi]
      rfl
    · rw [List.getElem?_eq_none (by omega), List.getElem?_eq_none (by simp; omega)]
      rfl
  · intro n hn
    by_cases hn' : n < max pos r.base
    · rcases Nat.lt_or_ge n pos with hp | hp
      · exact (hkept n hp).imp_left (List.mem_append_left _)
      · exact .inr (by omega)
    · exact .inl (List.mem_append_right _ (List.mem_range'_1.2 ⟨Nat.le_of_not_lt hn', hn⟩))
  · intro hlate
    obtain ⟨hold, hnew⟩ := Bool.or_eq_false_iff.1 hlate
    have hbase : r.base ≤ pos := by
      by_contra hb
      have hfull := hr.full (by omega)
      have hlen := hr.length
      exact absurd (of_decide_eq_false hnew) (by omega)
    rw [max_eq_left hbase, hall hold, List.range_eq_range', List.range_eq_range',
      ← List.range'_append_1, Nat.zero_add]

/-- A reader at the end of the log that was never late has all of it. -/
theorem Reads.eq_log (h : Reads log base log.length texts false) : texts = log := by
  obtain ⟨-, taken, -, -, htexts, -, hall⟩ := h
  rw [hall rfl] at htexts
  have hlog : (List.range log.length).map (fun n => log[n]?) = log.map some := by
    refine List.ext_getElem (by simp) fun i hi hi' => ?_
    simp only [List.getElem_map, List.getElem_range]
    rw [List.getElem?_eq_getElem]
  rw [hlog] at htexts
  exact (List.map_injective_iff.2 (Option.some_injective α)) htexts

end LogRing

end EngineConsole
