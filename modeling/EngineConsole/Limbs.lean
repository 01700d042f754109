import Mathlib

/-!
# Magnitudes of words

A natural number as a list of words of 32 bits, the lowest first (`value`). Without zeros at the
high end (`Trimmed`) a number has one list (`value_inj`), and lists are compared by their lengths
and from the high end (`compare_value`).
-/

set_option linter.unusedSectionVars false

namespace EngineConsole.Limbs

/-- The number of a list of words. -/
def value (a : List UInt32) : ℕ :=
  Nat.ofDigits (2 ^ 32) (a.map UInt32.toNat)

variable {a b : List UInt32} {x y : UInt32} {n : ℕ}

@[simp] theorem value_nil : value [] = 0 := rfl

@[simp] theorem value_cons (x : UInt32) (a : List UInt32) :
    value (x :: a) = x.toNat + 2 ^ 32 * value a := by
  rw [value, List.map_cons, Nat.ofDigits_cons, value]

theorem value_append (a b : List UInt32) :
    value (a ++ b) = value a + (2 ^ 32) ^ a.length * value b := by
  rw [value, List.map_append, Nat.ofDigits_append, List.length_map, value, value]

theorem value_zeros (n : ℕ) : value (List.replicate n 0) = 0 := by
  induction n with
  | zero => rfl
  | succ n ih => rw [List.replicate_succ, value_cons, ih]; rfl

theorem word_lt (a : List UInt32) : ∀ d ∈ a.map UInt32.toNat, d < 2 ^ 32 := by
  intro d hd
  obtain ⟨x, -, rfl⟩ := List.mem_map.1 hd
  exact x.toNat_lt

theorem value_lt (a : List UInt32) : value a < (2 ^ 32) ^ a.length := by
  have := Nat.ofDigits_lt_base_pow_length (by decide : 1 < 2 ^ 32) (word_lt a)
  rwa [List.length_map] at this

/-- The first word and the others, also of no words. -/
theorem value_head_tail (a : List UInt32) :
    value a = (a.headD 0).toNat + 2 ^ 32 * value a.tail := by
  cases a with
  | nil => rfl
  | cons x a => exact value_cons x a

/-- The low word of a number and what is carried. -/
theorem word_carry (n : ℕ) : (UInt32.ofNat n).toNat + 2 ^ 32 * (n / 2 ^ 32) = n := by
  rw [UInt32.toNat_ofNat']
  exact Nat.mod_add_div n (2 ^ 32)

/-! ## Zeros at the high end -/

/-- No zeros at the high end. -/
def Trimmed (a : List UInt32) : Prop :=
  ∀ h : a ≠ [], a.getLast h ≠ 0

theorem trimmed_nil : Trimmed [] :=
  fun h => absurd rfl h

/-- Without the zeros at the high end. -/
def trim (a : List UInt32) : List UInt32 :=
  a.rdropWhile (· = 0)

theorem value_trim (a : List UInt32) : value (trim a) = value a := by
  induction a using List.reverseRecOn with
  | nil => rfl
  | append_singleton a x ih =>
    rw [trim]
    by_cases hx : x = 0
    · rw [List.rdropWhile_concat_pos _ _ _ (by simpa using hx), ← trim, ih, value_append, hx]
      simp
    · rw [List.rdropWhile_concat_neg _ _ _ (by simpa using hx)]

theorem trimmed_trim (a : List UInt32) : Trimmed (trim a) := by
  intro h
  have hlast := List.rdropWhile_last_not (p := fun x : UInt32 => x = 0) a h
  rwa [decide_eq_true_eq] at hlast

/-- A number has one list. -/
theorem value_inj (ha : Trimmed a) (hb : Trimmed b) (h : value a = value b) : a = b := by
  have hdigits {c : List UInt32} (hc : Trimmed c) :
      Nat.digits (2 ^ 32) (value c) = c.map UInt32.toNat := by
    refine Nat.digits_ofDigits _ (by decide) _ (word_lt c) fun hne => ?_
    rw [List.getLast_map]
    intro hzero
    exact hc (fun hnil => hne (by rw [hnil]; rfl)) (UInt32.toNat_inj.1 hzero)
  refine List.map_injective_iff.2 (fun x y => UInt32.toNat_inj.1) ?_
  rw [← hdigits ha, ← hdigits hb, h]

theorem value_eq_zero (ha : Trimmed a) : value a = 0 ↔ a = [] := by
  refine ⟨fun h => value_inj ha trimmed_nil h, ?_⟩
  rintro rfl
  rfl

/-- A list without zeros at the high end uses its last word. -/
theorem le_value (ha : Trimmed a) (hlen : n < a.length) : (2 ^ 32) ^ n ≤ value a := by
  rcases List.eq_nil_or_concat a with rfl | ⟨r, x, rfl⟩
  · exact absurd hlen (Nat.not_lt_zero n)
  · have hx : x ≠ 0 := by simpa using ha (by simp)
    have hpos : 0 < x.toNat := Nat.pos_of_ne_zero fun h => hx (UInt32.toNat_inj.1 h)
    rw [List.concat_eq_append, List.length_append, List.length_singleton] at hlen
    rw [List.concat_eq_append, value_append]
    calc (2 ^ 32) ^ n ≤ (2 ^ 32) ^ r.length := Nat.pow_le_pow_right (by decide) (by omega)
      _ ≤ (2 ^ 32) ^ r.length * value [x] := Nat.le_mul_of_pos_right _ (by simpa using hpos)
      _ ≤ value r + (2 ^ 32) ^ r.length * value [x] := Nat.le_add_left _ _

/-! ## Order -/

/-- `cmp` of two sequences. -/
def lexCmp : List UInt32 → List UInt32 → Ordering
  | [], [] => .eq
  | [], _ :: _ => .lt
  | _ :: _, [] => .gt
  | x :: a, y :: b => (compare x.toNat y.toNat).then (lexCmp a b)

/-- Sequences of one length are compared at their ends last. -/
theorem lexCmp_concat (x y : UInt32) : ∀ {a b : List UInt32}, a.length = b.length →
    lexCmp (a ++ [x]) (b ++ [y]) = (lexCmp a b).then (compare x.toNat y.toNat)
  | [], [], _ => by
    rw [List.nil_append, List.nil_append, lexCmp, lexCmp]
    cases compare x.toNat y.toNat <;> rfl
  | _ :: a, _ :: b, h => by
    rw [List.cons_append, List.cons_append, lexCmp, lexCmp, lexCmp_concat x y (Nat.succ.inj h),
      Ordering.then_assoc]

/-- Words of one number are compared from the high end. -/
theorem lexCmp_reverse : ∀ {a b : List UInt32}, a.length = b.length →
    lexCmp a.reverse b.reverse = compare (value a) (value b)
  | [], [], _ => rfl
  | x :: a, y :: b, h => by
    have hlen := Nat.succ.inj h
    have hx := x.toNat_lt
    have hy := y.toNat_lt
    rw [List.reverse_cons, List.reverse_cons, lexCmp_concat x y (by simpa using hlen),
      lexCmp_reverse hlen, value_cons, value_cons]
    rcases Nat.lt_trichotomy (value a) (value b) with hlt | heq | hgt
    · have hsum : x.toNat + 2 ^ 32 * value a < y.toNat + 2 ^ 32 * value b := by omega
      rw [Nat.compare_eq_lt.2 hlt, Nat.compare_eq_lt.2 hsum]
      rfl
    · rw [heq, Nat.compare_eq_eq.2 rfl]
      rcases Nat.lt_trichotomy x.toNat y.toNat with hlt' | heq' | hgt'
      · rw [Nat.compare_eq_lt.2 hlt', Nat.compare_eq_lt.2 (by omega)]
        rfl
      · rw [heq', Nat.compare_eq_eq.2 rfl, Nat.compare_eq_eq.2 rfl]
        rfl
      · rw [Nat.compare_eq_gt.2 hgt', Nat.compare_eq_gt.2 (by omega)]
        rfl
    · have hsum : y.toNat + 2 ^ 32 * value b < x.toNat + 2 ^ 32 * value a := by omega
      rw [Nat.compare_eq_gt.2 hgt, Nat.compare_eq_gt.2 hsum]
      rfl

/-- Trimmed lists are compared by their lengths, and then from the high end. -/
theorem compare_value (ha : Trimmed a) (hb : Trimmed b) :
    (compare a.length b.length).then (lexCmp a.reverse b.reverse) =
      compare (value a) (value b) := by
  rcases Nat.lt_trichotomy a.length b.length with hlt | heq | hgt
  · have hle := (value_lt a).trans_le (le_value hb hlt)
    rw [Nat.compare_eq_lt.2 hlt, Nat.compare_eq_lt.2 hle]
    rfl
  · rw [Nat.compare_eq_eq.2 heq, lexCmp_reverse heq]
    rfl
  · have hle := (value_lt b).trans_le (le_value ha hgt)
    rw [Nat.compare_eq_gt.2 hgt, Nat.compare_eq_gt.2 hle]
    rfl

end EngineConsole.Limbs
