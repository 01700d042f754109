import Mathlib

/-!
# Floats of 64 bits

The fields of a float of 64 bits and the number of a finite one (`F64.value`). Truncation and the
floor work on the fields : bits below the binary point are cleared, and a floor below zero counts up
before (`value_trunc`, `value_floor`).
-/

set_option linter.unusedSectionVars false

namespace EngineConsole.Binary64

/-- The sign, the exponent and the fraction. -/
structure F64 where
  neg : Bool
  exp : ℕ
  frac : ℕ
  exp_lt : exp < 2048
  frac_lt : frac < 2 ^ 52

namespace F64

variable (f : F64)

def isFinite : Bool := f.exp ≠ 2047
def isNan : Bool := f.exp = 2047 ∧ f.frac ≠ 0
def isZero : Bool := f.exp = 0 ∧ f.frac = 0

/-- The integer in front of the power of two; a float below the normal ones has no leading one. -/
def mant : ℕ :=
  if f.exp = 0 then f.frac else 2 ^ 52 + f.frac

/-- The number without its sign. -/
def abs : ℚ :=
  f.mant * 2 ^ ((max f.exp 1 : ℤ) - 1075)

/-- The number of a finite float. -/
def value : ℚ :=
  if f.neg then -f.abs else f.abs

/-- How many bits of the fraction are below the binary point. -/
def low : ℕ :=
  1075 - f.exp

/-- `trunc` -/
def trunc : F64 :=
  if f.exp < 1023 then ⟨f.neg, 0, 0, by decide, by decide⟩
  else ⟨f.neg, f.exp, f.frac / 2 ^ f.low * 2 ^ f.low, f.exp_lt,
    (Nat.div_mul_le_self _ _).trans_lt f.frac_lt⟩

/-- The next integer away from zero, of a float with an integer part that is not one. -/
def away : F64 :=
  if h : f.frac / 2 ^ f.low * 2 ^ f.low + 2 ^ f.low < 2 ^ 52 then
    ⟨f.neg, f.exp, f.frac / 2 ^ f.low * 2 ^ f.low + 2 ^ f.low, f.exp_lt, h⟩
  else ⟨f.neg, min (f.exp + 1) 2047, 0, by omega, by decide⟩

/-- `floor` -/
def floor : F64 :=
  if f.neg = false ∨ f.trunc.value = f.value then f.trunc
  else if f.exp < 1023 then ⟨true, 1023, 0, by decide, by decide⟩
  else f.away

/-- The integer part of the number without its sign. -/
def whole : ℕ :=
  if f.exp < 1023 then 0
  else if f.exp < 1075 then f.mant / 2 ^ f.low
  else f.mant * 2 ^ (f.exp - 1075)

end F64

/-! ## Integer parts -/

section Integers

variable {f : F64}

theorem F64.abs_nonneg (f : F64) : 0 ≤ f.abs :=
  mul_nonneg (Nat.cast_nonneg _) (zpow_nonneg (by norm_num) _)

theorem F64.mant_lt (f : F64) : f.mant < 2 ^ 53 := by
  have := f.frac_lt
  rw [F64.mant]
  split_ifs <;> omega

/-- A float with an exponent below that of one is less than one. -/
theorem F64.abs_lt_one (h : f.exp < 1023) : f.abs < 1 := by
  have hpow : (2 : ℚ) ^ (max (f.exp : ℤ) 1 - 1075) ≤ 2 ^ (-53 : ℤ) :=
    zpow_le_zpow_right₀ (by norm_num) (by omega)
  have hmant : (f.mant : ℚ) < 2 ^ 53 := by exact_mod_cast f.mant_lt
  calc f.abs ≤ f.mant * 2 ^ (-53 : ℤ) := mul_le_mul_of_nonneg_left hpow (Nat.cast_nonneg _)
    _ < 2 ^ 53 * 2 ^ (-53 : ℤ) := mul_lt_mul_of_pos_right hmant (zpow_pos (by norm_num) _)
    _ = 1 := by norm_num

/-- With bits below the binary point, the number is a quotient. -/
theorem F64.abs_of_lt (h : 1023 ≤ f.exp) (hlt : f.exp < 1075) : f.abs = f.mant / 2 ^ f.low := by
  have hexp : max (f.exp : ℤ) 1 - 1075 = -(f.low : ℤ) := by
    rw [F64.low]
    omega
  rw [F64.abs, hexp, zpow_neg, zpow_natCast, div_eq_mul_inv]

theorem F64.abs_mk (s : Bool) {e m : ℕ} (he : e < 2048) (hm : m < 2 ^ 52) (h : 1023 ≤ e)
    (hlt : e < 1075) : (F64.mk s e m he hm).abs = ((2 ^ 52 + m : ℕ) : ℚ) / 2 ^ (1075 - e) := by
  rw [F64.abs_of_lt h hlt, F64.mant, if_neg (by dsimp only; omega), F64.low]

/-- Without such bits it is an integer. -/
theorem F64.abs_of_le (h : 1075 ≤ f.exp) : f.abs = (f.mant * 2 ^ (f.exp - 1075) : ℕ) := by
  have hexp : max (f.exp : ℤ) 1 - 1075 = ((f.exp - 1075 : ℕ) : ℤ) := by omega
  rw [F64.abs, hexp, zpow_natCast]
  push_cast
  rfl

theorem F64.whole_le (f : F64) : (f.whole : ℚ) ≤ f.abs ∧ f.abs < f.whole + 1 := by
  rw [F64.whole]
  split_ifs with hsmall hlow
  · exact ⟨by simpa using f.abs_nonneg, by simpa using F64.abs_lt_one hsmall⟩
  · have hpos : (0 : ℚ) < 2 ^ f.low := by positivity
    have hdiv := Nat.div_add_mod f.mant (2 ^ f.low)
    have hmod := Nat.mod_lt f.mant (Nat.two_pow_pos f.low)
    rw [F64.abs_of_lt (by omega) hlow, le_div_iff₀ hpos, div_lt_iff₀ hpos]
    constructor
    · exact_mod_cast Nat.div_mul_le_self _ _
    · have : f.mant < (f.mant / 2 ^ f.low + 1) * 2 ^ f.low := by
        rw [Nat.succ_mul, Nat.mul_comm]
        omega
      exact_mod_cast this
  · rw [F64.abs_of_le (by omega)]
    exact ⟨le_rfl, lt_add_one _⟩

theorem F64.floor_abs (f : F64) : ⌊f.abs⌋ = f.whole :=
  Int.floor_eq_iff.2 (by exact_mod_cast f.whole_le)

/-- A float with an integer number. -/
theorem F64.whole_eq {n : ℕ} (h : f.abs = n) : f.whole = n := by
  have := f.floor_abs
  rw [h, Int.floor_natCast] at this
  exact_mod_cast this.symm

/-- Truncation leaves the integer part. -/
theorem F64.abs_trunc (f : F64) : f.trunc.abs = f.whole := by
  rw [F64.trunc, F64.whole]
  split_ifs with hsmall hlow
  · simp [F64.abs, F64.mant]
  · have hmant : (2 ^ 52 + f.frac / 2 ^ f.low * 2 ^ f.low) = f.mant / 2 ^ f.low * 2 ^ f.low := by
      have hsplit : 2 ^ 52 = 2 ^ (52 - f.low) * 2 ^ f.low := by
        rw [← Nat.pow_add, Nat.sub_add_cancel (by rw [F64.low]; omega)]
      rw [F64.mant, if_neg (by omega), hsplit, Nat.add_comm (_ * _) f.frac,
        Nat.add_mul_div_right _ _ (Nat.two_pow_pos _), ← Nat.add_mul, Nat.add_comm]
    have hpos : (2 : ℚ) ^ f.low ≠ 0 := by positivity
    rw [F64.abs_mk _ _ _ (Nat.le_of_not_lt hsmall) hlow, hmant, ← F64.low]
    push_cast
    exact mul_div_cancel_right₀ _ hpos
  · have hzero : f.low = 0 := by
      rw [F64.low]
      omega
    have hsame : F64.abs ⟨f.neg, f.exp, f.frac / 2 ^ f.low * 2 ^ f.low, f.exp_lt,
        (Nat.div_mul_le_self _ _).trans_lt f.frac_lt⟩ = f.abs := by
      simp [F64.abs, F64.mant, hzero]
    rw [hsame, F64.abs_of_le (by omega)]

theorem F64.neg_trunc (f : F64) : f.trunc.neg = f.neg := by
  rw [F64.trunc]
  split_ifs <;> rfl

/-- A float is truncated to its integer part with its sign. -/
theorem F64.value_trunc (f : F64) :
    f.trunc.value = ((if f.neg then -(f.whole : ℤ) else f.whole : ℤ) : ℚ) := by
  rw [F64.value, F64.neg_trunc, F64.abs_trunc]
  split_ifs <;> push_cast <;> rfl

/-- The next integer away from zero. -/
theorem F64.abs_away (h : 1023 ≤ f.exp) (hlt : f.exp < 1075) : f.away.abs = f.whole + 1 := by
  have htrunc := f.abs_trunc
  rw [F64.trunc, if_neg (by omega), F64.abs_mk _ _ _ h hlt, ← F64.low] at htrunc
  have hpos : (2 : ℚ) ^ f.low ≠ 0 := by positivity
  rw [div_eq_iff hpos] at htrunc
  rw [F64.away]
  split_ifs with hcarry
  · rw [F64.abs_mk _ _ _ h hlt, ← F64.low, div_eq_iff hpos, add_mul, ← htrunc]
    push_cast
    ring
  · -- the fraction is full : the next integer is a power of two
    have hfull : f.frac / 2 ^ f.low * 2 ^ f.low + 2 ^ f.low = 2 ^ 52 := by
      have hlow : f.low ≤ 52 := by
        rw [F64.low]
        omega
      have hsplit : 2 ^ (52 - f.low) * 2 ^ f.low = 2 ^ 52 := by
        rw [← Nat.pow_add, Nat.sub_add_cancel hlow]
      have hquot : f.frac / 2 ^ f.low < 2 ^ (52 - f.low) := by
        rw [Nat.div_lt_iff_lt_mul (Nat.two_pow_pos _), hsplit]
        exact f.frac_lt
      have hle := Nat.mul_le_mul_right (2 ^ f.low) (Nat.succ_le_of_lt hquot)
      rw [hsplit, Nat.succ_mul] at hle
      omega
    have hexp : max (((min (f.exp + 1) 2047 : ℕ) : ℤ)) 1 - 1075 = 1 - (f.low : ℤ) := by
      rw [F64.low]
      omega
    have hwhole : (f.whole + 1 : ℚ) * 2 ^ f.low = 2 ^ 53 := by
      have hfull' : ((f.frac / 2 ^ f.low : ℕ) : ℚ) * 2 ^ f.low + 2 ^ f.low = 2 ^ 52 := by
        exact_mod_cast hfull
      push_cast at htrunc
      linarith
    rw [F64.abs, F64.mant, hexp, if_neg (by dsimp only; omega), zpow_sub₀ (by norm_num), zpow_one,
      zpow_natCast, mul_div_assoc', div_eq_iff hpos, hwhole]
    norm_num

/-- The floor is the floor of the number. -/
theorem F64.value_floor (f : F64) : f.floor.value = (⌊f.value⌋ : ℚ) := by
  obtain ⟨hle, hlt⟩ := f.whole_le
  have htrunc := f.value_trunc
  rw [F64.floor]
  cases hneg : f.neg with
  | false =>
    have hvalue : f.value = f.abs := by
      rw [F64.value, hneg]
      rfl
    rw [if_pos (.inl rfl), htrunc, hvalue, f.floor_abs, hneg]
    rfl
  | true =>
    have hvalue : f.value = -f.abs := by
      rw [F64.value, hneg]
      rfl
    by_cases hint : f.trunc.value = f.value
    · rw [if_pos (.inr hint), hint]
      rw [htrunc] at hint
      rw [← hint, Int.floor_intCast]
    · -- not an integer : the floor is one further from zero
      have hne : f.abs ≠ f.whole := by
        intro heq
        rw [htrunc, hneg, hvalue, heq] at hint
        push_cast at hint
        exact hint rfl
      have hfloor : ⌊f.value⌋ = -(f.whole + 1 : ℤ) := by
        rw [hvalue, Int.floor_eq_iff]
        push_cast
        exact ⟨by linarith, by linarith [lt_of_le_of_ne hle hne.symm]⟩
      rw [if_neg (by rintro (h | h); exacts [Bool.noConfusion h, hint h]), hfloor]
      split_ifs with hsmall
      · have hzero : f.whole = 0 := by rw [F64.whole, if_pos hsmall]
        rw [hzero]
        norm_num [F64.value, F64.abs, F64.mant]
      · have hlow : f.exp < 1075 := by
          by_contra hge
          rw [F64.whole, if_neg hsmall, if_neg hge, F64.abs_of_le (by omega)] at hne
          exact hne rfl
        have hsign : f.away.neg = true := by
          rw [F64.away]
          split_ifs <;> exact hneg
        rw [F64.value, hsign, if_pos rfl, F64.abs_away (by omega) hlow]
        push_cast
        rfl

theorem F64.isFinite_trunc (h : f.isFinite) : f.trunc.isFinite := by
  rw [F64.trunc]
  split_ifs
  · rfl
  · exact h

theorem F64.isFinite_floor (h : f.isFinite) : f.floor.isFinite := by
  rw [F64.floor]
  split_ifs with htrunc hsmall
  · exact F64.isFinite_trunc h
  · rfl
  · have hlow : f.exp < 1075 := by
      by_contra hge
      refine htrunc (.inr ?_)
      have habs := f.abs_trunc
      rw [F64.whole, if_neg hsmall, if_neg hge, ← F64.abs_of_le (by omega)] at habs
      rw [F64.value, F64.value, F64.neg_trunc, habs]
    rw [F64.away]
    split_ifs
    · exact h
    · refine decide_eq_true ?_
      dsimp only
      omega

end Integers

end EngineConsole.Binary64
