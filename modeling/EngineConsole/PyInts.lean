import EngineConsole.Binary64
import EngineConsole.Limbs

/-!
# Integers without a bound

`Int` of the adapters (`trtllm_parse.rs`) : a sign and a magnitude of words of 32 bits. Each loop of
the magnitudes gives the number that the operation is about (`value_magAdd`, `value_magSub`,
`value_magDivrem`, `mulRows_spec`), whatever is carried; a product indexes its words and adds in
machine words, so that it may panic (`none`), and does not (`times_spec`).
-/

set_option linter.unusedSectionVars false

namespace EngineConsole.PyInts

open Limbs Binary64

/-! ## Magnitudes -/

/-- `mag_cmp` -/
def magCmp (a b : List UInt32) : Ordering :=
  (compare a.length b.length).then (lexCmp a.reverse b.reverse)

/-- The words of a sum of `n` words and a carry. -/
def addWords : ℕ → List UInt32 → List UInt32 → ℕ → List UInt32
  | 0, _, _, carry => if 0 < carry then [1] else []
  | n + 1, a, b, carry =>
    let s := (a.headD 0).toNat + (b.headD 0).toNat + carry
    UInt32.ofNat s :: addWords n a.tail b.tail (s / 2 ^ 32)

/-- `mag_add` -/
def magAdd (a b : List UInt32) : List UInt32 :=
  trim (addWords (max a.length b.length) a b 0)

/-- The words of a difference, where something was borrowed. -/
def subWords : List UInt32 → List UInt32 → ℕ → List UInt32
  | [], _, _ => []
  | x :: a, b, borrow =>
    let d : ℤ := x.toNat - (b.headD 0).toNat - borrow
    if d < 0 then UInt32.ofNat (d + 2 ^ 32).toNat :: subWords a b.tail 1
    else UInt32.ofNat d.toNat :: subWords a b.tail 0

/-- `mag_sub` -/
def magSub (a b : List UInt32) : List UInt32 :=
  trim (subWords a b 0)

/-- The words of a quotient, and the remainder, from the high end. -/
def divWords (d : ℕ) : List UInt32 → List UInt32 × ℕ
  | [] => ([], 0)
  | x :: a =>
    let high := divWords d a
    let cur := high.2 <<< 32 % 2 ^ 128 ||| x.toNat
    (UInt32.ofNat (cur / d) :: high.1, cur % d)

/-- `mag_divrem` -/
def magDivrem (a : List UInt32) (d : ℕ) : List UInt32 × ℕ :=
  (trim (divWords d a).1, (divWords d a).2 % 2 ^ 64)

/-- The words shifted by less than a word. -/
def shlWords (rem : ℕ) : List UInt32 → UInt32 → List UInt32
  | [], carry => if 0 < carry then [carry] else []
  | x :: a, carry =>
    if rem = 0 then x :: shlWords rem a carry
    else
      (x <<< UInt32.ofNat rem ||| carry) :: shlWords rem a (x >>> UInt32.ofNat (32 - rem))

section Magnitudes

variable {a b : List UInt32} {n d : ℕ}

theorem toNat_ofNat_toNat {d : ℤ} (h0 : 0 ≤ d) (h : d < 2 ^ 32) :
    ((UInt32.ofNat d.toNat).toNat : ℤ) = d := by
  rw [UInt32.toNat_ofNat_of_lt' (show d.toNat < 2 ^ 32 by omega)]
  omega

theorem magCmp_eq (ha : Trimmed a) (hb : Trimmed b) : magCmp a b = compare (value a) (value b) :=
  compare_value ha hb

theorem value_addWords : ∀ (n : ℕ) {a b : List UInt32} {carry : ℕ}, a.length ≤ n → b.length ≤ n →
    carry ≤ 1 → value (addWords n a b carry) = value a + value b + carry
  | 0, a, b, carry, ha, hb, hc => by
    obtain rfl := List.length_eq_zero_iff.1 (Nat.le_zero.1 ha)
    obtain rfl := List.length_eq_zero_iff.1 (Nat.le_zero.1 hb)
    rw [addWords]
    obtain rfl | rfl : carry = 0 ∨ carry = 1 := by omega
    · rfl
    · rfl
  | n + 1, a, b, carry, ha, hb, hc => by
    have hx := (a.headD 0).toNat_lt
    have hy := (b.headD 0).toNat_lt
    have hcarry := word_carry ((a.headD 0).toNat + (b.headD 0).toNat + carry)
    rw [addWords, value_cons, value_addWords n (by rw [List.length_tail]; omega)
      (by rw [List.length_tail]; omega) (by omega), value_head_tail a, value_head_tail b]
    omega

theorem value_magAdd (a b : List UInt32) : value (magAdd a b) = value a + value b := by
  rw [magAdd, value_trim, value_addWords _ (le_max_left _ _) (le_max_right _ _) (Nat.zero_le 1),
    Nat.add_zero]

/-- Nothing is borrowed at the end from a number that is not less. -/
theorem value_subWords : ∀ (a : List UInt32) {b : List UInt32} (borrow : ℕ), borrow ≤ 1 →
    value b + borrow ≤ value a → value (subWords a b borrow) + (value b + borrow) = value a
  | [], b, borrow, _, hle => by
    rw [value_nil] at hle
    rw [subWords, value_nil]
    omega
  | x :: a, b, borrow, hb, hle => by
    have hx := x.toNat_lt
    have hy := (b.headD 0).toNat_lt
    rw [value_cons, value_head_tail b] at hle
    rw [subWords]
    split_ifs with hd
    · have ih := value_subWords a (b := b.tail) 1 le_rfl (by omega)
      have hword := toNat_ofNat_toNat (d := x.toNat - (b.headD 0).toNat - borrow + 2 ^ 32)
        (by omega) (by omega)
      rw [value_cons, value_cons, value_head_tail b]
      omega
    · have ih := value_subWords a (b := b.tail) 0 (Nat.zero_le 1) (by omega)
      have hword := toNat_ofNat_toNat (d := x.toNat - (b.headD 0).toNat - borrow)
        (by omega) (by omega)
      rw [value_cons, value_cons, value_head_tail b]
      omega

theorem value_magSub (h : value b ≤ value a) : value (magSub a b) = value a - value b := by
  have := value_subWords a 0 (Nat.zero_le 1) h
  rw [magSub, value_trim]
  omega

/-- The next word of a quotient. -/
theorem divWords_cons (hd : 0 < d) (hd64 : d < 2 ^ 64) (x : UInt32) (a : List UInt32)
    (hr : (divWords d a).2 < d) : divWords d (x :: a) =
      (UInt32.ofNat (((divWords d a).2 * 2 ^ 32 + x.toNat) / d) :: (divWords d a).1,
        ((divWords d a).2 * 2 ^ 32 + x.toNat) % d) := by
  have hx := x.toNat_lt
  have hshift : (divWords d a).2 <<< 32 % 2 ^ 128 ||| x.toNat =
      (divWords d a).2 * 2 ^ 32 + x.toNat := by
    rw [Nat.mod_eq_of_lt (by rw [Nat.shiftLeft_eq]; omega), ← Nat.shiftLeft_add_eq_or_of_lt hx,
      Nat.shiftLeft_eq]
  rw [divWords, hshift]

/-- Quotient and remainder from the high end. -/
theorem divWords_spec (hd : 0 < d) (hd64 : d < 2 ^ 64) : ∀ a : List UInt32,
    value (divWords d a).1 * d + (divWords d a).2 = value a ∧ (divWords d a).2 < d
  | [] => ⟨by rw [divWords]; simp, hd⟩
  | x :: a => by
    obtain ⟨hvalue, hr⟩ := divWords_spec hd hd64 a
    have hx := x.toNat_lt
    have hquot : ((divWords d a).2 * 2 ^ 32 + x.toNat) / d < 2 ^ 32 := by
      rw [Nat.div_lt_iff_lt_mul hd]
      nlinarith
    have hword : (UInt32.ofNat (((divWords d a).2 * 2 ^ 32 + x.toNat) / d)).toNat =
        ((divWords d a).2 * 2 ^ 32 + x.toNat) / d := UInt32.toNat_ofNat_of_lt' hquot
    have hdiv := Nat.div_add_mod ((divWords d a).2 * 2 ^ 32 + x.toNat) d
    rw [divWords_cons hd hd64 x a hr]
    refine ⟨?_, Nat.mod_lt _ hd⟩
    rw [value_cons, hword, value_cons, ← hvalue]
    nlinarith

theorem magDivrem_spec (hd : 0 < d) (hd64 : d < 2 ^ 64) (a : List UInt32) :
    value (magDivrem a d).1 = value a / d ∧ (magDivrem a d).2 = value a % d := by
  obtain ⟨hvalue, hr⟩ := divWords_spec hd hd64 a
  have hdiv : value a / d = value (divWords d a).1 ∧ value a % d = (divWords d a).2 :=
    (Nat.div_mod_unique hd).2 ⟨by rw [← hvalue, Nat.add_comm, Nat.mul_comm], hr⟩
  rw [magDivrem, value_trim, Nat.mod_eq_of_lt (hr.trans hd64)]
  exact ⟨hdiv.1.symm, hdiv.2.symm⟩

theorem length_divWords (d : ℕ) : ∀ a : List UInt32, (divWords d a).1.length = a.length
  | [] => rfl
  | _ :: a => by rw [divWords, List.length_cons, List.length_cons, length_divWords d a]

theorem length_magDivrem_le (a : List UInt32) (d : ℕ) : (magDivrem a d).1.length ≤ a.length :=
  (List.rdropWhile_prefix _ _).length_le.trans (length_divWords d a).le

theorem trimmed_magDivrem (a : List UInt32) (d : ℕ) : Trimmed (magDivrem a d).1 :=
  trimmed_trim _

/-- A word shifted by less than a word : what stays in it, and what is carried. -/
theorem shl_word {rem : ℕ} (hpos : 0 < rem) (hrem : rem < 32) {x carry : UInt32}
    (hc : carry.toNat < 2 ^ rem) :
    (x <<< UInt32.ofNat rem ||| carry).toNat + 2 ^ 32 * (x >>> UInt32.ofNat (32 - rem)).toNat =
      x.toNat * 2 ^ rem + carry.toNat ∧ (x >>> UInt32.ofNat (32 - rem)).toNat < 2 ^ rem := by
  have hx := x.toNat_lt
  have hpow : 2 ^ (32 - rem) * 2 ^ rem = 2 ^ 32 := by
    rw [← Nat.pow_add, Nat.sub_add_cancel hrem.le]
  have hleft : (UInt32.ofNat rem).toNat % 32 = rem := by
    rw [UInt32.toNat_ofNat_of_lt' (show rem < 2 ^ 32 by omega), Nat.mod_eq_of_lt hrem]
  have hright : (UInt32.ofNat (32 - rem)).toNat % 32 = 32 - rem := by
    rw [UInt32.toNat_ofNat_of_lt' (show 32 - rem < 2 ^ 32 by omega), Nat.mod_eq_of_lt (by omega)]
  have hhigh : (x >>> UInt32.ofNat (32 - rem)).toNat = x.toNat / 2 ^ (32 - rem) := by
    rw [UInt32.toNat_shiftRight, hright, Nat.shiftRight_eq_div_pow]
  have hlow : (x <<< UInt32.ofNat rem ||| carry).toNat =
      x.toNat % 2 ^ (32 - rem) * 2 ^ rem + carry.toNat := by
    rw [UInt32.toNat_or, UInt32.toNat_shiftLeft, hleft, Nat.shiftLeft_eq, ← hpow,
      Nat.mul_mod_mul_right, ← Nat.shiftLeft_eq, Nat.shiftLeft_add_eq_or_of_lt hc]
  rw [hlow, hhigh]
  constructor
  · calc x.toNat % 2 ^ (32 - rem) * 2 ^ rem + carry.toNat +
          2 ^ 32 * (x.toNat / 2 ^ (32 - rem))
        = (x.toNat % 2 ^ (32 - rem) + 2 ^ (32 - rem) * (x.toNat / 2 ^ (32 - rem))) * 2 ^ rem +
          carry.toNat := by
          rw [← hpow]
          ring
      _ = x.toNat * 2 ^ rem + carry.toNat := by rw [Nat.mod_add_div]
  · rw [Nat.div_lt_iff_lt_mul (Nat.two_pow_pos _), Nat.mul_comm, hpow]
    exact hx

theorem value_shlWords {rem : ℕ} (hrem : rem < 32) : ∀ (a : List UInt32) {carry : UInt32},
    carry.toNat < 2 ^ rem → value (shlWords rem a carry) = value a * 2 ^ rem + carry.toNat
  | [], carry, _ => by
    rw [shlWords, value_nil, Nat.zero_mul, Nat.zero_add]
    split_ifs with hc
    · rw [value_cons, value_nil, Nat.mul_zero, Nat.add_zero]
    · have hzero : carry = 0 := by
        by_contra hne
        exact hc (UInt32.pos_iff_ne_zero.2 hne)
      rw [hzero]
      rfl
  | x :: a, carry, hc => by
    rw [shlWords]
    split_ifs with hzero
    · subst hzero
      rw [value_cons, value_shlWords hrem a hc, value_cons]
      rw [Nat.pow_zero] at hc ⊢
      omega
    · obtain ⟨hword, hcarry⟩ := shl_word (Nat.pos_of_ne_zero hzero) hrem (x := x) hc
      rw [value_cons, value_shlWords hrem a hcarry, value_cons]
      calc (x <<< UInt32.ofNat rem ||| carry).toNat +
            2 ^ 32 * (value a * 2 ^ rem + (x >>> UInt32.ofNat (32 - rem)).toNat)
          = (x <<< UInt32.ofNat rem ||| carry).toNat +
            2 ^ 32 * (x >>> UInt32.ofNat (32 - rem)).toNat + 2 ^ 32 * (value a * 2 ^ rem) := by ring
        _ = (x.toNat + 2 ^ 32 * value a) * 2 ^ rem + carry.toNat := by
            rw [hword]
            ring

end Magnitudes

/-! ## Products -/

/-- A sum of machine words of 64 bits. -/
def checked (n : ℕ) : Option ℕ :=
  if n < 2 ^ 64 then some n else none

/-- A row of a product : the words of `b` times `x`, added from index `k` on. -/
def mulRow (x : UInt32) : List UInt32 → ℕ → ℕ → List UInt32 → Option (List UInt32 × ℕ)
  | [], _, carry, out => some (out, carry)
  | y :: b, k, carry, out => do
    let w ← out[k]?
    let cur ← checked (w.toNat + x.toNat * y.toNat + carry)
    mulRow x b (k + 1) (cur / 2 ^ 32) (out.set k (UInt32.ofNat cur))

/-- The carry of a row, from index `k` on. -/
def carryInto (k carry : ℕ) (out : List UInt32) : Option (List UInt32) :=
  if 0 < carry then
    if h : k < out.length then
      (checked (out[k].toNat + carry)).bind fun cur =>
        carryInto (k + 1) (cur / 2 ^ 32) (out.set k (UInt32.ofNat cur))
    else none
  else some out
termination_by out.length - k

/-- The rows of a product, from index `i` on. -/
def mulRows (b : List UInt32) : List UInt32 → ℕ → List UInt32 → Option (List UInt32)
  | [], _, out => some out
  | x :: a, i, out => do
    let row ← mulRow x b i 0 out
    let out ← carryInto (i + b.length) row.2 row.1
    mulRows b a (i + 1) out

section Products

/-- A row changes the words it is about, and nothing that it adds is lost. -/
theorem mulRow_spec (x : UInt32) : ∀ (b : List UInt32) {l m r : List UInt32} {k c : ℕ},
    k = l.length → m.length = b.length → c < 2 ^ 32 →
    ∃ m' c', mulRow x b k c (l ++ m ++ r) = some (l ++ m' ++ r, c') ∧
      m'.length = b.length ∧ c' < 2 ^ 32 ∧
      value m' + (2 ^ 32) ^ b.length * c' = value m + x.toNat * value b + c
  | [], l, m, r, k, c, hk, hmid, hc => by
    obtain rfl := List.length_eq_zero_iff.1 hmid
    exact ⟨[], c, rfl, rfl, hc, by simp⟩
  | y :: b, l, m, r, k, c, hk, hmid, hc => by
    obtain ⟨w, m, rfl⟩ : ∃ w m', m = w :: m' := by
      cases m with
      | nil => cases hmid
      | cons w m => exact ⟨w, m, rfl⟩
    have hx := x.toNat_lt
    have hy := y.toNat_lt
    have hw := w.toNat_lt
    have hcur : w.toNat + x.toNat * y.toNat + c < 2 ^ 64 := by nlinarith
    have hget : (l ++ w :: m ++ r)[k]? = some w := by
      rw [hk, List.append_assoc, List.getElem?_append_right le_rfl]
      simp
    have hset (v : UInt32) : (l ++ w :: m ++ r).set k v = (l ++ [v]) ++ m ++ r := by
      rw [hk]
      simp
    obtain ⟨m', c', hrow, hlen, hcarry, hvalue⟩ := mulRow_spec x b
      (l := l ++ [UInt32.ofNat (w.toNat + x.toNat * y.toNat + c)]) (m := m)
      (r := r) (k := k + 1) (c := (w.toNat + x.toNat * y.toNat + c) / 2 ^ 32)
      (by rw [List.length_append, hk]; rfl) (Nat.succ.inj hmid) (by omega)
    refine ⟨UInt32.ofNat (w.toNat + x.toNat * y.toNat + c) :: m', c', ?_, ?_, hcarry, ?_⟩
    · rw [mulRow, hget, Option.bind_eq_bind, Option.bind_some, checked, if_pos hcur,
        Option.bind_eq_bind, Option.bind_some, hset, hrow]
      simp
    · rw [List.length_cons, hlen, List.length_cons]
    · have hword := word_carry (w.toNat + x.toNat * y.toNat + c)
      rw [value_cons, value_cons, value_cons, List.length_cons]
      calc _ = (UInt32.ofNat (w.toNat + x.toNat * y.toNat + c)).toNat +
            2 ^ 32 * (value m' + (2 ^ 32) ^ b.length * c') := by ring
        _ = (UInt32.ofNat (w.toNat + x.toNat * y.toNat + c)).toNat +
            2 ^ 32 * ((w.toNat + x.toNat * y.toNat + c) / 2 ^ 32) +
            2 ^ 32 * (value m + x.toNat * value b) := by
            rw [hvalue]
            ring
        _ = _ := by
            rw [hword]
            ring

/-- A carry goes into a word that is zero. -/
theorem carryInto_zero {l r : List UInt32} {k carry : ℕ} (hk : k = l.length) (hc : carry < 2 ^ 32) :
    carryInto k carry (l ++ 0 :: r) = some (l ++ UInt32.ofNat carry :: r) := by
  have hdone (out : List UInt32) (k : ℕ) : carryInto k 0 out = some out := by
    rw [carryInto, if_neg (Nat.lt_irrefl 0)]
  rcases Nat.eq_zero_or_pos carry with rfl | hpos
  · exact hdone _ _
  · have hlt : k < (l ++ 0 :: r).length := by
      rw [hk, List.length_append, List.length_cons]
      omega
    have hget : (l ++ 0 :: r)[k].toNat + carry = carry := by
      simp [hk]
    have hset : (l ++ 0 :: r).set k (UInt32.ofNat carry) =
        l ++ UInt32.ofNat carry :: r := by
      rw [hk]
      simp
    rw [carryInto, if_pos hpos, dif_pos hlt, hget, checked, if_pos (by omega), Option.bind_some,
      Nat.div_eq_of_lt hc, hset, hdone]

/-- The rows give the product, within the words there are. -/
theorem mulRows_spec (b : List UInt32) : ∀ (a : List UInt32) {l m : List UInt32} {i : ℕ},
    i = l.length → m.length = b.length →
    ∃ out, mulRows b a i (l ++ m ++ List.replicate a.length 0) = some out ∧
      value out = value (l ++ m) + (2 ^ 32) ^ i * (value a * value b)
  | [], l, m, i, _, _ => by
    refine ⟨l ++ m, ?_, by simp⟩
    rw [mulRows, List.length_nil, List.replicate_zero, List.append_nil]
  | x :: a, l, m, i, hi, hmid => by
    obtain ⟨m', carry, hrow, hlen, hcarry, hvalue⟩ := mulRow_spec x b (l := l) (m := m)
      (r := 0 :: List.replicate a.length 0) hi hmid (by decide : 0 < 2 ^ 32)
    have hinto := carryInto_zero (k := i + b.length) (l := l ++ m')
      (r := List.replicate a.length 0) (by rw [List.length_append, hi, hlen]) hcarry
    -- the first of the words so far is done
    obtain ⟨w, rest, hrest⟩ : ∃ w rest, m' ++ [UInt32.ofNat carry] = w :: rest :=
      List.exists_cons_of_ne_nil (by simp)
    have hrestlen : rest.length = b.length := by
      have := congrArg List.length hrest
      simp only [List.length_append, List.length_cons, List.length_nil, hlen] at this
      omega
    have hwords : value (w :: rest) = value m + x.toNat * value b := by
      rw [← hrest, value_append, value_cons, UInt32.toNat_ofNat_of_lt' hcarry, hlen]
      simpa using hvalue
    have hshape : l ++ m' ++ UInt32.ofNat carry :: List.replicate a.length 0 =
        l ++ [w] ++ rest ++ List.replicate a.length 0 := by
      calc _ = l ++ (m' ++ [UInt32.ofNat carry]) ++ List.replicate a.length 0 := by simp
        _ = _ := by
          rw [hrest]
          simp
    obtain ⟨out, hout, hvalue'⟩ := mulRows_spec b a (l := l ++ [w]) (m := rest) (i := i + 1)
      (by rw [List.length_append, hi]; rfl) hrestlen
    refine ⟨out, ?_, ?_⟩
    · rw [mulRows, List.length_cons, List.replicate_succ, hrow, Option.bind_eq_bind,
        Option.bind_some, hinto, Option.bind_eq_bind, Option.bind_some, hshape, hout]
    · have happend : value (l ++ [w] ++ rest) =
          value l + (2 ^ 32) ^ i * (value m + x.toNat * value b) := by
        rw [List.append_assoc, List.singleton_append, value_append, hwords, hi]
      rw [hvalue', happend, value_append l m, value_cons, hi]
      ring

end Products

/-! ## The integers -/

/-- `Int` -/
structure PyInt where
  neg : Bool
  mag : List UInt32
  deriving DecidableEq

namespace PyInt

def zero : PyInt :=
  ⟨false, []⟩

def isZero (v : PyInt) : Bool :=
  v.mag.isEmpty

/-- The words of a number. -/
def words (u : ℕ) : List UInt32 :=
  if 0 < u then UInt32.ofNat u :: words (u / 2 ^ 32) else []
decreasing_by omega

/-- `from_i128` -/
def fromI128 (v : ℤ) : PyInt :=
  ⟨v < 0, words v.natAbs⟩

def shl (v : PyInt) (bits : ℕ) : PyInt :=
  ⟨v.neg, trim (List.replicate (bits / 32) 0 ++ shlWords (bits % 32) v.mag 0)⟩

/-- `from_f64` -/
def fromF64 (f : F64) : Option PyInt :=
  if f.isFinite = false then none
  else
    let t := f.trunc
    if t.isZero then some zero
    else
      let exp : ℤ := t.exp - 1075
      let mant : ℕ := t.frac ||| 2 ^ 52
      let v :=
        if 0 ≤ exp then if exp < 2 ^ 32 then some ((fromI128 mant).shl exp.toNat) else none
        else some (fromI128 (mant >>> (min (-exp) 63).toNat : ℕ))
      v.map fun v => { v with neg := t.value < 0 }

/-- `negated` -/
def negated (v : PyInt) : PyInt :=
  ⟨!v.neg && !v.isZero, v.mag⟩

/-- `times`, or none where it panics. -/
def times (v o : PyInt) : Option PyInt :=
  if v.isZero || o.isZero then some zero
  else
    (mulRows o.mag v.mag 0 (List.replicate (v.mag.length + o.mag.length) 0)).map fun out =>
      ⟨v.neg != o.neg, trim out⟩

/-- `plus` -/
def plus (v : PyInt) (k : ℤ) : PyInt :=
  let o := fromI128 k
  if v.neg = o.neg then ⟨v.neg, magAdd v.mag o.mag⟩
  else
    match magCmp v.mag o.mag with
    | .eq => zero
    | .gt => ⟨v.neg, magSub v.mag o.mag⟩
    | .lt => ⟨o.neg, magSub o.mag v.mag⟩

/-- `cmp_int` -/
def cmpInt (v o : PyInt) : Ordering :=
  match v.neg, o.neg with
  | false, true => .gt
  | true, false => .lt
  | false, false => magCmp v.mag o.mag
  | true, true => magCmp o.mag v.mag

/-- `cmp_f64` -/
def cmpF64 (v : PyInt) (f : F64) : Option Ordering :=
  if f.isNan then none
  else if f.isFinite = false then some (if f.neg then .gt else .lt)
  else
    (fromF64 f.floor).map fun fl =>
      match v.cmpInt fl with
      | .eq => if f.floor.value < f.value then .lt else .eq
      | o => o

/-- `floordiv` -/
def floordiv (v : PyInt) (d : ℤ) : Option PyInt :=
  if 2 ^ 64 ≤ d.natAbs ∨ d.natAbs = 0 then none
  else
    let qr := magDivrem v.mag d.natAbs
    let q : PyInt := ⟨if qr.1.isEmpty then false else v.neg != decide (d < 0), qr.1⟩
    some (if qr.2 ≠ 0 ∧ v.neg ≠ decide (d < 0) then q.plus (-1) else q)

/-- The chunks of nine digits of a magnitude, the lowest first. -/
def chunks (cur : List UInt32) : List ℕ :=
  if cur = [] then []
  else (magDivrem cur 1000000000).2 :: chunks (magDivrem cur 1000000000).1
termination_by value cur + cur.length
decreasing_by
  have hne := List.length_pos_iff.2 ‹¬cur = []›
  have hlen := length_magDivrem_le cur 1000000000
  obtain ⟨hvalue, -⟩ := magDivrem_spec (by decide : 0 < 1000000000) (by decide) cur
  rcases Nat.eq_zero_or_pos (value cur) with hzero | hpos
  · have hnil : (magDivrem cur 1000000000).1 = [] :=
      (value_eq_zero (trimmed_magDivrem cur _)).1 (by rw [hvalue, hzero])
    rw [hnil, hzero, value_nil, List.length_nil]
    omega
  · rw [hvalue]
    omega

/-- `{c:09}` -/
def padded (k n : ℕ) : List Char :=
  List.replicate (k - (Nat.toDigits 10 n).length) '0' ++ Nat.toDigits 10 n

/-- The texts of chunks, the highest first. -/
def joined : List ℕ → List Char
  | [] => []
  | c :: cs => Nat.toDigits 10 c ++ cs.flatMap (padded 9)

/-- The text of an integer. -/
def display (v : PyInt) : List Char :=
  if v.isZero then ['0']
  else (if v.neg then ['-'] else []) ++ joined (chunks v.mag).reverse

/-- The loop of `parse_digits`, or none where it panics. -/
def parseChunks (s : List Char) (v : PyInt) : Option PyInt :=
  if s = [] then some v
  else
    (v.times (fromI128 (10 ^ (s.take 18).length))).bind fun p =>
      parseChunks (s.drop 18) (p.plus (Nat.ofDigitChars 10 (s.take 18) 0))
termination_by s.length
decreasing_by
  have := List.length_pos_iff.2 ‹¬s = []›
  rw [List.length_drop]
  omega

/-- `parse_digits` of a text, none where it panics. -/
def parseDigits (s : List Char) : Option (Option PyInt) :=
  if s = [] ∨ ¬s.all Char.isDigit then some none
  else (parseChunks s zero).map some

/-! ### What they are about -/

/-- The integer. -/
def num (v : PyInt) : ℤ :=
  if v.neg then -(value v.mag : ℤ) else value v.mag

/-- No zeros at the high end, and zero is not negative. -/
structure Ok (v : PyInt) : Prop where
  trimmed : Trimmed v.mag
  sign : v.mag = [] → v.neg = false

section Ops

variable {v o : PyInt} {k d : ℤ} {n u : ℕ}

theorem value_words (u : ℕ) : value (words u) = u := by
  induction u using words.induct with
  | case1 u hpos ih =>
    rw [words, if_pos hpos, value_cons, ih, word_carry]
  | case2 u hzero =>
    rw [words, if_neg hzero, value_nil]
    omega

theorem trimmed_words (u : ℕ) : Trimmed (words u) := by
  induction u using words.induct with
  | case1 u hpos ih =>
    rw [words, if_pos hpos]
    intro hne
    by_cases hrest : words (u / 2 ^ 32) = []
    · have hzero : u / 2 ^ 32 = 0 := by rw [← value_words (u / 2 ^ 32), hrest, value_nil]
      have hlt : u < 2 ^ 32 := by omega
      simp only [hrest, List.getLast_singleton]
      intro hword
      have hu := UInt32.toNat_ofNat_of_lt' hlt
      rw [hword, UInt32.toNat_zero] at hu
      omega
    · rw [List.getLast_cons hrest]
      exact ih hrest
  | case2 u hzero =>
    rw [words, if_neg hzero]
    exact trimmed_nil

/-- The magnitude of an integer. -/
theorem natAbs_num (v : PyInt) : v.num.natAbs = value v.mag := by
  rw [num]
  split_ifs <;> omega

theorem Ok.isZero_iff (h : v.Ok) : v.isZero ↔ v.num = 0 := by
  rw [isZero, List.isEmpty_iff, ← value_eq_zero h.trimmed, ← natAbs_num, Int.natAbs_eq_zero]

theorem Ok.neg_eq (h : v.Ok) : v.neg = decide (v.num < 0) := by
  have hsign := h.sign
  rw [← value_eq_zero h.trimmed] at hsign
  rw [num]
  cases hneg : v.neg with
  | false =>
    rw [if_neg Bool.false_ne_true]
    exact (decide_eq_false (by omega)).symm
  | true =>
    have hne : value v.mag ≠ 0 := fun h0 => by
      rw [hsign h0] at hneg
      cases hneg
    rw [if_pos rfl]
    exact (decide_eq_true (by omega)).symm

/-- The representation of an integer : its sign and its magnitude. -/
theorem mk_spec {s : Bool} {m : List UInt32} {i : ℤ} (ht : Trimmed m) (hm : value m = i.natAbs)
    (hs : s = decide (i < 0)) : (PyInt.mk s m).Ok ∧ (PyInt.mk s m).num = i := by
  constructor
  · refine ⟨ht, fun hnil => ?_⟩
    obtain rfl : m = [] := hnil
    rw [value_nil] at hm
    rw [hs]
    exact decide_eq_false (by omega)
  · rw [num, hs, hm]
    by_cases hi : i < 0
    · rw [if_pos (decide_eq_true hi)]
      omega
    · rw [if_neg (by simpa using hi)]
      omega

/-- An integer has one representation. -/
theorem num_inj (hv : v.Ok) (ho : o.Ok) (h : v.num = o.num) : v = o := by
  have hmag : v.mag = o.mag :=
    value_inj hv.trimmed ho.trimmed (by rw [← natAbs_num, ← natAbs_num, h])
  have hneg : v.neg = o.neg := by rw [hv.neg_eq, ho.neg_eq, h]
  cases v
  cases o
  exact congrArg₂ PyInt.mk hneg hmag

theorem ok_zero : zero.Ok := ⟨trimmed_nil, fun _ => rfl⟩

theorem num_zero : zero.num = 0 := rfl

theorem fromI128_spec (k : ℤ) : (fromI128 k).Ok ∧ (fromI128 k).num = k :=
  mk_spec (trimmed_words _) (value_words _) rfl

theorem negated_spec (h : v.Ok) : v.negated.Ok ∧ v.negated.num = -v.num := by
  refine mk_spec h.trimmed (by rw [Int.natAbs_neg, natAbs_num]) ?_
  have hzero := h.isZero_iff
  rw [h.neg_eq, Bool.eq_iff_iff]
  simp only [Bool.and_eq_true, Bool.not_eq_true', decide_eq_true_eq, ← Bool.not_eq_true, hzero]
  omega

theorem times_spec (hv : v.Ok) (ho : o.Ok) : ∃ p, v.times o = some p ∧ p.Ok ∧
    p.num = v.num * o.num := by
  by_cases hzero : (v.isZero || o.isZero) = true
  · refine ⟨zero, by rw [times, if_pos hzero], ok_zero, ?_⟩
    rw [Bool.or_eq_true, hv.isZero_iff, ho.isZero_iff] at hzero
    rcases hzero with h0 | h0 <;> simp [h0, num_zero]
  · obtain ⟨out, hout, hvalue⟩ := mulRows_spec o.mag v.mag (l := []) (m :=
      List.replicate o.mag.length 0) (i := 0) rfl (List.length_replicate ..)
    have hrows : mulRows o.mag v.mag 0 (List.replicate (v.mag.length + o.mag.length) 0) =
        some out := by
      rw [Nat.add_comm, List.replicate_add]
      exact hout
    rw [List.nil_append, value_zeros, Nat.zero_add, Nat.pow_zero, Nat.one_mul] at hvalue
    refine ⟨⟨v.neg != o.neg, trim out⟩, by rw [times, if_neg hzero, hrows]; rfl, ?_⟩
    refine mk_spec (trimmed_trim _) ?_ ?_
    · rw [value_trim, hvalue, Int.natAbs_mul, natAbs_num, natAbs_num]
    · rw [Bool.or_eq_true, hv.isZero_iff, ho.isZero_iff, not_or] at hzero
      rw [hv.neg_eq, ho.neg_eq, Bool.eq_iff_iff, decide_eq_true_eq, mul_neg_iff]
      simp only [bne_iff_ne, ne_eq, decide_eq_decide]
      omega

theorem plus_spec (h : v.Ok) (k : ℤ) : (v.plus k).Ok ∧ (v.plus k).num = v.num + k := by
  obtain ⟨hok, hk⟩ := fromI128_spec k
  have hv := natAbs_num v
  have ho := natAbs_num (fromI128 k)
  have hneg := h.neg_eq
  have hneg' := hok.neg_eq
  rw [hk] at ho hneg'
  rw [plus]
  split_ifs with hsign
  · refine mk_spec (trimmed_trim _) ?_ ?_
    · rw [hneg, hneg', decide_eq_decide] at hsign
      rw [value_magAdd]
      omega
    · rw [hneg, hneg', decide_eq_decide] at hsign
      rw [hneg, decide_eq_decide]
      omega
  · rw [hneg, hneg', decide_eq_decide] at hsign
    rw [magCmp_eq h.trimmed hok.trimmed]
    rcases Nat.lt_trichotomy (value v.mag) (value (fromI128 k).mag) with hlt | heq | hgt
    · rw [Nat.compare_eq_lt.2 hlt]
      refine mk_spec (trimmed_trim _) ?_ ?_
      · rw [value_magSub hlt.le]
        omega
      · rw [hneg', decide_eq_decide]
        omega
    · rw [heq, Nat.compare_eq_eq.2 rfl]
      exact ⟨ok_zero, by rw [num_zero]; omega⟩
    · rw [Nat.compare_eq_gt.2 hgt]
      refine mk_spec (trimmed_trim _) ?_ ?_
      · rw [value_magSub hgt.le]
        omega
      · rw [hneg, decide_eq_decide]
        omega

theorem compare_cast (a b : ℕ) : compare (a : ℤ) b = compare a b := by
  rcases Nat.lt_trichotomy a b with hlt | heq | hgt
  · rw [Nat.compare_eq_lt.2 hlt, compare_lt_iff_lt]
    omega
  · rw [heq, Nat.compare_eq_eq.2 rfl, compare_eq_iff_eq]
  · rw [Nat.compare_eq_gt.2 hgt, compare_gt_iff_gt]
    omega

theorem compare_neg_cast (a b : ℕ) : compare (-(a : ℤ)) (-b) = compare b a := by
  rcases Nat.lt_trichotomy b a with hlt | heq | hgt
  · rw [Nat.compare_eq_lt.2 hlt, compare_lt_iff_lt]
    omega
  · rw [heq, Nat.compare_eq_eq.2 rfl, compare_eq_iff_eq]
  · rw [Nat.compare_eq_gt.2 hgt, compare_gt_iff_gt]
    omega

theorem cmpInt_spec (hv : v.Ok) (ho : o.Ok) : v.cmpInt o = compare v.num o.num := by
  have hneg := hv.neg_eq
  have hneg' := ho.neg_eq
  cases hs : v.neg <;> cases ht : o.neg
  · rw [cmpInt, hs, ht, num, num, hs, ht]
    exact (magCmp_eq hv.trimmed ho.trimmed).trans (compare_cast _ _).symm
  · rw [cmpInt, hs, ht]
    rw [hs] at hneg
    rw [ht] at hneg'
    refine (compare_gt_iff_gt.2 ?_).symm
    have h1 := of_decide_eq_false hneg.symm
    have h2 := of_decide_eq_true hneg'.symm
    omega
  · rw [cmpInt, hs, ht]
    rw [hs] at hneg
    rw [ht] at hneg'
    refine (compare_lt_iff_lt.2 ?_).symm
    have h1 := of_decide_eq_true hneg.symm
    have h2 := of_decide_eq_false hneg'.symm
    omega
  · rw [cmpInt, hs, ht, num, num, hs, ht]
    exact (magCmp_eq ho.trimmed hv.trimmed).trans (compare_neg_cast _ _).symm

/-- A quotient of a negative number is rounded away from zero. -/
theorem neg_ediv (a : ℕ) {b : ℕ} (hb : 0 < b) :
    -(a : ℤ) / b = if a % b ≠ 0 then -((a / b : ℕ) : ℤ) + -1 else -((a / b : ℕ) : ℤ) := by
  have hdiv := Nat.div_add_mod a b
  have hmod := Nat.mod_lt a hb
  have hb' : (0 : ℤ) < b := by omega
  have hcast : (b : ℤ) * ((a / b : ℕ) : ℤ) + ((a % b : ℕ) : ℤ) = a := by exact_mod_cast hdiv
  split_ifs with hr
  · refine ((Int.ediv_emod_unique (r := (b : ℤ) - ((a % b : ℕ) : ℤ)) hb').2 ⟨?_, ?_, ?_⟩).1
    · linear_combination (-1 : ℤ) * hcast
    · omega
    · omega
  · refine ((Int.ediv_emod_unique (r := 0) hb').2 ⟨?_, le_rfl, hb'⟩).1
    have hzero : ((a % b : ℕ) : ℤ) = 0 := by omega
    rw [hzero] at hcast
    linear_combination (-1 : ℤ) * hcast

theorem floordiv_spec (h : v.Ok) (hd : d ≠ 0) (hd64 : d.natAbs < 2 ^ 64) :
    ∃ q, v.floordiv d = some q ∧ q.Ok ∧ q.num = ⌊(v.num : ℚ) / d⌋ := by
  have hpos : 0 < d.natAbs := Int.natAbs_pos.2 hd
  have hmag := natAbs_num v
  have hneg := h.neg_eq
  obtain ⟨hq, hr⟩ := magDivrem_spec hpos hd64 v.mag
  have hdiv := Nat.div_add_mod (value v.mag) d.natAbs
  have hmod := Nat.mod_lt (value v.mag) hpos
  -- a quotient by a positive number
  have hfloor : ⌊(v.num : ℚ) / d⌋ = (if d < 0 then -v.num else v.num) / (d.natAbs : ℤ) := by
    rw [← Rat.floor_intCast_div_natCast]
    congr 1
    split_ifs with hd0
    · have habs : (d.natAbs : ℚ) = -d := by
        rw [← Int.cast_natCast, Int.ofNat_natAbs_of_nonpos hd0.le, Int.cast_neg]
      rw [habs, Int.cast_neg, neg_div_neg_eq]
    · have habs : (d.natAbs : ℚ) = d := by
        rw [← Int.cast_natCast, Int.natAbs_of_nonneg (by omega)]
      rw [habs]
  -- the quotient towards zero
  have hzero : (magDivrem v.mag d.natAbs).1.isEmpty = decide (value v.mag / d.natAbs = 0) := by
    rw [← hq, Bool.eq_iff_iff, List.isEmpty_iff, decide_eq_true_eq,
      value_eq_zero (trimmed_magDivrem _ _)]
  obtain ⟨hok, hnum⟩ := mk_spec (s := if (magDivrem v.mag d.natAbs).1.isEmpty then false
      else v.neg != decide (d < 0)) (m := (magDivrem v.mag d.natAbs).1)
    (i := if v.neg = decide (d < 0) then ((value v.mag / d.natAbs : ℕ) : ℤ)
      else -((value v.mag / d.natAbs : ℕ) : ℤ)) (trimmed_magDivrem _ _)
    (by rw [hq]; split_ifs <;> omega) (by
      rw [hzero]
      by_cases hsame : v.neg = decide (d < 0)
      · rw [if_pos hsame, hsame, bne_self_eq_false, ite_self]
        exact (decide_eq_false (by omega)).symm
      · rw [if_neg hsame]
        by_cases hquot : value v.mag / d.natAbs = 0
        · rw [if_pos (decide_eq_true hquot), hquot]
          rfl
        · rw [if_neg (by simpa using hquot), bne_iff_ne.2 hsame]
          exact (decide_eq_true (by omega)).symm)
  refine ⟨_, by rw [floordiv, if_neg (by omega)], ?_⟩
  have hsame : v.neg = decide (d < 0) ↔ (v.num < 0 ↔ d < 0) := by
    rw [hneg, decide_eq_decide]
  have hdiff (hs : ¬v.neg = decide (d < 0)) :
      (if d < 0 then -v.num else v.num) = -(value v.mag : ℤ) := by
    rw [hsame] at hs
    split_ifs <;> omega
  by_cases hadjust : (magDivrem v.mag d.natAbs).2 ≠ 0 ∧ v.neg ≠ decide (d < 0)
  · rw [if_pos hadjust]
    obtain ⟨hok', hnum'⟩ := plus_spec hok (-1)
    refine ⟨hok', ?_⟩
    rw [hnum', hnum, hfloor, if_neg hadjust.2, hdiff hadjust.2, neg_ediv _ hpos, ← hr,
      if_pos hadjust.1]
  · rw [if_neg hadjust]
    refine ⟨hok, ?_⟩
    rw [hnum, hfloor]
    by_cases hs : v.neg = decide (d < 0)
    · have heq : (if d < 0 then -v.num else v.num) = (value v.mag : ℤ) := by
        rw [hsame] at hs
        split_ifs <;> omega
      rw [if_pos hs, heq, Int.natCast_div]
    · have hzero' : ¬value v.mag % d.natAbs ≠ 0 := fun hr0 => hadjust ⟨by rwa [hr], hs⟩
      rw [if_neg hs, hdiff hs, neg_ediv _ hpos, if_neg hzero']

theorem shl_spec (v : PyInt) (bits : ℕ) :
    Trimmed (v.shl bits).mag ∧ value (v.shl bits).mag = value v.mag * 2 ^ bits := by
  refine ⟨trimmed_trim _, ?_⟩
  have hwords : value (shlWords (bits % 32) v.mag 0) =
      value v.mag * 2 ^ (bits % 32) + (0 : UInt32).toNat :=
    value_shlWords (Nat.mod_lt bits (by decide)) v.mag (Nat.two_pow_pos _)
  rw [shl, value_trim, value_append, value_zeros, List.length_replicate, hwords,
    UInt32.toNat_zero, Nat.add_zero, Nat.zero_add]
  calc (2 ^ 32) ^ (bits / 32) * (value v.mag * 2 ^ (bits % 32))
      = value v.mag * (2 ^ (32 * (bits / 32)) * 2 ^ (bits % 32)) := by
        rw [Nat.pow_mul]
        ring
    _ = value v.mag * 2 ^ bits := by rw [← Nat.pow_add, Nat.div_add_mod]

end Ops

/-! ### Floats -/

section Floats

variable {v : PyInt} {f : F64}

theorem natAbs_signed (s : Bool) (n : ℕ) : (if s then -(n : ℤ) else n).natAbs = n := by
  split_ifs <;> omega

/-- The fields of a truncated float that is not zero. -/
theorem trunc_fields (h : ¬f.trunc.isZero) :
    1023 ≤ f.trunc.exp ∧ f.trunc.frac ||| 2 ^ 52 = f.trunc.mant := by
  have hexp : 1023 ≤ f.trunc.exp := by
    by_contra hlt
    rw [F64.trunc] at h hlt
    split_ifs at h hlt with hsmall
    · exact h rfl
    · exact hlt (Nat.le_of_not_lt hsmall)
  refine ⟨hexp, ?_⟩
  have hor := Nat.two_pow_add_eq_or_of_lt f.trunc.frac_lt 1
  rw [Nat.mul_one] at hor
  rw [F64.mant, if_neg (by omega), hor, Nat.or_comm]

/-- `from_f64` is exact. -/
theorem fromF64_spec (h : f.isFinite) : ∃ v, fromF64 f = some v ∧ v.Ok ∧
    v.num = if f.neg then -(f.whole : ℤ) else f.whole := by
  have hfinite : ¬f.isFinite = false := by simpa using h
  have hvalue := f.value_trunc
  have hwhole : f.trunc.whole = f.whole := F64.whole_eq f.abs_trunc
  rw [fromF64, if_neg hfinite]
  dsimp only
  by_cases hzero : f.trunc.isZero
  · have hw : f.whole = 0 := by
      obtain ⟨hexp, hfrac⟩ := of_decide_eq_true hzero
      have habs : f.trunc.abs = (0 : ℕ) := by simp [F64.abs, F64.mant, hexp, hfrac]
      rw [← hwhole, F64.whole_eq habs]
    rw [if_pos hzero]
    exact ⟨zero, rfl, ok_zero, by rw [hw]; simp [num_zero]⟩
  obtain ⟨hexp, hmant⟩ := trunc_fields hzero
  have hlt := f.trunc.exp_lt
  have hsign : decide (f.trunc.value < 0) =
      decide ((if f.neg then -(f.whole : ℤ) else f.whole) < 0) := by
    rw [hvalue, decide_eq_decide]
    exact_mod_cast Iff.rfl
  rw [if_neg hzero, hmant]
  by_cases hbig : (0 : ℤ) ≤ f.trunc.exp - 1075
  · obtain ⟨ht, hm⟩ := shl_spec (fromI128 (f.trunc.mant : ℤ)) ((f.trunc.exp : ℤ) - 1075).toNat
    rw [if_pos hbig, if_pos (by omega)]
    refine ⟨_, rfl, mk_spec ht ?_ hsign⟩
    have hshift : ((f.trunc.exp : ℤ) - 1075).toNat = f.trunc.exp - 1075 := by omega
    have hmag : value (fromI128 (f.trunc.mant : ℤ)).mag = f.trunc.mant := value_words _
    rw [hm, hshift, hmag, natAbs_signed, ← hwhole, F64.whole, if_neg (by omega), if_neg (by omega)]
  · rw [if_neg hbig]
    refine ⟨_, rfl, mk_spec (trimmed_words _) ?_ hsign⟩
    have hshift : (min (-((f.trunc.exp : ℤ) - 1075)) 63).toNat = f.trunc.low := by
      rw [F64.low]
      omega
    have hmag : value (fromI128 (f.trunc.mant >>> f.trunc.low : ℕ)).mag =
        f.trunc.mant >>> f.trunc.low := value_words _
    rw [hshift, hmag, Nat.shiftRight_eq_div_pow, natAbs_signed, ← hwhole, F64.whole,
      if_neg (by omega), if_pos (by omega)]

/-- Truncation of the number. -/
theorem fromF64_trunc (h : f.isFinite) : ∃ v, fromF64 f = some v ∧ v.Ok ∧
    v.num = if 0 ≤ f.value then ⌊f.value⌋ else ⌈f.value⌉ := by
  obtain ⟨v, hv, hok, hnum⟩ := fromF64_spec h
  refine ⟨v, hv, hok, ?_⟩
  have hnonneg := f.abs_nonneg
  rw [hnum, F64.value]
  cases f.neg with
  | false =>
    rw [if_neg Bool.false_ne_true, if_neg Bool.false_ne_true, if_pos hnonneg, f.floor_abs]
  | true =>
    rw [if_pos rfl, if_pos rfl, Int.ceil_neg, f.floor_abs]
    split_ifs with hle
    · have habs : f.abs = (0 : ℕ) := by
        push_cast
        linarith
      rw [habs, F64.whole_eq habs]
      simp
    · rfl

/-- `cmp_f64` is the order of the numbers. -/
theorem cmpF64_spec (hv : v.Ok) (h : f.isFinite) :
    v.cmpF64 f = some (compare (v.num : ℚ) f.value) := by
  have hexp : f.exp ≠ 2047 := of_decide_eq_true h
  have hnan : ¬f.isNan := fun hnan => hexp (of_decide_eq_true hnan).1
  obtain ⟨fl, hfl, hok, hnum⟩ := fromF64_trunc (F64.isFinite_floor h)
  have hfloor : fl.num = ⌊f.value⌋ := by
    rw [hnum, F64.value_floor, Int.floor_intCast, Int.ceil_intCast, ite_self]
  have hle := Int.floor_le f.value
  have hlt := Int.lt_floor_add_one f.value
  rw [cmpF64, if_neg hnan, if_neg (by simpa using h), hfl, Option.map_some, cmpInt_spec hv hok,
    hfloor, F64.value_floor]
  refine congrArg some ?_
  rcases lt_trichotomy v.num ⌊f.value⌋ with hcmp | hcmp | hcmp
  · have hcast : (v.num : ℚ) < ⌊f.value⌋ := by exact_mod_cast hcmp
    rw [compare_lt_iff_lt.2 hcmp, compare_lt_iff_lt.2 (hcast.trans_le hle)]
  · rw [hcmp, compare_eq_iff_eq.2 rfl]
    dsimp only
    split_ifs with hfrac
    · exact (compare_lt_iff_lt.2 hfrac).symm
    · exact (compare_eq_iff_eq.2 (le_antisymm hle (not_lt.1 hfrac))).symm
  · have hcast : (⌊f.value⌋ : ℚ) + 1 ≤ v.num := by exact_mod_cast hcmp
    rw [compare_gt_iff_gt.2 hcmp, compare_gt_iff_gt.2 (hlt.trans_le hcast)]

end Floats

/-! ### Decimal texts -/

section Texts

variable {v : PyInt} {k q r : ℕ}

/-- Zeros are put in front of all digits but the last. -/
theorem padded_succ (hk : 0 < k) (n : ℕ) :
    padded (k + 1) n = padded k (n / 10) ++ Nat.toDigits 10 (n % 10) := by
  rcases Nat.lt_or_ge n 10 with hlt | hge
  · obtain ⟨k, rfl⟩ : ∃ j, k = j + 1 := ⟨k - 1, by omega⟩
    rw [padded, padded, Nat.toDigits_of_lt_base hlt, Nat.div_eq_of_lt hlt, Nat.toDigits_zero,
      Nat.mod_eq_of_lt hlt, Nat.toDigits_of_lt_base hlt, List.length_singleton,
      List.length_singleton,
      Nat.add_sub_cancel, Nat.add_sub_cancel, List.replicate_succ']
  · have hmod := Nat.toDigits_of_lt_base (Nat.mod_lt n (by decide : 0 < 10))
    rw [padded, padded, Nat.toDigits_of_base_le (by decide) hge, hmod, List.length_append,
      List.length_singleton, Nat.add_sub_add_right, List.append_assoc]

/-- The digits of a number in two parts. -/
theorem toDigits_padded (hq : 0 < q) : ∀ (k : ℕ) {r : ℕ}, 0 < k → r < 10 ^ k →
    Nat.toDigits 10 (q * 10 ^ k + r) = Nat.toDigits 10 q ++ padded k r
  | 0, _, hk, _ => absurd hk (Nat.lt_irrefl 0)
  | 1, r, _, hr => by
    rw [Nat.pow_one] at hr ⊢
    rw [padded, Nat.toDigits_of_lt_base hr, List.length_singleton, Nat.sub_self,
      List.replicate_zero, List.nil_append, ← Nat.toDigits_of_lt_base hr,
      Nat.toDigits_append_toDigits (by decide) hq hr, Nat.mul_comm]
  | k + 2, r, _, hr => by
    have hpow : 10 ^ (k + 2) = 10 * 10 ^ (k + 1) := Nat.pow_succ'
    have hlow : r / 10 < 10 ^ (k + 1) := by omega
    have hsplit : q * 10 ^ (k + 2) + r = 10 * (q * 10 ^ (k + 1) + r / 10) + r % 10 := by
      rw [hpow, Nat.mul_left_comm, Nat.mul_add]
      omega
    have hpos : 0 < q * 10 ^ (k + 1) + r / 10 :=
      Nat.add_pos_left (Nat.mul_pos hq (Nat.pow_pos (by decide))) _
    rw [hsplit, ← Nat.toDigits_append_toDigits (by decide) hpos (Nat.mod_lt r (by decide)),
      toDigits_padded hq (k + 1) (Nat.succ_pos k) hlow, padded_succ (Nat.succ_pos k),
      List.append_assoc]

/-- The chunks give the digits of the number. -/
theorem joined_chunks {a : List UInt32} (ha : Trimmed a) (hne : a ≠ []) :
    joined (chunks a).reverse = Nat.toDigits 10 (value a) := by
  induction a using chunks.induct with
  | case1 => exact absurd rfl hne
  | case2 a hcur ih =>
    obtain ⟨hq, hr⟩ := magDivrem_spec (by decide : 0 < 1000000000) (by decide) a
    have hdiv := Nat.div_add_mod (value a) 1000000000
    have hmod := Nat.mod_lt (value a) (by decide : 0 < 1000000000)
    have htrim := trimmed_magDivrem a 1000000000
    rw [chunks, if_neg hcur, List.reverse_cons, hr]
    by_cases hlast : (magDivrem a 1000000000).1 = []
    · rw [hlast, value_nil] at hq
      have hvalue : value a % 1000000000 = value a := by omega
      rw [hlast, chunks, if_pos rfl, List.reverse_nil, List.nil_append, joined, List.flatMap_nil,
        List.append_nil, hvalue]
    · -- the chunks before are the digits of the quotient
      have hquot := ih htrim hlast
      obtain ⟨c, cs, hcs⟩ : ∃ c cs, (chunks (magDivrem a 1000000000).1).reverse = c :: cs := by
        refine List.exists_cons_of_ne_nil fun hnil => ?_
        rw [hnil] at hquot
        exact Nat.toDigits_ne_nil hquot.symm
      have hpos : 0 < value a / 1000000000 := by
        rw [← hq]
        exact Nat.pos_of_ne_zero fun h0 => hlast ((value_eq_zero htrim).1 h0)
      rw [hcs, joined] at hquot
      rw [hcs, List.cons_append, joined, List.flatMap_append, List.flatMap_singleton,
        ← List.append_assoc, hquot, hq, ← toDigits_padded hpos 9 (by decide) hmod]
      congr 1
      omega

/-- The text is the canonical one. -/
theorem display_eq (h : v.Ok) : v.display = (Int.repr v.num).toList := by
  have hmag := natAbs_num v
  rw [display]
  by_cases hzero : v.isZero
  · rw [if_pos hzero, h.isZero_iff.1 hzero]
    rfl
  · have hne : v.mag ≠ [] := fun hnil => hzero (by rw [isZero, hnil]; rfl)
    rw [if_neg hzero, joined_chunks h.trimmed hne, h.neg_eq, Int.repr_eq_if]
    by_cases hneg : v.num < 0
    · have habs : (-v.num).toNat = value v.mag := by omega
      rw [if_pos (decide_eq_true hneg), if_neg (by omega), String.toList_append, Nat.toList_repr,
        habs]
      rfl
    · have habs : v.num.toNat = value v.mag := by omega
      rw [if_neg (by simpa using hneg), if_pos (by omega), Nat.toList_repr, habs]
      rfl

/-- The chunks of a text are read one after another. -/
theorem parseChunks_spec (s : List Char) (h : v.Ok) : ∃ p, parseChunks s v = some p ∧ p.Ok ∧
    p.num = v.num * 10 ^ s.length + Nat.ofDigitChars 10 s 0 := by
  induction hn : s.length using Nat.strong_induction_on generalizing s v with
  | _ n ih =>
    by_cases hs : s = []
    · subst hs
      exact ⟨v, by rw [parseChunks, if_pos rfl], h, by simp [← hn]⟩
    · obtain ⟨hok, hscale⟩ := fromI128_spec (10 ^ (s.take 18).length)
      obtain ⟨p, hp, hpok, hpnum⟩ := times_spec h hok
      obtain ⟨hqok, hqnum⟩ := plus_spec hpok (Nat.ofDigitChars 10 (s.take 18) 0 : ℕ)
      have hpos := List.length_pos_iff.2 hs
      obtain ⟨w, hw, hwok, hwnum⟩ := ih (s.drop 18).length (by rw [List.length_drop]; omega)
        (s.drop 18) hqok rfl
      refine ⟨w, ?_, hwok, ?_⟩
      · rw [parseChunks, if_neg hs, hp, Option.bind_some, hw]
      · have hlen : s.length = (s.take 18).length + (s.drop 18).length := by
          rw [← List.length_append, List.take_append_drop]
        have htext : Nat.ofDigitChars 10 s 0 = 10 ^ (s.drop 18).length *
            Nat.ofDigitChars 10 (s.take 18) 0 + Nat.ofDigitChars 10 (s.drop 18) 0 := by
          conv_lhs => rw [← List.take_append_drop 18 s]
          rw [Nat.ofDigitChars_append, Nat.ofDigitChars_eq_ofDigitChars_zero]
        rw [hwnum, hqnum, hpnum, hscale, htext, ← hn, hlen, pow_add]
        push_cast
        ring

theorem parseDigits_spec {s : List Char} (hne : s ≠ []) (hs : s.all Char.isDigit) :
    ∃ p, parseDigits s = some (some p) ∧ p.Ok ∧ p.num = Nat.ofDigitChars 10 s 0 := by
  obtain ⟨p, hp, hok, hnum⟩ := parseChunks_spec s ok_zero
  refine ⟨p, ?_, hok, ?_⟩
  · rw [parseDigits, if_neg (by simp [hne, hs]), hp]
    rfl
  · rw [hnum, num_zero, zero_mul, zero_add]

/-- A text is read back. -/
theorem parseDigits_display (h : v.Ok) (hv : 0 ≤ v.num) :
    parseDigits v.display = some (some v) := by
  have htext : v.display = Nat.toDigits 10 v.num.toNat := by
    rw [display_eq h, Int.repr_eq_if, if_pos hv, Nat.toList_repr]
  have hdigits : (Nat.toDigits 10 v.num.toNat).all Char.isDigit := by
    rw [List.all_eq_true]
    exact fun c hc => Nat.isDigit_of_mem_toDigits (by decide) (by decide) hc
  obtain ⟨p, hp, hok, hnum⟩ := parseDigits_spec Nat.toDigits_ne_nil hdigits
  rw [Nat.ofDigitChars_ten_toDigits] at hnum
  rw [htext, hp, num_inj hok h (by omega)]

end Texts

/-! ### What is made of them -/

/-- The integers that the functions make, in any order. -/
inductive Made : PyInt → Prop
  | fromI128 (k : ℤ) : Made (fromI128 k)
  | fromF64 {f : F64} {v : PyInt} : fromF64 f = some v → Made v
  | parseDigits {s : List Char} {v : PyInt} : parseDigits s = some (some v) → Made v
  | times {v o p : PyInt} : Made v → Made o → v.times o = some p → Made p
  | plus {v : PyInt} (k : ℤ) : Made v → Made (v.plus k)
  | negated {v : PyInt} : Made v → Made v.negated
  | floordiv {v q : PyInt} {d : ℤ} : Made v → v.floordiv d = some q → Made q

theorem Made.ok {v : PyInt} (h : Made v) : v.Ok := by
  induction h with
  | fromI128 k => exact (fromI128_spec k).1
  | @fromF64 f v hf =>
    have hfinite : f.isFinite := by
      by_contra hnot
      rw [PyInt.fromF64, if_pos (by simpa using hnot)] at hf
      cases hf
    obtain ⟨w, hw, hok, -⟩ := fromF64_spec hfinite
    obtain rfl := Option.some.inj (hf.symm.trans hw)
    exact hok
  | @parseDigits s v hs =>
    rw [PyInt.parseDigits] at hs
    split_ifs at hs with hbad
    · cases Option.some.inj hs
    · obtain ⟨p, hp, hok, -⟩ := parseChunks_spec s ok_zero
      rw [hp] at hs
      obtain rfl := Option.some.inj (Option.some.inj hs)
      exact hok
  | times _ _ hp ihv iho =>
    obtain ⟨w, hw, hok, -⟩ := times_spec ihv iho
    obtain rfl := Option.some.inj (hp.symm.trans hw)
    exact hok
  | plus k _ ih => exact (plus_spec ih k).1
  | negated _ ih => exact (negated_spec ih).1
  | @floordiv v q d _ hq ih =>
    have hd : ¬(2 ^ 64 ≤ d.natAbs ∨ d.natAbs = 0) := by
      intro hd
      rw [PyInt.floordiv, if_pos hd] at hq
      cases hq
    obtain ⟨w, hw, hok, -⟩ := floordiv_spec ih (d := d) (by omega) (by omega)
    obtain rfl := Option.some.inj (hq.symm.trans hw)
    exact hok

/-- Integers that were made have their one representation, and the functions on them are those of
the integers. -/
theorem exact_ints {v o : PyInt} (hv : Made v) (ho : Made o) {k d : ℤ} (hd : d ≠ 0)
    (hd64 : d.natAbs < 2 ^ 64) {f : F64} (hf : f.isFinite) :
    (v.Ok ∧ (v = o ↔ v.num = o.num)) ∧
      (∃ p, v.times o = some p ∧ p.num = v.num * o.num) ∧
      (v.plus k).num = v.num + k ∧ v.negated.num = -v.num ∧
      (∃ q, v.floordiv d = some q ∧ q.num = ⌊(v.num : ℚ) / d⌋) ∧
      (∃ t, fromF64 f = some t ∧ t.num = if 0 ≤ f.value then ⌊f.value⌋ else ⌈f.value⌉) ∧
      v.cmpInt o = compare v.num o.num ∧ v.cmpF64 f = some (compare (v.num : ℚ) f.value) ∧
      v.display = (Int.repr v.num).toList ∧
      (0 ≤ v.num → parseDigits v.display = some (some v)) ∧
      (fromI128 k).num = k ∧
      ∀ s : List Char, s ≠ [] → s.all Char.isDigit →
        ∃ p, parseDigits s = some (some p) ∧ p.num = Nat.ofDigitChars 10 s 0 := by
  have hok := hv.ok
  obtain ⟨p, hp, -, hpnum⟩ := times_spec hok ho.ok
  obtain ⟨q, hq, -, hqnum⟩ := floordiv_spec hok hd hd64
  obtain ⟨t, ht, -, htnum⟩ := fromF64_trunc hf
  refine ⟨⟨hok, fun h => by rw [h], num_inj hok ho.ok⟩, ⟨p, hp, hpnum⟩, (plus_spec hok k).2,
    (negated_spec hok).2, ⟨q, hq, hqnum⟩, ⟨t, ht, htnum⟩, cmpInt_spec hok ho.ok,
    cmpF64_spec hok hf, display_eq hok, parseDigits_display hok, (fromI128_spec k).2,
    fun s hne hs => ?_⟩
  obtain ⟨w, hw, -, hwnum⟩ := parseDigits_spec hne hs
  exact ⟨w, hw, hwnum⟩

/-- Minus seven by two, rounded down. -/
theorem exact_ints_seven : ∃ q, (fromI128 (-7)).floordiv 2 = some q ∧ q.num = -4 := by
  obtain ⟨q, hq, hnum⟩ := (exact_ints (.fromI128 (-7)) (.fromI128 2) (k := 0) (d := 2) (by decide)
    (by decide) (f := ⟨false, 0, 0, by decide, by decide⟩) rfl).2.2.2.2.1
  refine ⟨q, hq, ?_⟩
  rw [hnum, (fromI128_spec (-7)).2]
  norm_num

end PyInt

end EngineConsole.PyInts
