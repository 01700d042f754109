import EngineConsole.TreeOps

/-!
# Strict base64

What `b64decode_strict` of the node (`fsops.rs`) accepts. The standard writes the bits of the bytes
in groups of six, a character of the alphabet each, and fills up to a multiple of four characters
with `=`; reading back, bits that do not fill a byte are dropped (`octets`).

The decoder holds the bits that have not filled a byte yet. `rest_accepts` follows them through the
text : what is accepted is alphabet characters and then padding, and the bytes are those of the
bits.
-/

set_option linter.unusedSectionVars false

namespace EngineConsole.Base64

open Files

/-! ## The standard -/

/-- The alphabet, in the order of the values. -/
def alphabet : List Char :=
  "ABCDEFGHIJKLMNOPQRSTUVWXYZabcdefghijklmnopqrstuvwxyz0123456789+/".toList

/-- The bits of a number, the highest first. -/
def bits : ℕ → ℕ → List Bool
  | 0, _ => []
  | w + 1, n => bits w (n / 2) ++ [decide (n % 2 = 1)]

/-- The number of some bits. -/
def ofBits (bs : List Bool) : ℕ :=
  bs.foldl (fun n b => 2 * n + b.toNat) 0

/-- The bytes of some bits; what does not fill a byte is dropped. -/
def octets : List Bool → List UInt8
  | b₀ :: b₁ :: b₂ :: b₃ :: b₄ :: b₅ :: b₆ :: b₇ :: bs =>
    UInt8.ofNat (ofBits [b₀, b₁, b₂, b₃, b₄, b₅, b₆, b₇]) :: octets bs
  | _ => []

/-- The bytes that the standard assigns to alphabet characters. -/
def assigned (data : List Char) : List UInt8 :=
  octets (data.flatMap fun c => bits 6 (alphabet.idxOf c))

/-- A character of the alphabet. -/
def digit (n : ℕ) : Char :=
  alphabet.getD n '='

/-- The text of some bytes, padded. -/
def encode : List UInt8 → List Char
  | [] => []
  | [a] => [digit (a.toNat / 4), digit (a.toNat % 4 * 16), '=', '=']
  | [a, b] => [digit (a.toNat / 4), digit (a.toNat % 4 * 16 + b.toNat / 16),
      digit (b.toNat % 16 * 4), '=']
  | a :: b :: c :: bs => digit (a.toNat / 4) :: digit (a.toNat % 4 * 16 + b.toNat / 16) ::
      digit (b.toNat % 16 * 4 + c.toNat / 64) :: digit (c.toNat % 64) :: encode bs

/-! ## The alphabet -/

set_option maxRecDepth 4000 in
theorem b64Value_digit : ∀ n < 64, b64Value (digit n) = some n ∧ digit n ≠ '=' := by
  decide

set_option maxRecDepth 4000 in
theorem idxOf_digit : ∀ n < 64, digit n ∈ alphabet ∧ alphabet.idxOf (digit n) = n := by
  decide

set_option maxRecDepth 4000 in
theorem digit_upper : ∀ n < 26, digit n = Char.ofNat (n + 65) := by
  decide

set_option maxRecDepth 4000 in
theorem digit_lower : ∀ n < 26, digit (n + 26) = Char.ofNat (n + 97) := by
  decide

set_option maxRecDepth 4000 in
theorem digit_decimal : ∀ n < 10, digit (n + 52) = Char.ofNat (n + 48) := by
  decide

/-- What has a value is the character of that value. -/
theorem eq_digit {c : Char} {v : ℕ} (h : b64Value c = some v) : v < 64 ∧ c = digit v := by
  have hA : 'A'.toNat = 65 := rfl
  have hZ : 'Z'.toNat = 90 := rfl
  have ha : 'a'.toNat = 97 := rfl
  have hz : 'z'.toNat = 122 := rfl
  have h0 : '0'.toNat = 48 := rfl
  have h9 : '9'.toNat = 57 := rfl
  have hchar (n k : ℕ) (hn : c.toNat = n + k) : Char.ofNat (n + k) = c := by
    rw [← hn, Char.ofNat_toNat]
  simp only [b64Value, Char.le_def, UInt32.le_iff_toNat_le] at h
  split_ifs at h with h1 h2 h3 h4 h5
  · obtain rfl := Option.some.inj h
    have hlo : 65 ≤ c.toNat := h1.1
    have hhi : c.toNat ≤ 90 := h1.2
    refine ⟨by omega, ?_⟩
    rw [hA, digit_upper _ (by omega), hchar _ _ (by omega)]
  · obtain rfl := Option.some.inj h
    have hlo : 97 ≤ c.toNat := h2.1
    have hhi : c.toNat ≤ 122 := h2.2
    refine ⟨by omega, ?_⟩
    rw [ha, digit_lower _ (by omega), hchar _ _ (by omega)]
  · obtain rfl := Option.some.inj h
    have hlo : 48 ≤ c.toNat := h3.1
    have hhi : c.toNat ≤ 57 := h3.2
    refine ⟨by omega, ?_⟩
    rw [h0, digit_decimal _ (by omega), hchar _ _ (by omega)]
  · obtain rfl := Option.some.inj h
    exact ⟨by omega, h4⟩
  · obtain rfl := Option.some.inj h
    exact ⟨by omega, h5⟩

/-! ## Bits -/

theorem length_bits : ∀ w n, (bits w n).length = w
  | 0, _ => rfl
  | w + 1, n => by
    rw [bits, List.length_append, length_bits w, List.length_singleton]

/-- The high bits and the low bits. -/
theorem bits_add (m : ℕ) : ∀ w n, bits (m + w) n = bits m (n / 2 ^ w) ++ bits w n
  | 0, n => by simp [bits]
  | w + 1, n => by
    rw [← Nat.add_assoc, bits, bits_add m w, bits, Nat.div_div_eq_div_mul, ← Nat.pow_succ',
      List.append_assoc]

theorem bits_mod : ∀ w n, bits w (n % 2 ^ w) = bits w n
  | 0, _ => rfl
  | w + 1, n => by
    have hdiv : n % 2 ^ (w + 1) / 2 = n / 2 % 2 ^ w := by
      rw [Nat.pow_succ', Nat.mod_mul_right_div_self]
    have hmod : n % 2 ^ (w + 1) % 2 = n % 2 :=
      Nat.mod_mod_of_dvd n (Dvd.intro_left (2 ^ w) rfl)
    rw [bits, hdiv, bits_mod w, hmod, bits]

theorem ofBits_snoc (bs : List Bool) (b : Bool) : ofBits (bs ++ [b]) = 2 * ofBits bs + b.toNat := by
  rw [ofBits, List.foldl_append]
  rfl

/-- The number of the bits of a number. -/
theorem ofBits_bits : ∀ w n, n < 2 ^ w → ofBits (bits w n) = n
  | 0, n, h => by
    obtain rfl : n = 0 := by simpa using h
    rfl
  | w + 1, n, h => by
    rw [bits, ofBits_snoc, ofBits_bits w (n / 2) (by rw [Nat.pow_succ] at h; omega)]
    rcases Nat.mod_two_eq_zero_or_one n with hn | hn <;>
    · rw [hn]
      simp
      omega

/-- A whole byte, and the bits after it. -/
theorem octets_byte {n : ℕ} (hn : n < 256) (bs : List Bool) :
    octets (bits 8 n ++ bs) = UInt8.ofNat n :: octets bs := by
  obtain ⟨b₀, b₁, b₂, b₃, b₄, b₅, b₆, b₇, hb⟩ : ∃ b₀ b₁ b₂ b₃ b₄ b₅ b₆ b₇,
      bits 8 n = [b₀, b₁, b₂, b₃, b₄, b₅, b₆, b₇] := ⟨_, _, _, _, _, _, _, _, rfl⟩
  have hbits := ofBits_bits 8 n hn
  rw [hb] at hbits
  rw [hb, ← hbits]
  rfl

theorem octets_short {bs : List Bool} (h : bs.length < 8) : octets bs = [] := by
  rcases bs with _ | ⟨_, _ | ⟨_, _ | ⟨_, _ | ⟨_, _ | ⟨_, _ | ⟨_, _ | ⟨_, _ | ⟨_, bs⟩⟩⟩⟩⟩⟩⟩⟩
  all_goals first
    | rfl
    | simp only [List.length_cons] at h
      omega

/-- Held bits and six more, where they fill a byte. -/
theorem octets_fill {w k n v : ℕ} (hw : w + k = 8) (hk : k ≤ 6) (hn : n < 2 ^ w) (hv : v < 64)
    (bs : List Bool) : octets (bits w n ++ (bits 6 v ++ bs)) =
      UInt8.ofNat (n * 2 ^ k + v / 2 ^ (6 - k)) ::
        octets (bits (6 - k) (v % 2 ^ (6 - k)) ++ bs) := by
  have hsix : bits 6 v = bits k (v / 2 ^ (6 - k)) ++ bits (6 - k) v := by
    rw [← bits_add, Nat.add_sub_cancel' hk]
  have hlow : v / 2 ^ (6 - k) < 2 ^ k := by
    rw [Nat.div_lt_iff_lt_mul (Nat.two_pow_pos _), ← Nat.pow_add, Nat.add_sub_cancel' hk]
    exact hv
  have hbyte : bits w n ++ bits k (v / 2 ^ (6 - k)) = bits 8 (n * 2 ^ k + v / 2 ^ (6 - k)) := by
    have hdiv : (n * 2 ^ k + v / 2 ^ (6 - k)) / 2 ^ k = n := by
      rw [Nat.mul_comm, Nat.mul_add_div (Nat.two_pow_pos k), Nat.div_eq_of_lt hlow, Nat.add_zero]
    have hmod : (n * 2 ^ k + v / 2 ^ (6 - k)) % 2 ^ k = v / 2 ^ (6 - k) := by
      rw [Nat.mul_comm, Nat.mul_add_mod, Nat.mod_eq_of_lt hlow]
    rw [← hw, bits_add, hdiv, ← bits_mod k (n * 2 ^ k + _), hmod]
  have hlt : n * 2 ^ k + v / 2 ^ (6 - k) < 256 := by
    have hle : (n + 1) * 2 ^ k ≤ 2 ^ w * 2 ^ k := Nat.mul_le_mul_right _ hn
    rw [← Nat.pow_add, hw, Nat.succ_mul] at hle
    omega
  rw [hsix, List.append_assoc, ← List.append_assoc, hbyte, octets_byte hlt, bits_mod]

/-! ## What is accepted -/

section Accept

variable {quad left pads : ℕ} {cs data : List Char} {out : List UInt8}

theorem rest_pad (cs : List Char) (started : Bool) : b64Rest quad left pads started ('=' :: cs) =
    if quad = 0 then none
    else if 2 ≤ quad then
      if 4 ≤ quad + (pads + 1) then if cs = [] then some [] else none
      else b64Rest quad left (pads + 1) true cs
    else b64Rest quad left pads true cs :=
  if_pos rfl

/-- Nothing comes after padding but padding. -/
theorem rest_started {c : Char} (hc : c ≠ '=') (cs : List Char) :
    b64Rest quad left pads true (c :: cs) = none := by
  refine (if_neg hc).trans ?_
  cases b64Value c <;> rfl

theorem rest_not_digit {c : Char} (hc : c ≠ '=') (hv : b64Value c = none) (cs : List Char)
    (started : Bool) : b64Rest quad left pads started (c :: cs) = none := by
  refine (if_neg hc).trans ?_
  rw [hv, Option.bind_none]

section Digits

variable {v : ℕ} (hv : v < 64) (cs : List Char)
include hv

theorem rest_zero : b64Rest 0 left 0 false (digit v :: cs) = b64Rest 1 v 0 false cs := by
  obtain ⟨hvalue, hne⟩ := b64Value_digit v hv
  refine (if_neg hne).trans ?_
  rw [hvalue]
  rfl

theorem rest_one : b64Rest 1 left 0 false (digit v :: cs) =
    (b64Rest 2 (v % 16) 0 false cs).map (UInt8.ofNat (left * 4 + v / 16) :: ·) := by
  obtain ⟨hvalue, hne⟩ := b64Value_digit v hv
  refine (if_neg hne).trans ?_
  rw [hvalue]
  rfl

theorem rest_two : b64Rest 2 left 0 false (digit v :: cs) =
    (b64Rest 3 (v % 4) 0 false cs).map (UInt8.ofNat (left * 16 + v / 4) :: ·) := by
  obtain ⟨hvalue, hne⟩ := b64Value_digit v hv
  refine (if_neg hne).trans ?_
  rw [hvalue]
  rfl

theorem rest_three : b64Rest 3 left 0 false (digit v :: cs) =
    (b64Rest 0 0 0 false cs).map (UInt8.ofNat (left * 64 + v) :: ·) := by
  obtain ⟨hvalue, hne⟩ := b64Value_digit v hv
  refine (if_neg hne).trans ?_
  rw [hvalue]
  rfl

end Digits

/-- Padding after one character of a group is not accepted. -/
theorem rest_one_pad (left pads : ℕ) : ∀ cs : List Char, b64Rest 1 left pads true cs = none
  | [] => rfl
  | c :: cs => by
    by_cases hc : c = '='
    · rw [hc, rest_pad, if_neg (by decide), if_neg (by decide)]
      exact rest_one_pad left pads cs
    · exact rest_started hc cs

/-- After two characters and one padding there is one more. -/
theorem rest_two_pads (h : b64Rest 2 left 1 true cs = some out) : cs = ['='] ∧ out = [] := by
  cases cs with
  | nil => cases h
  | cons c cs =>
    by_cases hc : c = '='
    · rw [hc, rest_pad, if_neg (by decide), if_pos (by decide), if_pos (by decide)] at h
      split_ifs at h with hcs
      rw [hc, hcs]
      exact ⟨rfl, (Option.some.inj h).symm⟩
    · rw [rest_started hc] at h
      cases h

/-- How many bits are held at a place in a group. -/
def held (quad : ℕ) : ℕ :=
  (4 - quad) % 4 * 2

/-- One more character of the alphabet before what is accepted. -/
theorem accepts_cons {v : ℕ} {bs : List Bool} (quad' : ℕ) (out' : List UInt8) (hv : v < 64)
    (hquad : (quad + 1) % 4 = quad' % 4)
    (hbytes : ∀ xs, octets (bs ++ (bits 6 v ++ xs)) = out' ++ octets (bits (held quad') left ++ xs))
    (h : ∃ data pads, cs = data ++ List.replicate pads '=' ∧ (∀ c ∈ data, c ∈ alphabet) ∧
      pads ≤ 2 ∧ (quad' + data.length + pads) % 4 = 0 ∧
      out = octets (bits (held quad') left ++ data.flatMap fun c => bits 6 (alphabet.idxOf c))) :
    ∃ data pads, digit v :: cs = data ++ List.replicate pads '=' ∧ (∀ c ∈ data, c ∈ alphabet) ∧
      pads ≤ 2 ∧ (quad + data.length + pads) % 4 = 0 ∧
      out' ++ out = octets (bs ++ data.flatMap fun c => bits 6 (alphabet.idxOf c)) := by
  obtain ⟨data, pads, rfl, hmem, hpads, hlen, rfl⟩ := h
  obtain ⟨hdigit, hidx⟩ := idxOf_digit v hv
  refine ⟨digit v :: data, pads, rfl, fun c hc => ?_, hpads, ?_, ?_⟩
  · rcases List.mem_cons.1 hc with rfl | hc
    exacts [hdigit, hmem c hc]
  · rw [List.length_cons]
    omega
  · rw [List.flatMap_cons, hidx, hbytes]

/-- A text that is accepted from some place in a group : alphabet characters, then the padding that
fills the group; the bytes are those of the held bits and of the characters. -/
theorem rest_accepts : ∀ {cs : List Char} {quad left : ℕ} {out : List UInt8}, quad < 4 →
    left < 2 ^ held quad → b64Rest quad left 0 false cs = some out →
    ∃ data pads, cs = data ++ List.replicate pads '=' ∧ (∀ c ∈ data, c ∈ alphabet) ∧ pads ≤ 2 ∧
      (quad + data.length + pads) % 4 = 0 ∧
      out = octets (bits (held quad) left ++ data.flatMap fun c => bits 6 (alphabet.idxOf c))
  | [], quad, left, out, hq, hleft, h => by
    have hnil : b64Rest quad left 0 false [] = if quad = 0 then some [] else none := rfl
    rw [hnil] at h
    split_ifs at h with hzero
    obtain rfl := Option.some.inj h
    rw [hzero]
    exact ⟨[], 0, rfl, nofun, by omega, rfl, rfl⟩
  | c :: cs, quad, left, out, hq, hleft, h => by
    by_cases hc : c = '='
    · -- the padding starts
      rw [hc, rest_pad] at h
      obtain rfl | rfl | rfl | rfl : quad = 0 ∨ quad = 1 ∨ quad = 2 ∨ quad = 3 := by omega
      · cases h
      · rw [if_neg (by decide), if_neg (by decide), rest_one_pad] at h
        cases h
      · rw [if_neg (by decide), if_pos (by decide), if_neg (by decide)] at h
        obtain ⟨rfl, rfl⟩ := rest_two_pads h
        refine ⟨[], 2, by rw [hc]; rfl, nofun, le_rfl, rfl, ?_⟩
        exact (octets_short (by simp [length_bits, held])).symm
      · rw [if_neg (by decide), if_pos (by decide), if_pos (by decide)] at h
        split_ifs at h with hcs
        obtain rfl := Option.some.inj h
        refine ⟨[], 1, by rw [hc, hcs]; rfl, nofun, by omega, rfl, ?_⟩
        exact (octets_short (by simp [length_bits, held])).symm
    · obtain ⟨v, hv⟩ : ∃ v, b64Value c = some v := by
        refine Option.ne_none_iff_exists'.1 fun hv => ?_
        rw [rest_not_digit hc hv] at h
        cases h
      obtain ⟨hlt, rfl⟩ := eq_digit hv
      have hlow (k : ℕ) : v % 2 ^ k < 2 ^ k := Nat.mod_lt _ (Nat.two_pow_pos k)
      obtain rfl | rfl | rfl | rfl : quad = 0 ∨ quad = 1 ∨ quad = 2 ∨ quad = 3 := by omega
      · rw [rest_zero hlt] at h
        exact accepts_cons 1 [] hlt rfl (fun _ => rfl)
          (rest_accepts (by decide) hlt h)
      · rw [rest_one hlt] at h
        obtain ⟨out, hrest, rfl⟩ := Option.map_eq_some_iff.1 h
        exact accepts_cons 2 [_] hlt rfl
          (octets_fill (w := 6) (k := 2) rfl (by decide) hleft hlt)
          (rest_accepts (by decide) (hlow 4) hrest)
      · rw [rest_two hlt] at h
        obtain ⟨out, hrest, rfl⟩ := Option.map_eq_some_iff.1 h
        exact accepts_cons 3 [_] hlt rfl
          (octets_fill (w := 4) (k := 4) rfl (by decide) hleft hlt)
          (rest_accepts (by decide) (hlow 2) hrest)
      · rw [rest_three hlt] at h
        obtain ⟨out, hrest, rfl⟩ := Option.map_eq_some_iff.1 h
        have hbytes := octets_fill (w := 2) (k := 6) rfl (by decide) hleft hlt
        simp only [Nat.sub_self, Nat.pow_zero, Nat.div_one, Nat.mod_one] at hbytes
        exact accepts_cons 0 [_] hlt rfl hbytes
          (rest_accepts (by decide) (by decide) hrest)

end Accept

/-! ## What was encoded is read back -/

theorem ofNat_of_eq {n : ℕ} {a : UInt8} (h : n = a.toNat) : UInt8.ofNat n = a := by
  rw [h, UInt8.ofNat_toNat]

theorem rest_encode : ∀ b : List UInt8, b64Rest 0 0 0 false (encode b) = some b
  | [] => rfl
  | [a] => by
    have ha := a.toNat_lt
    have hpads : b64Rest 2 (a.toNat % 4 * 16 % 16) 0 false ['=', '='] = some [] := rfl
    rw [encode, rest_zero (by omega), rest_one (by omega), hpads, Option.map_some,
      ofNat_of_eq (a := a) (by omega)]
  | [a, b] => by
    have ha := a.toNat_lt
    have hb := b.toNat_lt
    have hpad : b64Rest 3 (b.toNat % 16 * 4 % 4) 0 false ['='] = some [] := rfl
    rw [encode, rest_zero (by omega), rest_one (by omega), rest_two (by omega), hpad,
      Option.map_some, Option.map_some, ofNat_of_eq (a := a) (by omega),
      ofNat_of_eq (a := b) (by omega)]
  | a :: b :: c :: bs => by
    have ha := a.toNat_lt
    have hb := b.toNat_lt
    have hc := c.toNat_lt
    rw [encode, rest_zero (by omega), rest_one (by omega), rest_two (by omega),
      rest_three (by omega), rest_encode bs, Option.map_some, Option.map_some, Option.map_some,
      ofNat_of_eq (a := a) (by omega), ofNat_of_eq (a := b) (by omega),
      ofNat_of_eq (a := c) (by omega)]

/-- The decoder reads back every encoded text, and what it accepts is alphabet characters with
the padding of the standard, read as the standard says. -/
theorem b64decode_strict :
    (∀ b : List UInt8, b64decodeStrict (String.ofList (encode b)) = some b) ∧
      ∀ t out, b64decodeStrict t = some out → ∃ data pads,
        t.toList = data ++ List.replicate pads '=' ∧ (∀ c ∈ data, c ∈ alphabet) ∧ pads ≤ 2 ∧
          t.toList.length % 4 = 0 ∧ out = assigned data := by
  refine ⟨fun b => ?_, fun t out h => ?_⟩
  · rw [b64decodeStrict, String.toList_ofList, rest_encode]
  · obtain ⟨data, pads, ht, hmem, hpads, hlen, hout⟩ := rest_accepts (by decide) (by decide) h
    refine ⟨data, pads, ht, hmem, hpads, ?_, hout⟩
    rw [ht, List.length_append, List.length_replicate]
    omega

end EngineConsole.Base64
