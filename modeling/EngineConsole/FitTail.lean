import Mathlib

/-!
# The longest tail that fits

`fit_tail` of the node (`util.rs`) cuts a log to its longest tail whose JSON string takes at most
so many bytes, by a binary search over the characters. A character takes from one to six bytes
there, but a shorter tail never takes more (`strJsonSize_drop`), so the search finds the first place
from which the text fits (`fitTail_longest`).
-/

set_option linter.unusedSectionVars false

namespace EngineConsole.FitTail

abbrev Text := List Char

/-! ## Bisection -/

/-- The half-open interval is halved until it is empty. -/
def bisect (fits : ℕ → Bool) (lo hi : ℕ) : ℕ :=
  if lo < hi then
    if fits ((lo + hi) / 2) then bisect fits lo ((lo + hi) / 2)
    else bisect fits ((lo + hi) / 2 + 1) hi
  else lo
termination_by hi - lo

/-- Where what fits at a place fits at every later place, bisection finds the first : before it
nothing fits, and from it on everything does. -/
theorem bisect_spec {fits : ℕ → Bool} (hmono : ∀ i j, i ≤ j → fits i = true → fits j = true)
    (lo hi : ℕ) (hle : lo ≤ hi) (hlo : ∀ k < lo, fits k = false) (hhi : fits hi = true) :
    fits (bisect fits lo hi) = true ∧ bisect fits lo hi ≤ hi ∧
      ∀ k < bisect fits lo hi, fits k = false := by
  induction lo, hi using bisect.induct fits with
  | case1 lo hi hlt hfits ih =>
    rw [bisect, if_pos hlt, if_pos hfits]
    obtain ⟨hfit, hbound, hbefore⟩ := ih (by omega) hlo hfits
    exact ⟨hfit, by omega, hbefore⟩
  | case2 lo hi hlt hfits ih =>
    rw [bisect, if_pos hlt, if_neg hfits]
    refine ih (by omega) (fun k hk => ?_) hhi
    rw [Bool.eq_false_iff]
    exact fun hk' => hfits (hmono k _ (by omega) hk')
  | case3 lo hi hlt =>
    obtain rfl : lo = hi := by omega
    rw [bisect, if_neg hlt]
    exact ⟨hhi, le_rfl, hlo⟩

/-! ## The size of a JSON string -/

/-- A digit of `\u00XX`. -/
def hexDigit (n : ℕ) : Char :=
  if n < 10 then Char.ofNat (n + 48) else Char.ofNat (n + 87)

/-- A character of a JSON string, as it is written. -/
def jsonChar (c : Char) : Text :=
  if c = '"' then ['\\', '"']
  else if c = '\\' then ['\\', '\\']
  else if c = '\x08' then ['\\', 'b']
  else if c = '\x0c' then ['\\', 'f']
  else if c = '\n' then ['\\', 'n']
  else if c = '\r' then ['\\', 'r']
  else if c = '\t' then ['\\', 't']
  else if c.toNat < 0x20 then
    ['\\', 'u', '0', '0', hexDigit (c.toNat / 16), hexDigit (c.toNat % 16)]
  else [c]

/-- A JSON string. -/
def jsonString (s : Text) : Text :=
  '"' :: (s.flatMap jsonChar ++ ['"'])

/-- Bytes in UTF-8. -/
def utf8Length (s : Text) : ℕ :=
  (s.map Char.utf8Size).sum

/-- `str_json_size` -/
def strJsonSize (s : Text) : ℕ :=
  utf8Length (jsonString s)

/-- `fit_tail` -/
def fitTail (text : Text) (budget : ℕ) : Text × Bool :=
  if strJsonSize text ≤ budget then (text, false)
  else (text.drop (bisect (fun k => decide (strJsonSize (text.drop k) ≤ budget)) 0 text.length),
    true)

variable {s t text tail : Text} {budget : ℕ} {trimmed : Bool}

theorem utf8Length_append (s t : Text) : utf8Length (s ++ t) = utf8Length s + utf8Length t := by
  rw [utf8Length, List.map_append, List.sum_append]
  rfl

theorem strJsonSize_eq (s : Text) : strJsonSize s = utf8Length (s.flatMap jsonChar) + 2 := by
  have hquote : utf8Length ['"'] = 1 := by decide
  rw [strJsonSize, jsonString, ← List.singleton_append, utf8Length_append, utf8Length_append,
    hquote]
  omega

/-- A text with more before it takes no less. -/
theorem strJsonSize_append (s t : Text) : strJsonSize t ≤ strJsonSize (s ++ t) := by
  rw [strJsonSize_eq, strJsonSize_eq, List.flatMap_append, utf8Length_append]
  omega

theorem strJsonSize_drop (text : Text) {i j : ℕ} (h : i ≤ j) :
    strJsonSize (text.drop j) ≤ strJsonSize (text.drop i) := by
  have hdrop : text.drop j = (text.drop i).drop (j - i) := by
    rw [List.drop_drop, Nat.add_sub_cancel' h]
  have hle := strJsonSize_append ((text.drop i).take (j - i)) ((text.drop i).drop (j - i))
  rwa [List.take_append_drop, ← hdrop] at hle

/-- The tail is a tail of the text that fits, no longer one does, and it is marked as trimmed just
when it is not the whole text. -/
theorem fitTail_longest (hbudget : 2 ≤ budget) (text : Text)
    (h : fitTail text budget = (tail, trimmed)) :
    tail <:+ text ∧ strJsonSize tail ≤ budget ∧
      (∀ t, t <:+ text → strJsonSize t ≤ budget → t.length ≤ tail.length) ∧
      (trimmed = true ↔ tail ≠ text) := by
  rw [fitTail] at h
  split_ifs at h with hwhole
  · obtain ⟨rfl, rfl⟩ := Prod.mk.inj h
    exact ⟨List.suffix_rfl, hwhole, fun t ht _ => ht.length_le, by simp⟩
  · obtain ⟨htail, rfl⟩ := Prod.mk.inj h
    have hmono : ∀ i j, i ≤ j → decide (strJsonSize (text.drop i) ≤ budget) = true →
        decide (strJsonSize (text.drop j) ≤ budget) = true := by
      intro i j hij hi
      rw [decide_eq_true_eq] at hi ⊢
      exact (strJsonSize_drop text hij).trans hi
    have hempty : decide (strJsonSize (text.drop text.length) ≤ budget) = true := by
      rw [List.drop_length, decide_eq_true_eq]
      exact hbudget
    obtain ⟨hfits, hbound, hbefore⟩ := bisect_spec hmono 0 text.length (Nat.zero_le _)
      (fun k hk => absurd hk (Nat.not_lt_zero k)) hempty
    rw [decide_eq_true_eq, htail] at hfits
    refine ⟨htail ▸ List.drop_suffix _ _, hfits, fun t ht hsize => ?_, ?_⟩
    · -- the place where the tail `t` starts is none of those before
      obtain ⟨x, rfl⟩ := ht
      rw [← htail, List.length_drop]
      have hplace : bisect (fun k => decide (strJsonSize ((x ++ t).drop k) ≤ budget)) 0
          (x ++ t).length ≤ x.length := by
        by_contra hlt
        have hno := hbefore x.length (by omega)
        rw [List.drop_left, decide_eq_false_iff_not] at hno
        exact hno hsize
      have hlen : (x ++ t).length = x.length + t.length := List.length_append
      omega
    · refine iff_of_true rfl ?_
      rintro rfl
      exact hwhole hfits

/-- A control character takes six bytes, so of these three one is left. -/
theorem fitTail_longest_control :
    "a".toList <:+ "b\x01a".toList ∧ strJsonSize "a".toList ≤ 8 ∧
      (∀ t, t <:+ "b\x01a".toList → strJsonSize t ≤ 8 → t.length ≤ "a".toList.length) ∧
      (true = true ↔ "a".toList ≠ "b\x01a".toList) := by
  refine fitTail_longest (by decide) _ ?_
  rw [fitTail, if_neg (by decide), bisect, if_pos (by decide), if_neg (by decide), bisect,
    if_pos (by decide), if_pos (by decide), bisect, if_neg (by decide)]
  rfl

end EngineConsole.FitTail
