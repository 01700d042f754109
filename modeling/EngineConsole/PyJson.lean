import EngineConsole.JsonReader

/-!
# Python's JSON in the adapters

The JSON objects the adapters read and write, as Python has them : integers are decimal text of
any length up to 4300 digits, floats come with `NaN` and the infinities. `Scanner` reads the
strings and numbers and `JsonReader.scanOnce` the rest; `jsonLoads` reads a whole text, a text
with half of a surrogate pair alone is refused once it is read, and `rawDecode` reads the
value at the start of a text. `dumpsCompact` writes a value without white space and in ASCII.

The scanner has the laws of a lexis (`scanner_lawful`), so it reads the grammar, and what is
written is read back (`jsonLoads_dumpsCompact`). Floats are a parameter : their text is made
from the digits and the exponent the language gives for them, and that parsing it gives the
float back is the assumption `Floats.Exact`.
-/

set_option linter.unusedSectionVars false

namespace EngineConsole.PyJson

open JsonSyntax JsonReader

/-! ## Strings -/

/-- Four hexadecimal digits at the start of a text. -/
def hex4At : Text → Option ℕ
  | a :: b :: c :: d :: _ => hex4 a b c d
  | _ => none

/-- The escape `\uXXXX` at the start of a text, if there is one and something follows it : its
number, if the digits are such. -/
def nextCode (s : Text) : Option (Option ℕ) :=
  if 6 < s.length ∧ s.take 2 = ['\\', 'u'] then some (hex4At (s.drop 2)) else none

/-- The code point of `\uXXXX` and what follows, and how many characters after the backslash
make it. -/
def codeUnit (hi : ℕ) (s : Text) : Except String (ℕ × ℕ) :=
  if isHigh hi then
    match nextCode s with
    | none => .ok (hi, 5)
    | some none => .error "Invalid \\uXXXX escape"
    | some (some lo) => if isLow lo then .ok (pair hi lo, 11) else .ok (hi, 5)
  else .ok (hi, 5)

/-- What a backslash and the text after it stand for, and how many characters of it. -/
def unescape : Text → Except String (ℕ × ℕ)
  | [] => .error "Unterminated string starting at"
  | e :: t =>
    if e = 'u' then
      -- the four digits and one more character have to be there
      if t.length ≤ 4 then .error "Invalid \\uXXXX escape"
      else
        match hex4At t with
        | none => .error "Invalid \\uXXXX escape"
        | some hi => codeUnit hi (t.drop 4)
    else
      match escape e with
      | some c => .ok (c.toNat, 1)
      | none => .error "Invalid \\escape"

/-- `scanstring` : the code points of a string are pushed one after the other. -/
def scanString {A : Type*} (push : A → ℕ → A) (out : A) (s : Text) : Reading A :=
  match s with
  | [] => .fail (.msg "Unterminated string starting at")
  | c :: t =>
    if c = '"' then .done out t
    else if c = '\\' then
      match unescape t with
      | .error m => .fail (.msg m)
      | .ok (u, n) => scanString push (push out u) (t.drop n)
    else if c.toNat ≤ 0x1f then .fail (.msg "Invalid control character at")
    else scanString push (push out c.toNat) t
termination_by s.length
decreasing_by
  all_goals
    simp only [List.length_drop, List.length_cons]
    omega

/-- Push a code point. -/
def pushPoint (out : List ℕ) (u : ℕ) : List ℕ :=
  out ++ [u]

section Strings

variable {A : Type*} {push : A → ℕ → A} {s t rest : Text} {ps : List Piece} {p : Piece}

theorem scanString_points (out : A) (s : Text) : scanString push out s =
    (scanString pushPoint [] s).map fun us => us.foldl push out := by
  suffices h : ∀ (n : ℕ) (s : Text) (out : A) (us : List ℕ), s.length ≤ n →
      scanString push (us.foldl push out) s =
        (scanString pushPoint us s).map fun us => us.foldl push out from
    h s.length s out [] le_rfl
  intro n
  induction n with
  | zero =>
    intro s out us hs
    rw [List.eq_nil_of_length_eq_zero (by omega : s.length = 0), scanString, scanString]
    rfl
  | succ n ih =>
    intro s out us hs
    cases s with
    | nil =>
      rw [scanString, scanString]
      rfl
    | cons c t =>
      have hpush (u : ℕ) : push (us.foldl push out) u = (pushPoint us u).foldl push out := by
        simp [pushPoint]
      rw [List.length_cons] at hs
      rw [scanString, scanString]
      split_ifs with hq hb hctl
      · rfl
      · rcases unescape t with m | ⟨u, n'⟩
        · rfl
        · dsimp only
          rw [hpush, ih _ _ _ (by rw [List.length_drop]; omega)]
      · rfl
      · rw [hpush, ih _ _ _ (by omega)]

/-- The text from some pieces on to the end of the string and beyond. -/
def stringText (ps : List Piece) (rest : Text) : Text :=
  piecesText ps ++ '"' :: rest

theorem stringText_cons (p : Piece) (ps : List Piece) (rest : Text) :
    stringText (p :: ps) rest = p.text ++ stringText ps rest := by
  simp [stringText, piecesText]

theorem stringText_pos (ps : List Piece) (rest : Text) : 0 < (stringText ps rest).length := by
  simp [stringText]

/-- The number of the first piece, if it is spelled as an escape `\uXXXX`. -/
def firstCode (ps : List Piece) : Option ℕ :=
  match ps with
  | .code a b c d :: _ => hex4 a b c d
  | _ => none

theorem nextCode_stringText (h : PiecesOk ps) (rest : Text) :
    nextCode (stringText ps rest) = (firstCode ps).map some := by
  cases ps with
  | nil => simp [nextCode, firstCode, stringText, piecesText]
  | cons p ps =>
    have hpos := stringText_pos ps rest
    rw [stringText_cons]
    have hp := h p List.mem_cons_self
    cases p with
    | plain c =>
      have hc : c ≠ '\\' := hp.2.1
      rw [nextCode, if_neg]
      · rfl
      · rintro ⟨-, htake⟩
        rw [Piece.text, List.singleton_append, List.take_succ_cons, List.cons.injEq] at htake
        exact hc htake.1
    | short e =>
      have he : e ≠ 'u' := by
        rintro rfl
        exact absurd (show (escape 'u').isSome from hp) (by decide)
      rw [nextCode, if_neg]
      · rfl
      · rintro ⟨-, htake⟩
        simp [Piece.text] at htake
        exact he htake
    | code a b c d =>
      obtain ⟨n, hn⟩ := Option.isSome_iff_exists.1 hp
      have hlen : 6 < ((Piece.code a b c d).text ++ stringText ps rest).length := by
        simp only [Piece.text, List.length_append, List.length_cons, List.length_nil]
        omega
      rw [nextCode, if_pos ⟨hlen, rfl⟩]
      simp [Piece.text, hex4At, firstCode, hn]

/-- Two halves of a pair are one code point. -/
theorem codePoints_pair {lo : ℕ} (hp : p.isCode = true) (hhi : isHigh p.point = true)
    (hf : firstCode ps = some lo) (hlo : isLow lo = true) :
    codePoints (p :: ps) = pair p.point lo :: codePoints ps.tail := by
  cases ps with
  | nil => cases hf
  | cons q ps =>
    cases q with
    | plain c => cases hf
    | short e => cases hf
    | code a b c d =>
      have hq : (Piece.code a b c d).point = lo := by rw [Piece.point, show hex4 a b c d = _ from hf]; rfl
      rw [codePoints, hq, hp, hhi, hlo]
      rfl

/-- Any other piece is one of its own. -/
theorem codePoints_alone (h : p.isCode = true → isHigh p.point = true →
    ∀ lo, firstCode ps = some lo → isLow lo = false) (hok : PiecesOk ps) :
    codePoints (p :: ps) = p.point :: codePoints ps := by
  cases ps with
  | nil => rfl
  | cons q ps =>
    have hsome := hok q List.mem_cons_self
    rw [codePoints, if_neg]
    intro hall
    simp only [Bool.and_eq_true] at hall
    obtain ⟨⟨⟨hp, hq⟩, hhi⟩, hlo⟩ := hall
    cases q with
    | plain c => cases hq
    | short e => cases hq
    | code a b c d =>
      obtain ⟨n, hn⟩ := Option.isSome_iff_exists.1 hsome
      have hpoint : (Piece.code a b c d).point = n := by rw [Piece.point, hn]; rfl
      rw [hpoint, h hp hhi n hn] at hlo
      cases hlo

theorem unescape_short {e c : Char} (h : escape e = some c) (t : Text) :
    unescape (e :: t) = .ok (c.toNat, 1) := by
  have he : e ≠ 'u' := by
    rintro rfl
    cases h
  rw [unescape, if_neg he, h]

theorem unescape_code {a b c d : Char} {hi : ℕ} (h : hex4 a b c d = some hi) (ht : 0 < t.length) :
    unescape ('u' :: a :: b :: c :: d :: t) = codeUnit hi t := by
  have hlen : ¬(a :: b :: c :: d :: t).length ≤ 4 := by
    simp only [List.length_cons]
    omega
  rw [unescape, if_pos rfl, if_neg hlen, hex4At, h]
  rfl

/-- The pieces of a string are read. -/
theorem scanString_text (rest : Text) : ∀ (n : ℕ) (ps : List Piece) (out : List ℕ),
    ps.length ≤ n → PiecesOk ps →
      scanString pushPoint out (stringText ps rest) = .done (out ++ codePoints ps) rest := by
  intro n
  induction n with
  | zero =>
    intro ps out hn _
    rw [List.eq_nil_of_length_eq_zero (by omega : ps.length = 0)]
    simp [stringText, piecesText, scanString, codePoints]
  | succ n ih =>
    intro ps out hn hok
    cases ps with
    | nil => simp [stringText, piecesText, scanString, codePoints]
    | cons p ps =>
      have hp := hok p List.mem_cons_self
      have hps : PiecesOk ps := fun q hq => hok q (List.mem_cons_of_mem _ hq)
      rw [List.length_cons] at hn
      rw [stringText_cons]
      cases p with
      | plain c =>
        obtain ⟨hq, hb, hctl⟩ := hp
        rw [Piece.text, List.singleton_append, scanString, if_neg hq, if_neg hb,
          if_neg (by omega), ih ps _ (by omega) hps,
          codePoints_alone (fun h => by cases h) hps]
        simp [pushPoint, Piece.point]
      | short e =>
        obtain ⟨c, hc⟩ := Option.isSome_iff_exists.1 hp
        have htext : (Piece.short e).text ++ stringText ps rest =
            '\\' :: e :: stringText ps rest := rfl
        rw [htext, scanString, if_neg (by decide), if_pos rfl, unescape_short hc]
        dsimp only
        rw [List.drop_one, List.tail_cons, ih ps _ (by omega) hps,
          codePoints_alone (fun h => by cases h) hps]
        simp [pushPoint, Piece.point, hc]
      | code a b c d =>
        obtain ⟨hi, hhi⟩ := Option.isSome_iff_exists.1 hp
        have htext : (Piece.code a b c d).text ++ stringText ps rest =
            '\\' :: 'u' :: a :: b :: c :: d :: stringText ps rest := rfl
        have hpoint : (Piece.code a b c d).point = hi := by
          rw [Piece.point, hhi]
          rfl
        have halone (h : isHigh hi = true → ∀ lo, firstCode ps = some lo → isLow lo = false)
            (hun : unescape ('u' :: a :: b :: c :: d :: stringText ps rest) = .ok (hi, 5)) :
            scanString pushPoint out ('\\' :: 'u' :: a :: b :: c :: d :: stringText ps rest) =
              .done (out ++ codePoints (.code a b c d :: ps)) rest := by
          rw [scanString, if_neg (by decide), if_pos rfl, hun]
          dsimp only [List.drop]
          rw [ih ps _ (by omega) hps, codePoints_alone (fun _ hh => h (hpoint ▸ hh)) hps, hpoint]
          simp [pushPoint]
        rw [htext]
        have hun := unescape_code hhi (stringText_pos ps rest)
        rw [codeUnit, nextCode_stringText hps] at hun
        rcases hh : isHigh hi with _ | _
        · exact halone (fun h => by rw [hh] at h; cases h) (by rw [hun, hh]; rfl)
        rcases hf : firstCode ps with _ | lo
        · exact halone (fun _ lo h => by rw [hf] at h; cases h) (by rw [hun, hh, hf]; rfl)
        rcases hlo : isLow lo with _ | _
        · refine halone (fun _ lo' h => ?_) (by rw [hun, hh, hf]; simp [hlo])
          obtain rfl : lo = lo' := Option.some.inj (hf ▸ h)
          exact hlo
        · -- the second half is read with the first
          obtain ⟨a', b', c', d', qs, rfl⟩ : ∃ a' b' c' d' qs, ps = .code a' b' c' d' :: qs := by
            unfold firstCode at hf
            split at hf
            · exact ⟨_, _, _, _, _, rfl⟩
            · cases hf
          have hrest : stringText (.code a' b' c' d' :: qs) rest =
              '\\' :: 'u' :: a' :: b' :: c' :: d' :: stringText qs rest := stringText_cons _ _ _
          have hun : unescape ('u' :: a :: b :: c :: d ::
              stringText (.code a' b' c' d' :: qs) rest) = .ok (pair hi lo, 11) := by
            rw [hun, hh, hf]
            simp [hlo]
          rw [scanString, if_neg (by decide), if_pos rfl, hun]
          dsimp only
          rw [hrest]
          dsimp only [List.drop]
          rw [List.length_cons] at hn
          rw [ih qs _ (by omega) fun q hq => hps q (List.mem_cons_of_mem _ hq),
            codePoints_pair rfl (hpoint ▸ hh) hf hlo, hpoint]
          simp [pushPoint]

theorem nextCode_eq_some {o : Option ℕ} (h : nextCode s = some o) :
    ∃ a b c d t, s = '\\' :: 'u' :: a :: b :: c :: d :: t ∧ o = hex4 a b c d := by
  rw [nextCode] at h
  split_ifs at h with hif
  obtain ⟨hlen, htake⟩ := hif
  match s, hlen with
  | x :: y :: a :: b :: c :: d :: t, _ =>
    simp only [List.take_succ_cons, List.take_zero, List.cons.injEq, and_true] at htake
    obtain ⟨rfl, rfl⟩ := htake
    exact ⟨a, b, c, d, t, rfl, (Option.some.inj h).symm⟩

theorem unescape_eq_ok {u n : ℕ} (h : unescape s = .ok (u, n)) :
    (∃ e c t, s = e :: t ∧ escape e = some c ∧ u = c.toNat ∧ n = 1) ∨
      ∃ a b c d hi t, s = 'u' :: a :: b :: c :: d :: t ∧ hex4 a b c d = some hi ∧
        codeUnit hi t = .ok (u, n) := by
  cases s with
  | nil => cases h
  | cons e t =>
    rw [unescape] at h
    split_ifs at h with hu hlen
    · right
      match t, hlen with
      | a :: b :: c :: d :: t, _ =>
        rw [hex4At] at h
        rcases hhex : hex4 a b c d with _ | hi
        · rw [hhex] at h
          cases h
        · rw [hhex] at h
          exact ⟨a, b, c, d, hi, t, by rw [hu], hhex, h⟩
    · left
      rcases hesc : escape e with _ | c
      · rw [hesc] at h
        cases h
      · rw [hesc] at h
        obtain ⟨rfl, rfl⟩ := Prod.mk.injEq .. ▸ Except.ok.inj h
        exact ⟨e, c, t, rfl, hesc, rfl, rfl⟩

/-- What an escape `\uXXXX` takes : itself, when no second half follows a first, or both. -/
theorem codeUnit_eq_ok {hi u n : ℕ} (h : codeUnit hi s = .ok (u, n)) :
    (u = hi ∧ n = 5 ∧ (isHigh hi = true → ∀ lo, nextCode s = some (some lo) → isLow lo = false)) ∨
      ∃ lo, isHigh hi = true ∧ nextCode s = some (some lo) ∧ isLow lo = true ∧
        u = pair hi lo ∧ n = 11 := by
  rw [codeUnit] at h
  rcases hh : isHigh hi with _ | _
  · rw [hh] at h
    obtain ⟨rfl, rfl⟩ := Prod.mk.injEq .. ▸ Except.ok.inj h
    exact .inl ⟨rfl, rfl, fun h => by cases h⟩
  rw [hh, if_pos rfl] at h
  rcases hn : nextCode s with _ | _ | lo
  · rw [hn] at h
    obtain ⟨rfl, rfl⟩ := Prod.mk.injEq .. ▸ Except.ok.inj h
    exact .inl ⟨rfl, rfl, fun _ lo h => by cases h⟩
  · rw [hn] at h
    cases h
  · rw [hn] at h
    dsimp only at h
    split_ifs at h with hlo
    · obtain ⟨rfl, rfl⟩ := Prod.mk.injEq .. ▸ Except.ok.inj h
      exact .inr ⟨lo, rfl, rfl, hlo, rfl, rfl⟩
    · obtain ⟨rfl, rfl⟩ := Prod.mk.injEq .. ▸ Except.ok.inj h
      refine .inl ⟨rfl, rfl, fun _ lo' h => ?_⟩
      rw [← Option.some.inj (Option.some.inj h)]
      exact Bool.eq_false_iff.2 hlo

theorem piecesOk_cons (hp : p.Ok) (h : PiecesOk ps) : PiecesOk (p :: ps) := by
  intro q hq
  rcases List.mem_cons.1 hq with rfl | hq
  · exact hp
  · exact h q hq

/-- A string that is read is made of pieces. -/
theorem scanString_sound : ∀ (n : ℕ) (s : Text) (out us : List ℕ), s.length ≤ n →
    scanString pushPoint out s = .done us rest →
      ∃ ps, PiecesOk ps ∧ s = stringText ps rest ∧ us = out ++ codePoints ps := by
  intro n
  induction n with
  | zero =>
    intro s out us hn h
    rw [List.eq_nil_of_length_eq_zero (by omega : s.length = 0), scanString] at h
    cases h
  | succ n ih =>
    intro s out us hn h
    cases s with
    | nil =>
      rw [scanString] at h
      cases h
    | cons c t =>
      rw [List.length_cons] at hn
      rw [scanString] at h
      split_ifs at h with hq hb hctl
      · obtain ⟨rfl, rfl⟩ := Reading.done.inj h
        exact ⟨[], (fun _ hp => by cases hp), by rw [hq]; rfl, by simp [codePoints]⟩
      · rcases hun : unescape t with m | ⟨u, k⟩
        · rw [hun] at h
          cases h
        rw [hun] at h
        dsimp only at h
        obtain ⟨ps, hps, hs, rfl⟩ := ih _ _ _ (by rw [List.length_drop]; omega) h
        rcases unescape_eq_ok hun with ⟨e, x, t, rfl, hx, rfl, rfl⟩ |
            ⟨a, b, x, d, hi, t, rfl, hhi, hunit⟩
        · have hok : (Piece.short e).Ok := by
            rw [Piece.Ok, hx]
            rfl
          refine ⟨.short e :: ps, piecesOk_cons hok hps, ?_, ?_⟩
          · rw [stringText_cons, ← hs, hb]
            rfl
          · rw [codePoints_alone (fun h => by cases h) hps]
            simp [pushPoint, Piece.point, hx]
        · have hok : (Piece.code a b x d).Ok := by
            rw [Piece.Ok, hhi]
            rfl
          have hpoint : (Piece.code a b x d).point = hi := by
            rw [Piece.point, hhi]
            rfl
          rcases codeUnit_eq_ok hunit with ⟨hu, hk, halone⟩ |
              ⟨lo, hh, hnext, hlo, hu, hk⟩
          · have ht : t = stringText ps rest := by
              rw [hk] at hs
              exact hs
            refine ⟨.code a b x d :: ps, piecesOk_cons hok hps, ?_, ?_⟩
            · rw [stringText_cons, ← ht, hb]
              rfl
            · rw [ht, nextCode_stringText hps] at halone
              rw [codePoints_alone (fun _ hh lo hlo => ?_) hps]
              · simp [pushPoint, hpoint, hu]
              · exact halone (hpoint ▸ hh) lo (by rw [hlo]; rfl)
          · obtain ⟨a', b', x', d', t', rfl, hlo'⟩ := nextCode_eq_some hnext
            have ht : t' = stringText ps rest := by
              rw [hk] at hs
              exact hs
            have hok' : (Piece.code a' b' x' d').Ok := by
              rw [Piece.Ok, ← hlo']
              rfl
            refine ⟨.code a b x d :: .code a' b' x' d' :: ps,
              piecesOk_cons hok (piecesOk_cons hok' hps), ?_, ?_⟩
            · rw [stringText_cons, stringText_cons, ← ht, hb]
              rfl
            · have hfirst : firstCode (.code a' b' x' d' :: ps) = some lo := hlo'.symm
              rw [codePoints_pair rfl (hpoint ▸ hh) hfirst hlo, hpoint]
              simp [pushPoint, hu]
      · obtain ⟨ps, hps, rfl, rfl⟩ := ih _ _ _ (by omega) h
        refine ⟨.plain c :: ps, piecesOk_cons ⟨hq, hb, by omega⟩ hps, ?_, ?_⟩
        · rw [stringText_cons]
          rfl
        · rw [codePoints_alone (fun h => by cases h) hps]
          simp [pushPoint, Piece.point]

theorem scanString_fail : ∀ (n : ℕ) (s : Text) (out : List ℕ), s.length ≤ n →
    scanString pushPoint out s ≠ .more ∧
      ∀ e, scanString pushPoint out s = .fail e → ∃ m, e = .msg m := by
  intro n
  induction n with
  | zero =>
    intro s out hn
    rw [List.eq_nil_of_length_eq_zero (by omega : s.length = 0), scanString]
    exact ⟨by simp, fun e h => ⟨_, (Reading.fail.inj h).symm⟩⟩
  | succ n ih =>
    intro s out hn
    cases s with
    | nil =>
      rw [scanString]
      exact ⟨by simp, fun e h => ⟨_, (Reading.fail.inj h).symm⟩⟩
    | cons c t =>
      rw [List.length_cons] at hn
      rw [scanString]
      split_ifs
      · exact ⟨by simp, fun e h => by cases h⟩
      · rcases unescape t with m | ⟨u, k⟩
        · exact ⟨by simp, fun e h => ⟨m, (Reading.fail.inj h).symm⟩⟩
        · exact ih _ _ (by rw [List.length_drop]; omega)
      · exact ⟨by simp, fun e h => ⟨_, (Reading.fail.inj h).symm⟩⟩
      · exact ih _ _ (by omega)

end Strings

/-! ## Numbers -/

/-- The integer part of a number. -/
def scanInt : Text → Option (Text × Text)
  | [] => none
  | c :: t =>
    if c = '0' then some (['0'], t)
    else if c.isDigit then some (c :: t.takeWhile Char.isDigit, t.dropWhile Char.isDigit)
    else none

/-- The digits after a point; a point without digits is left. -/
def scanFrac (s : Text) : Option Text × Text :=
  if s.head? = some '.' ∧ s.tail.head?.any Char.isDigit = true then
    (some (s.tail.takeWhile Char.isDigit), s.tail.dropWhile Char.isDigit)
  else (none, s)

/-- The sign of an exponent, if something follows it. -/
def expSign (s : Text) : Text :=
  if (s.head? = some '+' ∨ s.head? = some '-') ∧ s.tail ≠ [] then s.take 1 else []

/-- The exponent; one without digits is left. -/
def scanExp : Text → Option (Char × Text × Text) × Text
  | [] => (none, [])
  | e :: t =>
    let digits := t.drop (expSign t).length
    if (e = 'e' ∨ e = 'E') ∧ digits.takeWhile Char.isDigit ≠ [] then
      (some (e, expSign t, digits.takeWhile Char.isDigit), digits.dropWhile Char.isDigit)
    else (none, e :: t)

/-- The parts of the number at the start of a text. -/
def scanNumber (s : Text) : Option (NumText × Text) :=
  let neg : Bool := s.head? = some '-'
  (scanInt (if neg then s.tail else s)).map fun (int, t) =>
    let (frac, t) := scanFrac t
    let (exp, t) := scanExp t
    (⟨neg, int, frac, exp⟩, t)

section Numbers

variable {s t rest ds : Text} {n : NumText}

/-- No digit comes first. -/
def NoDigit (s : Text) : Prop :=
  ∀ c ∈ s.head?, c.isDigit = false

/-- Digits only. -/
def Digits (ds : Text) : Prop :=
  ∀ x ∈ ds, x.isDigit = true

theorem digits_split (hd : Digits ds) (ht : NoDigit t) :
    (ds ++ t).takeWhile Char.isDigit = ds ∧ (ds ++ t).dropWhile Char.isDigit = t := by
  induction ds with
  | nil =>
    cases t with
    | nil => exact ⟨rfl, rfl⟩
    | cons c t =>
      have hc : c.isDigit = false := ht c rfl
      simp [hc]
  | cons d ds ih =>
    obtain ⟨htake, hdrop⟩ := ih fun x hx => hd x (List.mem_cons_of_mem _ hx)
    have hdigit := hd d List.mem_cons_self
    simp [hdigit, htake, hdrop]

theorem digits_take (s : Text) : Digits (s.takeWhile Char.isDigit) :=
  fun _ hx => List.mem_takeWhile_imp hx

theorem scanInt_sound {int : Text} (h : scanInt s = some (int, t)) :
    s = int ++ t ∧ (int = ['0'] ∨
      ∃ c ds, int = c :: ds ∧ ('1' ≤ c ∧ c ≤ '9') ∧ ∀ x ∈ ds, x.isDigit = true) := by
  cases s with
  | nil => cases h
  | cons c u =>
    rw [scanInt] at h
    split_ifs at h with hz hd
    · obtain ⟨rfl, rfl⟩ := Prod.mk.injEq .. ▸ Option.some.inj h
      exact ⟨by rw [hz]; rfl, .inl rfl⟩
    · obtain ⟨rfl, rfl⟩ := Prod.mk.injEq .. ▸ Option.some.inj h
      refine ⟨by simp, .inr ⟨c, _, rfl, ?_, digits_take u⟩⟩
      simp only [Char.isDigit, ge_iff_le, Bool.and_eq_true, decide_eq_true_eq] at hd
      refine ⟨?_, hd.2⟩
      have hne : c.val.toNat ≠ 48 := by
        intro hval
        exact hz (Char.ext (UInt32.toNat_inj.1 hval))
      have hge : 48 ≤ c.val.toNat := hd.1
      exact UInt32.le_iff_toNat_le.2 (show 49 ≤ c.val.toNat by omega)

theorem scanInt_text {int : Text} (h : int = ['0'] ∨
      ∃ c ds, int = c :: ds ∧ ('1' ≤ c ∧ c ≤ '9') ∧ ∀ x ∈ ds, x.isDigit = true)
    (ht : NoDigit t) : scanInt (int ++ t) = some (int, t) := by
  rcases h with rfl | ⟨c, ds, rfl, hc, hds⟩
  · rfl
  · have hne : c ≠ '0' := by
      rintro rfl
      exact absurd hc.1 (by decide)
    have hdigit : c.isDigit = true := by
      have hzero : ('0' : Char) ≤ '1' := by decide
      simp only [Char.isDigit, ge_iff_le, Bool.and_eq_true, decide_eq_true_eq]
      exact ⟨UInt32.le_trans hzero hc.1, hc.2⟩
    obtain ⟨htake, hdrop⟩ := digits_split hds ht
    rw [List.cons_append, scanInt, if_neg hne, if_pos hdigit, htake, hdrop]

theorem scanFrac_sound {frac : Option Text} (h : scanFrac s = (frac, t)) :
    s = fracSpelling frac ++ t ∧
      ∀ ds ∈ frac, ds ≠ [] ∧ ∀ x ∈ ds, x.isDigit = true := by
  rw [scanFrac] at h
  split_ifs at h with hif
  · obtain ⟨hdot, hdigit⟩ := hif
    obtain ⟨rfl, rfl⟩ := Prod.mk.injEq .. ▸ h
    obtain ⟨d, u, hu⟩ : ∃ d u, s.tail = d :: u := by
      rcases htail : s.tail with _ | ⟨d, u⟩
      · rw [htail] at hdigit
        cases hdigit
      · exact ⟨d, u, rfl⟩
    refine ⟨?_, fun ds hds => ?_⟩
    · conv_lhs => rw [eq_cons_of_head? hdot]
      simp [fracSpelling]
    · obtain rfl := Option.some.inj hds
      have hd : d.isDigit = true := by simpa [hu] using hdigit
      exact ⟨by rw [hu]; simp [hd], digits_take _⟩
  · obtain ⟨rfl, rfl⟩ := Prod.mk.injEq .. ▸ h
    exact ⟨rfl, fun ds hds => by cases hds⟩

theorem scanFrac_some (hds : ds ≠ [] ∧ Digits ds) (ht : NoDigit t) :
    scanFrac ('.' :: ds ++ t) = (some ds, t) := by
  obtain ⟨d, u, rfl⟩ := List.exists_cons_of_ne_nil hds.1
  have hd := hds.2 d List.mem_cons_self
  obtain ⟨htake, hdrop⟩ := digits_split hds.2 ht
  rw [scanFrac, if_pos ⟨rfl, by simp [hd]⟩, List.cons_append, List.tail_cons, htake, hdrop]

theorem scanFrac_none (h : s.head? ≠ some '.') : scanFrac s = (none, s) := by
  rw [scanFrac, if_neg fun hif => h hif.1]

/-- A sign or none. -/
def IsSign (sign : Text) : Prop :=
  sign = [] ∨ sign = ['+'] ∨ sign = ['-']

theorem expSign_sound (s : Text) : IsSign (expSign s) ∧ s = expSign s ++ s.drop (expSign s).length := by
  rw [expSign]
  split_ifs with hif
  · obtain ⟨hsign | hsign, -⟩ := hif
    · have hs := eq_cons_of_head? hsign
      exact ⟨.inr (.inl (by rw [hs]; rfl)), by rw [hs]; simp⟩
    · have hs := eq_cons_of_head? hsign
      exact ⟨.inr (.inr (by rw [hs]; rfl)), by rw [hs]; simp⟩
  · exact ⟨.inl rfl, rfl⟩

theorem expSign_text {sign : Text} (hsign : IsSign sign) (hds : ds ≠ [] ∧ Digits ds) (t : Text) :
    expSign (sign ++ ds ++ t) = sign := by
  obtain ⟨d, u, rfl⟩ := List.exists_cons_of_ne_nil hds.1
  have hd := hds.2 d List.mem_cons_self
  rcases hsign with rfl | rfl | rfl
  · rw [expSign, if_neg]
    rintro ⟨h | h, -⟩
    · obtain rfl : d = '+' := by simpa using h
      cases hd
    · obtain rfl : d = '-' := by simpa using h
      cases hd
  · rw [expSign, if_pos ⟨.inl rfl, by simp⟩]
    rfl
  · rw [expSign, if_pos ⟨.inr rfl, by simp⟩]
    rfl

theorem scanExp_sound {exp : Option (Char × Text × Text)} (h : scanExp s = (exp, t)) :
    s = expSpelling exp ++ t ∧
      ∀ e ∈ exp, (e.1 = 'e' ∨ e.1 = 'E') ∧ (e.2.1 = [] ∨ e.2.1 = ['+'] ∨ e.2.1 = ['-']) ∧
        e.2.2 ≠ [] ∧ ∀ x ∈ e.2.2, x.isDigit = true := by
  cases s with
  | nil =>
    obtain ⟨rfl, rfl⟩ := Prod.mk.injEq .. ▸ (show (none, []) = (exp, t) from h)
    exact ⟨rfl, fun e he => by cases he⟩
  | cons e u =>
    rw [scanExp] at h
    split_ifs at h with hif
    · obtain ⟨rfl, rfl⟩ := Prod.mk.injEq .. ▸ h
      obtain ⟨hsign, hu⟩ := expSign_sound u
      refine ⟨?_, fun x hx => ?_⟩
      · conv_lhs => rw [hu]
        simp [expSpelling]
      · obtain rfl := Option.some.inj hx
        exact ⟨hif.1, hsign, hif.2, digits_take _⟩
    · obtain ⟨rfl, rfl⟩ := Prod.mk.injEq .. ▸ h
      exact ⟨rfl, fun e he => by cases he⟩

theorem scanExp_some {e : Char} {sign : Text} (he : e = 'e' ∨ e = 'E') (hsign : IsSign sign)
    (hds : ds ≠ [] ∧ Digits ds) (ht : NoDigit t) :
    scanExp (e :: sign ++ ds ++ t) = (some (e, sign, ds), t) := by
  have hs := expSign_text hsign hds t
  obtain ⟨htake, hdrop⟩ := digits_split hds.2 ht
  have hdropSign : (sign ++ ds ++ t).drop sign.length = ds ++ t := by
    rw [List.append_assoc, List.drop_left]
  rw [List.cons_append, List.cons_append, scanExp, hs, hdropSign, htake, hdrop, if_pos ⟨he, hds.1⟩]

theorem scanExp_none (h : s.head? ≠ some 'e') (h' : s.head? ≠ some 'E') :
    scanExp s = (none, s) := by
  cases s with
  | nil => rfl
  | cons e u =>
    rw [scanExp, if_neg]
    rintro ⟨rfl | rfl, -⟩
    · exact h rfl
    · exact h' rfl

theorem scanNumber_sound (h : scanNumber s = some (n, rest)) : n.Ok ∧ s = n.text ++ rest := by
  obtain ⟨⟨int, t₁⟩, hint, heq⟩ := Option.map_eq_some_iff.1 h
  rcases hfrac : scanFrac t₁ with ⟨frac, t₂⟩
  rcases hexp : scanExp t₂ with ⟨exp, t₃⟩
  dsimp only at heq
  rw [hfrac] at heq
  dsimp only at heq
  rw [hexp] at heq
  obtain ⟨rfl, rfl⟩ := Prod.mk.injEq .. ▸ heq
  obtain ⟨hs₁, hint⟩ := scanInt_sound hint
  obtain ⟨hs₂, hfrac⟩ := scanFrac_sound hfrac
  obtain ⟨hs₃, hexp⟩ := scanExp_sound hexp
  refine ⟨⟨hint, hfrac, hexp⟩, ?_⟩
  have hsign : s = (if s.head? = some '-' then ['-'] else []) ++
      (if s.head? = some '-' then s.tail else s) := by
    split_ifs with hneg
    · exact eq_cons_of_head? hneg
    · rfl
  simp only [decide_eq_true_eq] at hs₁
  rw [NumText.text, NumText.signText, NumText.fracText, NumText.expText]
  simp only [decide_eq_true_eq]
  conv_lhs => rw [hsign, hs₁, hs₂, hs₃]
  simp only [List.append_assoc]

/-- A character that ends a number is none of one. -/
theorem ends_not (h : Follows rest) {c : Char} (hc : isWs c = false ∧ c ≠ ',' ∧ c ≠ ']' ∧ c ≠ '}') :
    rest.head? ≠ some c := by
  intro hhead
  rcases h c hhead with hws | heq | heq | heq
  · rw [hc.1] at hws
    cases hws
  · exact hc.2.1 heq
  · exact hc.2.2.1 heq
  · exact hc.2.2.2 heq

theorem noDigit_ends (h : Follows rest) : NoDigit rest := by
  intro c hc
  rw [Bool.eq_false_iff]
  intro hd
  have hstart := starts_of_isDigit hd
  refine ends_not h ⟨hstart.1, ?_, hstart.2.1, hstart.2.2.1⟩ hc
  rintro rfl
  cases hd

theorem scanNumber_text (hn : n.Ok) (h : Follows rest) :
    scanNumber (n.text ++ rest) = some (n, rest) := by
  obtain ⟨neg, int, frac, exp⟩ := n
  -- the exponent
  have hexp : scanExp (NumText.expText ⟨neg, int, frac, exp⟩ ++ rest) = (exp, rest) := by
    rcases exp with _ | ⟨e, sign, ds⟩
    · exact scanExp_none (ends_not h (by decide)) (ends_not h (by decide))
    · obtain ⟨he, hsign, hds⟩ := hn.exp _ rfl
      exact scanExp_some he hsign hds (noDigit_ends h)
  have hexpHead : NoDigit (NumText.expText ⟨neg, int, frac, exp⟩ ++ rest) ∧
      (NumText.expText ⟨neg, int, frac, exp⟩ ++ rest).head? ≠ some '.' := by
    rcases exp with _ | ⟨e, sign, ds⟩
    · exact ⟨noDigit_ends h, ends_not h (by decide)⟩
    · obtain ⟨he, -⟩ := hn.exp _ rfl
      refine ⟨fun c hc => ?_, fun hhead => ?_⟩
      · obtain rfl : e = c := by simpa [NumText.expText, expSpelling] using hc
        rcases he with rfl | rfl <;> rfl
      · obtain rfl : e = '.' := by simpa [NumText.expText, expSpelling] using hhead
        rcases he with he | he <;> cases he
  -- the digits after the point
  have hfrac : scanFrac (NumText.fracText ⟨neg, int, frac, exp⟩ ++
      (NumText.expText ⟨neg, int, frac, exp⟩ ++ rest)) =
        (frac, NumText.expText ⟨neg, int, frac, exp⟩ ++ rest) := by
    rcases frac with _ | ds
    · exact scanFrac_none hexpHead.2
    · exact scanFrac_some (hn.frac ds rfl) hexpHead.1
  have hfracHead : NoDigit (NumText.fracText ⟨neg, int, frac, exp⟩ ++
      (NumText.expText ⟨neg, int, frac, exp⟩ ++ rest)) := by
    rcases frac with _ | ds
    · exact hexpHead.1
    · intro c hc
      obtain rfl : '.' = c := by simpa [NumText.fracText, fracSpelling] using hc
      rfl
  have hint := scanInt_text hn.int hfracHead
  have hsign : (decide ((NumText.text ⟨neg, int, frac, exp⟩ ++ rest).head? = some '-') = neg) ∧
      (if neg then (NumText.text ⟨neg, int, frac, exp⟩ ++ rest).tail
        else NumText.text ⟨neg, int, frac, exp⟩ ++ rest) =
      int ++ (NumText.fracText ⟨neg, int, frac, exp⟩ ++
        (NumText.expText ⟨neg, int, frac, exp⟩ ++ rest)) := by
    rcases neg with _ | _
    · refine ⟨?_, by simp [NumText.text, NumText.signText]⟩
      rw [decide_eq_false_iff_not]
      intro hhead
      obtain ⟨c, ds, hcons⟩ : ∃ c ds, int = c :: ds := by
        rcases hn.int with hz | ⟨c, ds, heq, -⟩
        · exact ⟨_, _, hz⟩
        · exact ⟨_, _, heq⟩
      have hc : c.isDigit = true := hn.digits c (by rw [hcons]; exact List.mem_cons_self)
      obtain rfl : c = '-' := by
        simpa [NumText.text, NumText.signText, show int = c :: ds from hcons] using hhead
      cases hc
    · exact ⟨rfl, by simp [NumText.text, NumText.signText]⟩
  rw [scanNumber, hsign.1]
  dsimp only
  rw [hsign.2, hint, Option.map_some]
  dsimp only
  rw [hfrac]
  dsimp only
  rw [hexp]

end Numbers

/-! ## Floats and integers -/

/-- A float. -/
inductive PyFloat (F : Type*) where
  | nan
  | inf (neg : Bool)
  | finite (f : F)

/-- What scientific notation says of a float that is not zero : sign, digits, exponent. -/
structure Sci where
  neg : Bool
  first : Char
  more : Text
  exp : ℤ
  first_pos : '1' ≤ first ∧ first ≤ '9'
  more_digits : Digits more

/-- How the language shows a finite float. -/
inductive Shown where
  | zero (neg : Bool)
  | sci (x : Sci)

/-- Finite floats, how they are shown and how a text is parsed. -/
structure Floats (F : Type*) where
  shown : F → Shown
  parse : Text → PyFloat F

/-- A minus sign. -/
def minus (neg : Bool) : Text :=
  if neg then ['-'] else []

/-- At least two digits. -/
def pad2 (n : ℕ) : Text :=
  if n < 10 then '0' :: Nat.toDigits 10 n else Nat.toDigits 10 n

/-- `float_repr` of a float that is not zero. -/
def Sci.repr (x : Sci) : Text :=
  let digits := x.first :: x.more
  if x.exp < -4 ∨ 16 ≤ x.exp then
    let m := if x.more = [] then [x.first] else x.first :: '.' :: x.more
    minus x.neg ++ m ++ 'e' :: (if x.exp < 0 then '-' else '+') :: pad2 x.exp.natAbs
  else if 0 ≤ x.exp then
    let intLen := x.exp.toNat + 1
    if digits.length ≤ intLen then
      minus x.neg ++ digits ++ List.replicate (intLen - digits.length) '0' ++ ['.', '0']
    else minus x.neg ++ digits.take intLen ++ '.' :: digits.drop intLen
  else minus x.neg ++ '0' :: '.' :: List.replicate (-x.exp - 1).toNat '0' ++ digits

/-- `float_repr` -/
def floatRepr {F : Type*} (Fl : Floats F) (f : F) : Text :=
  match Fl.shown f with
  | .zero neg => minus neg ++ ['0', '.', '0']
  | .sci x => x.repr

/-- Parsing the text of a float gives the float. -/
def Floats.Exact {F : Type*} (Fl : Floats F) : Prop :=
  ∀ f, Fl.parse (floatRepr Fl f) = .finite f

/-- The two zeros, a negative one after a minus sign. -/
def zeros : Floats Bool where
  shown neg := .zero neg
  parse t := .finite (t.head? = some '-')

/-- The parts of the text of a float. -/
def Sci.num (x : Sci) : NumText :=
  let digits := x.first :: x.more
  if x.exp < -4 ∨ 16 ≤ x.exp then
    ⟨x.neg, [x.first], if x.more = [] then none else some x.more,
      some ('e', [if x.exp < 0 then '-' else '+'], pad2 x.exp.natAbs)⟩
  else if 0 ≤ x.exp then
    let intLen := x.exp.toNat + 1
    if digits.length ≤ intLen then
      ⟨x.neg, digits ++ List.replicate (intLen - digits.length) '0', some ['0'], none⟩
    else ⟨x.neg, digits.take intLen, some (digits.drop intLen), none⟩
  else ⟨x.neg, ['0'], some (List.replicate (-x.exp - 1).toNat '0' ++ digits), none⟩

/-- The parts of the text of a finite float. -/
def Shown.num : Shown → NumText
  | .zero neg => ⟨neg, ['0'], some ['0'], none⟩
  | .sci x => x.num

theorem Sci.num_text (x : Sci) : x.num.text = x.repr := by
  rw [Sci.num, Sci.repr]
  dsimp only
  split_ifs <;>
    simp [NumText.text, NumText.signText, NumText.fracText, NumText.expText, fracSpelling,
      expSpelling, minus]

theorem Sci.num_isFloat (x : Sci) : x.num.isFloat = true := by
  rw [Sci.num]
  dsimp only
  split_ifs <;> simp [NumText.isFloat]

theorem digits_cons {c : Char} {ds : Text} (hc : c.isDigit = true) (h : Digits ds) :
    Digits (c :: ds) := by
  intro x hx
  rcases List.mem_cons.1 hx with rfl | hx
  · exact hc
  · exact h x hx

theorem digits_append {a b : Text} (ha : Digits a) (hb : Digits b) : Digits (a ++ b) := by
  intro x hx
  rcases List.mem_append.1 hx with hx | hx
  · exact ha x hx
  · exact hb x hx

theorem digits_zeros (n : ℕ) : Digits (List.replicate n '0') := by
  intro x hx
  rw [List.eq_of_mem_replicate hx]
  rfl

theorem digits_toDigits (n : ℕ) : Digits (Nat.toDigits 10 n) :=
  fun _ hx => Nat.isDigit_of_mem_toDigits (by omega) (by omega) hx

theorem digits_pad2 (n : ℕ) : pad2 n ≠ [] ∧ Digits (pad2 n) := by
  rw [pad2]
  split_ifs
  · exact ⟨by simp, digits_cons rfl (digits_toDigits n)⟩
  · exact ⟨Nat.toDigits_ne_nil, digits_toDigits n⟩

theorem Sci.first_isDigit (x : Sci) : x.first.isDigit = true := by
  have hzero : ('0' : Char) ≤ '1' := by decide
  simp only [Char.isDigit, ge_iff_le, Bool.and_eq_true, decide_eq_true_eq]
  exact ⟨UInt32.le_trans hzero x.first_pos.1, x.first_pos.2⟩

theorem digits_nil : Digits [] :=
  fun _ h => by cases h

theorem Sci.num_ok (x : Sci) : x.num.Ok := by
  have hall : Digits (x.first :: x.more) := digits_cons x.first_isDigit x.more_digits
  obtain ⟨c, hsign, hc⟩ : ∃ c, (if x.exp < 0 then '-' else '+') = c ∧ (c = '+' ∨ c = '-') :=
    ⟨_, rfl, by split_ifs <;> simp⟩
  have hexp (e : Char × Text × Text) (he : e ∈ some ('e', [c], pad2 x.exp.natAbs)) :
      (e.1 = 'e' ∨ e.1 = 'E') ∧ (e.2.1 = [] ∨ e.2.1 = ['+'] ∨ e.2.1 = ['-']) ∧ e.2.2 ≠ [] ∧
        ∀ y ∈ e.2.2, y.isDigit = true := by
    obtain rfl := Option.some.inj he
    exact ⟨.inl rfl, by rcases hc with rfl | rfl <;> simp, digits_pad2 _⟩
  rw [Sci.num]
  dsimp only
  rw [hsign]
  split_ifs with hsci hmore hpos hlen
  · exact ⟨.inr ⟨x.first, [], rfl, x.first_pos, digits_nil⟩, by simp, hexp⟩
  · refine ⟨.inr ⟨x.first, [], rfl, x.first_pos, digits_nil⟩, fun ds h => ?_, hexp⟩
    obtain rfl := Option.some.inj h
    exact ⟨hmore, x.more_digits⟩
  · refine ⟨.inr ⟨x.first, _, rfl, x.first_pos, digits_append x.more_digits (digits_zeros _)⟩,
      fun ds h => ?_, by simp⟩
    obtain rfl := Option.some.inj h
    exact ⟨by simp, digits_cons rfl digits_nil⟩
  · refine ⟨.inr ⟨x.first, x.more.take x.exp.toNat, rfl, x.first_pos, fun y hy =>
        x.more_digits y (List.mem_of_mem_take hy)⟩, fun ds h => ?_, by simp⟩
    obtain rfl := Option.some.inj h
    exact ⟨fun hnil => hlen (List.drop_eq_nil_iff.1 hnil),
      fun y hy => hall y (List.mem_of_mem_drop hy)⟩
  · refine ⟨.inl rfl, fun ds h => ?_, by simp⟩
    obtain rfl := Option.some.inj h
    exact ⟨by simp, digits_append (digits_zeros _) hall⟩

theorem Shown.num_ok (x : Shown) : x.num.Ok := by
  cases x with
  | zero neg =>
    refine ⟨.inl rfl, fun ds h => ?_, by simp [Shown.num]⟩
    obtain rfl := Option.some.inj h
    exact ⟨by simp, digits_cons rfl digits_nil⟩
  | sci x => exact x.num_ok

theorem Shown.num_isFloat (x : Shown) : x.num.isFloat = true := by
  cases x with
  | zero neg => rfl
  | sci x => exact x.num_isFloat

theorem num_text_eq_floatRepr {F : Type*} (Fl : Floats F) (f : F) :
    (Fl.shown f).num.text = floatRepr Fl f := by
  rw [floatRepr]
  cases Fl.shown f with
  | zero neg =>
    cases neg <;> simp [Shown.num, NumText.text, NumText.signText, NumText.fracText, NumText.expText,
      fracSpelling, expSpelling, minus]
  | sci x => exact x.num_text

/-! ## The scanner -/

/-- The number of a value : canonical decimal text, or a float. -/
inductive Num (F : Type*) where
  | int (digits : Text)
  | float (f : PyFloat F)

/-- An object of Python that JSON has. -/
abbrev PyVal (F : Type*) := Json Text (Num F)

/-- `INT_MAX_STR_DIGITS` -/
def intMaxStrDigits : ℕ := 4300

/-- `MAX_DEPTH` -/
def maxDepth : ℕ := 512

/-- The text an integer is kept as. -/
def canonInt (neg : Bool) (digits : Text) : Text :=
  if digits = ['0'] then ['0'] else if neg then '-' :: digits else digits

/-- What a number stands for. -/
def numOf {F : Type*} (Fl : Floats F) (n : NumText) : Num F :=
  if n.isFloat then .float (Fl.parse n.text) else .int (canonInt n.neg n.int)

/-- `number` -/
def number {F : Type*} (Fl : Floats F) (s : Text) : Reading (Num F) :=
  match scanNumber s with
  | none => .fail .stop
  | some (n, rest) =>
    if n.isFloat then .done (.float (Fl.parse n.text)) rest
    else if intMaxStrDigits < n.int.length then .fail (.limit n.int.length)
    else .done (.int (canonInt n.neg n.int)) rest

/-- `char::from_u32` -/
def charFromU32 (u : ℕ) : Option Char :=
  if u.isValidChar then some (Char.ofNat u) else none

/-- Push a code point; a lone surrogate is replaced, and noted. -/
def pushChar (out : Text × Bool) (u : ℕ) : Text × Bool :=
  match charFromU32 u with
  | some c => (out.1 ++ [c], out.2)
  | none => (out.1 ++ ['\ufffd'], true)

/-- `scanstring` -/
def scanstring (s : Text) : Reading (Text × Bool) :=
  scanString pushChar ([], false) s

/-- The characters of some code points. -/
def toChars (us : List ℕ) : Text :=
  us.map fun u => (charFromU32 u).getD '\ufffd'

/-- The strings and numbers of `Scanner`. -/
def scanner {F : Type*} (Fl : Floats F) : Lexis Text (Num F) where
  sense := ⟨toChars, numOf Fl, .float .nan, .float (.inf false), .float (.inf true)⟩
  string := scanstring
  number := number Fl
  maxDepth := maxDepth

/-- A number that is not an integer of more than 4300 digits. -/
def Short (n : NumText) : Prop :=
  n.isFloat = true ∨ n.int.length ≤ intMaxStrDigits

section Lawful

variable {F : Type*} {Fl : Floats F} {s rest : Text} {us : List ℕ} {ps : List Piece}

theorem hexDigit_lt {c : Char} {n : ℕ} (h : hexDigit c = some n) : n < 16 := by
  have h0 : ('0' : Char).toNat = 48 := rfl
  have h9 : ('9' : Char).toNat = 57 := rfl
  have ha : ('a' : Char).toNat = 97 := rfl
  have hf : ('f' : Char).toNat = 102 := rfl
  have hA : ('A' : Char).toNat = 65 := rfl
  have hF : ('F' : Char).toNat = 70 := rfl
  have hle {a b : Char} (h : a ≤ b) : a.toNat ≤ b.toNat := UInt32.le_iff_toNat_le.1 h
  rw [hexDigit] at h
  split_ifs at h with h1 h2 h3
  · have := hle h1.2
    obtain rfl := Option.some.inj h
    omega
  · have := hle h2.2
    obtain rfl := Option.some.inj h
    omega
  · have := hle h3.2
    obtain rfl := Option.some.inj h
    omega

theorem hex4_lt {a b c d : Char} {n : ℕ} (h : hex4 a b c d = some n) : n < 0x10000 := by
  simp only [hex4, Option.bind_eq_bind, Option.bind_eq_some_iff, Option.pure_def,
    Option.some.injEq] at h
  obtain ⟨x, hx, y, hy, z, hz, w, hw, rfl⟩ := h
  have := hexDigit_lt hx
  have := hexDigit_lt hy
  have := hexDigit_lt hz
  have := hexDigit_lt hw
  omega

theorem point_lt {p : Piece} (h : p.Ok) : p.point < 0x110000 := by
  have hchar (c : Char) : c.toNat < 0x110000 := by
    rcases c.valid with h | h
    · exact lt_trans h (by decide)
    · exact h.2
  cases p with
  | plain c => exact hchar c
  | short e => exact hchar _
  | code a b c d =>
    obtain ⟨n, hn⟩ := Option.isSome_iff_exists.1 h
    have hlt := hex4_lt hn
    rw [Piece.point, hn]
    exact lt_trans hlt (by decide)

theorem pair_lt {hi lo : ℕ} (hhi : isHigh hi = true) (hlo : isLow lo = true) :
    pair hi lo < 0x110000 := by
  have hhi : hi ≤ 0xDBFF := of_decide_eq_true (Bool.and_eq_true_iff.1 hhi).2
  have hlo : lo ≤ 0xDFFF := of_decide_eq_true (Bool.and_eq_true_iff.1 hlo).2
  unfold pair
  omega

/-- The code points of a string are ones. -/
theorem codePoints_lt (h : PiecesOk ps) : ∀ u ∈ codePoints ps, u < 0x110000 := by
  induction ps using codePoints.induct with
  | case1 => simp [codePoints]
  | case2 p =>
    rw [codePoints]
    intro u hu
    rw [List.mem_singleton.1 hu]
    exact point_lt (h p List.mem_cons_self)
  | case3 p q ps hif ih =>
    rw [codePoints, if_pos hif]
    intro u hu
    rcases List.mem_cons.1 hu with hpair | hu
    · rw [Bool.and_eq_true, Bool.and_eq_true] at hif
      rw [hpair]
      exact pair_lt hif.1.2 hif.2
    · exact ih (fun x hx => h x (by simp [hx])) u hu
  | case4 p q ps hif ih =>
    rw [codePoints, if_neg hif]
    intro u hu
    rcases List.mem_cons.1 hu with rfl | hu
    · exact point_lt (h p List.mem_cons_self)
    · exact ih (fun x hx => h x (List.mem_cons_of_mem _ hx)) u hu

/-- Only half of a pair is no character. -/
theorem charFromU32_eq_none {u : ℕ} (h : u < 0x110000) :
    charFromU32 u = none ↔ isSurrogate u = true := by
  simp only [charFromU32, Nat.isValidChar, isSurrogate, isHigh, isLow, ite_eq_right_iff,
    reduceCtorEq, imp_false, Bool.or_eq_true, Bool.and_eq_true, decide_eq_true_eq]
  omega

theorem foldl_pushChar (h : ∀ u ∈ us, u < 0x110000) (out : Text × Bool) :
    us.foldl pushChar out = (out.1 ++ toChars us, out.2 || us.any isSurrogate) := by
  induction us generalizing out with
  | nil => simp [toChars]
  | cons u us ih =>
    have hpush : pushChar out u =
        (out.1 ++ [(charFromU32 u).getD '\ufffd'], out.2 || isSurrogate u) := by
      have hlone := charFromU32_eq_none (h u List.mem_cons_self)
      rw [pushChar]
      rcases hc : charFromU32 u with _ | c
      · rw [hlone.1 hc, Bool.or_true]
        rfl
      · have hs : isSurrogate u = false := by
          rw [Bool.eq_false_iff]
          intro hs
          rw [hlone.2 hs] at hc
          cases hc
        rw [hs, Bool.or_false]
        rfl
    rw [List.foldl_cons, ih fun x hx => h x (List.mem_cons_of_mem _ hx), hpush]
    simp [toChars, Bool.or_assoc]

/-- A reader of strings that makes something of the code points reads the grammar. -/
theorem string_laws {S : Type*} (f : List ℕ → S) (r : Text → Reading (S × Bool))
    (hr : ∀ s, r s = (scanString pushPoint [] s).map fun us => (f us, us.any isSurrogate)) :
    (∀ s x rest, r s = .done x rest → ∃ ps, PiecesOk ps ∧ s = piecesText ps ++ '"' :: rest ∧
      x = (f (codePoints ps), unpaired ps)) ∧
    (∀ ps rest, PiecesOk ps →
      r (piecesText ps ++ '"' :: rest) = .done (f (codePoints ps), unpaired ps) rest) ∧
    (∀ s e, r s = .fail e → ∃ m, e = .msg m) ∧ ∀ s, r s ≠ .more := by
  refine ⟨fun s x rest h => ?_, fun ps rest hps => ?_, fun s e h => ?_, fun s h => ?_⟩
  · rw [hr] at h
    rcases hs : scanString pushPoint [] s with ⟨us, t⟩ | e | _ <;> rw [hs] at h
    · obtain ⟨rfl, rfl⟩ := Reading.done.inj h
      obtain ⟨ps, hps, htext, rfl⟩ := scanString_sound _ _ _ _ le_rfl hs
      exact ⟨ps, hps, htext, rfl⟩
    · cases h
    · cases h
  · have hread := scanString_text rest ps.length ps [] le_rfl hps
    rw [List.nil_append, stringText] at hread
    rw [hr, hread]
    rfl
  · rw [hr] at h
    rcases hs : scanString pushPoint [] s with ⟨us, t⟩ | e' | _ <;> rw [hs] at h
    · cases h
    · obtain rfl := Reading.fail.inj h
      exact (scanString_fail _ _ _ le_rfl).2 _ hs
    · cases h
  · rw [hr] at h
    rcases hs : scanString pushPoint [] s with ⟨us, t⟩ | e | _ <;> rw [hs] at h
    · cases h
    · cases h
    · exact (scanString_fail _ _ _ le_rfl).1 hs

theorem scanstring_eq (s : Text) : scanstring s =
    (scanString pushPoint [] s).map fun us => (toChars us, us.any isSurrogate) := by
  rw [scanstring, scanString_points]
  rcases hs : scanString pushPoint [] s with ⟨us, t⟩ | e | _
  · obtain ⟨ps, hps, -, rfl⟩ := scanString_sound _ _ _ _ le_rfl hs
    rw [List.nil_append, Reading.map, Reading.map, foldl_pushChar (codePoints_lt hps)]
    simp
  · rfl
  · rfl

theorem scanner_lawful (Fl : Floats F) : (scanner Fl).Lawful Short where
  string_sound := (string_laws toChars scanstring scanstring_eq).1
  string_text := (string_laws toChars scanstring scanstring_eq).2.1
  string_fail := (string_laws toChars scanstring scanstring_eq).2.2.1
  string_ends := (string_laws toChars scanstring scanstring_eq).2.2.2
  number_sound s n rest h := by
    change number Fl s = _ at h
    rw [number] at h
    rcases hn : scanNumber s with _ | ⟨t, u⟩ <;> rw [hn] at h
    · cases h
    · obtain ⟨hok, hs⟩ := scanNumber_sound hn
      dsimp only at h
      split_ifs at h with hfloat hlimit
      · obtain ⟨rfl, rfl⟩ := Reading.done.inj h
        exact ⟨t, hok, .inl hfloat, hs, (if_pos hfloat).symm⟩
      · obtain ⟨rfl, rfl⟩ := Reading.done.inj h
        exact ⟨t, hok, .inr (not_lt.1 hlimit), hs, (if_neg hfloat).symm⟩
  number_text t rest hok hshort hends := by
    change number Fl _ = .done (numOf Fl t) rest
    rw [number, scanNumber_text hok hends, numOf]
    dsimp only
    rcases hfloat : t.isFloat with _ | _
    · have hlen : ¬intMaxStrDigits < t.int.length := by
        rcases hshort with h | h
        · rw [hfloat] at h
          cases h
        · omega
      rw [if_neg Bool.false_ne_true, if_neg hlen, if_neg Bool.false_ne_true]
    · rw [if_pos rfl, if_pos rfl]
  number_ends s h := by
    change number Fl s = _ at h
    rw [number] at h
    rcases hn : scanNumber s with _ | ⟨t, u⟩ <;> rw [hn] at h
    · cases h
    · dsimp only at h
      split_ifs at h

end Lawful

/-! ## Reading a whole text -/

/-- An exception of Python : its kind and its message. -/
structure PyExc where
  kind : String
  msg : String
  deriving DecidableEq

/-- `int_limit` -/
def intLimit (n : ℕ) : PyExc :=
  ⟨"ValueError", "Exceeds the limit (4300 digits) for integer string conversion: value has " ++
    toString n ++ " digits; use sys.set_int_max_str_digits() to increase the limit"⟩

/-- `to_exc` -/
def toExc : JErr → PyExc
  | .stop => ⟨"JSONDecodeError", "Expecting value"⟩
  | .msg m => ⟨"JSONDecodeError", m⟩
  | .limit n => intLimit n
  | .depth m => ⟨"RecursionError", m⟩

section Loads

variable {F : Type*} (Fl : Floats F)

/-- `json_loads`; no answer is a reader that has not come to an end. -/
def jsonLoads (s : Text) : Option (Except PyExc (PyVal F)) :=
  if s.head? = some '\ufeff' then
    some (.error ⟨"JSONDecodeError", "Unexpected UTF-8 BOM (decode using utf-8-sig)"⟩)
  else
    match scanOnce (scanner Fl) (fuelFor (ws s)) 0 false (ws s) with
    | .more => none
    | .fail e => some (.error (toExc e))
    | .done (v, lone) rest =>
      if ws rest ≠ [] then some (.error ⟨"JSONDecodeError", "Extra data"⟩)
      else if lone then
        some (.error ⟨"JSONDecodeError", "lone surrogate in a \\uXXXX escape"⟩)
      else some (.ok v)

/-- `raw_decode` : the value at the start of the text, and what is left. -/
def rawDecode (s : Text) : Option (Except PyExc (PyVal F × Text)) :=
  match scanOnce (scanner Fl) (fuelFor s) 0 false s with
  | .more => none
  | .fail e => some (.error (toExc e))
  | .done (v, _) rest => some (.ok (v, rest))

/-! ## Writing -/

/-- The units of UTF-16 of a character. -/
def utf16 (c : Char) : List ℕ :=
  if c.toNat < 0x10000 then [c.toNat]
  else [0xD800 + (c.toNat - 0x10000) / 0x400, 0xDC00 + (c.toNat - 0x10000) % 0x400]

/-- A unit as an escape. -/
def unitPiece (u : ℕ) : Piece :=
  .code (Nat.digitChar (u / 0x1000 % 16)) (Nat.digitChar (u / 0x100 % 16))
    (Nat.digitChar (u / 0x10 % 16)) (Nat.digitChar (u % 16))

/-- The letter for a character that is written as one after a backslash. -/
def shortLetter (c : Char) : Option Char :=
  if c = '"' then some '"' else if c = '\\' then some '\\' else if c = '\n' then some 'n'
  else if c = '\r' then some 'r' else if c = '\t' then some 't' else if c = '\x08' then some 'b'
  else if c = '\x0c' then some 'f' else none

/-- How a character is written : everything outside printable ASCII is escaped. -/
def charPieces (c : Char) : List Piece :=
  match shortLetter c with
  | some e => [.short e]
  | none =>
    if c.toNat < 0x20 ∨ 0x7e < c.toNat then (utf16 c).map unitPiece else [.plain c]

/-- `write_str` -/
def writeStr (s : Text) : Text :=
  quoted (s.flatMap charPieces)

/-- A float in JSON. -/
def writeFloat : PyFloat F → Text
  | .nan => ['N', 'a', 'N']
  | .inf false => ['I', 'n', 'f', 'i', 'n', 'i', 't', 'y']
  | .inf true => ['-', 'I', 'n', 'f', 'i', 'n', 'i', 't', 'y']
  | .finite f => floatRepr Fl f

/-- A number in JSON. -/
def writeNum : Num F → Text
  | .int d => d
  | .float f => writeFloat Fl f

mutual

/-- `write_json` -/
def writeJson : PyVal F → Text
  | .null => ['n', 'u', 'l', 'l']
  | .bool true => ['t', 'r', 'u', 'e']
  | .bool false => ['f', 'a', 'l', 's', 'e']
  | .num n => writeNum Fl n
  | .str s => writeStr s
  | .arr vs => '[' :: writeElems vs ++ [']']
  | .obj fs => '{' :: writeFields fs ++ ['}']

/-- The elements, with a comma before each but the first. -/
def writeElems : List (PyVal F) → Text
  | [] => []
  | [v] => writeJson v
  | v :: w :: vs => writeJson v ++ ',' :: writeElems (w :: vs)

/-- The fields, with a comma before each but the first. -/
def writeFields : List (Text × PyVal F) → Text
  | [] => []
  | [(k, v)] => writeStr k ++ ':' :: writeJson v
  | (k, v) :: f :: fs => writeStr k ++ ':' :: writeJson v ++ ',' :: writeFields (f :: fs)

end

/-- `dumps_compact` -/
def dumpsCompact (v : PyVal F) : Text :=
  writeJson Fl v

/-! ## The tree of what is written -/

/-- The text of an integer as it is kept. -/
def IntText (d : Text) : Prop :=
  d = ['0'] ∨ ∃ neg c ds, d = minus neg ++ c :: ds ∧ ('1' ≤ c ∧ c ≤ '9') ∧ Digits ds

/-- An integer as it is kept, of at most 4300 digits. -/
def IntOk : Num F → Prop
  | .int d => IntText d ∧ (d.filter Char.isDigit).length ≤ intMaxStrDigits
  | .float _ => True

mutual

/-- Every number in a value has a property. -/
def AllNum (P : Num F → Prop) : PyVal F → Prop
  | .num n => P n
  | .arr vs => AllNumElems P vs
  | .obj fs => AllNumFields P fs
  | _ => True

/-- `AllNum` of each element. -/
def AllNumElems (P : Num F → Prop) : List (PyVal F) → Prop
  | [] => True
  | v :: vs => AllNum P v ∧ AllNumElems P vs

/-- `AllNum` of each field. -/
def AllNumFields (P : Num F → Prop) : List (Text × PyVal F) → Prop
  | [] => True
  | (_, v) :: fs => AllNum P v ∧ AllNumFields P fs

end

/-- The parts of an integer. -/
def intNum (d : Text) : NumText :=
  ⟨d.head? = some '-', d.dropWhile (· = '-'), none, none⟩

/-- The tree of a number. -/
def numTree : Num F → Value
  | .int d => .num (intNum d)
  | .float .nan => .word .nan
  | .float (.inf false) => .word .infinity
  | .float (.inf true) => .word .negInfinity
  | .float (.finite f) => .num (Fl.shown f).num

mutual

/-- The tree of a value. -/
def tree : PyVal F → Value
  | .null => .word .null
  | .bool true => .word .true
  | .bool false => .word .false
  | .num n => numTree Fl n
  | .str s => .str (s.flatMap charPieces)
  | .arr [] => .emptyArr []
  | .arr (v :: vs) => .arr (treeElems (v :: vs))
  | .obj [] => .emptyObj []
  | .obj (f :: fs) => .obj (treeFields (f :: fs))

/-- The trees of elements; there is at least one. -/
def treeElems : List (PyVal F) → Elems
  | [] => .last [] (.word .null) []
  | [v] => .last [] (tree v) []
  | v :: w :: vs => .more [] (tree v) [] (treeElems (w :: vs))

/-- The trees of fields; there is at least one. -/
def treeFields : List (Text × PyVal F) → Fields
  | [] => .last [] [] [] [] (.word .null) []
  | [(k, v)] => .last [] (k.flatMap charPieces) [] [] (tree v) []
  | (k, v) :: f :: fs => .more [] (k.flatMap charPieces) [] [] (tree v) [] (treeFields (f :: fs))

end

variable {Fl}

/-! ## What is written is read back -/

theorem hexDigit_digitChar : ∀ n : Fin 16, hexDigit (Nat.digitChar n) = some n.val := by
  decide

theorem hex4_unitPiece {u : ℕ} (h : u < 0x10000) :
    (unitPiece u).Ok ∧ (unitPiece u).point = u := by
  have hdigit (n : ℕ) : hexDigit (Nat.digitChar (n % 16)) = some (n % 16) :=
    hexDigit_digitChar ⟨n % 16, Nat.mod_lt n (by omega)⟩
  have hhex : hex4 (Nat.digitChar (u / 0x1000 % 16)) (Nat.digitChar (u / 0x100 % 16))
      (Nat.digitChar (u / 0x10 % 16)) (Nat.digitChar (u % 16)) = some u := by
    simp only [hex4, hdigit, Option.bind_eq_bind, Option.bind_some, Option.pure_def,
      Option.some.injEq]
    omega
  constructor
  · rw [unitPiece, Piece.Ok, hhex]
    rfl
  · rw [unitPiece, Piece.point, hhex]
    rfl

theorem not_isSurrogate (c : Char) : isSurrogate c.toNat = false := by
  simp only [isSurrogate, isHigh, isLow, Bool.or_eq_false_iff, Bool.and_eq_false_imp,
    decide_eq_true_eq, decide_eq_false_iff_not]
  have hv : c.toNat < 0xd800 ∨ 0xdfff < c.toNat ∧ c.toNat < 0x110000 := c.valid
  omega

theorem escape_shortLetter {c e : Char} (h : shortLetter c = some e) : escape e = some c := by
  rw [shortLetter] at h
  split_ifs at h with h1 h2 h3 h4 h5 h6 h7 <;> obtain rfl := Option.some.inj h
  · rw [h1]
    rfl
  · rw [h2]
    rfl
  · rw [h3]
    rfl
  · rw [h4]
    rfl
  · rw [h5]
    rfl
  · rw [h6]
    rfl
  · rw [h7]
    rfl

/-- A character is written as pieces that stand for it, whatever follows. -/
theorem charPieces_spec (c : Char) (ps : List Piece) (hps : PiecesOk ps) :
    PiecesOk (charPieces c ++ ps) ∧ codePoints (charPieces c ++ ps) = c.toNat :: codePoints ps := by
  rw [charPieces]
  rcases hletter : shortLetter c with _ | e
  · dsimp only
    have hsur := not_isSurrogate c
    split_ifs with hesc
    · rw [utf16]
      split_ifs with hbmp
      · obtain ⟨hok, hpoint⟩ := hex4_unitPiece hbmp
        refine ⟨piecesOk_cons hok hps, ?_⟩
        rw [List.map_singleton, List.singleton_append, codePoints_alone (fun _ hhi => ?_) hps,
          hpoint]
        rw [hpoint] at hhi
        rw [isSurrogate, hhi] at hsur
        cases hsur
      · -- a character beyond the first 65536 is two units
        have hlt : c.toNat < 0x110000 := by
          rcases c.valid with h | h
          · exact lt_trans h (by decide)
          · exact h.2
        obtain ⟨hok, hpoint⟩ := hex4_unitPiece
          (show 0xD800 + (c.toNat - 0x10000) / 0x400 < 0x10000 by omega)
        obtain ⟨hok', hpoint'⟩ := hex4_unitPiece
          (show 0xDC00 + (c.toNat - 0x10000) % 0x400 < 0x10000 by omega)
        refine ⟨piecesOk_cons hok (piecesOk_cons hok' hps), ?_⟩
        have hhi : isHigh (0xD800 + (c.toNat - 0x10000) / 0x400) = true := by
          simp only [isHigh, Bool.and_eq_true, decide_eq_true_eq]
          omega
        have hlo : isLow (0xDC00 + (c.toNat - 0x10000) % 0x400) = true := by
          simp only [isLow, Bool.and_eq_true, decide_eq_true_eq]
          omega
        have hpair : pair (0xD800 + (c.toNat - 0x10000) / 0x400)
            (0xDC00 + (c.toNat - 0x10000) % 0x400) = c.toNat := by
          unfold pair
          omega
        rw [List.map_cons, List.map_singleton, List.cons_append, List.singleton_append, codePoints,
          hpoint, hpoint', hhi, hlo, hpair]
        rfl
    · have hq : c ≠ '"' := by
        rintro rfl
        cases hletter
      have hb : c ≠ '\\' := by
        rintro rfl
        cases hletter
      have hok : (Piece.plain c).Ok := ⟨hq, hb, by omega⟩
      refine ⟨piecesOk_cons hok hps, ?_⟩
      rw [List.singleton_append, codePoints_alone (fun h => by cases h) hps]
      rfl
  · have hesc := escape_shortLetter hletter
    have hok : (Piece.short e).Ok := by
      rw [Piece.Ok, hesc]
      rfl
    refine ⟨piecesOk_cons hok hps, ?_⟩
    dsimp only
    rw [List.singleton_append, codePoints_alone (fun h => by cases h) hps, Piece.point, hesc]
    rfl

theorem strPieces_spec (s : Text) : PiecesOk (s.flatMap charPieces) ∧
    codePoints (s.flatMap charPieces) = s.map Char.toNat := by
  induction s with
  | nil => exact ⟨(fun _ hp => by cases hp), rfl⟩
  | cons c s ih =>
    obtain ⟨hok, hpoints⟩ := charPieces_spec c _ ih.1
    rw [List.flatMap_cons, List.map_cons]
    exact ⟨hok, by rw [hpoints, ih.2]⟩

theorem unpaired_strPieces (s : Text) : unpaired (s.flatMap charPieces) = false := by
  rw [unpaired, (strPieces_spec s).2, List.any_eq_false]
  intro u hu
  obtain ⟨c, -, rfl⟩ := List.mem_map.1 hu
  rw [not_isSurrogate]
  exact Bool.false_ne_true

theorem toChars_strPieces (s : Text) : toChars (codePoints (s.flatMap charPieces)) = s := by
  rw [(strPieces_spec s).2, toChars, List.map_map]
  conv_rhs => rw [← List.map_id s]
  refine List.map_congr_left fun c _ => ?_
  have hvalid : c.toNat.isValidChar := c.valid
  simp [charFromU32, hvalid]

/-- A tree has the text of a value and stands for it. -/
structure Spells (Fl : Floats F) (t : Value) (v : PyVal F) : Prop where
  text : t.text = writeJson Fl v
  ok : t.Ok
  depth : t.depth = v.depth
  paired : t.unpaired = false
  short : t.AllNums Short
  doc : t.doc (scanner Fl).sense = v

/-- The same for elements. -/
structure SpellsElems (Fl : Floats F) (t : Elems) (vs : List (PyVal F)) : Prop where
  text : t.text = writeElems Fl vs
  ok : t.Ok
  depth : t.depth = Json.depthElems vs
  paired : t.unpaired = false
  short : t.AllNums Short
  docs : t.docs (scanner Fl).sense = vs

/-- The same for fields, set after fields with other keys. -/
structure SpellsFields (Fl : Floats F) (t : Fields) (fs : List (Text × PyVal F)) : Prop where
  text : t.text = writeFields Fl fs
  ok : t.Ok
  depth : t.depth = Json.depthFields fs
  paired : t.unpaired = false
  short : t.AllNums Short
  docs : ∀ d : List (Text × PyVal F), ((d ++ fs).map Prod.fst).Nodup →
    t.docs (scanner Fl).sense d = d ++ fs

theorem intNum_spec {d : Text} (h : IntText d) : (intNum d).Ok ∧ (intNum d).text = d ∧
    canonInt (intNum d).neg (intNum d).int = d ∧ Digits (intNum d).int ∧
    d.filter Char.isDigit = (intNum d).int := by
  rcases h with rfl | ⟨neg, c, ds, rfl, hc, hds⟩
  · exact ⟨⟨.inl rfl, by simp [intNum], by simp [intNum]⟩, rfl, rfl, digits_cons rfl digits_nil,
      rfl⟩
  · have hdigit : c.isDigit = true := by
      have hzero : ('0' : Char) ≤ '1' := by decide
      simp only [Char.isDigit, ge_iff_le, Bool.and_eq_true, decide_eq_true_eq]
      exact ⟨UInt32.le_trans hzero hc.1, hc.2⟩
    have hminus : c ≠ '-' := by
      rintro rfl
      cases hdigit
    have hzero : c ≠ '0' := by
      rintro rfl
      exact absurd hc.1 (by decide)
    have hall := digits_cons hdigit hds
    have hnum : intNum (minus neg ++ c :: ds) = ⟨neg, c :: ds, none, none⟩ := by
      cases neg <;> simp [intNum, minus, hminus]
    have hfilter : (minus neg ++ c :: ds).filter Char.isDigit = c :: ds := by
      rw [List.filter_append, List.filter_eq_self.2 hall]
      cases neg <;> rfl
    rw [hnum, hfilter]
    refine ⟨⟨.inr ⟨c, ds, rfl, hc, hds⟩, by simp, by simp⟩, ?_, ?_, hall, rfl⟩
    · cases neg <;>
        simp [NumText.text, NumText.signText, NumText.fracText, NumText.expText, fracSpelling,
          expSpelling, minus]
    · cases neg <;> simp [canonInt, minus, hzero]

theorem numTree_spells (hF : Fl.Exact) {n : Num F} (h : IntOk n) :
    Spells Fl (numTree Fl n) (.num n) := by
  rcases n with d | _ | neg | f
  · obtain ⟨hok, htext, hcanon, -, hfilter⟩ := intNum_spec h.1
    refine ⟨htext, hok, rfl, rfl, .inr ?_, ?_⟩
    · rw [← hfilter]
      exact h.2
    · exact congrArg Json.num (congrArg Num.int hcanon)
  · exact ⟨rfl, trivial, rfl, rfl, trivial, rfl⟩
  · cases neg <;> exact ⟨rfl, trivial, rfl, rfl, trivial, rfl⟩
  · have htext := num_text_eq_floatRepr Fl f
    have hfloat := (Fl.shown f).num_isFloat
    refine ⟨htext, (Fl.shown f).num_ok, rfl, rfl, .inl hfloat, ?_⟩
    have hnum : numOf Fl (Fl.shown f).num = .float (.finite f) := by
      rw [numOf, if_pos hfloat, htext, hF f]
    exact congrArg Json.num hnum

mutual

/-- The tree of a value has its text and stands for it. -/
theorem tree_spells (hF : Fl.Exact) : ∀ (v : PyVal F), v.WF → AllNum IntOk v →
    Spells Fl (tree Fl v) v
  | .null, _, _ => ⟨rfl, trivial, rfl, rfl, trivial, rfl⟩
  | .bool true, _, _ => ⟨rfl, trivial, rfl, rfl, trivial, rfl⟩
  | .bool false, _, _ => ⟨rfl, trivial, rfl, rfl, trivial, rfl⟩
  | .num _, _, hn => numTree_spells hF hn
  | .str s, _, _ => ⟨rfl, (strPieces_spec s).1, rfl, unpaired_strPieces s, trivial,
      congrArg Json.str (toChars_strPieces s)⟩
  | .arr [], _, _ => ⟨rfl, (fun _ h => by cases h), rfl, rfl, trivial, rfl⟩
  | .obj [], _, _ => ⟨rfl, (fun _ h => by cases h), rfl, rfl, trivial, rfl⟩
  | .arr (v :: vs), hv, hn => by
    have h := treeElems_spells hF (v :: vs) (by simp) hv hn
    exact ⟨by rw [tree, Value.text, h.text, writeJson], h.ok, congrArg (· + 1) h.depth, h.paired,
      h.short, congrArg Json.arr h.docs⟩
  | .obj (f :: fs), hv, hn => by
    have h := treeFields_spells hF (f :: fs) (by simp) hv.2 hn
    exact ⟨by rw [tree, Value.text, h.text, writeJson], h.ok, congrArg (· + 1) h.depth, h.paired,
      h.short, congrArg Json.obj (h.docs [] hv.1)⟩

/-- `tree_spells` for elements. -/
theorem treeElems_spells (hF : Fl.Exact) : ∀ (vs : List (PyVal F)), vs ≠ [] → Json.WFElems vs →
    AllNumElems IntOk vs → SpellsElems Fl (treeElems Fl vs) vs
  | [], h, _, _ => absurd rfl h
  | [v], _, hv, hn => by
    have h := tree_spells hF v hv.1 hn.1
    have hspace : Space [] := fun _ h => by cases h
    exact ⟨by rw [treeElems, Elems.text, h.text, writeElems]; simp, ⟨hspace, h.ok, hspace⟩,
      by rw [treeElems, Elems.depth, h.depth, Json.depthElems, Json.depthElems, Nat.max_zero],
      h.paired, h.short, congrArg (fun x => [x]) h.doc⟩
  | v :: w :: vs, _, hv, hn => by
    have h := tree_spells hF v hv.1 hn.1
    have hs := treeElems_spells hF (w :: vs) (by simp) hv.2 hn.2
    have hspace : Space [] := fun _ h => by cases h
    exact ⟨by rw [treeElems, Elems.text, h.text, hs.text, writeElems]; simp,
      ⟨⟨hspace, h.ok, hspace⟩, hs.ok⟩,
      (by rw [treeElems, Elems.depth, h.depth, hs.depth]; rfl),
      by rw [treeElems, Elems.unpaired, h.paired, hs.paired]; rfl, ⟨h.short, hs.short⟩,
      by rw [treeElems, Elems.docs, h.doc, hs.docs]⟩

/-- `tree_spells` for fields. -/
theorem treeFields_spells (hF : Fl.Exact) : ∀ (fs : List (Text × PyVal F)), fs ≠ [] →
    Json.WFFields fs → AllNumFields IntOk fs → SpellsFields Fl (treeFields Fl fs) fs
  | [], h, _, _ => absurd rfl h
  | [(k, v)], _, hv, hn => by
    have h := tree_spells hF v hv.1 hn.1
    have hspace : Space [] := fun _ h => by cases h
    refine ⟨by rw [treeFields, Fields.text, h.text, writeFields]; simp [writeStr],
      ⟨hspace, (strPieces_spec k).1, hspace, hspace, h.ok, hspace⟩,
      by rw [treeFields, Fields.depth, h.depth, Json.depthFields, Json.depthFields, Nat.max_zero],
      by rw [treeFields, Fields.unpaired, h.paired, unpaired_strPieces]; rfl, h.short,
      fun d hd => ?_⟩
    have hkey : (scanner Fl).sense.str (k.flatMap charPieces) = k := toChars_strPieces k
    rw [treeFields, Fields.docs, h.doc, hkey, Json.insert_of_not_mem v (Json.not_mem_keys hd)]
  | (k, v) :: f :: fs, _, hv, hn => by
    have h := tree_spells hF v hv.1 hn.1
    have hs := treeFields_spells hF (f :: fs) (by simp) hv.2 hn.2
    have hspace : Space [] := fun _ h => by cases h
    refine ⟨by rw [treeFields, Fields.text, h.text, hs.text, writeFields]; simp [writeStr],
      ⟨⟨hspace, (strPieces_spec k).1, hspace, hspace, h.ok, hspace⟩, hs.ok⟩,
      (by rw [treeFields, Fields.depth, h.depth, hs.depth]; rfl),
      by rw [treeFields, Fields.unpaired, h.paired, hs.paired, unpaired_strPieces]; rfl,
      ⟨h.short, hs.short⟩, fun d hd => ?_⟩
    have hkey : (scanner Fl).sense.str (k.flatMap charPieces) = k := toChars_strPieces k
    rw [treeFields, Fields.docs, h.doc, hkey, Json.insert_of_not_mem v (Json.not_mem_keys hd),
      hs.docs _ (by simpa using hd), List.append_assoc, List.singleton_append]

end

/-- What a `PyVal` is : distinct keys in each object, integers as they are kept. -/
structure Canonical (v : PyVal F) : Prop where
  keys : v.WF
  ints : AllNum IntOk v

/-- What is written is read at the start of a text. -/
theorem scanOnce_written (hF : Fl.Exact) {v : PyVal F} (hv : Canonical v)
    (hdepth : v.depth ≤ maxDepth) {rest : Text} (hrest : Closed (tree Fl v) ∨ Follows rest) :
    scanOnce (scanner Fl) (fuelFor (dumpsCompact Fl v ++ rest)) 0 false
      (dumpsCompact Fl v ++ rest) = .done (v, false) rest := by
  have h := tree_spells hF v hv.keys hv.ints
  have hread := scanOnce_text (scanner_lawful Fl) (tree Fl v) h.ok h.short
    (fuelFor ((tree Fl v).text ++ rest)) 0 false rest hrest le_rfl
    (by rw [Nat.zero_add, h.depth]; exact hdepth)
  rw [h.text, h.doc, h.paired] at hread
  exact hread

/-- What is written is read back. -/
theorem jsonLoads_written (hF : Fl.Exact) {v : PyVal F} (hv : Canonical v)
    (hdepth : v.depth ≤ maxDepth) : jsonLoads Fl (dumpsCompact Fl v) = some (.ok v) := by
  have hends : Follows [] := fun _ h => by cases h
  have hread := scanOnce_written hF hv hdepth (.inr hends)
  have h := tree_spells hF v hv.keys hv.ints
  obtain ⟨c, t, htext, hstart⟩ := text_start h.ok
  have hdump : dumpsCompact Fl v = c :: t := by
    rw [dumpsCompact, ← h.text, htext]
  rw [List.append_nil, hdump] at hread
  have hbom : (c :: t).head? ≠ some '\ufeff' := by
    intro hhead
    obtain rfl := Option.some.inj hhead
    exact absurd hstart.2.2.2 (by decide)
  rw [hdump, jsonLoads, if_neg hbom, ws_of_not hstart.1, hread]
  rfl

end Loads

end EngineConsole.PyJson
