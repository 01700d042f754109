import EngineConsole.DecodedPaths

/-!
# Lines of a streamed answer

How the hub reads an engine's answer line by line (`services/nodehttp.rs`) : chunks of bytes are
decoded as they come, an incomplete character waiting for the next chunk (`Utf8Decoder`); the text
is split at CRLF, CR and LF, a partial line waiting for its end (`HttpStream::feed`); `line` gives
one line after another, and an error at a line that is too long.

However the bytes are cut, the lines are those of the whole text, except for one kind of answer :
one that ends in an incomplete character, whose replacement makes the last line one character too
long (`yields_iff`).
-/

set_option linter.unusedSectionVars false

namespace EngineConsole

namespace Lines

open Web

abbrev Bytes := List UInt8

/-! ## Decoding -/

/-- What `from_utf8` finds first : a character of so many bytes, an error of so many bytes
(`error_len`), or a character that the text ends in (no `error_len`). -/
inductive Piece where
  | char (c : Char) (len : ℕ)
  | invalid (len : ℕ)
  | incomplete

/-- The first piece of a text that is not empty. -/
def firstPiece (b₀ : UInt8) (rest : Bytes) : Piece :=
  if b₀ < 128 then .char (Char.ofNat b₀.toNat) 1
  else if lead2 b₀ then
    match rest with
    | [] => .incomplete
    | b₁ :: _ =>
      if isCont b₁ then .char (Char.ofNat (b₀.toNat % 32 * 64 + low6 b₁)) 2 else .invalid 1
  else if lead3 b₀ then
    match rest with
    | [] => .incomplete
    | [b₁] => if second3 b₀ b₁ then .incomplete else .invalid 1
    | b₁ :: b₂ :: _ =>
      if !second3 b₀ b₁ then .invalid 1
      else if !isCont b₂ then .invalid 2
      else .char (Char.ofNat ((b₀.toNat % 16 * 64 + low6 b₁) * 64 + low6 b₂)) 3
  else if lead4 b₀ then
    match rest with
    | [] => .incomplete
    | [b₁] => if second4 b₀ b₁ then .incomplete else .invalid 1
    | [b₁, b₂] =>
      if !second4 b₀ b₁ then .invalid 1 else if isCont b₂ then .incomplete else .invalid 2
    | b₁ :: b₂ :: b₃ :: _ =>
      if !second4 b₀ b₁ then .invalid 1
      else if !isCont b₂ then .invalid 2
      else if !isCont b₃ then .invalid 3
      else
        .char (Char.ofNat (((b₀.toNat % 8 * 64 + low6 b₁) * 64 + low6 b₂) * 64 + low6 b₃)) 4
  else .invalid 1

/-- The loop of `decode`, of at most `fuel` pieces : the text, and what is left of the bytes. -/
def decodeLoop (last : Bool) : ℕ → Bytes → Text × Bytes
  | 0, bytes => ([], bytes)
  | _, [] => ([], [])
  | fuel + 1, b₀ :: rest =>
    match firstPiece b₀ rest with
    | .char c len =>
      let r := decodeLoop last fuel (rest.drop (len - 1))
      (c :: r.1, r.2)
    | .invalid len =>
      let r := decodeLoop last fuel (rest.drop (len - 1))
      (replacement :: r.1, r.2)
    | .incomplete => if last then ([replacement], []) else ([], b₀ :: rest)

/-- `Utf8Decoder::decode` : the text, and what is left for the next chunk. -/
def decode (left chunk : Bytes) (last : Bool) : Text × Bytes :=
  decodeLoop last (left ++ chunk).length (left ++ chunk)

/-! ## Lines -/

/-- `MAX_LINE` -/
def maxLine : ℕ := 1024 * 1024

/-- `MAX_STREAM` -/
def maxStream : ℕ := 256 * 1024 * 1024

/-- A problem of an upstream engine : its message. -/
abbrev Problem := Text

/-- `long_line` -/
def longLine : Problem :=
  "the engine sent a line longer than 1024 KiB; the stream was cut off"

/-- The answer is too large. -/
def longStream : Problem :=
  "the engine's stream passed 256 MiB; it was cut off"

/-- A piece that starts with `c`. -/
def extend (c : Char) : List Text → List Text
  | [] => [[c]]
  | p :: ps => (c :: p) :: ps

/-- `split_eol` -/
def splitEol : Text → List Text
  | [] => [[]]
  | '\r' :: '\n' :: s => [] :: splitEol s
  | '\r' :: s => [] :: splitEol s
  | '\n' :: s => [] :: splitEol s
  | c :: s => extend c (splitEol s)

/-- The state of `HttpStream` that lines depend on. -/
structure State where
  left : Bytes
  pending : Text
  plen : ℕ
  total : ℕ
  afterCr : Bool
  ready : List Text
  failed : Option Problem
  linesDone : Bool

/-- `HttpStream::new` -/
def State.new : State := ⟨[], [], 0, 0, false, [], none, false⟩

/-- The pieces after the first and before the last, up to one that is too long : whether there is
one, and those before it. -/
def middle : List Text → Bool × List Text
  | [] => (true, [])
  | seg :: segs =>
    if maxLine < seg.length then (false, [])
    else
      let r := middle segs
      (r.1, seg :: r.2)

/-- The last piece of a text joins what is pending. -/
def State.addLast (s : State) (last : Text) : State :=
  let s := { s with pending := s.pending ++ last, plen := s.plen + last.length }
  if maxLine < s.plen then { s with failed := some longLine } else s

/-- `feed` -/
def State.feed (s : State) (text : Text) : State :=
  if text = [] then s
  else
    let text := if s.afterCr && text.head? == some '\n' then text.tail else text
    let s := { s with afterCr := text.getLast? == some '\r' }
    match splitEol text with
    | [] => s
    | [last] => s.addLast last
    | first :: segs =>
      if maxLine < s.plen + first.length then { s with failed := some longLine }
      else
        let s := { s with ready := s.ready ++ [s.pending ++ first], pending := [] }
        let r := middle segs.dropLast
        let s := { s with ready := s.ready ++ r.2 }
        if r.1 then { s with plen := 0 }.addLast (segs.getLastD []) else { s with failed := some longLine }

/-- A chunk that has come. -/
def State.chunk (s : State) (chunk : Bytes) : State :=
  let s := { s with total := s.total + chunk.length }
  if maxStream < s.total then { s with failed := some longStream }
  else
    let r := decode s.left chunk false
    { s with left := r.2 }.feed r.1

/-- What `line` returns : a line, an error, or the end. -/
inductive Line where
  | line (l : Text)
  | error (p : Problem)
  | none

/-- What `line` returns without another chunk. -/
def State.early (s : State) : Option (Line × State) :=
  match s.ready with
  | l :: ready => some (.line l, { s with ready := ready })
  | [] =>
    match s.failed with
    | some p => some (.error p, { s with failed := none, linesDone := true })
    | none => if s.linesDone then some (.none, s) else none

/-- The end of the answer. -/
def State.flush (s : State) : Line × State :=
  let r := decode s.left [] true
  let tail := s.pending ++ r.1
  let s := { s with linesDone := true, pending := [], left := r.2 }
  (if tail = [] then .none else .line tail, s)

/-- `line`, where these chunks come and then the end of the answer : what it returns, and what is
then to come. -/
def line : List Bytes → State → Line × List Bytes × State
  | [], s =>
    match s.early with
    | some r => (r.1, [], r.2)
    | none =>
      let r := s.flush
      (r.1, [], r.2)
  | chunk :: chunks, s =>
    match s.early with
    | some r => (r.1, chunk :: chunks, r.2)
    | none => line chunks (s.chunk chunk)

/-- The lines that one call of `line` after another yields, and the error they end with. -/
inductive Yields : List Bytes → State → List Text → Option Problem → Prop
  | line {chunks chunks' s s' l ls e} (h : Lines.line chunks s = (.line l, chunks', s'))
      (rest : Yields chunks' s' ls e) : Yields chunks s (l :: ls) e
  | error {chunks chunks' s s' p} (h : Lines.line chunks s = (.error p, chunks', s')) :
      Yields chunks s [] (some p)
  | done {chunks chunks' s s'} (h : Lines.line chunks s = (.none, chunks', s')) :
      Yields chunks s [] none

/-! ## The whole text -/

/-- The lines of a text, without an empty last one. -/
def linesOf (text : Text) : List Text :=
  let pieces := splitEol text
  if pieces.getLast? = some [] then pieces.dropLast else pieces

/-- A line is not too long. -/
def fits (l : Text) : Bool :=
  l.length ≤ maxLine

/-- The lines of an answer, up to one that is too long. -/
def wholeLines (bytes : Bytes) : List Text :=
  (linesOf (utf8Lossy bytes)).takeWhile fits

/-- The error of an answer with a line that is too long. -/
def wholeError (bytes : Bytes) : Option Problem :=
  if (linesOf (utf8Lossy bytes)).all fits then none else some longLine

/-- All lines are short enough but the last, which is too long by the replacement of a character
that the answer ends in. -/
def OneOver (bytes : Bytes) : Prop :=
  (decode [] bytes false).2 ≠ [] ∧ (splitEol (decode [] bytes false).1).dropLast.all fits ∧
    ((splitEol (decode [] bytes false).1).getLastD []).length = maxLine

/-! ## Pieces of bytes -/

variable {b₀ : UInt8} {rest : Bytes} {c : Char} {n : ℕ} {last : Bool}

/-- A character or an error is the same whatever follows. -/
theorem firstPiece_append (h : firstPiece b₀ rest ≠ .incomplete) (more : Bytes) :
    firstPiece b₀ (rest ++ more) = firstPiece b₀ rest := by
  unfold firstPiece at h ⊢
  by_cases h1 : b₀ < 128
  · rw [if_pos h1, if_pos h1]
  rw [if_neg h1] at h ⊢
  rw [if_neg h1]
  cases h2 : lead2 b₀ with
  | true =>
    rw [h2] at h
    rcases rest with _ | ⟨b₁, rest⟩
    · exact absurd rfl h
    · rfl
  | false =>
    rw [h2] at h
    cases h3 : lead3 b₀ with
    | true =>
      rw [h3] at h
      rcases rest with _ | ⟨b₁, _ | ⟨b₂, rest⟩⟩
      · exact absurd rfl h
      · cases hs : second3 b₀ b₁ with
        | true => simp [hs] at h
        | false => rcases more with _ | ⟨b₂, more⟩ <;> simp [hs]
      · rfl
    | false =>
      rw [h3] at h
      cases h4 : lead4 b₀ with
      | false => rfl
      | true =>
        rw [h4] at h
        rcases rest with _ | ⟨b₁, _ | ⟨b₂, _ | ⟨b₃, rest⟩⟩⟩
        · exact absurd rfl h
        · cases hs : second4 b₀ b₁ with
          | true => simp [hs] at h
          | false => rcases more with _ | ⟨b₂, _ | ⟨b₃, more⟩⟩ <;> simp [hs]
        · cases hs : second4 b₀ b₁ with
          | false => rcases more with _ | ⟨b₃, more⟩ <;> simp [hs]
          | true =>
            cases hc : isCont b₂ with
            | true => simp [hs, hc] at h
            | false => rcases more with _ | ⟨b₃, more⟩ <;> simp [hs, hc]
        · rfl

/-- What a first piece is, and how it is read when bytes are read at once. -/
theorem firstPiece_spec (b₀ : UInt8) (rest : Bytes) :
    (∃ c n, firstPiece b₀ rest = .char c n ∧ n - 1 ≤ rest.length ∧
      utf8Lossy (b₀ :: rest) = c :: utf8Lossy (rest.drop (n - 1))) ∨
    (∃ n, firstPiece b₀ rest = .invalid n ∧ n - 1 ≤ rest.length ∧
      utf8Lossy (b₀ :: rest) = replacement :: utf8Lossy (rest.drop (n - 1))) ∨
    (firstPiece b₀ rest = .incomplete ∧ utf8Lossy (b₀ :: rest) = [replacement]) := by
  unfold firstPiece
  by_cases h1 : b₀ < 128
  · rw [if_pos h1]
    exact .inl ⟨_, _, rfl, Nat.zero_le _, utf8Lossy_ascii h1⟩
  rw [if_neg h1]
  cases h2 : lead2 b₀ with
  | true =>
    rcases rest with _ | ⟨b₁, rest⟩
    · exact .inr (.inr ⟨rfl, utf8Lossy_two_cut h1 h2 rfl⟩)
    · cases hc : isCont b₁ with
      | true => exact .inl ⟨_, 2, by simp [hc], by simp, utf8Lossy_two h1 h2 hc⟩
      | false =>
        exact .inr (.inl ⟨1, by simp [hc], by simp, utf8Lossy_two_cut h1 h2 (by simp [hc])⟩)
  | false =>
    cases h3 : lead3 b₀ with
    | true =>
      rcases rest with _ | ⟨b₁, rest⟩
      · exact .inr (.inr ⟨rfl, utf8Lossy_three_cut h1 h2 h3 rfl⟩)
      cases hs : second3 b₀ b₁ with
      | false =>
        refine .inr (.inl ⟨1, ?_, by simp, utf8Lossy_three_cut h1 h2 h3 (by simp [hs])⟩)
        rcases rest with _ | ⟨b₂, rest⟩ <;> simp [hs]
      | true =>
        rcases rest with _ | ⟨b₂, rest⟩
        · exact .inr (.inr ⟨by simp [hs], utf8Lossy_three_cut₂ h1 h2 h3 hs rfl⟩)
        · cases hc : isCont b₂ with
          | true => exact .inl ⟨_, 3, by simp [hs, hc], by simp, utf8Lossy_three h1 h2 h3 hs hc⟩
          | false =>
            exact .inr (.inl ⟨2, by simp [hs, hc], by simp,
              utf8Lossy_three_cut₂ h1 h2 h3 hs (by simp [hc])⟩)
    | false =>
      cases h4 : lead4 b₀ with
      | false => exact .inr (.inl ⟨1, rfl, by simp, utf8Lossy_stray h1 h2 h3 h4⟩)
      | true =>
        rcases rest with _ | ⟨b₁, rest⟩
        · exact .inr (.inr ⟨rfl, utf8Lossy_four_cut h1 h2 h3 h4 rfl⟩)
        cases hs : second4 b₀ b₁ with
        | false =>
          refine .inr (.inl ⟨1, ?_, by simp, utf8Lossy_four_cut h1 h2 h3 h4 (by simp [hs])⟩)
          rcases rest with _ | ⟨b₂, _ | ⟨b₃, rest⟩⟩ <;> simp [hs]
        | true =>
          rcases rest with _ | ⟨b₂, rest⟩
          · exact .inr (.inr ⟨by simp [hs], utf8Lossy_four_cut₂ h1 h2 h3 h4 hs rfl⟩)
          cases hc : isCont b₂ with
          | false =>
            refine .inr (.inl ⟨2, ?_, by simp,
              utf8Lossy_four_cut₂ h1 h2 h3 h4 hs (by simp [hc])⟩)
            rcases rest with _ | ⟨b₃, rest⟩ <;> simp [hs, hc]
          | true =>
            rcases rest with _ | ⟨b₃, rest⟩
            · exact .inr (.inr ⟨by simp [hs, hc], utf8Lossy_four_cut₃ h1 h2 h3 h4 hs hc rfl⟩)
            cases hd : isCont b₃ with
            | true =>
              exact .inl ⟨_, 4, by simp [hs, hc, hd], by simp,
                utf8Lossy_four h1 h2 h3 h4 hs hc hd⟩
            | false =>
              exact .inr (.inl ⟨3, by simp [hs, hc, hd], by simp,
                utf8Lossy_four_cut₃ h1 h2 h3 h4 hs hc (by simp [hd])⟩)

/-! ## Decoding chunk by chunk -/

theorem decodeLoop_nil (fuel : ℕ) : decodeLoop last fuel [] = ([], []) := by
  cases fuel <;> rfl

theorem decodeLoop_succ : ∀ {fuel : ℕ} {bytes : Bytes}, bytes.length ≤ fuel →
    decodeLoop last (fuel + 1) bytes = decodeLoop last fuel bytes
  | 0, [], _ => rfl
  | fuel + 1, [], _ => rfl
  | fuel + 1, b₀ :: rest, h => by
    have hfuel : rest.length ≤ fuel := Nat.le_of_succ_le_succ h
    have ih (n : ℕ) : decodeLoop last (fuel + 1) (rest.drop n) =
        decodeLoop last fuel (rest.drop n) := by
      refine decodeLoop_succ ?_
      rw [List.length_drop]
      omega
    rw [decodeLoop, decodeLoop]
    cases firstPiece b₀ rest with
    | char c n => simp only [ih]
    | invalid n => simp only [ih]
    | incomplete => rfl

/-- Enough fuel is enough. -/
theorem decodeLoop_fuel {fuel : ℕ} {bytes : Bytes} (h : bytes.length ≤ fuel) :
    decodeLoop last fuel bytes = decode [] bytes last := by
  induction fuel, h using Nat.le_induction with
  | base => rfl
  | succ fuel h ih => rw [decodeLoop_succ h, ih]

theorem decode_nil : decode [] [] last = ([], []) := rfl

theorem decode_char (h : firstPiece b₀ rest = .char c n) : decode [] (b₀ :: rest) last =
    (c :: (decode [] (rest.drop (n - 1)) last).1, (decode [] (rest.drop (n - 1)) last).2) := by
  have hlen : (rest.drop (n - 1)).length ≤ rest.length := by
    rw [List.length_drop]
    omega
  rw [decode, List.nil_append, List.length_cons, decodeLoop, h]
  dsimp only
  rw [decodeLoop_fuel hlen]

theorem decode_invalid (h : firstPiece b₀ rest = .invalid n) : decode [] (b₀ :: rest) last =
    (replacement :: (decode [] (rest.drop (n - 1)) last).1,
      (decode [] (rest.drop (n - 1)) last).2) := by
  have hlen : (rest.drop (n - 1)).length ≤ rest.length := by
    rw [List.length_drop]
    omega
  rw [decode, List.nil_append, List.length_cons, decodeLoop, h]
  dsimp only
  rw [decodeLoop_fuel hlen]

theorem decode_incomplete (h : firstPiece b₀ rest = .incomplete) :
    decode [] (b₀ :: rest) last = if last then ([replacement], []) else ([], b₀ :: rest) := by
  rw [decode, List.nil_append, List.length_cons, decodeLoop, h]

/-- What is left of a chunk is decoded with the next one. -/
theorem decode_append (bytes more : Bytes) : decode [] (bytes ++ more) last =
    ((decode [] bytes false).1 ++ (decode (decode [] bytes false).2 more last).1,
      (decode (decode [] bytes false).2 more last).2) := by
  cases bytes with
  | nil => rfl
  | cons b₀ rest =>
    have hsplit : ∀ n, n - 1 ≤ rest.length →
        (rest ++ more).drop (n - 1) = rest.drop (n - 1) ++ more := fun n hn =>
      List.drop_append_of_le_length hn
    have ih (n : ℕ) := decode_append (rest.drop (n - 1)) more
    rcases firstPiece_spec b₀ rest with ⟨c, n, hp, hn, -⟩ | ⟨n, hp, hn, -⟩ | ⟨hp, -⟩
    · have hp' : firstPiece b₀ (rest ++ more) = .char c n := by
        rw [firstPiece_append (by simp [hp]), hp]
      rw [List.cons_append, decode_char hp', decode_char hp, hsplit n hn, ih]
      rfl
    · have hp' : firstPiece b₀ (rest ++ more) = .invalid n := by
        rw [firstPiece_append (by simp [hp]), hp]
      rw [List.cons_append, decode_invalid hp', decode_invalid hp, hsplit n hn, ih]
      rfl
    · rw [decode_incomplete hp]
      rfl
termination_by bytes.length
decreasing_by
  rw [List.length_cons, List.length_drop]
  omega

/-- What is left is nothing, or the start of a character. -/
theorem left_incomplete (bytes : Bytes) : (decode [] bytes false).2 = [] ∨
    ∃ b₀ rest, (decode [] bytes false).2 = b₀ :: rest ∧ firstPiece b₀ rest = .incomplete := by
  cases bytes with
  | nil => exact .inl rfl
  | cons b₀ rest =>
    have ih (n : ℕ) := left_incomplete (rest.drop (n - 1))
    rcases firstPiece_spec b₀ rest with ⟨c, n, hp, -⟩ | ⟨n, hp, -⟩ | ⟨hp, -⟩
    · rw [decode_char hp]
      exact ih n
    · rw [decode_invalid hp]
      exact ih n
    · rw [decode_incomplete hp]
      exact .inr ⟨b₀, rest, rfl, hp⟩
termination_by bytes.length
decreasing_by
  rw [List.length_cons, List.length_drop]
  omega

/-- The replacement of a character that a text ends in. -/
def leftover (left : Bytes) : Text :=
  if left = [] then [] else [replacement]

theorem decode_rest (bytes : Bytes) :
    decode (decode [] bytes false).2 [] true = (leftover (decode [] bytes false).2, []) := by
  rcases left_incomplete bytes with h | ⟨b₀, r, h, hp⟩
  · rw [h]
    rfl
  · have hlast : decode [] (b₀ :: r) true = ([replacement], []) := decode_incomplete hp
    rw [h, decode, List.append_nil]
    exact hlast

/-- Chunks that are decoded one after another, and what is left at the end, are the whole text. -/
theorem utf8Lossy_eq (bytes : Bytes) :
    utf8Lossy bytes = (decode [] bytes false).1 ++ leftover (decode [] bytes false).2 := by
  cases bytes with
  | nil => rfl
  | cons b₀ r =>
    have ih (n : ℕ) := utf8Lossy_eq (r.drop (n - 1))
    rcases firstPiece_spec b₀ r with ⟨c, n, hp, -, hread⟩ | ⟨n, hp, -, hread⟩ | ⟨hp, hread⟩
    · rw [hread, decode_char hp, ih]
      rfl
    · rw [hread, decode_invalid hp, ih]
      rfl
    · rw [hread, decode_incomplete hp]
      rfl
termination_by bytes.length
decreasing_by
  rw [List.length_cons, List.length_drop]
  omega

/-! ## Splitting -/

/-- Pieces, the last of which goes on in the first of others. -/
def glue : List Text → List Text → List Text
  | [], q => q
  | [p], [] => [p]
  | [p], q :: qs => (p ++ q) :: qs
  | p :: p' :: ps, q => p :: glue (p' :: ps) q

theorem glue_cons (p : Text) {ps : List Text} (h : ps ≠ []) (q : List Text) :
    glue (p :: ps) q = p :: glue ps q := by
  cases ps with
  | nil => exact absurd rfl h
  | cons p' ps => rfl

theorem glue_nil_left {q : List Text} (h : q ≠ []) : glue [[]] q = q := by
  cases q with
  | nil => exact absurd rfl h
  | cons q qs => rfl

theorem extend_glue (c : Char) {ps : List Text} (h : ps ≠ []) (q : List Text) :
    extend c (glue ps q) = glue (extend c ps) q := by
  rcases ps with _ | ⟨p, _ | ⟨p', ps⟩⟩
  · exact absurd rfl h
  · cases q <;> rfl
  · rfl

theorem glue_concat (init : List Text) (p q : Text) (qs : List Text) :
    glue (init ++ [p]) (q :: qs) = init ++ (p ++ q) :: qs := by
  induction init with
  | nil => rfl
  | cons a init ih => rw [List.cons_append, glue_cons a (by simp), ih, List.cons_append]

theorem splitEol_pair (s : Text) : splitEol ('\r' :: '\n' :: s) = [] :: splitEol s :=
  rfl

theorem splitEol_lf (s : Text) : splitEol ('\n' :: s) = [] :: splitEol s :=
  rfl

theorem splitEol_cons {c : Char} (hr : c ≠ '\r') (hn : c ≠ '\n') (s : Text) :
    splitEol (c :: s) = extend c (splitEol s) := by
  rw [splitEol]
  · exact fun t hc => absurd hc hr
  · exact hr
  · exact hn

theorem splitEol_cr {s : Text} (h : s.head? ≠ some '\n') :
    splitEol ('\r' :: s) = [] :: splitEol s := by
  cases s with
  | nil => rfl
  | cons c s =>
    rw [splitEol]
    rintro t ht
    obtain ⟨rfl, -⟩ := List.cons.inj ht
    simp at h

theorem splitEol_ne_nil : ∀ t : Text, splitEol t ≠ []
  | [] => List.cons_ne_nil _ _
  | c :: s => by
    by_cases hr : c = '\r'
    · rw [hr]
      by_cases hs : s.head? = some '\n'
      · obtain ⟨u, rfl⟩ := List.head?_eq_some_iff.1 hs
        exact List.cons_ne_nil _ _
      · rw [splitEol_cr hs]
        exact List.cons_ne_nil _ _
    by_cases hn : c = '\n'
    · rw [hn, splitEol_lf]
      exact List.cons_ne_nil _ _
    · rw [splitEol_cons hr hn]
      cases splitEol s <;> simp [extend]

/-- A text after one that does not end in the middle of a CRLF. -/
theorem splitEol_append (t u : Text) (h : t.getLast? = some '\r' → u.head? ≠ some '\n') :
    splitEol (t ++ u) = glue (splitEol t) (splitEol u) := by
  fun_induction splitEol t with
  | case1 => rw [List.nil_append, glue_nil_left (splitEol_ne_nil u)]
  | case2 s ih =>
    have hs : s.getLast? = some '\r' → u.head? ≠ some '\n' := fun hl => h (by
      cases s with
      | nil => simp at hl
      | cons c s => simpa using hl)
    rw [List.cons_append, List.cons_append, splitEol_pair, ih hs, glue_cons _ (splitEol_ne_nil s)]
  | case3 s hs ih =>
    cases s with
    | nil =>
      rw [List.cons_append, List.nil_append, splitEol_cr (h rfl)]
      exact congrArg _ (glue_nil_left (splitEol_ne_nil u)).symm
    | cons c s =>
      have hc : c ≠ '\n' := fun hc => hs s (by rw [hc])
      rw [List.cons_append, splitEol_cr (by simpa using hc), ih (by simpa using h),
        glue_cons _ (splitEol_ne_nil _)]
  | case4 s ih =>
    have hs : s.getLast? = some '\r' → u.head? ≠ some '\n' := fun hl => h (by
      cases s with
      | nil => simp at hl
      | cons c s => simpa using hl)
    rw [List.cons_append, splitEol_lf, ih hs, glue_cons _ (splitEol_ne_nil s)]
  | case5 c s h₁ h₂ h₃ ih =>
    have hs : s.getLast? = some '\r' → u.head? ≠ some '\n' := fun hl => h (by
      cases s with
      | nil => simp at hl
      | cons c s => simpa using hl)
    have hr : c ≠ '\r' := by simpa using h₂
    have hn : c ≠ '\n' := by simpa using h₃
    rw [List.cons_append, splitEol_cons hr hn, ih hs, extend_glue c (splitEol_ne_nil s)]

theorem splitEol_crlf (t u : Text) (h : t.getLast? = some '\r') :
    splitEol (t ++ '\n' :: u) = glue (splitEol t) (splitEol u) := by
  fun_induction splitEol t with
  | case1 => simp at h
  | case2 s ih =>
    have hs : s.getLast? = some '\r' := by
      cases s with
      | nil => simp at h
      | cons c s => simpa using h
    rw [List.cons_append, List.cons_append, splitEol_pair, ih hs, glue_cons _ (splitEol_ne_nil s)]
  | case3 s hs ih =>
    cases s with
    | nil => exact congrArg _ (glue_nil_left (splitEol_ne_nil u)).symm
    | cons c s =>
      have hc : c ≠ '\n' := fun hc => hs s (by rw [hc])
      rw [List.cons_append, splitEol_cr (by simpa using hc), ih (by simpa using h),
        glue_cons _ (splitEol_ne_nil _)]
  | case4 s ih =>
    have hs : s.getLast? = some '\r' := by
      cases s with
      | nil => simp at h
      | cons c s => simpa using h
    rw [List.cons_append, splitEol_lf, ih hs, glue_cons _ (splitEol_ne_nil s)]
  | case5 c s h₁ h₂ h₃ ih =>
    have hr : c ≠ '\r' := by simpa using h₂
    have hn : c ≠ '\n' := by simpa using h₃
    have hs : s.getLast? = some '\r' := by
      cases s with
      | nil => exact absurd (by simpa using h) hr
      | cons c s => simpa using h
    rw [List.cons_append, splitEol_cons hr hn, ih hs, extend_glue c (splitEol_ne_nil s)]

/-- The text that is split, where what came before may end in a CR. -/
def cutLf (afterCr : Bool) (text : Text) : Text :=
  if afterCr && text.head? == some '\n' then text.tail else text

/-- Splitting goes on where it was. -/
theorem splitEol_feed (t text : Text) : splitEol (t ++ text) =
    glue (splitEol t) (splitEol (cutLf (t.getLast? == some '\r') text)) := by
  rw [cutLf]
  split_ifs with h
  · rw [Bool.and_eq_true, beq_iff_eq, beq_iff_eq] at h
    cases text with
    | nil => simp at h
    | cons c u =>
      obtain rfl : c = '\n' := by simpa using h.2
      exact splitEol_crlf t u h.1
  · refine splitEol_append t text fun hl hh => h ?_
    simp [hl, hh]

/-- Whether the text ends in a CR. -/
theorem getLast_feed {t text : Text} (h : text ≠ []) :
    ((cutLf (t.getLast? == some '\r') text).getLast? == some '\r') =
      ((t ++ text).getLast? == some '\r') := by
  have hlast : (t ++ text).getLast? = text.getLast? := by
    rw [List.getLast?_append]
    cases hl : text.getLast? with
    | none => exact absurd (List.getLast?_eq_none_iff.1 hl) h
    | some c => rfl
  rw [hlast, cutLf]
  split_ifs with hc
  · rw [Bool.and_eq_true, beq_iff_eq, beq_iff_eq] at hc
    rcases text with _ | ⟨c, _ | ⟨d, u⟩⟩
    · exact absurd rfl h
    · obtain rfl : c = '\n' := by simpa using hc.2
      rfl
    · simp
  · rfl

theorem middle_eq : ∀ segs : List Text, middle segs = (segs.all fits, segs.takeWhile fits)
  | [] => rfl
  | seg :: segs => by
    rw [middle, middle_eq segs]
    by_cases h : maxLine < seg.length
    · have hf : fits seg = false := by simp [fits, h]
      rw [if_pos h, List.all_cons, hf, Bool.false_and, List.takeWhile_cons, hf]
      rfl
    · have hf : fits seg = true := by simp [fits, not_lt.1 h]
      rw [if_neg h, List.all_cons, hf, Bool.true_and, List.takeWhile_cons, hf]
      rfl

theorem takeWhile_append_of_not {p : Text → Bool} {l : List Text} (h : l.all p = false)
    (l' : List Text) : (l ++ l').takeWhile p = l.takeWhile p := by
  induction l with
  | nil => cases h
  | cons a l ih =>
    rw [List.cons_append, List.takeWhile_cons, List.takeWhile_cons]
    cases ha : p a with
    | false => rfl
    | true =>
      rw [List.all_cons, ha, Bool.true_and] at h
      rw [if_pos rfl, if_pos rfl, ih h]

/-! ## What has been fed -/

/-- So far `text` was fed, and no line of it is too long : its lines are ready, and what follows
the last of them is pending. -/
structure Fed (text : Text) (s : State) : Prop where
  failed : s.failed = none
  open_ : s.linesDone = false
  plen : s.plen = s.pending.length
  afterCr : s.afterCr = (text.getLast? == some '\r')
  split : splitEol text = s.ready ++ [s.pending]
  fits : (splitEol text).all fits

/-- A line of `text` is too long : those before it are ready. -/
structure Failed (text : Text) (s : State) : Prop where
  failed : s.failed = some longLine
  ready : s.ready = (splitEol text).takeWhile fits
  long : (splitEol text).all fits = false

theorem fed_new : Fed [] .new where
  failed := rfl
  open_ := rfl
  plen := rfl
  afterCr := rfl
  split := rfl
  fits := rfl

theorem addLast_spec {text : Text} {s : State} {last : Text} (init : List Text)
    (hsplit : splitEol text = init ++ [s.pending ++ last]) (hready : s.ready = init)
    (hplen : s.plen = s.pending.length) (hfits : init.all fits) (hf : s.failed = none)
    (ho : s.linesDone = false) (hcr : s.afterCr = (text.getLast? == some '\r')) :
    Fed text (s.addLast last) ∨ Failed text (s.addLast last) := by
  have hlen : s.plen + last.length = (s.pending ++ last).length := by
    rw [hplen, List.length_append]
  rw [State.addLast]
  dsimp only
  split_ifs with h
  · have hno : Lines.fits (s.pending ++ last) = false := by
      rw [hlen] at h
      simp [Lines.fits, - List.length_append, h]
    refine .inr ⟨rfl, ?_, ?_⟩
    · rw [hsplit, List.takeWhile_append_of_pos (List.all_eq_true.1 hfits), List.takeWhile_cons,
        hno, hready]
      simp
    · rw [hsplit, List.all_append, List.all_cons, hno, Bool.false_and, Bool.and_false]
  · have hyes : Lines.fits (s.pending ++ last) = true := by
      rw [hlen] at h
      simp only [Lines.fits, decide_eq_true_eq]
      omega
    refine .inl ⟨hf, ho, hlen, hcr, ?_, ?_⟩
    · rw [hsplit, hready]
    · rw [hsplit, List.all_append, hfits, List.all_cons, hyes]
      rfl

theorem feed_spec {t text : Text} {s : State} (h : Fed t s) :
    Fed (t ++ text) (s.feed text) ∨ Failed (t ++ text) (s.feed text) := by
  rw [State.feed]
  by_cases htext : text = []
  · rw [if_pos htext, htext, List.append_nil]
    exact .inl h
  rw [if_neg htext]
  have hglue := splitEol_feed t text
  have hcr := getLast_feed (t := t) htext
  rw [← h.afterCr] at hglue hcr
  rw [h.split] at hglue
  have hinit : s.ready.all fits := by
    have := h.fits
    rw [h.split, List.all_append, Bool.and_eq_true] at this
    exact this.1
  have hcut : (if s.afterCr && text.head? == some '\n' then text.tail else text) =
      cutLf s.afterCr text := rfl
  dsimp only
  rw [hcut]
  cases hseg : splitEol (cutLf s.afterCr text) with
  | nil => exact absurd hseg (splitEol_ne_nil _)
  | cons first segs =>
    rw [hseg, glue_concat] at hglue
    cases segs with
    | nil => exact addLast_spec _ hglue rfl h.plen hinit h.failed h.open_ hcr
    | cons seg segs =>
      dsimp only
      have hlen : s.plen + first.length = (s.pending ++ first).length := by
        rw [h.plen, List.length_append]
      by_cases hlong : maxLine < s.plen + first.length
      · -- the first line that ends here is too long
        have hno : Lines.fits (s.pending ++ first) = false := by
          rw [hlen] at hlong
          simp [Lines.fits, - List.length_append, hlong]
        rw [if_pos hlong]
        refine .inr ⟨rfl, ?_, ?_⟩
        · rw [hglue, List.takeWhile_append_of_pos (List.all_eq_true.1 hinit), List.takeWhile_cons,
            hno]
          simp
        · rw [hglue, List.all_append, List.all_cons, hno, Bool.false_and, Bool.and_false]
      · have hyes : Lines.fits (s.pending ++ first) = true := by
          rw [hlen] at hlong
          simp only [Lines.fits, decide_eq_true_eq]
          omega
        rw [if_neg hlong, middle_eq]
        dsimp only
        have hlast : (seg :: segs).dropLast ++ [(seg :: segs).getLastD []] = seg :: segs := by
          rw [List.getLastD_cons, ← List.getLast_eq_getLastD (by simp)]
          exact List.dropLast_append_getLast (by simp)
        have hready : (s.ready ++ [s.pending ++ first]).all fits := by
          rw [List.all_append, hinit, List.all_cons, hyes]
          rfl
        rw [← hlast, ← List.singleton_append, ← List.append_assoc, ← List.append_assoc] at hglue
        cases hmid : ((seg :: segs).dropLast).all fits with
        | false =>
          rw [if_neg (by simp)]
          refine .inr ⟨rfl, ?_, ?_⟩
          · rw [hglue, takeWhile_append_of_not (by rw [List.all_append, hmid, Bool.and_false]),
              List.takeWhile_append_of_pos (List.all_eq_true.1 hready)]
          · rw [hglue, List.all_append, List.all_append, hmid]
            simp
        | true =>
          rw [if_pos rfl]
          refine addLast_spec (s.ready ++ [s.pending ++ first] ++ (seg :: segs).dropLast) hglue
            ?_ rfl ?_ h.failed h.open_ hcr
          · rw [List.takeWhile_eq_self_iff.2 (List.all_eq_true.1 hmid)]
          · rw [List.all_append, hready, hmid]
            rfl

/-- A line that is too long stays so, and those before it stay. -/
theorem failed_append {t : Text} {s : State} (h : Failed t s) (text : Text) :
    Failed (t ++ text) s := by
  obtain ⟨hf, hready, hlong⟩ := h
  obtain ⟨init, last, hsplit⟩ : ∃ init last, splitEol t = init ++ [last] :=
    ⟨_, _, (List.dropLast_append_getLast (splitEol_ne_nil t)).symm⟩
  have hglue := splitEol_feed t text
  rw [hsplit] at hglue hready hlong
  obtain ⟨q, qs, hq⟩ := List.exists_cons_of_ne_nil
    (splitEol_ne_nil (cutLf (t.getLast? == some '\r') text))
  rw [hq, glue_concat] at hglue
  cases hinit : init.all fits with
  | false =>
    rw [takeWhile_append_of_not hinit] at hready
    refine ⟨hf, ?_, ?_⟩
    · rw [hglue, hready, takeWhile_append_of_not hinit]
    · rw [hglue, List.all_append, hinit, Bool.false_and]
  | true =>
    -- the pending line is too long already
    rw [List.all_append, hinit, Bool.true_and, List.all_cons, List.all_nil, Bool.and_true] at hlong
    have hmore : fits (last ++ q) = false := by
      simp only [fits, decide_eq_false_iff_not, not_le, List.length_append] at hlong ⊢
      omega
    have hpos := List.all_eq_true.1 hinit
    rw [List.takeWhile_append_of_pos hpos, List.takeWhile_cons, hlong] at hready
    refine ⟨hf, ?_, ?_⟩
    · rw [hglue, List.takeWhile_append_of_pos hpos, List.takeWhile_cons, hmore, hready]
      rfl
    · rw [hglue, List.all_append, List.all_cons, hmore, Bool.false_and, Bool.and_false]

/-! ## Chunks -/

theorem addLast_left (s : State) (last : Text) :
    (s.addLast last).left = s.left ∧ (s.addLast last).total = s.total := by
  rw [State.addLast]
  dsimp only
  split_ifs <;> exact ⟨rfl, rfl⟩

/-- Feeding leaves the bytes alone. -/
theorem feed_left (s : State) (text : Text) :
    (s.feed text).left = s.left ∧ (s.feed text).total = s.total := by
  rw [State.feed]
  dsimp only
  split_ifs with h
  · exact ⟨rfl, rfl⟩
  all_goals
    split
    · exact ⟨rfl, rfl⟩
    · exact addLast_left _ _
    · split_ifs
      · exact ⟨rfl, rfl⟩
      · exact addLast_left _ _
      · exact ⟨rfl, rfl⟩

/-- The bytes that came are decoded, and what is left of them is kept. -/
structure Came (bytes : Bytes) (s : State) : Prop where
  left : s.left = (decode [] bytes false).2
  total : s.total = bytes.length

theorem chunk_spec {bytes chunk : Bytes} {s : State} (hc : Came bytes s)
    (h : Fed (decode [] bytes false).1 s) (hmax : (bytes ++ chunk).length ≤ maxStream) :
    Came (bytes ++ chunk) (s.chunk chunk) ∧
      (Fed (decode [] (bytes ++ chunk) false).1 (s.chunk chunk) ∨
        Failed (decode [] (bytes ++ chunk) false).1 (s.chunk chunk)) := by
  have htotal : s.total + chunk.length = (bytes ++ chunk).length := by
    rw [hc.total, List.length_append]
  have happ : decode [] (bytes ++ chunk) false = _ := decode_append bytes chunk
  rw [← hc.left] at happ
  rw [State.chunk]
  dsimp only
  rw [if_neg (by rw [htotal]; omega), happ]
  refine ⟨⟨?_, ?_⟩, feed_spec ⟨h.failed, h.open_, h.plen, h.afterCr, h.split, h.fits⟩⟩
  · rw [(feed_left _ _).1, happ]
  · rw [(feed_left _ _).2, htotal]

/-! ## Call by call -/

/-- A state before which some lines were ready. -/
def State.after (s : State) (lines : List Text) : State :=
  { s with ready := lines ++ s.ready }

theorem addLast_after (s : State) (lines : List Text) (last : Text) :
    (s.after lines).addLast last = (s.addLast last).after lines := by
  rw [State.addLast, State.addLast]
  by_cases h : maxLine < s.plen + last.length
  · rw [if_pos h]
    exact if_pos h
  · rw [if_neg h]
    exact if_neg h

/-- The lines that are ready change nothing. -/
theorem feed_after (s : State) (lines : List Text) (text : Text) :
    (s.after lines).feed text = (s.feed text).after lines := by
  rw [State.feed, State.feed]
  by_cases htext : text = []
  · rw [if_pos htext, if_pos htext]
  rw [if_neg htext, if_neg htext]
  have hcut : (if (s.after lines).afterCr && text.head? == some '\n' then text.tail else text) =
      cutLf s.afterCr text := rfl
  have hcut' : (if s.afterCr && text.head? == some '\n' then text.tail else text) =
      cutLf s.afterCr text := rfl
  dsimp only
  rw [hcut, hcut']
  rcases splitEol (cutLf s.afterCr text) with _ | ⟨first, _ | ⟨seg, segs⟩⟩
  · rfl
  · exact addLast_after { s with afterCr := _ } lines first
  · dsimp only
    by_cases hlong : maxLine < s.plen + first.length
    · rw [if_pos hlong]
      exact if_pos hlong
    · rw [if_neg hlong, if_neg (show ¬maxLine < (s.after lines).plen + first.length from hlong)]
      have hready (l : List Text) : (s.after lines).ready ++ [(s.after lines).pending ++ first] ++ l =
          lines ++ (s.ready ++ [s.pending ++ first] ++ l) := by
        simp [State.after]
      rw [hready]
      by_cases hmid : (middle (seg :: segs).dropLast).1
      · rw [if_pos hmid, if_pos hmid]
        exact addLast_after { s with
          afterCr := _, pending := [], plen := 0,
          ready := s.ready ++ [s.pending ++ first] ++ (middle (seg :: segs).dropLast).2 } lines _
      · rw [if_neg hmid, if_neg hmid]
        rfl

theorem chunk_after (s : State) (lines : List Text) (chunk : Bytes) :
    (s.after lines).chunk chunk = (s.chunk chunk).after lines := by
  rw [State.chunk, State.chunk]
  by_cases h : maxStream < s.total + chunk.length
  · dsimp only
    rw [if_pos h]
    exact if_pos h
  · dsimp only
    rw [if_neg h, if_neg (show ¬maxStream < (s.after lines).total + chunk.length from h)]
    exact feed_after { s with total := _, left := _ } lines _

variable {chunks : List Bytes} {s : State} {ls ls' : List Text} {e e' : Option Problem}

theorem line_early {r : Line × State} (h : s.early = some r) : line chunks s = (r.1, chunks, r.2) := by
  cases chunks with
  | nil => rw [line, h]
  | cons chunk chunks => rw [line, h]

/-- Lines that are ready are yielded first. -/
theorem yields_ready (h : Yields chunks { s with ready := [] } ls e) :
    ∀ ready : List Text, Yields chunks { s with ready := ready } (ready ++ ls) e
  | [] => h
  | l :: ready => by
    have hearly : State.early { s with ready := l :: ready } =
        some (.line l, { s with ready := ready }) := rfl
    exact Yields.line (line_early hearly) (yields_ready h ready)

theorem yields_chunk {chunk : Bytes} (h : s.early = none)
    (hy : Yields chunks (s.chunk chunk) ls e) : Yields (chunk :: chunks) s ls e := by
  have hline : line (chunk :: chunks) s = line chunks (s.chunk chunk) := by
    rw [line, h]
  cases hy with
  | line hl rest => exact .line (hline.trans hl) rest
  | error hl => exact .error (hline.trans hl)
  | done hl => exact .done (hline.trans hl)

theorem yields_unique (h : Yields chunks s ls e) (h' : Yields chunks s ls' e') :
    ls = ls' ∧ e = e' := by
  induction h generalizing ls' e' with
  | line hl rest ih =>
    cases h' with
    | line hl' rest' =>
      rw [hl] at hl'
      obtain ⟨hline, hrest⟩ := Prod.mk.inj hl'
      obtain ⟨rfl, rfl⟩ := Prod.mk.inj hrest
      obtain ⟨rfl, rfl⟩ := ih rest'
      exact ⟨congrArg (· :: _) (Line.line.inj hline), rfl⟩
    | error hl' =>
      rw [hl] at hl'
      cases (Prod.mk.inj hl').1
    | done hl' =>
      rw [hl] at hl'
      cases (Prod.mk.inj hl').1
  | error hl =>
    cases h' with
    | line hl' rest' =>
      rw [hl] at hl'
      cases (Prod.mk.inj hl').1
    | error hl' =>
      rw [hl] at hl'
      exact ⟨rfl, congrArg some (Line.error.inj (Prod.mk.inj hl').1)⟩
    | done hl' =>
      rw [hl] at hl'
      cases (Prod.mk.inj hl').1
  | done hl =>
    cases h' with
    | line hl' rest' =>
      rw [hl] at hl'
      cases (Prod.mk.inj hl').1
    | error hl' =>
      rw [hl] at hl'
      cases (Prod.mk.inj hl').1
    | done hl' => exact ⟨rfl, rfl⟩

/-- A text as one line, if it is not empty. -/
def asLine (text : Text) : List Text :=
  if text = [] then [] else [text]

/-- What the calls of `line` yield of an answer : its lines as they were checked, before the end
was decoded. -/
def yielded (bytes : Bytes) : List Text × Option Problem :=
  let d := decode [] bytes false
  let pieces := splitEol d.1
  if pieces.all fits then
    (pieces.dropLast ++ asLine (pieces.getLastD [] ++ leftover d.2), none)
  else (pieces.takeWhile fits, some longLine)

theorem yielded_failed {bytes : Bytes} (h : Failed (decode [] bytes false).1 s) (more : Bytes) :
    yielded (bytes ++ more) = (s.ready, some longLine) := by
  have happ : decode [] (bytes ++ more) false = _ := decode_append bytes more
  obtain ⟨-, hready, hlong⟩ := failed_append h (decode (decode [] bytes false).2 more false).1
  rw [yielded, happ]
  dsimp only
  rw [if_neg (by simp [hlong]), hready]

/-- At the end of the answer. -/
theorem yields_flush {bytes : Bytes} {lines : List Text} (hc : Came bytes s)
    (h : Fed (decode [] bytes false).1 (s.after lines)) (hready : s.ready = []) :
    yielded bytes = (lines ++ asLine (s.pending ++ leftover s.left), none) ∧
      Yields [] s (asLine (s.pending ++ leftover s.left)) none := by
  have hsplit : splitEol (decode [] bytes false).1 = lines ++ [s.pending] := by
    rw [h.split]
    simp [State.after, hready]
  have hrest := decode_rest bytes
  rw [← hc.left] at hrest
  have hearly : s.early = none := by
    have hf : s.failed = none := h.failed
    have ho : s.linesDone = false := h.open_
    rw [State.early, hready, hf]
    simp [ho]
  constructor
  · rw [yielded]
    rw [if_pos h.fits, hsplit, List.dropLast_concat, List.getLastD_concat, hc.left]
  · have hline : line [] s = (s.flush.1, [], s.flush.2) := by rw [line, hearly]
    have hflush : s.flush = (if s.pending ++ leftover s.left = [] then .none
        else .line (s.pending ++ leftover s.left),
        { s with linesDone := true, pending := [], left := [] }) := by
      rw [State.flush, hrest]
    rw [hflush] at hline
    by_cases htail : s.pending ++ leftover s.left = []
    · rw [if_pos htail] at hline
      rw [asLine, if_pos htail]
      exact .done hline
    · rw [if_neg htail] at hline
      rw [asLine, if_neg htail]
      have hdone : State.early { s with linesDone := true, pending := [], left := [] } =
          some (.none, { s with linesDone := true, pending := [], left := [] }) := by
        rw [State.early, hready, show s.failed = none from h.failed]
        rfl
      exact .line hline (.done (line_early hdone))

theorem early_none (hready : s.ready = []) (hf : s.failed = none) (ho : s.linesDone = false) :
    s.early = none := by
  rw [State.early, hready, hf]
  simp [ho]

/-- After a line that is too long, what is ready is yielded, and the error. -/
theorem yields_failed {p : Problem} (h : s.failed = some p) : Yields chunks s s.ready (some p) := by
  have hearly : State.early { s with ready := [] } =
      some (.error p, { s with ready := [], failed := none, linesDone := true }) := by
    rw [State.early, h]
  have hy : Yields chunks { s with ready := [] } [] (some p) := .error (line_early hearly)
  have hall := yields_ready hy s.ready
  rwa [List.append_nil] at hall

/-- What is yielded from any chunk on. -/
theorem yields_from : ∀ (chunks : List Bytes) {bytes : Bytes} {s : State} {lines : List Text},
    Came bytes s → Fed (decode [] bytes false).1 (s.after lines) →
    (bytes ++ chunks.flatten).length ≤ maxStream →
    ∃ ls e, yielded (bytes ++ chunks.flatten) = (lines ++ ls, e) ∧ Yields chunks s ls e
  | [], bytes, s, lines, hc, h, hmax => by
    have h' : Fed (decode [] bytes false).1 (State.after { s with ready := [] } (lines ++ s.ready)) := by
      refine ⟨h.failed, h.open_, h.plen, h.afterCr, ?_, h.fits⟩
      rw [h.split]
      simp [State.after]
    obtain ⟨heq, hy⟩ := yields_flush (s := { s with ready := [] }) ⟨hc.left, hc.total⟩ h' rfl
    refine ⟨_, none, ?_, yields_ready hy s.ready⟩
    rw [List.flatten_nil, List.append_nil, heq, List.append_assoc]
  | chunk :: chunks, bytes, s, lines, hc, h, hmax => by
    rw [List.flatten_cons, ← List.append_assoc] at hmax ⊢
    have hlen : (bytes ++ chunk).length ≤ maxStream := by
      rw [List.length_append] at hmax
      omega
    -- the lines that are ready are yielded before the chunk is read
    let s₀ : State := { s with ready := [] }
    have hafter : s.after lines = s₀.after (lines ++ s.ready) := by
      simp [State.after, s₀]
    have hearly : s₀.early = none := early_none rfl h.failed h.open_
    rw [hafter] at h
    have hcame : Came bytes (s₀.after (lines ++ s.ready)) := ⟨hc.left, hc.total⟩
    obtain ⟨hcame', hnext⟩ := chunk_spec hcame h hlen
    rw [chunk_after] at hcame' hnext
    rcases hnext with hfed | hfailed
    · obtain ⟨ls, e, heq, hy⟩ := yields_from chunks (s := s₀.chunk chunk)
        ⟨hcame'.left, hcame'.total⟩ hfed hmax
      refine ⟨s.ready ++ ls, e, ?_, yields_ready (yields_chunk hearly hy) s.ready⟩
      rw [heq, List.append_assoc]
    · have hy : Yields chunks (s₀.chunk chunk) (s₀.chunk chunk).ready (some longLine) :=
        yields_failed hfailed.failed
      refine ⟨_, _, ?_, yields_ready (yields_chunk hearly hy) s.ready⟩
      rw [yielded_failed hfailed]
      simp [State.after]

/-- What is yielded of an answer, however it is cut. -/
theorem yields_yielded {chunks : List Bytes} (h : chunks.flatten.length ≤ maxStream) :
    Yields chunks .new (yielded chunks.flatten).1 (yielded chunks.flatten).2 := by
  have hcame : Came [] .new := ⟨rfl, rfl⟩
  have hfed : Fed (decode [] [] false).1 (State.after .new []) := fed_new
  obtain ⟨ls, e, heq, hy⟩ := yields_from chunks hcame hfed h
  rw [List.nil_append, List.nil_append] at heq
  rwa [heq]

/-! ## The whole answer -/

/-- The pieces of the whole text : the last goes on with the replacement. -/
theorem splitEol_whole {bytes : Bytes} {init : List Text} {last : Text}
    (h : splitEol (decode [] bytes false).1 = init ++ [last]) :
    splitEol (utf8Lossy bytes) = init ++ [last ++ leftover (decode [] bytes false).2] := by
  have hone : splitEol (leftover (decode [] bytes false).2) =
      [leftover (decode [] bytes false).2] ∧
        (leftover (decode [] bytes false).2).head? ≠ some '\n' := by
    rw [leftover]
    split_ifs
    · exact ⟨rfl, by simp⟩
    · exact ⟨splitEol_cons (by decide) (by decide) [], by decide⟩
  rw [utf8Lossy_eq, splitEol_append _ _ fun _ => hone.2, h, hone.1, glue_concat]

theorem linesOf_concat {t : Text} {init : List Text} {last : Text}
    (h : splitEol t = init ++ [last]) : linesOf t = init ++ asLine last := by
  rw [linesOf, h, List.getLast?_concat, List.dropLast_concat, asLine]
  by_cases hl : last = []
  · rw [if_pos (by rw [hl]), if_pos hl, List.append_nil]
  · rw [if_neg (by simpa using hl), if_neg hl]

theorem all_asLine (l : Text) : (asLine l).all fits = fits l := by
  rw [asLine]
  split_ifs with h
  · rw [h]
    rfl
  · rw [List.all_cons, List.all_nil, Bool.and_true]

theorem takeWhile_asLine (l : Text) :
    (asLine l).takeWhile fits = if fits l then asLine l else [] := by
  rw [asLine]
  split_ifs with h hf hf
  · rfl
  · rfl
  · rw [List.takeWhile_cons, hf]
    rfl
  · rw [List.takeWhile_cons, if_neg hf]

/-- What is yielded is what the whole text says, except for a last line that is one too long. -/
theorem yielded_iff (bytes : Bytes) :
    yielded bytes = (wholeLines bytes, wholeError bytes) ↔ ¬OneOver bytes := by
  obtain ⟨init, last, hsplit⟩ : ∃ init last,
      splitEol (decode [] bytes false).1 = init ++ [last] :=
    ⟨_, _, (List.dropLast_append_getLast (splitEol_ne_nil _)).symm⟩
  have hwhole := linesOf_concat (splitEol_whole hsplit)
  obtain ⟨lo, hlo⟩ : ∃ lo, lo = leftover (decode [] bytes false).2 := ⟨_, rfl⟩
  have hlength : lo.length = if (decode [] bytes false).2 = [] then 0 else 1 := by
    rw [hlo, leftover]
    split_ifs <;> rfl
  rw [yielded, wholeLines, wholeError, OneOver, hwhole, hsplit, List.dropLast_concat,
    List.getLastD_concat, List.all_append, List.all_append, List.all_cons, List.all_nil,
    Bool.and_true, ← hlo, all_asLine]
  cases hinit : init.all fits with
  | false =>
    rw [takeWhile_append_of_not hinit, takeWhile_append_of_not hinit]
    simp
  | true =>
    have hpos := List.all_eq_true.1 hinit
    rw [List.takeWhile_append_of_pos hpos, List.takeWhile_append_of_pos hpos, takeWhile_asLine,
      Bool.true_and, Bool.true_and]
    have hmore : (last ++ lo).length = last.length + lo.length := List.length_append
    cases hlast : fits last with
    | false =>
      have hno : fits (last ++ lo) = false := by
        simp only [fits, decide_eq_false_iff_not, not_le] at hlast ⊢
        omega
      have hne : last.length ≠ maxLine := by
        simp only [fits, decide_eq_false_iff_not, not_le] at hlast
        omega
      simp [hno, hlast, hne]
    | true =>
      have hle : last.length ≤ maxLine := of_decide_eq_true hlast
      cases hboth : fits (last ++ lo) with
      | true =>
        have hle' : (last ++ lo).length ≤ maxLine := of_decide_eq_true hboth
        refine iff_of_true (by simp) ?_
        rintro ⟨hleft, -, heq⟩
        rw [if_neg hleft] at hlength
        omega
      | false =>
        have hlt : ¬(last ++ lo).length ≤ maxLine := of_decide_eq_false hboth
        refine iff_of_false (by simp) (not_not.2 ⟨fun hleft => ?_, rfl, ?_⟩)
        · rw [if_pos hleft] at hlength
          omega
        · split_ifs at hlength
          · omega
          · omega

/-- What is yielded, however the answer is cut. -/
theorem yields_eq {chunks : List Bytes} (h : chunks.flatten.length ≤ maxStream)
    (ls : List Text) (e : Option Problem) :
    Yields chunks .new ls e ↔ yielded chunks.flatten = (ls, e) := by
  have hy := yields_yielded h
  constructor
  · intro hwhole
    obtain ⟨hl, he⟩ := yields_unique hy hwhole
    exact Prod.ext hl he
  · intro heq
    rwa [heq] at hy

/-- However an answer is cut into chunks, the lines are those of its whole text just when the
replacement of a character that it ends in does not make the last line one too long. -/
theorem yields_iff {chunks : List Bytes} (h : chunks.flatten.length ≤ maxStream) :
    Yields chunks .new (wholeLines chunks.flatten) (wholeError chunks.flatten) ↔
      ¬OneOver chunks.flatten := by
  rw [yields_eq h, yielded_iff]

/-- A line end and a character that chunks cut. -/
theorem cut_yields :
    Yields [[97, 13], [10, 0xC3], [0xA9]] .new (wholeLines [97, 13, 10, 0xC3, 0xA9])
      (wholeError [97, 13, 10, 0xC3, 0xA9]) := by
  have hmax : ([[97, 13], [10, 0xC3], [0xA9]] : List Bytes).flatten.length ≤ maxStream := by
    decide
  exact (yields_iff hmax).2 fun h => h.1 rfl

/-- A line of all the characters that one may have, and the start of one more. -/
def brimful : Bytes := List.replicate maxLine 97 ++ [0xC3]

theorem decode_brimful (n : ℕ) :
    decode [] (List.replicate n 97 ++ [0xC3]) false = (List.replicate n 'a', [0xC3]) := by
  induction n with
  | zero => rfl
  | succ n ih =>
    have hp : firstPiece 97 (List.replicate n 97 ++ [0xC3]) = .char 'a' 1 := rfl
    rw [List.replicate_succ, List.cons_append, decode_char hp, List.drop_zero, ih]
    rfl

theorem splitEol_brimful (n : ℕ) : splitEol (List.replicate n 'a') = [List.replicate n 'a'] := by
  induction n with
  | zero => rfl
  | succ n ih =>
    rw [List.replicate_succ, splitEol_cons (by decide) (by decide), ih]
    rfl

/-- The line is yielded with the replacement, though it is then too long. -/
theorem brimful_yields :
    ¬Yields [brimful] .new (wholeLines brimful) (wholeError brimful) := by
  have hflat : [brimful].flatten = brimful := by simp
  have hlen : [brimful].flatten.length ≤ maxStream := by
    rw [hflat, brimful, List.length_append, List.length_replicate]
    decide
  have hover : OneOver brimful := by
    rw [OneOver, brimful, decode_brimful, splitEol_brimful]
    exact ⟨by decide, rfl, List.length_replicate⟩
  rw [yields_eq hlen, hflat, yielded_iff]
  exact fun h => h hover

end Lines

end EngineConsole
