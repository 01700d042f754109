import Mathlib

/-!
# Requests of HTTP/1.1

A request as a recipient reads it from its bytes : the request line, the fields up to an empty
line, and as much content as `Content-Length` says. A name of a field is a token, compared
without case; its value is what is left of the line without the white space around it. Which
targets and which bytes of a value there are is a parameter : those of the grammar
(`Grammar.strict`), or whatever cannot end a line or a text (`Grammar.tolerant`), which
recipients may take.

What is written as a request is read back (`parseRequest_written`).
-/

set_option linter.unusedSectionVars false

namespace EngineConsole

namespace Http

abbrev Bytes := List UInt8

/-- A field : its name and its value. -/
abbrev Field := Bytes × Bytes

/-! ## Characters -/

/-- `tchar`. -/
def tchar (b : UInt8) : Bool :=
  (48 ≤ b && b ≤ 57) || (65 ≤ b && b ≤ 90) || (97 ≤ b && b ≤ 122) ||
    [33, 35, 36, 37, 38, 39, 42, 43, 45, 46, 94, 95, 96, 124, 126].contains b

/-- `VCHAR`. -/
def visible (b : UInt8) : Bool :=
  33 ≤ b && b ≤ 126

/-- White space around the value of a field. -/
def ows (b : UInt8) : Bool :=
  b == 32 || b == 9

def hexDigit (b : UInt8) : Bool :=
  (48 ≤ b && b ≤ 57) || (65 ≤ b && b ≤ 70) || (97 ≤ b && b ≤ 102)

/-- The characters of a path or a query other than letters, digits and `%`. -/
def uriSigns : Bytes :=
  [45, 46, 95, 126, 33, 36, 38, 39, 40, 41, 42, 43, 44, 59, 61, 58, 64, 47, 63]

/-- A character of a path or a query other than `%`. -/
def uriByte (b : UInt8) : Bool :=
  (48 ≤ b && b ≤ 57) || (65 ≤ b && b ≤ 90) || (97 ≤ b && b ≤ 122) || uriSigns.contains b

/-- Characters of a path and a query, with whole escapes. -/
def uriText : Bytes → Bool
  | [] => true
  | [b] => uriByte b
  | [b, c] => uriByte b && uriByte c
  | b :: c :: d :: s =>
    if b = 37 then hexDigit c && hexDigit d && uriText s else uriByte b && uriText (c :: d :: s)

/-- `origin-form` -/
def originForm (target : Bytes) : Bool :=
  target.head? == some 47 && uriText target

/-- The targets, and the bytes of a value. -/
structure Grammar where
  target : Bytes → Bool
  value : UInt8 → Bool

/-- The targets in origin form, and values of visible characters, white space and other than
ASCII. -/
def Grammar.strict : Grammar :=
  ⟨originForm, fun b => visible b || ows b || 128 ≤ b⟩

/-- Any visible target, and any value without a CR, an LF or a NUL. -/
def Grammar.tolerant : Grammar :=
  ⟨fun t => t != [] && t.all visible, fun b => b != 13 && b != 10 && b != 0⟩

def lowerByte (b : UInt8) : UInt8 :=
  if 65 ≤ b && b ≤ 90 then b + 32 else b

/-- A name without case. -/
def lowerName (name : Bytes) : Bytes :=
  name.map lowerByte

def trimOws (s : Bytes) : Bytes :=
  (s.dropWhile ows).rdropWhile ows

/-! ## Reading -/

variable (g : Grammar)

/-- The first line, which CR LF ends, and what follows. -/
def cutLine : Bytes → Option (Bytes × Bytes)
  | [] => none
  | [_] => none
  | b :: c :: s =>
    if b = 13 ∧ c = 10 then some ([], s) else (cutLine (c :: s)).map fun r => (b :: r.1, r.2)

/-- What is before the first `sep`, and what follows it. -/
def cutAt (sep : UInt8) : Bytes → Option (Bytes × Bytes)
  | [] => none
  | b :: s => if b = sep then some ([], s) else (cutAt sep s).map fun r => (b :: r.1, r.2)

/-- `field-line`. -/
def parseField (line : Bytes) : Option Field :=
  match cutAt 58 line with
  | none => none
  | some (name, value) =>
    if name ≠ [] ∧ name.all tchar ∧ value.all g.value then some (name, trimOws value) else none

/-- The fields up to the empty line, of at most `fuel` lines. -/
def parseFields : ℕ → Bytes → Option (List Field × Bytes)
  | 0, _ => none
  | fuel + 1, s =>
    match cutLine s with
    | none => none
    | some (line, rest) =>
      if line = [] then some ([], rest)
      else
        match parseField g line with
        | none => none
        | some f => (parseFields fuel rest).map fun r => (f :: r.1, r.2)

/-- `HTTP/1.1`. -/
def version : Bytes :=
  [72, 84, 84, 80, 47, 49, 46, 49]

/-- `request-line` : the method and the target. -/
def parseRequestLine (line : Bytes) : Option (Bytes × Bytes) :=
  match cutAt 32 line with
  | none => none
  | some (method, s) =>
    match cutAt 32 s with
    | none => none
    | some (target, v) =>
      if method ≠ [] ∧ method.all tchar ∧ g.target target ∧ v = version then
        some (method, target)
      else none

/-- The values of the fields of a name. -/
def valuesOf (name : Bytes) (fields : List Field) : List Bytes :=
  (fields.filter fun f => lowerName f.1 = name).map Prod.snd

/-- `content-length`. -/
def contentLength : Bytes :=
  [99, 111, 110, 116, 101, 110, 116, 45, 108, 101, 110, 103, 116, 104]

/-- `transfer-encoding`. -/
def transferEncoding : Bytes :=
  [116, 114, 97, 110, 115, 102, 101, 114, 45, 101, 110, 99, 111, 100, 105, 110, 103]

/-- A number in decimal digits. -/
def parseDec (s : Bytes) : Option ℕ :=
  if s ≠ [] ∧ s.all (fun b => 48 ≤ b && b ≤ 57) then
    some (s.foldl (fun n b => 10 * n + (b.toNat - 48)) 0)
  else none

/-- The length of the content. A transfer coding is not read here. -/
def framing (fields : List Field) : Option ℕ :=
  if valuesOf transferEncoding fields ≠ [] then none
  else
    match valuesOf contentLength fields with
    | [] => some 0
    | [v] => parseDec v
    | _ => none

/-- A request. -/
structure Request where
  method : Bytes
  target : Bytes
  fields : List Field
  body : Bytes
deriving DecidableEq

/-- The first request of a text, and what follows it. -/
def parseRequest (s : Bytes) : Option (Request × Bytes) :=
  (cutLine s).bind fun l =>
    (parseRequestLine g l.1).bind fun m =>
      (parseFields g (l.2.length + 1) l.2).bind fun h =>
        (framing h.1).bind fun n =>
          if h.2.length < n then none
          else some (⟨m.1, m.2, h.1, h.2.take n⟩, h.2.drop n)

/-! ## Writing -/

def crlf : Bytes :=
  [13, 10]

def writeField (f : Field) : Bytes :=
  f.1 ++ [58, 32] ++ f.2 ++ crlf

/-- The request line and the fields. -/
def writeHead (method target : Bytes) (fields : List Field) : Bytes :=
  method ++ [32] ++ target ++ [32] ++ version ++ crlf ++ fields.flatMap writeField ++ crlf

/-- A grammar whose targets and values can be written : no space ends a target early, and no
line break a line. -/
structure Grammar.Ok : Prop where
  target : ∀ t, g.target t → 32 ∉ t ∧ 13 ∉ t
  space : g.value 32
  cr : g.value 13 = false

/-- A field that can be written. -/
structure Field.Ok (f : Field) : Prop where
  ne_nil : f.1 ≠ []
  name : ∀ b ∈ f.1, tchar b
  value : ∀ b ∈ f.2, g.value b

/-! ## What is written is read -/

variable {g}

theorem cutLine_line : ∀ {l : Bytes}, 13 ∉ l → ∀ s, cutLine (l ++ 13 :: 10 :: s) = some (l, s)
  | [], _, s => rfl
  | [b], h, s => by
    have hb : b ≠ 13 := fun hb => h (by simp [hb])
    simp [cutLine, hb]
  | b :: c :: l, h, s => by
    have hb : b ≠ 13 := fun hb => h (by simp [hb])
    have ih := cutLine_line (fun hc => h (List.mem_cons_of_mem b hc)) s
    rw [List.cons_append, List.cons_append, cutLine, if_neg fun hc => hb hc.1,
      ← List.cons_append, ih]
    rfl

theorem cutAt_first {sep : UInt8} : ∀ {l : Bytes}, sep ∉ l → ∀ s,
    cutAt sep (l ++ sep :: s) = some (l, s)
  | [], _, s => by simp [cutAt]
  | b :: l, h, s => by
    have hb : b ≠ sep := fun hb => h (by simp [hb])
    rw [List.cons_append, cutAt, if_neg hb,
      cutAt_first (fun hc => h (List.mem_cons_of_mem b hc)) s]
    rfl

theorem trimOws_space (s : Bytes) : trimOws (32 :: s) = trimOws s := by
  rw [trimOws, List.dropWhile_cons_of_pos (by decide), ← trimOws]

theorem not_mem_of_all {p : UInt8 → Bool} {s : Bytes} (h : ∀ b ∈ s, p b) {c : UInt8}
    (hc : p c = false) : c ∉ s := fun hmem => by
  have := h c hmem
  simp [hc] at this

theorem parseField_written (hg : g.Ok) {f : Field} (h : f.Ok g) :
    parseField g (f.1 ++ 58 :: 32 :: f.2) = some (f.1, trimOws f.2) := by
  have hcolon : 58 ∉ f.1 := not_mem_of_all h.name (by decide)
  have hvalue : (32 :: f.2).all g.value := by
    rw [List.all_cons, List.all_eq_true.2 h.value, hg.space]
    rfl
  rw [parseField, cutAt_first hcolon]
  dsimp only
  rw [if_pos ⟨h.ne_nil, List.all_eq_true.2 h.name, hvalue⟩, trimOws_space]

theorem parseFields_written (hg : g.Ok) : ∀ {fields : List Field} {fuel : ℕ} (rest : Bytes),
    (∀ f ∈ fields, Field.Ok g f) → fields.length < fuel →
    parseFields g fuel (fields.flatMap writeField ++ crlf ++ rest) =
      some (fields.map fun f => (f.1, trimOws f.2), rest)
  | _, 0, _, _, h => absurd h (Nat.not_lt_zero _)
  | [], fuel + 1, rest, _, _ => rfl
  | f :: fields, fuel + 1, rest, hok, hlen => by
    have hf := hok f List.mem_cons_self
    have ih := parseFields_written hg rest (fun g hg => hok g (List.mem_cons_of_mem f hg))
      (Nat.lt_of_succ_lt_succ hlen)
    have hline : 13 ∉ f.1 ++ 58 :: 32 :: f.2 := by
      rw [List.mem_append, not_or]
      refine ⟨not_mem_of_all hf.name (by decide), ?_⟩
      simp only [List.mem_cons, not_or]
      exact ⟨by decide, by decide, not_mem_of_all hf.value hg.cr⟩
    have htext : (f :: fields).flatMap writeField ++ crlf ++ rest =
        f.1 ++ 58 :: 32 :: f.2 ++ 13 :: 10 :: (fields.flatMap writeField ++ crlf ++ rest) := by
      simp [List.flatMap_cons, writeField, crlf]
    rw [htext, parseFields, cutLine_line hline]
    dsimp only
    rw [if_neg (by simp), parseField_written hg hf, ih]
    rfl

/-- The first line of a request is read. -/
theorem parseRequestLine_written (hg : g.Ok) {method target : Bytes} (hm : method ≠ [])
    (hm' : ∀ b ∈ method, tchar b) (ht : g.target target) :
    parseRequestLine g (method ++ 32 :: (target ++ 32 :: version)) = some (method, target) := by
  rw [parseRequestLine, cutAt_first (not_mem_of_all hm' (by decide))]
  dsimp only
  rw [cutAt_first (hg.target target ht).1]
  exact if_pos ⟨hm, List.all_eq_true.2 hm', ht, rfl⟩

/-- A request that is written is read back, with nothing after it. -/
theorem parseRequest_written (hg : g.Ok) {method target body : Bytes} {fields : List Field}
    (hm : method ≠ []) (hm' : ∀ b ∈ method, tchar b) (ht : g.target target)
    (hf : ∀ f ∈ fields, Field.Ok g f)
    (hn : framing (fields.map fun f => (f.1, trimOws f.2)) = some body.length) :
    parseRequest g (writeHead method target fields ++ body) =
      some (⟨method, target, fields.map fun f => (f.1, trimOws f.2), body⟩, []) := by
  have hline : 13 ∉ method ++ 32 :: (target ++ 32 :: version) := by
    rw [List.mem_append, List.mem_cons, List.mem_append, not_or, not_or, not_or]
    exact ⟨not_mem_of_all hm' (by decide), by decide, (hg.target target ht).2, by decide⟩
  have htext : writeHead method target fields ++ body =
      method ++ 32 :: (target ++ 32 :: version) ++
        13 :: 10 :: (fields.flatMap writeField ++ crlf ++ body) := by
    simp [writeHead, crlf]
  have hfuel : fields.length < (fields.flatMap writeField ++ crlf ++ body).length + 1 := by
    have hle : ∀ l : List Field, l.length ≤ (l.flatMap writeField).length := by
      intro l
      induction l with
      | nil => exact le_rfl
      | cons f l ih =>
        rw [List.flatMap_cons, List.length_append, List.length_cons]
        have : 0 < (writeField f).length := by simp [writeField]
        omega
    have := hle fields
    simp only [List.length_append]
    omega
  rw [htext, parseRequest, cutLine_line hline, Option.bind_some,
    parseRequestLine_written hg hm hm' ht, Option.bind_some, parseFields_written hg body hf hfuel,
    Option.bind_some]
  dsimp only
  rw [hn, Option.bind_some, if_neg (lt_irrefl _), List.take_length, List.drop_length]

/-! ## The grammars -/

/-- A range of visible characters. -/
theorem visible_of_range {b lo hi : UInt8} (h : lo ≤ b && b ≤ hi) (hlo : 33 ≤ lo)
    (hhi : hi ≤ 126) : visible b := by
  simp only [Bool.and_eq_true, decide_eq_true_eq] at h
  simp only [visible, Bool.and_eq_true, decide_eq_true_eq]
  exact ⟨UInt8.le_trans hlo h.1, UInt8.le_trans h.2 hhi⟩

theorem visible_of_uriByte {b : UInt8} (h : uriByte b) : visible b := by
  rw [uriByte, Bool.or_eq_true, Bool.or_eq_true, Bool.or_eq_true] at h
  have hsigns : uriSigns.all visible := by decide
  rcases h with ((h | h) | h) | h
  · exact visible_of_range h (by decide) (by decide)
  · exact visible_of_range h (by decide) (by decide)
  · exact visible_of_range h (by decide) (by decide)
  · exact List.all_eq_true.1 hsigns b (List.contains_iff_mem.1 h)

theorem visible_of_hexDigit {b : UInt8} (h : hexDigit b) : visible b := by
  rw [hexDigit, Bool.or_eq_true, Bool.or_eq_true] at h
  rcases h with (h | h) | h
  · exact visible_of_range h (by decide) (by decide)
  · exact visible_of_range h (by decide) (by decide)
  · exact visible_of_range h (by decide) (by decide)

theorem visible_of_uriText : ∀ {s : Bytes}, uriText s → ∀ b ∈ s, visible b
  | [], _, _, hb => by simp at hb
  | [c], h, b, hb => by
    rw [List.mem_singleton] at hb
    exact hb ▸ visible_of_uriByte h
  | [c, d], h, b, hb => by
    obtain ⟨hc, hd⟩ := Bool.and_eq_true_iff.1 h
    rcases List.mem_cons.1 hb with rfl | hb
    · exact visible_of_uriByte hc
    · rw [List.mem_singleton] at hb
      exact hb ▸ visible_of_uriByte hd
  | a :: c :: d :: s, h, b, hb => by
    rw [uriText] at h
    split at h
    · rename_i ha
      simp only [Bool.and_eq_true] at h
      simp only [List.mem_cons] at hb
      rcases hb with rfl | rfl | rfl | hb
      · rw [ha]
        decide
      · exact visible_of_hexDigit h.1.1
      · exact visible_of_hexDigit h.1.2
      · exact visible_of_uriText h.2 b hb
    · simp only [Bool.and_eq_true] at h
      rcases List.mem_cons.1 hb with rfl | hb
      · exact visible_of_uriByte h.1
      · exact visible_of_uriText h.2 b hb

theorem Grammar.ok_strict : Grammar.strict.Ok where
  target t ht := by
    have hvis := visible_of_uriText (Bool.and_eq_true_iff.1 ht).2
    exact ⟨not_mem_of_all hvis (by decide), not_mem_of_all hvis (by decide)⟩
  space := by decide
  cr := by decide

theorem Grammar.ok_tolerant : Grammar.tolerant.Ok where
  target t ht := by
    have hvis := List.all_eq_true.1 (Bool.and_eq_true_iff.1 ht).2
    exact ⟨not_mem_of_all hvis (by decide), not_mem_of_all hvis (by decide)⟩
  space := by decide
  cr := by decide

end Http

end EngineConsole
