import EngineConsole.Keyed

/-!
# JSON text with a recursion limit

JSON values over any type of strings and of numbers, the compact writer, and a recursive
descent reader that counts how deep it is and gives up at its limit. How a string and a
number are spelled is a parameter (`Scalars`) with the laws of a codec.

The reader is exact on written text : `read_write` computes it as an `if` on the depth of
the value. So a written value is read back just when it nests less deep than the limit
(`parse_write`); writing has no limit.
-/

set_option linter.unusedSectionVars false

namespace EngineConsole

/-- A JSON value; the fields of an object are in their order of insertion. -/
inductive Json (S N : Type*) where
  | null
  | bool (b : Bool)
  | num (n : N)
  | str (s : S)
  | arr (vs : List (Json S N))
  | obj (fs : List (S × Json S N))

namespace Json

variable {S N : Type*}

/-! ## Spelling strings and numbers -/

/-- How strings and numbers are written and read. A reader returns what is left of the text. -/
structure Scalars (S N : Type*) where
  writeStr : S → List Char
  writeNum : N → List Char
  readStr : List Char → Option (S × List Char)
  readNum : List Char → Option (N × List Char)

/-- The characters a number starts with. -/
def numStart (c : Char) : Bool :=
  c = '-' || c.isDigit

/-- A text where a value has ended : nothing, or a character that follows a value. -/
def Stop : List Char → Prop
  | [] => True
  | c :: _ => c = ',' ∨ c = ']' ∨ c = '}' ∨ c = ':'

/-- The reader of strings and that of numbers undo the writers. -/
structure Scalars.Lawful (C : Scalars S N) : Prop where
  str_quote : ∀ s, ∃ t, C.writeStr s = '"' :: t
  num_start : ∀ n, ∃ c t, C.writeNum n = c :: t ∧ numStart c = true
  read_str : ∀ s rest, C.readStr (C.writeStr s ++ rest) = some (s, rest)
  read_num : ∀ n rest, Stop rest → C.readNum (C.writeNum n ++ rest) = some (n, rest)

/-! ## Writing -/

mutual

/-- The compact text of a value. -/
def write (C : Scalars S N) : Json S N → List Char
  | .null => ['n', 'u', 'l', 'l']
  | .bool true => ['t', 'r', 'u', 'e']
  | .bool false => ['f', 'a', 'l', 's', 'e']
  | .num n => C.writeNum n
  | .str s => C.writeStr s
  | .arr vs => '[' :: writeElems C vs ++ [']']
  | .obj fs => '{' :: writeFields C fs ++ ['}']

/-- The elements of an array. -/
def writeElems (C : Scalars S N) : List (Json S N) → List Char
  | [] => []
  | [v] => write C v
  | v :: w :: vs => write C v ++ ',' :: writeElems C (w :: vs)

/-- The fields of an object. -/
def writeFields (C : Scalars S N) : List (S × Json S N) → List Char
  | [] => []
  | [(k, v)] => C.writeStr k ++ ':' :: write C v
  | (k, v) :: f :: fs => C.writeStr k ++ ':' :: write C v ++ ',' :: writeFields C (f :: fs)

end

mutual

/-- How deep arrays and objects nest. -/
def depth : Json S N → ℕ
  | .arr vs => depthElems vs + 1
  | .obj fs => depthFields fs + 1
  | _ => 0

/-- The depth of the deepest element. -/
def depthElems : List (Json S N) → ℕ
  | [] => 0
  | v :: vs => max (depth v) (depthElems vs)

/-- The depth of the deepest field. -/
def depthFields : List (S × Json S N) → ℕ
  | [] => 0
  | (_, v) :: fs => max (depth v) (depthFields fs)

end

mutual

/-- No object repeats a key. -/
def WF : Json S N → Prop
  | .arr vs => WFElems vs
  | .obj fs => (fs.map Prod.fst).Nodup ∧ WFFields fs
  | _ => True

/-- `WF` of each element. -/
def WFElems : List (Json S N) → Prop
  | [] => True
  | v :: vs => WF v ∧ WFElems vs

/-- `WF` of each field. -/
def WFFields : List (S × Json S N) → Prop
  | [] => True
  | (_, v) :: fs => WF v ∧ WFFields fs

end

/-! ## Reading -/

/-- White space between tokens. -/
def skipWs : List Char → List Char
  | c :: rest =>
    if c = ' ' || c = '\n' || c = '\t' || c = '\r' then skipWs rest else c :: rest
  | [] => []

/-- Set a field : a key that is there keeps its place. -/
def insert [DecidableEq S] (fs : List (S × Json S N)) (k : S) (v : Json S N) :
    List (S × Json S N) :=
  if k ∈ fs.map Prod.fst then fs.map fun f => if f.1 = k then (k, v) else f
  else fs ++ [(k, v)]

variable [DecidableEq S]

mutual

/-- Read a value. `left` is how many more levels may be entered, plus one. -/
def value (C : Scalars S N) : ℕ → ℕ → List Char → Option (Json S N × List Char)
  | 0, _, _ => none
  | fuel + 1, left, text =>
    match skipWs text with
    | [] => none
    | c :: rest =>
      if numStart c then (C.readNum (c :: rest)).map fun r => (.num r.1, r.2)
      else
        match c, rest with
        | 'n', 'u' :: 'l' :: 'l' :: rest => some (.null, rest)
        | 't', 'r' :: 'u' :: 'e' :: rest => some (.bool true, rest)
        | 'f', 'a' :: 'l' :: 's' :: 'e' :: rest => some (.bool false, rest)
        | '"', rest => (C.readStr ('"' :: rest)).map fun r => (.str r.1, r.2)
        | '[', rest =>
          if left ≤ 1 then none
          else
            match skipWs rest with
            | ']' :: rest => some (.arr [], rest)
            | rest => (elems C fuel (left - 1) rest).map fun r => (.arr r.1, r.2)
        | '{', rest =>
          if left ≤ 1 then none
          else
            match skipWs rest with
            | '}' :: rest => some (.obj [], rest)
            | rest => (fields C fuel (left - 1) [] rest).map fun r => (.obj r.1, r.2)
        | _, _ => none

/-- Read the elements of an array, from a value on. -/
def elems (C : Scalars S N) : ℕ → ℕ → List Char → Option (List (Json S N) × List Char)
  | 0, _, _ => none
  | fuel + 1, left, text =>
    match value C fuel left text with
    | none => none
    | some (v, rest) =>
      match skipWs rest with
      | ',' :: rest => (elems C fuel left rest).map fun r => (v :: r.1, r.2)
      | ']' :: rest => some ([v], rest)
      | _ => none

/-- Read the fields of an object into `fs`, from a key on. -/
def fields (C : Scalars S N) :
    ℕ → ℕ → List (S × Json S N) → List Char → Option (List (S × Json S N) × List Char)
  | 0, _, _, _ => none
  | fuel + 1, left, fs, text =>
    match skipWs text with
    | '"' :: rest =>
      match C.readStr ('"' :: rest) with
      | none => none
      | some (k, rest) =>
        match skipWs rest with
        | ':' :: rest =>
          match value C fuel left rest with
          | none => none
          | some (v, rest) =>
            match skipWs rest with
            | ',' :: rest => fields C fuel left (insert fs k v) rest
            | '}' :: rest => some (insert fs k v, rest)
            | _ => none
        | _ => none
    | _ => none

end

/-- Read a whole text of one value. -/
def parse (C : Scalars S N) (limit : ℕ) (text : List Char) : Option (Json S N) :=
  match value C (2 * text.length) limit text with
  | some (v, rest) => if skipWs rest = [] then some v else none
  | none => none

/-! ## The text of a value -/

/-- A character that starts a value. -/
abbrev valueStart (c : Char) : Prop :=
  c ∉ [' ', '\n', '\t', '\r', ',', ']', '}', ':']

theorem valueStart_of_numStart {c : Char} (h : numStart c = true) : valueStart c := by
  intro hmem
  simp only [List.mem_cons, List.not_mem_nil, or_false] at hmem
  rcases hmem with rfl | rfl | rfl | rfl | rfl | rfl | rfl | rfl <;> exact absurd h (by decide)

theorem write_start {C : Scalars S N} (hC : C.Lawful) :
    ∀ v : Json S N, ∃ c t, write C v = c :: t ∧ valueStart c
  | .null => ⟨_, _, rfl, by decide⟩
  | .bool true => ⟨_, _, rfl, by decide⟩
  | .bool false => ⟨_, _, rfl, by decide⟩
  | .num n => by
    obtain ⟨c, t, h, hc⟩ := hC.num_start n
    exact ⟨c, t, by rw [write, h], valueStart_of_numStart hc⟩
  | .str s => by
    obtain ⟨t, h⟩ := hC.str_quote s
    exact ⟨_, t, by rw [write, h], by decide⟩
  | .arr vs => ⟨_, _, rfl, by decide⟩
  | .obj fs => ⟨_, _, rfl, by decide⟩

theorem skipWs_start {c : Char} (h : valueStart c) (t : List Char) :
    skipWs (c :: t) = c :: t := by
  simp only [valueStart, List.mem_cons, List.not_mem_nil, or_false, not_or] at h
  simp [skipWs, h.1, h.2.1, h.2.2.1, h.2.2.2.1]

theorem skipWs_stop {c : Char} (h : c = ',' ∨ c = ']' ∨ c = '}' ∨ c = ':') (t : List Char) :
    skipWs (c :: t) = c :: t := by
  rcases h with rfl | rfl | rfl | rfl <;> rfl

mutual

/-- The calls it takes to read a value back. -/
def fuelOf : Json S N → ℕ
  | .arr vs => fuelElems vs + 1
  | .obj fs => fuelFields fs + 1
  | _ => 1

/-- The calls it takes to read the elements back. -/
def fuelElems : List (Json S N) → ℕ
  | [] => 0
  | v :: vs => max (fuelOf v) (fuelElems vs) + 1

/-- The calls it takes to read the fields back. -/
def fuelFields : List (S × Json S N) → ℕ
  | [] => 0
  | (_, v) :: fs => max (fuelOf v) (fuelFields fs) + 1

end

/-! ## Reading what was written -/

variable {C : Scalars S N}

theorem writeElems_start (hC : C.Lawful) (v : Json S N) (vs : List (Json S N)) :
    ∃ c t, writeElems C (v :: vs) = c :: t ∧ valueStart c := by
  obtain ⟨c, t, h, hc⟩ := write_start hC v
  cases vs with
  | nil => exact ⟨c, t, by rw [writeElems, h], hc⟩
  | cons w vs => exact ⟨c, _, by rw [writeElems, h, List.cons_append], hc⟩

theorem writeFields_start (hC : C.Lawful) (f : S × Json S N) (fs : List (S × Json S N)) :
    ∃ t, writeFields C (f :: fs) = '"' :: t := by
  obtain ⟨t, h⟩ := hC.str_quote f.1
  cases fs with
  | nil => exact ⟨_, by rw [writeFields, h, List.cons_append]⟩
  | cons g fs => exact ⟨_, by rw [writeFields, h, List.cons_append, List.cons_append]⟩

theorem insert_of_not_mem {fs : List (S × Json S N)} {k : S} (v : Json S N)
    (h : k ∉ fs.map Prod.fst) : insert fs k v = fs ++ [(k, v)] :=
  if_neg h

theorem insert_eq_put (fs : List (S × Json S N)) (k : S) (v : Json S N) :
    insert fs k v = Keyed.put Prod.fst (k, v) fs := by
  unfold Keyed.put
  by_cases h : k ∈ Keyed.keys Prod.fst fs
  · rw [if_pos (Keyed.isSome_find.2 h)]
    exact if_pos h
  · rw [if_neg fun hs => h (Keyed.isSome_find.1 hs)]
    exact if_neg h

theorem not_mem_keys {fs fs' : List (S × Json S N)} {k : S} {v : Json S N}
    (h : ((fs ++ (k, v) :: fs').map Prod.fst).Nodup) : k ∉ fs.map Prod.fst := by
  rw [List.map_append, List.map_cons] at h
  exact fun hmem => (List.nodup_append.1 h).2.2 k hmem k List.mem_cons_self rfl

theorem value_start {c : Char} (hc : valueStart c) (hn : numStart c = true) (fuel left : ℕ)
    (t : List Char) :
    value C (fuel + 1) left (c :: t) = (C.readNum (c :: t)).map fun r => (.num r.1, r.2) := by
  rw [value, skipWs_start hc]
  exact if_pos hn

/-- An array that is not empty. -/
theorem value_arr {c : Char} (hc : valueStart c) (fuel left : ℕ) (t : List Char) :
    value C (fuel + 1) left ('[' :: c :: t) =
      if left ≤ 1 then none
      else (elems C fuel (left - 1) (c :: t)).map fun r => (.arr r.1, r.2) := by
  rw [value, skipWs_start (by decide)]
  simp only [show numStart '[' = false by decide, Bool.false_eq_true, if_false, skipWs_start hc]
  by_cases h1 : left ≤ 1
  · rw [if_pos h1, if_pos h1]
  · rw [if_neg h1, if_neg h1]
    split
    · rename_i heq
      obtain rfl := (List.cons.inj heq).1
      exact absurd hc (by decide)
    · rfl

/-- An object that is not empty. -/
theorem value_obj (fuel left : ℕ) (t : List Char) :
    value C (fuel + 1) left ('{' :: '"' :: t) =
      if left ≤ 1 then none
      else (fields C fuel (left - 1) [] ('"' :: t)).map fun r => (.obj r.1, r.2) := by
  rw [value, skipWs_start (by decide)]
  simp only [numStart, skipWs_start (show valueStart '"' by decide)]
  rfl

/-- The fields of an object, from a key on. -/
theorem fields_key (hC : C.Lawful) (fuel left : ℕ) (fs : List (S × Json S N)) (k : S)
    (t : List Char) :
    fields C (fuel + 1) left fs (C.writeStr k ++ ':' :: t) =
      match value C fuel left t with
      | none => none
      | some (v, rest) =>
        match skipWs rest with
        | ',' :: rest => fields C fuel left (insert fs k v) rest
        | '}' :: rest => some (insert fs k v, rest)
        | _ => none := by
  obtain ⟨u, hu⟩ := hC.str_quote k
  have hread := hC.read_str k (':' :: t)
  rw [hu] at hread ⊢
  rw [List.cons_append] at hread ⊢
  rw [fields, skipWs_start (by decide)]
  simp only [hread, skipWs_stop (.inr (.inr (.inr rfl)))]

mutual

/-- Reading a written value : it comes back if the fuel is there and it is less deep than
`left`, and nothing does otherwise. -/
theorem read_write (hC : C.Lawful) : ∀ (v : Json S N) (fuel left : ℕ) (rest : List Char),
    v.WF → 0 < left → Stop rest →
      value C fuel left (write C v ++ rest) =
        if fuelOf v ≤ fuel ∧ depth v < left then some (v, rest) else none
  | .null, 0, _, _, _, _, _ | .bool _, 0, _, _, _, _, _ | .num _, 0, _, _, _, _, _
  | .str _, 0, _, _, _, _, _ | .arr _, 0, _, _, _, _, _ | .obj _, 0, _, _, _, _, _ => by
    simp [value, fuelOf]
  | .null, fuel + 1, left, rest, _, hl, _ => by
    simp [value, write, skipWs, numStart, fuelOf, depth, hl]
  | .bool true, fuel + 1, left, rest, _, hl, _ => by
    simp [value, write, skipWs, numStart, fuelOf, depth, hl]
  | .bool false, fuel + 1, left, rest, _, hl, _ => by
    simp [value, write, skipWs, numStart, fuelOf, depth, hl]
  | .num n, fuel + 1, left, rest, _, hl, hr => by
    obtain ⟨c, t, h, hc⟩ := hC.num_start n
    have hread := hC.read_num n rest hr
    rw [h, List.cons_append] at hread
    rw [write, h, List.cons_append, value_start (valueStart_of_numStart hc) hc, hread]
    simp [fuelOf, depth, hl]
  | .str s, fuel + 1, left, rest, _, hl, hr => by
    obtain ⟨t, h⟩ := hC.str_quote s
    have hread := hC.read_str s rest
    rw [h, List.cons_append] at hread
    rw [write, h, List.cons_append, value, skipWs_start (by decide)]
    simp [numStart, hread, fuelOf, depth, hl]
  | .arr [], fuel + 1, left, rest, hv, hl, hr => by
    have hread : value C (fuel + 1) left ('[' :: ']' :: rest) =
        if left ≤ 1 then none else some (.arr [], rest) := by
      rw [value, skipWs_start (by decide)]
      rfl
    have hiff : (fuelOf (.arr [] : Json S N) ≤ fuel + 1 ∧ depth (.arr [] : Json S N) < left) ↔
        ¬left ≤ 1 := by
      simp only [fuelOf, fuelElems, depth, depthElems]
      omega
    rw [if_congr hiff rfl rfl, ite_not]
    exact hread
  | .arr (v :: vs), fuel + 1, left, rest, hv, hl, hr => by
    obtain ⟨c, t, hw, hc⟩ := writeElems_start hC v vs
    have hiff : (fuelOf (.arr (v :: vs)) ≤ fuel + 1 ∧ depth (.arr (v :: vs)) < left) ↔
        ¬left ≤ 1 ∧ fuelElems (v :: vs) ≤ fuel ∧ depthElems (v :: vs) < left - 1 := by
      simp only [fuelOf, depth]
      omega
    rw [if_congr hiff rfl rfl, write, List.cons_append, List.cons_append, List.append_assoc,
      List.singleton_append, hw, List.cons_append, value_arr hc, ← List.cons_append, ← hw]
    by_cases h1 : left ≤ 1
    · simp [h1]
    · rw [if_neg h1, elems_write hC (v :: vs) (by simp) fuel (left - 1) rest hv (by omega)]
      by_cases h2 : fuelElems (v :: vs) ≤ fuel ∧ depthElems (v :: vs) < left - 1
      · rw [if_pos h2, if_pos ⟨h1, h2⟩, Option.map_some]
      · rw [if_neg h2, if_neg fun h => h2 h.2, Option.map_none]
  | .obj [], fuel + 1, left, rest, hv, hl, hr => by
    have hread : value C (fuel + 1) left ('{' :: '}' :: rest) =
        if left ≤ 1 then none else some (.obj [], rest) := by
      rw [value, skipWs_start (by decide)]
      rfl
    have hiff : (fuelOf (.obj [] : Json S N) ≤ fuel + 1 ∧ depth (.obj [] : Json S N) < left) ↔
        ¬left ≤ 1 := by
      simp only [fuelOf, fuelFields, depth, depthFields]
      omega
    rw [if_congr hiff rfl rfl, ite_not]
    exact hread
  | .obj (f :: fs), fuel + 1, left, rest, hv, hl, hr => by
    obtain ⟨t, hw⟩ := writeFields_start hC f fs
    have hiff : (fuelOf (.obj (f :: fs)) ≤ fuel + 1 ∧ depth (.obj (f :: fs)) < left) ↔
        ¬left ≤ 1 ∧ fuelFields (f :: fs) ≤ fuel ∧ depthFields (f :: fs) < left - 1 := by
      simp only [fuelOf, depth]
      omega
    rw [if_congr hiff rfl rfl, write, List.cons_append, List.cons_append, List.append_assoc,
      List.singleton_append, hw, List.cons_append, value_obj, ← List.cons_append, ← hw]
    by_cases h1 : left ≤ 1
    · simp [h1]
    · rw [if_neg h1, fields_write hC (f :: fs) (by simp) fuel (left - 1) [] rest hv.2 hv.1
        (by omega)]
      by_cases h2 : fuelFields (f :: fs) ≤ fuel ∧ depthFields (f :: fs) < left - 1
      · rw [if_pos h2, if_pos ⟨h1, h2⟩, Option.map_some, List.nil_append]
      · rw [if_neg h2, if_neg fun h => h2 h.2, Option.map_none]

/-- Reading written elements, to the end of their array. -/
theorem elems_write (hC : C.Lawful) : ∀ (vs : List (Json S N)), vs ≠ [] →
    ∀ (fuel left : ℕ) (rest : List Char), WFElems vs → 0 < left →
      elems C fuel left (writeElems C vs ++ ']' :: rest) =
        if fuelElems vs ≤ fuel ∧ depthElems vs < left then some (vs, rest) else none
  | [], h, _, _, _, _, _ => absurd rfl h
  | v :: vs, _, 0, _, _, _, _ => by simp [elems, fuelElems]
  | [v], _, fuel + 1, left, rest, hv, hl => by
    have hread := read_write hC v fuel left (']' :: rest) hv.1 hl (.inr (.inl rfl))
    have hiff : (fuelElems [v] ≤ fuel + 1 ∧ depthElems [v] < left) ↔
        fuelOf v ≤ fuel ∧ depth v < left := by
      simp only [fuelElems, depthElems]
      omega
    rw [if_congr hiff rfl rfl, elems, writeElems, hread]
    by_cases h1 : fuelOf v ≤ fuel ∧ depth v < left
    · rw [if_pos h1, if_pos h1]
      simp only [skipWs_stop (.inr (.inl rfl))]
    · rw [if_neg h1, if_neg h1]
  | v :: w :: vs, _, fuel + 1, left, rest, hv, hl => by
    have hread := read_write hC v fuel left (',' :: (writeElems C (w :: vs) ++ ']' :: rest))
      hv.1 hl (.inl rfl)
    have helems := elems_write hC (w :: vs) (by simp) fuel left rest hv.2 hl
    have hiff : (fuelElems (v :: w :: vs) ≤ fuel + 1 ∧ depthElems (v :: w :: vs) < left) ↔
        (fuelOf v ≤ fuel ∧ depth v < left) ∧
          fuelElems (w :: vs) ≤ fuel ∧ depthElems (w :: vs) < left := by
      rw [fuelElems, depthElems]
      omega
    rw [if_congr hiff rfl rfl, elems, writeElems, List.append_assoc, List.cons_append, hread]
    by_cases h1 : fuelOf v ≤ fuel ∧ depth v < left
    · rw [if_pos h1]
      simp only [skipWs_stop (.inl rfl), helems]
      by_cases h2 : fuelElems (w :: vs) ≤ fuel ∧ depthElems (w :: vs) < left
      · rw [if_pos h2, if_pos ⟨h1, h2⟩, Option.map_some]
      · rw [if_neg h2, if_neg fun h => h2 h.2, Option.map_none]
    · rw [if_neg h1, if_neg fun h => h1 h.1]

/-- Reading written fields after `fs`, to the end of their object. -/
theorem fields_write (hC : C.Lawful) : ∀ (fs' : List (S × Json S N)), fs' ≠ [] →
    ∀ (fuel left : ℕ) (fs : List (S × Json S N)) (rest : List Char), WFFields fs' →
      ((fs ++ fs').map Prod.fst).Nodup → 0 < left →
      fields C fuel left fs (writeFields C fs' ++ '}' :: rest) =
        if fuelFields fs' ≤ fuel ∧ depthFields fs' < left then some (fs ++ fs', rest) else none
  | [], h, _, _, _, _, _, _, _ => absurd rfl h
  | (k, v) :: fs', _, 0, _, _, _, _, _, _ => by simp [fields, fuelFields]
  | [(k, v)], _, fuel + 1, left, fs, rest, hv, hn, hl => by
    have hread := read_write hC v fuel left ('}' :: rest) hv.1 hl (.inr (.inr (.inl rfl)))
    have hiff : (fuelFields [(k, v)] ≤ fuel + 1 ∧ depthFields [(k, v)] < left) ↔
        fuelOf v ≤ fuel ∧ depth v < left := by
      simp only [fuelFields, depthFields]
      omega
    rw [if_congr hiff rfl rfl, writeFields, List.append_assoc, List.cons_append, fields_key hC,
      hread]
    by_cases h1 : fuelOf v ≤ fuel ∧ depth v < left
    · rw [if_pos h1, if_pos h1]
      simp only [skipWs_stop (.inr (.inr (.inl rfl))), insert_of_not_mem v (not_mem_keys hn)]
    · rw [if_neg h1, if_neg h1]
  | (k, v) :: f :: fs', _, fuel + 1, left, fs, rest, hv, hn, hl => by
    have hread := read_write hC v fuel left (',' :: (writeFields C (f :: fs') ++ '}' :: rest))
      hv.1 hl (.inl rfl)
    have hfields := fields_write hC (f :: fs') (by simp) fuel left (fs ++ [(k, v)]) rest hv.2
      (by simpa using hn) hl
    have hiff : (fuelFields ((k, v) :: f :: fs') ≤ fuel + 1 ∧
        depthFields ((k, v) :: f :: fs') < left) ↔
        (fuelOf v ≤ fuel ∧ depth v < left) ∧
          fuelFields (f :: fs') ≤ fuel ∧ depthFields (f :: fs') < left := by
      rw [fuelFields, depthFields]
      omega
    rw [if_congr hiff rfl rfl, writeFields, List.append_assoc, List.cons_append,
      List.append_assoc, List.cons_append, fields_key hC, hread]
    by_cases h1 : fuelOf v ≤ fuel ∧ depth v < left
    · rw [if_pos h1]
      simp only [skipWs_stop (.inl rfl), insert_of_not_mem v (not_mem_keys hn), hfields]
      by_cases h2 : fuelFields (f :: fs') ≤ fuel ∧ depthFields (f :: fs') < left
      · rw [if_pos h2, if_pos ⟨h1, h2⟩, List.append_assoc, List.singleton_append]
      · rw [if_neg h2, if_neg fun h => h2 h.2]
    · rw [if_neg h1, if_neg fun h => h1 h.1]

end

mutual

/-- A value takes no more calls than twice its length. -/
theorem fuelOf_le (hC : C.Lawful) : ∀ v : Json S N, fuelOf v < 2 * (write C v).length
  | .null | .bool true | .bool false => by simp [fuelOf, write]
  | .num n => by
    obtain ⟨c, t, h, -⟩ := hC.num_start n
    simp only [fuelOf, write, h, List.length_cons]
    omega
  | .str s => by
    obtain ⟨t, h⟩ := hC.str_quote s
    simp only [fuelOf, write, h, List.length_cons]
    omega
  | .arr vs => by
    have := fuelElems_le hC vs
    simp only [fuelOf, write, List.length_append, List.length_cons, List.length_nil]
    omega
  | .obj fs => by
    have := fuelFields_le hC fs
    simp only [fuelOf, write, List.length_append, List.length_cons, List.length_nil]
    omega

theorem fuelElems_le (hC : C.Lawful) :
    ∀ vs : List (Json S N), fuelElems vs ≤ 2 * (writeElems C vs).length
  | [] => by simp [fuelElems]
  | [v] => by
    have := fuelOf_le hC v
    simp only [fuelElems, writeElems]
    omega
  | v :: w :: vs => by
    have := fuelOf_le hC v
    have := fuelElems_le hC (w :: vs)
    rw [fuelElems, writeElems, List.length_append, List.length_cons]
    omega

theorem fuelFields_le (hC : C.Lawful) :
    ∀ fs : List (S × Json S N), fuelFields fs ≤ 2 * (writeFields C fs).length
  | [] => by simp [fuelFields]
  | [(k, v)] => by
    have := fuelOf_le hC v
    simp only [fuelFields, writeFields, List.length_append, List.length_cons]
    omega
  | (k, v) :: f :: fs => by
    have := fuelOf_le hC v
    have := fuelFields_le hC (f :: fs)
    rw [fuelFields, writeFields, List.length_append, List.length_cons, List.length_append,
      List.length_cons]
    omega

end

/-- A written value is read back just when it is less deep than the limit. -/
theorem parse_write (hC : C.Lawful) {v : Json S N} (hv : v.WF) {limit : ℕ} (hl : 0 < limit) :
    parse C limit (write C v) = if depth v < limit then some v else none := by
  have hread := read_write hC v (2 * (write C v).length) limit [] hv hl trivial
  have hfuel := Nat.le_of_lt (fuelOf_le hC v)
  rw [List.append_nil] at hread
  unfold parse
  rw [hread]
  by_cases hd : depth v < limit
  · rw [if_pos ⟨hfuel, hd⟩, if_pos hd]
    rfl
  · rw [if_neg fun h => hd h.2, if_neg hd]

/-! ## Other strings -/

section MapStr

variable {S' : Type*} (g : S → S')

mutual

/-- A value with its strings and keys changed. -/
def mapStr : Json S N → Json S' N
  | .null => .null
  | .bool b => .bool b
  | .num n => .num n
  | .str s => .str (g s)
  | .arr vs => .arr (mapStrElems vs)
  | .obj fs => .obj (mapStrFields fs)

/-- `mapStr` of each element. -/
def mapStrElems : List (Json S N) → List (Json S' N)
  | [] => []
  | v :: vs => mapStr v :: mapStrElems vs

/-- `mapStr` of each field. -/
def mapStrFields : List (S × Json S N) → List (S' × Json S' N)
  | [] => []
  | (k, v) :: fs => (g k, mapStr v) :: mapStrFields fs

end

theorem mapStrFields_eq : ∀ fs : List (S × Json S N),
    mapStrFields g fs = fs.map fun f => (g f.1, mapStr g f.2)
  | [] => rfl
  | (k, v) :: fs => by rw [mapStrFields, mapStrFields_eq fs, List.map_cons]

variable {g} [DecidableEq S']

/-- A change that keeps keys apart goes through setting a field. -/
theorem mapStrFields_insert (hg : Function.Injective g) (fs : List (S × Json S N)) (k : S)
    (v : Json S N) :
    mapStrFields g (insert fs k v) = insert (mapStrFields g fs) (g k) (mapStr g v) := by
  have hmem : g k ∈ (mapStrFields g fs).map Prod.fst ↔ k ∈ fs.map Prod.fst := by
    rw [mapStrFields_eq, List.map_map, ← List.mem_map_of_injective hg, List.map_map]
    rfl
  by_cases h : k ∈ fs.map Prod.fst
  · rw [insert, if_pos h, insert, if_pos (hmem.2 h), mapStrFields_eq, mapStrFields_eq,
      List.map_map, List.map_map]
    refine List.map_congr_left fun f _ => ?_
    by_cases hk : f.1 = k
    · simp [hk]
    · have hgk : g f.1 ≠ g k := fun h => hk (hg h)
      simp [hk, hgk]
  · rw [insert, if_neg h, insert, if_neg fun h' => h (hmem.1 h'), mapStrFields_eq,
      mapStrFields_eq, List.map_append]
    rfl

end MapStr

end Json

end EngineConsole
