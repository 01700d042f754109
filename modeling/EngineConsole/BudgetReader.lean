import Mathlib

/-!
# Readers with a budget

A reader takes bytes off a text, at most as many as its budget has left, keeps what it finds and
may stop at any point; what was found before stays.

`Parses m bytes a upd` says that `m` reads exactly `bytes` from whatever starts with them, and
stops where they are cut short. `Frugal m` says that `m` never consumes more than the budget.
Both go along the reader : one rule for each way of building it.
-/

set_option linter.unusedSectionVars false

namespace EngineConsole

namespace Budget

variable {φ α β σ ι : Type}

/-- The bytes ahead, the bytes that may still be read, and what was found. -/
structure State (φ : Type) where
  rest : List UInt8
  left : ℕ
  found : φ

/-- A reader gives a value, or stops. -/
structure Reader (φ α : Type) where
  run : State φ → Option α × State φ

/-! ## Readers -/

/-- One reader after another. -/
def Reader.bind (m : Reader φ α) (k : α → Reader φ β) : Reader φ β where
  run s :=
    match m.run s with
    | (some a, t) => (k a).run t
    | (none, t) => (none, t)

instance : Monad (Reader φ) where
  pure a := ⟨fun s => (some a, s)⟩
  bind := Reader.bind

/-- Stop. -/
def stop : Reader φ α := ⟨fun s => (none, s)⟩

/-- What is left of the budget. -/
def left : Reader φ ℕ := ⟨fun s => (some s.left, s)⟩

/-- Keep something. -/
def keep (f : φ → φ) : Reader φ Unit := ⟨fun s => (some (), { s with found := f s.found })⟩

/-- Read `n` bytes. -/
def take (n : ℕ) : Reader φ (List UInt8) where
  run s :=
    if s.left < n then (none, s)
    else if s.rest.length < n then (none, { s with rest := [] })
    else (some (s.rest.take n), { s with rest := s.rest.drop n, left := s.left - n })

/-- Read past `n` bytes. -/
def skip (n : ℕ) : Reader φ Unit where
  run s :=
    if s.left < n then (none, s)
    else if s.rest.length < n then (none, { s with rest := [], left := s.left - n })
    else (some (), { s with rest := s.rest.drop n, left := s.left - n })

/-- `n` times in a row. -/
def iterate (f : σ → Reader φ σ) : ℕ → σ → Reader φ σ
  | 0, x => pure x
  | n + 1, x => do
    let x ← f x
    iterate f n x

/-! ## What a reader reads -/

/-- `m` reads exactly these bytes, wherever the budget allows it, and stops where they are cut
short. -/
structure Parses (m : Reader φ α) (bytes : List UInt8) (a : α) (upd : φ → φ) : Prop where
  whole : ∀ rest n found, bytes.length ≤ n →
    m.run ⟨bytes ++ rest, n, found⟩ = (some a, ⟨rest, n - bytes.length, upd found⟩)
  cut : ∀ before b more n found, bytes = before ++ b :: more → bytes.length ≤ n →
    (m.run ⟨before, n, found⟩).1 = none

variable {m : Reader φ α} {k : α → Reader φ β} {bytes bytes' : List UInt8} {a : α} {b : β}
  {upd upd' : φ → φ}

theorem bind_some {s t : State φ} (h : m.run s = (some a, t)) : (m >>= k).run s = (k a).run t := by
  show (Reader.bind m k).run s = _
  rw [Reader.bind]
  dsimp only
  rw [h]

theorem bind_none {s t : State φ} (h : m.run s = (none, t)) : (m >>= k).run s = (none, t) := by
  show (Reader.bind m k).run s = _
  rw [Reader.bind]
  dsimp only
  rw [h]

theorem Parses.pure (a : α) : Parses (pure a : Reader φ α) [] a id where
  whole _ _ _ _ := rfl
  cut before b more n found h _ := by simp at h

theorem Parses.bind (h : Parses m bytes a upd) (h' : Parses (k a) bytes' b upd') :
    Parses (m >>= k) (bytes ++ bytes') b fun x => upd' (upd x) where
  whole rest n found hn := by
    rw [List.length_append] at hn
    rw [List.append_assoc, bind_some (h.whole _ n found (by omega)),
      h'.whole rest _ _ (by omega), List.length_append, Nat.sub_sub]
  cut before x more n found hsplit hn := by
    rw [List.length_append] at hn
    rcases List.append_eq_append_iff.1 hsplit with ⟨mid, hbefore, hmid⟩ | ⟨mid, hbytes, hmid⟩
    · rw [hbefore, bind_some (h.whole mid n found (by omega))]
      exact h'.cut mid x more _ _ hmid (by omega)
    · cases mid with
      | nil =>
        obtain rfl : before = bytes := by simpa using hbytes.symm
        have hall := h.whole [] n found (by omega)
        rw [List.append_nil] at hall
        rw [bind_some hall]
        exact h'.cut [] x more _ _ (by simpa using hmid.symm) (by omega)
      | cons y mid =>
        rw [bind_none (Prod.ext (h.cut before y mid n found hbytes (by omega)) rfl)]

/-- After a reader that keeps nothing. -/
theorem Parses.after (h : Parses m bytes a id) (h' : Parses (k a) bytes' b upd) :
    Parses (m >>= k) (bytes ++ bytes') b upd :=
  h.bind h'

theorem Parses.map (h : Parses m bytes a upd) (f : α → β) :
    Parses (m >>= fun x => Pure.pure (f x)) bytes (f a) upd := by
  have h' := Parses.bind (k := fun x => Pure.pure (f x)) h (.pure (f a))
  rwa [List.append_nil] at h'

/-- The budget is enough for what is read. -/
theorem Parses.left {k : ℕ → Reader φ β}
    (h : ∀ n, bytes.length ≤ n → Parses (k n) bytes b upd) :
    Parses (left >>= k) bytes b upd where
  whole rest n found hn := (h n hn).whole rest n found hn
  cut before x more n found hsplit hn := (h n hn).cut before x more n found hsplit hn

theorem Parses.keep (f : φ → φ) : Parses (keep f) [] () f where
  whole _ _ _ _ := rfl
  cut before b more n found h _ := by simp at h

theorem Parses.take {n : ℕ} (h : bytes.length = n) :
    Parses (take n : Reader φ (List UInt8)) bytes bytes id where
  whole rest n' found hn := by
    subst h
    rw [Budget.take]
    dsimp only
    rw [if_neg (by simpa using hn), if_neg (by simp)]
    simp
  cut before b more n' found hsplit hn := by
    subst h
    have hshort : before.length < bytes.length := by simp [hsplit]
    rw [Budget.take]
    dsimp only
    rw [if_neg (by simpa using hn), if_pos hshort]

theorem Parses.skip {n : ℕ} (h : bytes.length = n) :
    Parses (skip n : Reader φ Unit) bytes () id where
  whole rest n' found hn := by
    subst h
    rw [Budget.skip]
    dsimp only
    rw [if_neg (by simpa using hn), if_neg (by simp)]
    simp
  cut before b more n' found hsplit hn := by
    subst h
    have hshort : before.length < bytes.length := by simp [hsplit]
    rw [Budget.skip]
    dsimp only
    rw [if_neg (by simpa using hn), if_pos hshort]

/-- One round for each item of a list. -/
theorem Parses.iterate {f : σ → Reader φ σ} {enc : ι → List UInt8} {g : σ → ι → σ}
    {p : φ → ι → φ} : ∀ {items : List ι} {x : σ},
      (∀ i ∈ items, ∀ x, Parses (f x) (enc i) (g x i) fun found => p found i) →
      Parses (iterate f items.length x) (items.flatMap enc) (items.foldl g x)
        fun found => items.foldl p found
  | [], x, _ => .pure x
  | i :: items, x, h => by
    have hrest : ∀ j ∈ items, ∀ x, Parses (f x) (enc j) (g x j) fun found => p found j :=
      fun j hj => h j (List.mem_cons_of_mem i hj)
    exact (h i (List.mem_cons_self ..) x).bind (Parses.iterate hrest)

/-! ## What a reader consumes -/

/-- `m` consumes no more than the budget has left, and counts what it consumes. -/
def Frugal (m : Reader φ α) : Prop :=
  ∀ s, ∃ used, s.rest = used ++ (m.run s).2.rest ∧ used.length ≤ s.left ∧
    ((m.run s).1.isSome → used.length + (m.run s).2.left = s.left)

theorem Frugal.pure (a : α) : Frugal (pure a : Reader φ α) := fun _ =>
  ⟨[], rfl, Nat.zero_le _, fun _ => Nat.zero_add _⟩

theorem Frugal.stop : Frugal (stop : Reader φ α) := fun _ =>
  ⟨[], rfl, Nat.zero_le _, fun h => by cases h⟩

theorem Frugal.keep (f : φ → φ) : Frugal (keep f) := fun _ =>
  ⟨[], rfl, Nat.zero_le _, fun _ => Nat.zero_add _⟩

theorem Frugal.left : Frugal (left : Reader φ ℕ) := fun _ =>
  ⟨[], rfl, Nat.zero_le _, fun _ => Nat.zero_add _⟩

theorem Frugal.take (n : ℕ) : Frugal (take n : Reader φ (List UInt8)) := by
  intro s
  rw [Budget.take]
  dsimp only
  by_cases hleft : s.left < n
  · rw [if_pos hleft]
    exact ⟨[], rfl, Nat.zero_le _, fun h => by cases h⟩
  rw [if_neg hleft]
  by_cases hrest : s.rest.length < n
  · rw [if_pos hrest]
    exact ⟨s.rest, (List.append_nil _).symm, by omega, fun h => by cases h⟩
  · rw [if_neg hrest]
    refine ⟨s.rest.take n, (List.take_append_drop n s.rest).symm, ?_, fun _ => ?_⟩
    · rw [List.length_take]
      omega
    · rw [List.length_take]
      dsimp only
      omega

theorem Frugal.skip (n : ℕ) : Frugal (skip n : Reader φ Unit) := by
  intro s
  rw [Budget.skip]
  dsimp only
  by_cases hleft : s.left < n
  · rw [if_pos hleft]
    exact ⟨[], rfl, Nat.zero_le _, fun h => by cases h⟩
  rw [if_neg hleft]
  by_cases hrest : s.rest.length < n
  · rw [if_pos hrest]
    exact ⟨s.rest, (List.append_nil _).symm, by omega, fun h => by cases h⟩
  · rw [if_neg hrest]
    refine ⟨s.rest.take n, (List.take_append_drop n s.rest).symm, ?_, fun _ => ?_⟩
    · rw [List.length_take]
      omega
    · rw [List.length_take]
      dsimp only
      omega

theorem Frugal.bind (h : Frugal m) (h' : ∀ a, Frugal (k a)) : Frugal (m >>= k) := by
  intro s
  obtain ⟨used, hrest, hle, hcount⟩ := h s
  rcases hm : m.run s with ⟨_ | a, t⟩
  · rw [hm] at hrest
    rw [bind_none hm]
    exact ⟨used, hrest, hle, fun h => by cases h⟩
  · rw [hm] at hrest hcount
    rw [bind_some hm]
    obtain ⟨used', hrest', hle', hcount'⟩ := h' a t
    have hsum : used.length + t.left = s.left := hcount rfl
    dsimp only at hrest
    refine ⟨used ++ used', ?_, ?_, fun hsome => ?_⟩
    · rw [hrest, hrest', List.append_assoc]
    · rw [List.length_append]
      omega
    · have hsum' := hcount' hsome
      rw [List.length_append]
      omega

theorem Frugal.iterate {f : σ → Reader φ σ} (h : ∀ x, Frugal (f x)) :
    ∀ (n : ℕ) (x : σ), Frugal (iterate f n x)
  | 0, x => .pure x
  | n + 1, x => (h x).bind fun x => Frugal.iterate h n x

theorem Frugal.ite {c : Prop} [Decidable c] {m m' : Reader φ α} (h : Frugal m) (h' : Frugal m') :
    Frugal (if c then m else m') := by
  split_ifs
  · exact h
  · exact h'

end Budget

end EngineConsole
