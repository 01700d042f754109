import EngineConsole.Precedence
import EngineConsole.Replace

/-!
# Masking known secrets

`mask` and `scrub_with` of `services/lifecycle.rs` : the secret values are replaced by a mark one
after the other, each on the text that the one before left, and `scrub` then masks what has the
shape of a token.

A character of the text is followed by its place (`Tagged`), which a mark does not have. Where no
value reads across the end of a mark (`Clear`), a pass replaces occurrences of the text that are
still whole, from left to right (`step`), so the passes are a choice by precedence among the
occurrences (`run_stable`) : by the place of the value in the list, then from left to right. No
character of a secret is left just when that choice covers every occurrence (`Tiled`).
-/

set_option linter.unusedSectionVars false

namespace EngineConsole.Masking

abbrev Text := List Char

/-! ## The passes -/

/-- `REDACTED` -/
def redacted : Text :=
  "[redacted]".toList

/-- `mask` -/
def mask (text : Text) (secrets : List Text) : Text :=
  secrets.foldl (fun out sv => Replace.replaceAll sv redacted out) text

/-- A word and as many characters of a class as there are, at least so many. -/
def shape (lit : Text) (cls : Char → Bool) (least : ℕ) (s : Text) : Option ℕ :=
  let w := (s.drop lit.length).takeWhile cls
  if lit.isPrefixOf s && least ≤ w.length then some (lit.length + w.length) else none

section Scrub

variable (isWord isWhite : Char → Bool)

/-- `Bearer\s+[A-Za-z0-9._\-]{8,}` -/
def bearer (s : Text) : Option ℕ :=
  let blanks := (s.drop 6).takeWhile isWhite
  let w := (s.drop (6 + blanks.length)).takeWhile fun c =>
    c.isAlphanum || c = '.' || c = '_' || c = '-'
  if "Bearer".toList.isPrefixOf s && 0 < blanks.length && 8 ≤ w.length then
    some (6 + blanks.length + w.length)
  else none

/-- The length of the match of `SECRET_VALUE` that starts here, after a character `prev`. Every
alternative starts with a word character, so `\b` asks that there is none before it. -/
def secretValue (prev : Option Char) (s : Text) : Option ℕ :=
  if prev.any isWord then none
  else
    (shape "hf_".toList Char.isAlphanum 8 s).or <|
      (shape "ec_".toList (fun c => c.isAlphanum || c = '_' || c = '-') 16 s).or <|
        (shape "sk-".toList Char.isAlphanum 16 s).or (bearer isWhite s)

/-- `replace_all` from here on, after so many more characters of a match. -/
def replaceMatches {α : Type*} (shown : α → Char) (mark : List α) :
    Option Char → ℕ → List α → List α
  | _, _, [] => []
  | _, skip + 1, c :: s => replaceMatches shown mark (some (shown c)) skip s
  | prev, 0, c :: s =>
    match secretValue isWord isWhite prev ((c :: s).map shown) with
    | some n => mark ++ replaceMatches shown mark (some (shown c)) (n - 1) s
    | none => c :: replaceMatches shown mark (some (shown c)) 0 s

/-- `scrub` -/
def scrub (text : Text) : Text :=
  replaceMatches isWord isWhite id redacted none 0 text

/-- `scrub_with` of the lifecycle. -/
def scrubWith (values : List Text) (text : Text) : Text :=
  scrub isWord isWhite (values.foldl
    (fun out v => if 6 ≤ v.length then Replace.replaceAll v redacted out else out) text)

end Scrub

/-! ## The passes on characters with their places -/

/-- Characters with their places in the input; a character of a mark has none. -/
abbrev Tagged := List (Char × Option ℕ)

/-- The characters of a text from a place on. -/
def tagFrom : ℕ → Text → Tagged
  | _, [] => []
  | i, c :: s => (c, some i) :: tagFrom (i + 1) s

/-- The mark. -/
def marked : Tagged :=
  redacted.map fun c => (c, none)

/-- The places of the input that are left. -/
def places (τ : Tagged) : List ℕ :=
  τ.filterMap Prod.snd

/-- One value is replaced. -/
def replaceValue (v : Text) (τ : Tagged) : Tagged :=
  if v.isEmpty then marked ++ τ.flatMap fun c => c :: marked
  else Replace.replaceHits (fun t => v.isPrefixOf (t.map Prod.fst)) v.length marked 0 τ

/-- `mask` with places. -/
def maskTagged (secrets : List Text) (text : Text) : Tagged :=
  secrets.foldl (fun out sv => replaceValue sv out) (tagFrom 0 text)

/-- `scrub_with` with places. -/
def scrubTagged (isWord isWhite : Char → Bool) (values : List Text) (text : Text) : Tagged :=
  replaceMatches isWord isWhite Prod.fst marked none 0 (values.foldl
    (fun out v => if 6 ≤ v.length then replaceValue v out else out) (tagFrom 0 text))

variable {vs : List Text} {text v w : Text} {τ p : Tagged} {i j n : ℕ}

theorem map_tagFrom : ∀ (i : ℕ) (s : Text), (tagFrom i s).map Prod.fst = s
  | _, [] => rfl
  | i, c :: s => congrArg (c :: ·) (map_tagFrom (i + 1) s)

theorem map_marked : marked.map Prod.fst = redacted := by
  rw [marked, List.map_map]
  exact List.map_id _

theorem map_replaceValue (v : Text) (τ : Tagged) :
    (replaceValue v τ).map Prod.fst = Replace.replaceAll v redacted (τ.map Prod.fst) := by
  rw [replaceValue, Replace.replaceAll]
  split_ifs
  · rw [List.map_append, map_marked, List.map_flatMap, List.flatMap_map]
    congr 2
  · rw [Replace.map_replaceHits Prod.fst (fun _ => rfl), map_marked]

/-- The places do not change what `mask` answers. -/
theorem map_maskTagged (secrets : List Text) (text : Text) :
    (maskTagged secrets text).map Prod.fst = mask text secrets := by
  have hgen : ∀ (secrets : List Text) (τ : Tagged),
      (secrets.foldl (fun out sv => replaceValue sv out) τ).map Prod.fst =
        mask (τ.map Prod.fst) secrets := by
    intro secrets
    induction secrets with
    | nil => exact fun _ => rfl
    | cons sv secrets ih =>
      intro τ
      rw [List.foldl_cons, ih, map_replaceValue]
      rfl
  rw [maskTagged, hgen, map_tagFrom]

theorem map_replaceMatches {isWord isWhite : Char → Bool} : ∀ (prev : Option Char) (skip : ℕ)
    (τ : Tagged), (replaceMatches isWord isWhite Prod.fst marked prev skip τ).map Prod.fst =
      replaceMatches isWord isWhite id redacted prev skip (τ.map Prod.fst)
  | _, _, [] => by
    rw [replaceMatches, List.map_nil, replaceMatches]
  | prev, skip + 1, c :: τ => map_replaceMatches (some c.1) skip τ
  | prev, 0, c :: τ => by
    rw [replaceMatches, List.map_cons, replaceMatches, List.map_id]
    cases secretValue isWord isWhite prev (c.1 :: τ.map Prod.fst) with
    | some n =>
      dsimp only
      rw [List.map_append, map_marked, map_replaceMatches]
      rfl
    | none =>
      dsimp only
      rw [List.map_cons, map_replaceMatches]
      rfl

/-- The places do not change what `scrub_with` answers. -/
theorem map_scrubTagged (isWord isWhite : Char → Bool) (values : List Text) (text : Text) :
    (scrubTagged isWord isWhite values text).map Prod.fst =
      scrubWith isWord isWhite values text := by
  have hgen : ∀ (values : List Text) (τ : Tagged),
      (values.foldl (fun out v => if 6 ≤ v.length then replaceValue v out else out) τ).map
          Prod.fst =
        values.foldl (fun out v => if 6 ≤ v.length then Replace.replaceAll v redacted out else out)
          (τ.map Prod.fst) := by
    intro values
    induction values with
    | nil => exact fun _ => rfl
    | cons v values ih =>
      intro τ
      rw [List.foldl_cons, List.foldl_cons, ih]
      split_ifs
      · rw [map_replaceValue]
      · rfl
  rw [scrubTagged, scrubWith, scrub, map_replaceMatches, hgen, map_tagFrom]

/-! ## Occurrences -/

/-- A value stands in the text here. -/
def Occurs (text v : Text) (i : ℕ) : Prop :=
  v <+: text.drop i

/-- Here starts an occurrence of a value. -/
def Starts (vs : List Text) (text : Text) (j : ℕ) : Prop :=
  ∃ w ∈ vs, w ≠ [] ∧ Occurs text w j

/-- Here an occurrence of a value has ended. -/
def Stops (vs : List Text) (text : Text) (q : ℕ) : Prop :=
  ∃ w ∈ vs, w ≠ [] ∧ ∃ i, Occurs text w i ∧ q = i + w.length

/-- A word does not read on from the text into a mark, nor from a mark into the text, where an
occurrence can have been replaced. -/
def Fits (vs : List Text) (text w : Text) : Prop :=
  (∀ p c, Starts vs text (p + 1) → text[p]? = some c → ¬[c, '['] <:+: w) ∧
    ∀ q c, Stops vs text q → text[q]? = some c → ¬[']', c] <:+: w

/-- No value reads across the end of a mark. -/
def Clear (vs : List Text) (text : Text) : Prop :=
  ∀ v ∈ vs, Fits vs text v

theorem occurs_cons {c : Char} :
    Occurs text (c :: v) i ↔ text[i]? = some c ∧ Occurs text v (i + 1) := by
  rw [Occurs, Occurs]
  by_cases hi : i < text.length
  · rw [List.drop_eq_getElem_cons hi, List.cons_prefix_cons, List.getElem?_eq_getElem hi,
      Option.some_inj]
    exact and_congr_left' eq_comm
  · have hdrop : text.drop i = [] := List.drop_eq_nil_of_le (by omega)
    have hnone : text[i]? = none := List.getElem?_eq_none (by omega)
    rw [hdrop, hnone]
    simp

/-! ## What a pass leaves -/

/-- Characters that lie side by side in the input, from a place on. -/
def Run : ℕ → Tagged → Prop
  | _, [] => True
  | i, e :: p => e.2 = some i ∧ Run (i + 1) p

/-- What may stand side by side when the places `S` are left : characters that did in the input, or
the end of a mark where an occurrence was. -/
def Link (vs : List Text) (text : Text) (S : List ℕ) : Char × Option ℕ → Char × Option ℕ → Prop
  | (_, some p), (_, some q) => q = p + 1
  | (_, some p), (d, none) => d = '[' ∧ Starts vs text (p + 1) ∧ p + 1 ∉ S
  | (c, none), (_, some q) => c = ']' ∧ Stops vs text q
  | (_, none), (_, none) => True

/-- Characters of the input in order, and marks where occurrences were. -/
structure Left (vs : List Text) (text : Text) (τ : Tagged) : Prop where
  shows : ∀ c p, (c, some p) ∈ τ → text[p]? = some c
  marks : ∀ c, (c, none) ∈ τ → c ∈ redacted
  order : (places τ).Pairwise (· < ·)
  linked : τ.IsChain (Link vs text (places τ))

theorem places_append (τ σ : Tagged) : places (τ ++ σ) = places τ ++ places σ :=
  List.filterMap_append

theorem places_marked : places marked = [] := by
  decide

theorem mem_places {q : ℕ} : q ∈ places τ ↔ ∃ c, (c, some q) ∈ τ := by
  rw [places, List.mem_filterMap]
  refine ⟨?_, fun ⟨c, h⟩ => ⟨_, h, rfl⟩⟩
  rintro ⟨⟨c, x⟩, h, rfl⟩
  exact ⟨c, h⟩

theorem Run.places : ∀ {p : Tagged} {i : ℕ}, Run i p → places p = List.range' i p.length
  | [], _, _ => rfl
  | (c, x) :: p, i, h => by
    obtain ⟨rfl, hrun⟩ := h
    have ih := hrun.places
    rw [List.length_cons, List.range'_succ, ← ih]
    rfl

theorem Run.mem_places {q : ℕ} (h : Run i p) : q ∈ Masking.places p ↔ i ≤ q ∧ q < i + p.length := by
  rw [h.places, List.mem_range'_1]

theorem Run.occurs : ∀ {p : Tagged} {i : ℕ}, Run i p →
    (∀ c q, (c, some q) ∈ p → text[q]? = some c) → Occurs text (p.map Prod.fst) i
  | [], _, _, _ => List.nil_prefix
  | (c, x) :: p, i, h, hshows => by
    obtain ⟨rfl, hrun⟩ := h
    rw [List.map_cons, occurs_cons]
    exact ⟨hshows c i List.mem_cons_self,
      hrun.occurs fun c q hq => hshows c q (List.mem_cons_of_mem _ hq)⟩

theorem Run.word : ∀ {p : Tagged} {i : ℕ} {v : Text}, Run i p → p.length = v.length →
    (∀ c q, (c, some q) ∈ p → text[q]? = some c) → Occurs text v i → p.map Prod.fst = v
  | [], _, v, _, hlen, _, _ => (List.length_eq_zero_iff.1 hlen.symm).symm
  | (c, x) :: p, i, [], _, hlen, _, _ => by cases hlen
  | (c, x) :: p, i, d :: v, h, hlen, hshows, hocc => by
    obtain ⟨rfl, hrun⟩ := h
    rw [occurs_cons] at hocc
    have hc := hshows c i List.mem_cons_self
    rw [hocc.1, Option.some_inj] at hc
    have ih := hrun.word (Nat.succ.inj hlen)
      (fun c q hq => hshows c q (List.mem_cons_of_mem _ hq)) hocc.2
    rw [List.map_cons, ih, hc]

/-- A word that fits is read from the input or from marks, not from both. -/
theorem read_fits {S : List ℕ} : ∀ {p : Tagged}, p.IsChain (Link vs text S) →
    (∀ c q, (c, some q) ∈ p → text[q]? = some c) → Fits vs text (p.map Prod.fst) →
    places p = [] ∨ ∃ i, Run i p
  | [], _, _, _ => .inl rfl
  | [(c, none)], _, _, _ => .inl rfl
  | [(c, some i)], _, _, _ => .inr ⟨i, rfl, trivial⟩
  | (c, x) :: (d, y) :: p, hchain, hshows, hfits => by
    obtain ⟨hlink, hchain⟩ := List.isChain_cons_cons.1 hchain
    have hin : [c, d] <:+: List.map Prod.fst ((c, x) :: (d, y) :: p) :=
      ⟨[], p.map Prod.fst, rfl⟩
    have hrest : Fits vs text (List.map Prod.fst ((d, y) :: p)) :=
      ⟨fun q e hs he h => hfits.1 q e hs he (h.trans (List.suffix_cons _ _).isInfix),
        fun q e hs he h => hfits.2 q e hs he (h.trans (List.suffix_cons _ _).isInfix)⟩
    have ih := read_fits hchain (fun c q hq => hshows c q (List.mem_cons_of_mem _ hq)) hrest
    cases x with
    | none =>
      cases y with
      | none =>
        refine .inl ?_
        rcases ih with ih | ⟨i, hi, -⟩
        · exact ih
        · cases hi
      | some q =>
        obtain ⟨rfl, hstop⟩ := hlink
        exact absurd hin (hfits.2 q d hstop (hshows d q (by simp)))
    | some q =>
      cases y with
      | none =>
        obtain ⟨rfl, hstart, -⟩ := hlink
        exact absurd hin (hfits.1 q c hstart (hshows c q (by simp)))
      | some r =>
        obtain rfl : r = q + 1 := hlink
        refine .inr ⟨q, rfl, ?_⟩
        rcases ih with ih | ⟨i, hi, hrun⟩
        · cases ih
        · obtain rfl := Option.some.inj hi
          exact ⟨rfl, hrun⟩

theorem Left.segment (h : Left vs text τ) {x t : Tagged} (hτ : τ = x ++ (p ++ t)) :
    p.IsChain (Link vs text (places τ)) ∧ ∀ c q, (c, some q) ∈ p → text[q]? = some c := by
  refine ⟨?_, fun c q hq => h.shows c q ?_⟩
  · have hlinked := h.linked
    rw [show τ.IsChain (Link vs text (places τ)) ↔
      (x ++ (p ++ t)).IsChain (Link vs text (places τ)) by rw [← hτ]] at hlinked
    exact (hlinked.right_of_append).left_of_append
  · rw [hτ]
    exact List.mem_append_right _ (List.mem_append_left _ hq)

/-- Places in a row that are left lie side by side. -/
theorem Left.run (h : Left vs text τ) : ∀ (n : ℕ) {i : ℕ} {c : Char} {x σ : Tagged},
    τ = x ++ (c, some i) :: σ → (∀ k ≤ n, i + k ∈ places τ) →
    ∃ p t, (c, some i) :: σ = p ++ t ∧ p.length = n + 1 ∧ Run i p
  | 0, i, c, x, σ, _, _ => ⟨[(c, some i)], σ, rfl, rfl, rfl, trivial⟩
  | n + 1, i, c, x, σ, hτ, hall => by
    have hplaces : places τ = places x ++ i :: places σ := by
      rw [hτ, places_append]
      rfl
    have horder := h.order
    rw [hplaces, List.pairwise_append] at horder
    have hnext : i + 1 ∈ places σ := by
      have hmem := hall 1 (by omega)
      rw [hplaces, List.mem_append, List.mem_cons] at hmem
      rcases hmem with hmem | hmem | hmem
      · have hlt := horder.2.2 _ hmem i List.mem_cons_self
        omega
      · omega
      · exact hmem
    have hlinked := h.linked
    rw [show τ.IsChain (Link vs text (places τ)) ↔
      (x ++ (c, some i) :: σ).IsChain (Link vs text (places τ)) by rw [← hτ]] at hlinked
    have hchain := hlinked.right_of_append
    cases σ with
    | nil => cases hnext
    | cons e σ =>
      obtain ⟨d, y⟩ := e
      obtain ⟨hlink, -⟩ := List.isChain_cons_cons.1 hchain
      cases y with
      | none => exact absurd (hall 1 (by omega)) hlink.2.2
      | some q =>
        obtain rfl : q = i + 1 := hlink
        obtain ⟨p, t, hp, hlen, hrun⟩ := h.run n (x := x ++ [(c, some i)]) (σ := σ)
          (by rw [hτ, List.append_assoc]; rfl) fun k hk => by
            have hmem := hall (k + 1) (by omega)
            rwa [← Nat.add_assoc, Nat.add_right_comm] at hmem
        exact ⟨(c, some i) :: p, t, by rw [hp]; rfl, by rw [List.length_cons, hlen], rfl, hrun⟩

/-- What a pass finds in a text that is left. -/
structure Found (text v : Text) (before after : List ℕ) (C : Set ℕ) : Prop where
  occurs : ∀ i ∈ C, Occurs text v i
  whole : ∀ i ∈ C, ∀ q, i ≤ q → q < i + v.length → q ∈ before
  apart : ∀ i ∈ C, ∀ j ∈ C, ∀ q, i ≤ q → q < i + v.length → j ≤ q → q < j + v.length → i = j
  first : ∀ i, Occurs text v i → (∀ q, i ≤ q → q < i + v.length → q ∈ before) →
    ∃ j ∈ C, j ≤ i ∧ i < j + v.length
  rest : ∀ q, q ∈ after ↔ q ∈ before ∧ ¬∃ i ∈ C, i ≤ q ∧ q < i + v.length

section Step

variable {out : Tagged} {ps : List Tagged}

/-- The occurrence test of a pass. -/
def reads (v : Text) (t : Tagged) : Bool :=
  v.isPrefixOf (t.map Prod.fst)

theorem reads_iff {t : Tagged} : reads v t = true ↔ v <+: t.map Prod.fst :=
  List.isPrefixOf_iff_prefix

theorem reads_append {t : Tagged} (hlen : p.length = v.length) :
    reads v (p ++ t) = true ↔ p.map Prod.fst = v := by
  rw [reads_iff, List.map_append]
  refine ⟨fun h => ?_, fun h => h ▸ List.prefix_append _ _⟩
  have hlen' : (p.map Prod.fst).length = v.length := by rw [List.length_map, hlen]
  have hfront := List.prefix_of_prefix_length_le (List.prefix_append _ _) h hlen'.le
  exact hfront.eq_of_length hlen'

/-- A replaced occurrence is one of the input, or lies in a mark. -/
theorem taken_run (h : Left vs text τ) (hfits : Fits vs text v)
    (hpass : Replace.Pass (reads v) v.length marked τ out ps) (hp : p ∈ ps) :
    places p = [] ∨ ∃ i, Run i p := by
  obtain ⟨-, hlen, x, t, hτ, hhit⟩ := hpass.hit_of_mem hp
  obtain ⟨hchain, hshows⟩ := h.segment hτ
  exact read_fits hchain hshows ((reads_append hlen).1 hhit ▸ hfits)

theorem taken_occurs (h : Left vs text τ)
    (hpass : Replace.Pass (reads v) v.length marked τ out ps) (hp : p ∈ ps) (hrun : Run i p) :
    Occurs text v i := by
  obtain ⟨-, hlen, x, t, hτ, hhit⟩ := hpass.hit_of_mem hp
  rw [← (reads_append hlen).1 hhit]
  exact hrun.occurs (h.segment hτ).2

theorem mem_taken (h : Left vs text τ) (hfits : Fits vs text v)
    (hpass : Replace.Pass (reads v) v.length marked τ out ps) {q : ℕ} :
    q ∈ places ps.flatten ↔ ∃ i, (∃ p ∈ ps, Run i p) ∧ i ≤ q ∧ q < i + v.length := by
  rw [mem_places]
  refine ⟨?_, ?_⟩
  · rintro ⟨c, hc⟩
    obtain ⟨p, hp, hc⟩ := List.mem_flatten.1 hc
    have hq : q ∈ places p := mem_places.2 ⟨c, hc⟩
    rcases taken_run h hfits hpass hp with hnone | ⟨i, hrun⟩
    · rw [hnone] at hq
      cases hq
    · have hbounds := hrun.mem_places.1 hq
      rw [(hpass.hit_of_mem hp).2.1] at hbounds
      exact ⟨i, ⟨p, hp, hrun⟩, hbounds⟩
  · rintro ⟨i, ⟨p, hp, hrun⟩, hbounds⟩
    rw [← (hpass.hit_of_mem hp).2.1] at hbounds
    obtain ⟨c, hc⟩ := mem_places.1 (hrun.mem_places.2 hbounds)
    exact ⟨c, List.mem_flatten.2 ⟨p, hp, hc⟩⟩

theorem run_inj (hp : p ≠ []) (hi : Run i p) (hj : Run j p) : i = j := by
  obtain ⟨e, p, rfl⟩ := List.exists_cons_of_ne_nil hp
  exact Option.some.inj (hi.1.symm.trans hj.1)

/-- Replaced occurrences do not share a place. -/
theorem same_or_apart (hnodup : (places ps.flatten).Nodup) {p' : Tagged} (hp : p ∈ ps)
    (hp' : p' ∈ ps) : p = p' ∨ (places p).Disjoint (places p') := by
  rw [places, List.filterMap_flatten] at hnodup
  have hpairs := List.pairwise_map.1 (List.nodup_flatten.1 hnodup).2
  let R (x y : Tagged) : Prop := x = y ∨ (places x).Disjoint (places y)
  have : Std.Symm R := ⟨fun x y hxy => hxy.imp Eq.symm List.Disjoint.symm⟩
  have hR : ps.Pairwise R := hpairs.imp fun hxy => .inr hxy
  exact hR.forall_of_forall (fun x _ => .inl rfl) hp hp'

/-- A pass finds occurrences that are whole, from left to right. -/
theorem found_pass (h : Left vs text τ) (hfits : Fits vs text v) (hv : v ≠ [])
    (hpass : Replace.Pass (reads v) v.length marked τ out ps) :
    Found text v (places τ) (places out) {i | ∃ p ∈ ps, Run i p} := by
  have hperm : (places τ).Perm (places ps.flatten ++ places out) := hpass.perm places_marked
  have hnodup : (places ps.flatten ++ places out).Nodup :=
    hperm.nodup_iff.1 (h.order.imp fun hlt => Nat.ne_of_lt hlt)
  obtain ⟨hflat, -, hdisjoint⟩ := List.nodup_append'.1 hnodup
  refine ⟨?_, ?_, ?_, ?_, ?_⟩
  · rintro i ⟨p, hp, hrun⟩
    exact taken_occurs h hpass hp hrun
  · intro i hi q hlo hhi
    exact hperm.mem_iff.2 (List.mem_append_left _ ((mem_taken h hfits hpass).2 ⟨i, hi, hlo, hhi⟩))
  · rintro i ⟨p, hp, hi⟩ j ⟨p', hp', hj⟩ q hiq hqi hjq hqj
    obtain ⟨hne, hlen, -⟩ := hpass.hit_of_mem hp
    obtain ⟨-, hlen', -⟩ := hpass.hit_of_mem hp'
    rcases same_or_apart hflat hp hp' with rfl | hdis
    · exact run_inj hne hi hj
    · exact absurd (hj.mem_places.2 ⟨hjq, by omega⟩) (hdis (hi.mem_places.2 ⟨hiq, by omega⟩))
  · intro i hocc hwhole
    have hpos := List.length_pos_iff.2 hv
    obtain ⟨c, hc⟩ := mem_places.1 (hwhole i le_rfl (by omega))
    obtain ⟨x, σ, hτ⟩ := List.append_of_mem hc
    obtain ⟨p, t, hσ, hlen, hrun⟩ := h.run (v.length - 1) hτ fun k hk =>
      hwhole (i + k) (by omega) (by omega)
    have hlen' : p.length = v.length := by omega
    have hword := hrun.word hlen' (h.segment (p := p) (t := t) (by rw [hτ, hσ])).2 hocc
    have hhit : reads v ((c, some i) :: σ) = true := by
      rw [hσ]
      exact (reads_append hlen').2 hword
    obtain ⟨p', hp', hmem⟩ := hpass.start_mem hτ hhit
    have hq : i ∈ places ps.flatten :=
      mem_places.2 ⟨c, List.mem_flatten.2 ⟨p', hp', hmem⟩⟩
    exact (mem_taken h hfits hpass).1 hq
  · intro q
    have hmem := hperm.mem_iff (a := q)
    rw [List.mem_append] at hmem
    refine ⟨fun hq => ⟨hmem.2 (.inr hq), fun hcov => ?_⟩, fun ⟨hq, hcov⟩ => ?_⟩
    · exact hdisjoint ((mem_taken h hfits hpass).2 hcov) hq
    · exact (hmem.1 hq).resolve_left fun hq => hcov ((mem_taken h hfits hpass).1 hq)

theorem Link.mono {S S' : List ℕ} (hS : ∀ q ∈ S', q ∈ S) {a b : Char × Option ℕ}
    (h : Link vs text S a b) : Link vs text S' a b := by
  obtain ⟨c, x⟩ := a
  obtain ⟨d, y⟩ := b
  cases x with
  | none => cases y <;> exact h
  | some q =>
    cases y with
    | none => exact ⟨h.1, h.2.1, fun hq => h.2.2 (hS _ hq)⟩
    | some r => exact h

/-- A mark after what is left of the text, before more of it. -/
theorem chain_marks {R : Char × Option ℕ → Char × Option ℕ → Prop}
    (hR : ∀ c d, R (c, none) (d, none)) {c : Char} {σ : Tagged} (h : ((c, none) :: σ).IsChain R) :
    ∀ l : Text, ((l.map fun d => (d, none)) ++ (c, none) :: σ).IsChain R
  | [] => h
  | [d] => .cons_cons (hR d c) h
  | d :: e :: l => .cons_cons (hR d e) (chain_marks hR h (e :: l))

/-- `b` stands in what comes out where `a` stood : the same, or the end of a mark and of an
occurrence. -/
def Follows (vs : List Text) (text : Text) (a b : Char × Option ℕ) : Prop :=
  a = b ∨ b = (']', none) ∧ ∀ q, a.2 = some q → Stops vs text (q + 1)

theorem Follows.link {S S' : List ℕ} (hS : ∀ q ∈ S', q ∈ S) {a b e : Char × Option ℕ}
    (h : Follows vs text a b) (hlink : Link vs text S a e) : Link vs text S' b e := by
  rcases h with rfl | ⟨rfl, hstop⟩
  · exact hlink.mono hS
  obtain ⟨c, x⟩ := a
  obtain ⟨d, y⟩ := e
  cases y with
  | none => trivial
  | some r =>
    cases x with
    | none => exact ⟨rfl, hlink.2⟩
    | some q =>
      obtain rfl : r = q + 1 := hlink
      exact ⟨rfl, hstop q rfl⟩

theorem Run.getLast : ∀ {p : Tagged} {i : ℕ} (hp : p ≠ []), Run i p →
    (p.getLast hp).2 = some (i + p.length - 1)
  | [e], i, _, h => h.1
  | e :: e' :: p, i, _, h => by
    have ih := Run.getLast (List.cons_ne_nil e' p) h.2
    rw [List.getLast_cons (List.cons_ne_nil e' p), ih, List.length_cons (a := e)]
    congr 1
    omega

/-- What comes out of a pass is linked. -/
theorem linked_pass {S S' : List ℕ} (hS : ∀ q ∈ S', q ∈ S) (hv : v ∈ vs) (hne : v ≠ [])
    (hfits : Fits vs text v) {s : Tagged}
    (hpass : Replace.Pass (reads v) v.length marked s out ps) :
    s.IsChain (Link vs text S) → (∀ c q, (c, some q) ∈ s → text[q]? = some c) →
    (∀ p ∈ ps, ∀ q ∈ places p, q ∉ S') → out.IsChain (Link vs text S') ∧
      ∀ a b, (∀ e ∈ s.head?, Link vs text S a e) → Follows vs text a b →
        ∀ e ∈ out.head?, Link vs text S' b e := by
  induction hpass with
  | nil =>
    refine fun _ _ _ => ⟨.nil, fun a b _ _ e he => ?_⟩
    cases he
  | @keep c s out ps _ _ ih =>
    intro hchain hshows hgone
    rw [List.isChain_cons] at hchain
    obtain ⟨hout, hhead⟩ := ih hchain.2 (fun d q hq => hshows d q (List.mem_cons_of_mem _ hq)) hgone
    refine ⟨List.isChain_cons.2 ⟨hhead c c hchain.1 (.inl rfl), hout⟩, fun a b ha hab e he => ?_⟩
    obtain rfl := Option.some.inj he
    exact hab.link hS (ha c rfl)
  | @take p s out ps hp hlen hhit _ ih =>
    intro hchain hshows hgone
    have hword := (reads_append hlen).1 hhit
    have hshows' : ∀ c q, (c, some q) ∈ p → text[q]? = some c :=
      fun c q hq => hshows c q (List.mem_append_left _ hq)
    have hread := read_fits hchain.left_of_append hshows' (hword ▸ hfits)
    have hocc : ∀ i, Run i p → Occurs text v i := fun i hrun => hword ▸ hrun.occurs hshows'
    obtain ⟨hout, hhead⟩ := ih hchain.right_of_append
      (fun d q hq => hshows d q (List.mem_append_right _ hq))
      fun p' hp' => hgone p' (List.mem_cons_of_mem _ hp')
    refine ⟨?_, fun a b ha hab e he => ?_⟩
    · -- the mark ends where the occurrence did
      have hlast : ∀ e ∈ s.head?, Link vs text S (p.getLast hp) e := by
        have hsplit := hchain
        rw [← List.dropLast_append_getLast hp, List.append_assoc] at hsplit
        exact (List.isChain_cons.1 hsplit.right_of_append).1
      have hfollows : Follows vs text (p.getLast hp) (']', none) := by
        refine .inr ⟨rfl, fun q hq => ?_⟩
        rcases hread with hnone | ⟨i, hrun⟩
        · have hmem : q ∈ places p :=
            mem_places.2 ⟨_, by rw [← hq]; exact List.getLast_mem hp⟩
          rw [hnone] at hmem
          cases hmem
        · have hpos := List.length_pos_iff.2 hp
          rw [hrun.getLast hp, Option.some_inj] at hq
          exact ⟨v, hv, hne, i, hocc i hrun, by omega⟩
      exact chain_marks (fun _ _ => trivial)
        (List.isChain_cons.2 ⟨hhead _ _ hlast hfollows, hout⟩) "[redacted".toList
    · -- the mark starts where the occurrence did
      obtain rfl : ('[', none) = e := Option.some.inj he
      rcases hab with rfl | ⟨rfl, -⟩
      · obtain ⟨c, x⟩ := a
        obtain ⟨f, p, rfl⟩ := List.exists_cons_of_ne_nil hp
        have hlink := ha f rfl
        cases x with
        | none => trivial
        | some q =>
          obtain ⟨d, y⟩ := f
          cases y with
          | none => exact ⟨rfl, hlink.2.1, fun hq => hlink.2.2 (hS _ hq)⟩
          | some r =>
            obtain rfl : r = q + 1 := hlink
            rcases hread with hnone | ⟨i, hrun⟩
            · cases hnone
            · obtain rfl := Option.some.inj hrun.1
              exact ⟨rfl, ⟨v, hv, hne, hocc _ hrun⟩,
                hgone _ List.mem_cons_self _ (hrun.mem_places.2 ⟨le_rfl, by simp⟩)⟩
      · trivial

/-- A pass leaves characters of the input in order, and marks where occurrences were. -/
theorem left_pass (h : Left vs text τ) (hv : v ∈ vs) (hne : v ≠ []) (hfits : Fits vs text v)
    (hpass : Replace.Pass (reads v) v.length marked τ out ps) : Left vs text out := by
  have hsub : (places out).Sublist (places τ) := hpass.sublist places_marked
  have hfound := found_pass h hfits hne hpass
  refine ⟨fun c q hq => ?_, fun c hc => ?_, h.order.sublist hsub, ?_⟩
  · rcases hpass.mem_out hq with hq | hq
    · exact h.shows c q hq
    · obtain ⟨d, -, hd⟩ := List.mem_map.1 hq
      cases hd
  · rcases hpass.mem_out hc with hc | hc
    · exact h.marks c hc
    · obtain ⟨d, hd, heq⟩ := List.mem_map.1 hc
      obtain ⟨rfl, -⟩ := Prod.mk.inj heq
      exact hd
  · refine (linked_pass (fun q hq => hsub.subset hq) hv hne hfits hpass h.linked h.shows ?_).1
    intro p hp q hq hout
    refine ((hfound.rest q).1 hout).2 ?_
    refine (mem_taken h hfits hpass).1 ?_
    obtain ⟨c, hc⟩ := mem_places.1 hq
    exact mem_places.2 ⟨c, List.mem_flatten.2 ⟨p, hp, hc⟩⟩

end Step

/-! ## The run as a choice by precedence -/

section Choice

variable {us : List Text} {o : ℕ × ℕ} {q : ℕ}

/-- An occurrence of a value : the place of the value in the list, and where it starts. -/
def Candidate (vs : List Text) (text : Text) (o : ℕ × ℕ) : Prop :=
  ∃ v, vs[o.1]? = some v ∧ v ≠ [] ∧ Occurs text v o.2

/-- A place lies in an occurrence. -/
def Covers (vs : List Text) (o : ℕ × ℕ) (q : ℕ) : Prop :=
  ∃ v, vs[o.1]? = some v ∧ o.2 ≤ q ∧ q < o.2 + v.length

/-- Two occurrences share a place. -/
def Meets (vs : List Text) (o o' : ℕ × ℕ) : Prop :=
  ∃ q, Covers vs o q ∧ Covers vs o' q

/-- By the place of the value in the list, then from left to right. -/
def Before : ℕ × ℕ → ℕ × ℕ → Prop :=
  Prod.Lex (· < ·) (· < ·)

/-- The occurrences chosen by precedence cover every occurrence. -/
def Tiled (vs : List Text) (text : Text) : Prop :=
  ∃ T : Set (ℕ × ℕ), Stable Before (Meets vs) {o | Candidate vs text o} T ∧
    ∀ o, Candidate vs text o → ∀ q, Covers vs o q → ∃ t ∈ T, Covers vs t q

theorem wellFounded_before : WellFounded Before :=
  WellFounded.prod_lex wellFounded_lt wellFounded_lt

theorem Candidate.lt (h : Candidate vs text o) : o.1 < vs.length := by
  obtain ⟨v, hv, -⟩ := h
  exact (List.getElem?_eq_some_iff.1 hv).1

theorem getElem?_snoc (ho : o.1 < us.length) : (us ++ [v])[o.1]? = us[o.1]? :=
  List.getElem?_append_left ho

theorem covers_snoc (ho : o.1 < us.length) : Covers (us ++ [v]) o q ↔ Covers us o q := by
  rw [Covers, Covers, getElem?_snoc ho]

theorem candidate_snoc (ho : o.1 < us.length) :
    Candidate (us ++ [v]) text o ↔ Candidate us text o := by
  rw [Candidate, Candidate, getElem?_snoc ho]

theorem covers_last : Covers (us ++ [v]) (us.length, i) q ↔ i ≤ q ∧ q < i + v.length := by
  rw [Covers, List.getElem?_concat_length]
  refine ⟨?_, fun h => ⟨v, rfl, h⟩⟩
  rintro ⟨w, hw, h⟩
  rw [Option.some.inj hw]
  exact h

theorem candidate_last : Candidate (us ++ [v]) text (us.length, i) ↔ v ≠ [] ∧ Occurs text v i := by
  rw [Candidate, List.getElem?_concat_length]
  refine ⟨?_, fun h => ⟨v, rfl, h⟩⟩
  rintro ⟨w, hw, h⟩
  rw [Option.some.inj hw]
  exact h

theorem Candidate.last_or (h : Candidate (us ++ [v]) text o) :
    o.1 < us.length ∨ o = (us.length, o.2) := by
  have hlt := h.lt
  rw [List.length_append, List.length_singleton] at hlt
  rcases Nat.lt_succ_iff_lt_or_eq.1 hlt with hlt | heq
  · exact .inl hlt
  · exact .inr (Prod.ext heq rfl)

theorem Occurs.lt (h : Occurs text v i) (hi : i ≤ q) (hq : q < i + v.length) :
    q < text.length := by
  have hle := h.length_le
  rw [List.length_drop] at hle
  omega

section Snoc

variable {T : Set (ℕ × ℕ)} {C : Set ℕ} {before after : List ℕ}

/-- The choice with the occurrences that the next value finds. -/
def withFound (us : List Text) (T : Set (ℕ × ℕ)) (C : Set ℕ) : Set (ℕ × ℕ) :=
  T ∪ {o | o.1 = us.length ∧ o.2 ∈ C}

theorem exists_covers (hT : T ⊆ {o | Candidate us text o}) :
    (∃ t ∈ withFound us T C, Covers (us ++ [v]) t q) ↔
      (∃ t ∈ T, Covers us t q) ∨ ∃ i ∈ C, i ≤ q ∧ q < i + v.length := by
  refine ⟨?_, ?_⟩
  · rintro ⟨t, ht | ⟨ht, hi⟩, hcov⟩
    · exact .inl ⟨t, ht, (covers_snoc (hT ht).lt).1 hcov⟩
    · obtain ⟨k, i⟩ := t
      obtain rfl : k = us.length := ht
      exact .inr ⟨i, hi, covers_last.1 hcov⟩
  · rintro (⟨t, ht, hcov⟩ | ⟨i, hi, hcov⟩)
    · exact ⟨t, .inl ht, (covers_snoc (hT ht).lt).2 hcov⟩
    · exact ⟨(us.length, i), .inr ⟨rfl, hi⟩, covers_last.2 hcov⟩

/-- It is the choice among the occurrences of all these values. -/
theorem stable_snoc (hT : Stable Before (Meets us) {o | Candidate us text o} T)
    (hbefore : ∀ q, q ∈ before ↔ q < text.length ∧ ¬∃ t ∈ T, Covers us t q) (hv : v ≠ [])
    (hC : Found text v before after C) :
    Stable Before (Meets (us ++ [v])) {o | Candidate (us ++ [v]) text o} (withFound us T C) := by
  -- an occurrence that was found is whole, so none of before is in its way
  have hmixed : ∀ t ∈ T, ∀ i ∈ C, ∀ q, Covers us t q → i ≤ q → q < i + v.length → False :=
    fun t ht i hi q hcov hlo hhi =>
      ((hbefore q).1 (hC.whole i hi q hlo hhi)).2 ⟨t, ht, hcov⟩
  refine ⟨?_, ?_, ?_⟩
  · rintro ⟨k, i⟩ (ho | ⟨rfl, hi⟩)
    · exact (candidate_snoc (hT.sub ho).lt).2 (hT.sub ho)
    · exact candidate_last.2 ⟨hv, hC.occurs i hi⟩
  · rintro ⟨k, i⟩ ht ⟨l, j⟩ hu ⟨q, htq, huq⟩
    rcases ht with ht | ⟨rfl, hi⟩
    · rw [covers_snoc (hT.sub ht).lt] at htq
      rcases hu with hu | ⟨rfl, hj⟩
      · rw [covers_snoc (hT.sub hu).lt] at huq
        exact hT.apart _ ht _ hu ⟨q, htq, huq⟩
      · obtain ⟨hlo, hhi⟩ := covers_last.1 huq
        exact (hmixed _ ht j hj q htq hlo hhi).elim
    · obtain ⟨hlo, hhi⟩ := covers_last.1 htq
      rcases hu with hu | ⟨rfl, hj⟩
      · rw [covers_snoc (hT.sub hu).lt] at huq
        exact (hmixed _ hu i hi q huq hlo hhi).elim
      · obtain ⟨hlo', hhi'⟩ := covers_last.1 huq
        rw [hC.apart i hi j hj q hlo hhi hlo' hhi']
  · intro o ho hno
    rcases ho.last_or with hlt | heq
    · have hold : o ∉ T := fun h => hno (.inl h)
      obtain ⟨t, ht, hbef, q, htq, hoq⟩ := hT.first o ((candidate_snoc hlt).1 ho) hold
      exact ⟨t, .inl ht, hbef, q, (covers_snoc (hT.sub ht).lt).2 htq, (covers_snoc hlt).2 hoq⟩
    · obtain ⟨i, rfl⟩ : ∃ i, o = (us.length, i) := ⟨o.2, heq⟩
      obtain ⟨-, hocc⟩ := candidate_last.1 ho
      by_cases hwhole : ∀ q, i ≤ q → q < i + v.length → q ∈ before
      · obtain ⟨j, hj, hle, hlt⟩ := hC.first i hocc hwhole
        have hne : j ≠ i := by
          rintro rfl
          exact hno (.inr ⟨rfl, hj⟩)
        have hpos := List.length_pos_iff.2 hv
        exact ⟨(us.length, j), .inr ⟨rfl, hj⟩, .right _ (lt_of_le_of_ne hle hne), i,
          covers_last.2 ⟨hle, hlt⟩, covers_last.2 ⟨le_rfl, by omega⟩⟩
      · push Not at hwhole
        obtain ⟨q, hlo, hhi, hq⟩ := hwhole
        obtain ⟨t, ht, hcov⟩ : ∃ t ∈ T, Covers us t q := by
          by_contra hno
          exact hq ((hbefore q).2 ⟨hocc.lt hlo hhi, hno⟩)
        have hlt := (hT.sub ht).lt
        exact ⟨t, .inl ht, .left _ _ hlt, q, (covers_snoc hlt).2 hcov, covers_last.2 ⟨hlo, hhi⟩⟩

end Snoc

theorem run_tagFrom : ∀ (i : ℕ) (s : Text), Run i (tagFrom i s)
  | _, [] => trivial
  | i, _ :: s => ⟨rfl, run_tagFrom (i + 1) s⟩

theorem length_tagFrom : ∀ (i : ℕ) (s : Text), (tagFrom i s).length = s.length
  | _, [] => rfl
  | i, _ :: s => congrArg (· + 1) (length_tagFrom (i + 1) s)

theorem mem_tagFrom {c : Char} {x : Option ℕ} : ∀ {i : ℕ} {s : Text}, (c, x) ∈ tagFrom i s →
    ∃ k, x = some (i + k) ∧ s[k]? = some c
  | i, d :: s, h => by
    rcases List.mem_cons.1 h with h | h
    · obtain ⟨rfl, rfl⟩ := Prod.mk.inj h
      exact ⟨0, rfl, rfl⟩
    · obtain ⟨k, rfl, hk⟩ := mem_tagFrom h
      exact ⟨k + 1, by rw [Nat.add_assoc, Nat.add_comm 1], hk⟩

theorem chain_tagFrom (S : List ℕ) : ∀ (i : ℕ) (s : Text), (tagFrom i s).IsChain (Link vs text S)
  | _, [] => .nil
  | _, [_] => .singleton _
  | i, _ :: d :: s => .cons_cons rfl (chain_tagFrom S (i + 1) (d :: s))

/-- Before the first pass all of the input is left. -/
theorem tagFrom_left (vs : List Text) : Left vs text (tagFrom 0 text) where
  shows c p h := by
    obtain ⟨k, hk, hc⟩ := mem_tagFrom h
    rw [Option.some.inj hk, Nat.zero_add]
    exact hc
  marks c h := by
    obtain ⟨k, hk, -⟩ := mem_tagFrom h
    cases hk
  order := by
    rw [(run_tagFrom 0 text).places]
    exact List.pairwise_lt_range'
  linked := chain_tagFrom _ 0 text

theorem reads_length (v : Text) (t : Tagged) (h : reads v t = true) : v.length ≤ t.length := by
  have hle := (reads_iff.1 h).length_le
  rwa [List.length_map] at hle

/-- The passes choose occurrences by precedence, and what is left is what they do not cover. -/
theorem run_stable (hclear : Clear vs text) : ∀ us : List Text, (∀ v ∈ us, v ∈ vs ∧ v ≠ []) →
    Left vs text (maskTagged us text) ∧
      ∃ T, Stable Before (Meets us) {o | Candidate us text o} T ∧
        ∀ q, q ∈ places (maskTagged us text) ↔ q < text.length ∧ ¬∃ t ∈ T, Covers us t q := by
  intro us
  induction us using List.reverseRecOn with
  | nil =>
    refine fun _ => ⟨tagFrom_left vs, ∅, ⟨Set.empty_subset _, fun t ht => ht.elim, ?_⟩, ?_⟩
    · rintro o ⟨v, hv, -⟩
      cases hv
    · intro q
      rw [maskTagged, List.foldl_nil, (run_tagFrom 0 text).mem_places, length_tagFrom]
      simp
  | append_singleton us v ih =>
    intro hmem
    obtain ⟨hleft, T, hT, hplaces⟩ := ih fun w hw => hmem w (List.mem_append_left _ hw)
    obtain ⟨hv, hne⟩ := hmem v (List.mem_append_right _ List.mem_cons_self)
    obtain ⟨ps, hpass⟩ := Replace.exists_pass marked (List.length_pos_iff.2 hne)
      (reads_length v) (maskTagged us text)
    have hout : maskTagged (us ++ [v]) text =
        Replace.replaceHits (reads v) v.length marked 0 (maskTagged us text) := by
      have hne' : ¬v.isEmpty = true := by rwa [List.isEmpty_iff]
      rw [maskTagged, List.foldl_append, List.foldl_cons, List.foldl_nil, replaceValue, if_neg hne']
      rfl
    rw [hout]
    have hfound := found_pass hleft (hclear v hv) hne hpass
    refine ⟨left_pass hleft hv hne (hclear v hv) hpass, _, stable_snoc hT hplaces hne hfound, ?_⟩
    intro q
    rw [exists_covers hT.sub, hfound.rest, hplaces, not_or, and_assoc]

/-! ## What is left of a secret -/

/-- A place lies in an occurrence of a value. -/
def Within (vs : List Text) (text : Text) (q : ℕ) : Prop :=
  ∃ v ∈ vs, ∃ i, Occurs text v i ∧ i ≤ q ∧ q < i + v.length

/-- No character of the input that lay in an occurrence of a value is left. -/
def LeavesNothing (vs : List Text) (text : Text) (out : Tagged) : Prop :=
  ∀ q, Within vs text q → q ∉ places out

theorem within_iff : Within vs text q ↔ ∃ o, Candidate vs text o ∧ Covers vs o q := by
  refine ⟨?_, ?_⟩
  · rintro ⟨v, hv, i, hocc, hlo, hhi⟩
    obtain ⟨k, hk⟩ := List.getElem?_of_mem hv
    have hne : v ≠ [] := List.ne_nil_of_length_pos (by omega)
    exact ⟨(k, i), ⟨v, hk, hne, hocc⟩, v, hk, hlo, hhi⟩
  · rintro ⟨⟨k, i⟩, ⟨v, hv, -, hocc⟩, w, hw, hcov⟩
    obtain rfl := Option.some.inj (hv.symm.trans hw)
    exact ⟨v, List.mem_of_getElem? hv, i, hocc, hcov⟩

/-- The passes leave nothing of a secret just when the choice by precedence covers it all. -/
theorem leavesNothing_iff (hclear : Clear vs text) (hne : [] ∉ vs) :
    LeavesNothing vs text (maskTagged vs text) ↔ Tiled vs text := by
  have hmem : ∀ v ∈ vs, v ∈ vs ∧ v ≠ [] := fun v hv => ⟨hv, fun h => hne (h ▸ hv)⟩
  obtain ⟨-, T, hT, hplaces⟩ := run_stable hclear vs hmem
  refine ⟨fun h => ⟨T, hT, fun o ho q hcov => ?_⟩, fun h q hq hleft => ?_⟩
  · by_contra hno
    obtain ⟨v, hv, i, hocc, hlo, hhi⟩ := within_iff.2 ⟨o, ho, hcov⟩
    exact h q ⟨v, hv, i, hocc, hlo, hhi⟩ ((hplaces q).2 ⟨hocc.lt hlo hhi, hno⟩)
  · obtain ⟨T', hT', hall⟩ := h
    obtain ⟨o, ho, hcov⟩ := within_iff.1 hq
    obtain ⟨t, ht, hcov⟩ := hall o ho q hcov
    rw [hT'.unique wellFounded_before hT] at ht
    exact ((hplaces q).1 hleft).2 ⟨t, ht, hcov⟩

end Choice

/-! ## The token shapes -/

section Tokens

variable {isWord isWhite : Char → Bool}

/-- The values that the log filter replaces. -/
def long (vs : List Text) : List Text :=
  vs.filter fun v => 6 ≤ v.length

/-- How what has the shape of a token starts. -/
def tokenStarts : List Text :=
  ["hf_".toList, "ec_".toList, "sk-".toList, "Bearer".toList]

/-- Nothing in the text starts like a token. -/
def TokenFree (text : Text) : Prop :=
  ∀ lit ∈ tokenStarts, ¬lit <:+: text

theorem scrubTagged_eq (vs : List Text) (text : Text) : scrubTagged isWord isWhite vs text =
    replaceMatches isWord isWhite Prod.fst marked none 0 (maskTagged (long vs) text) := by
  rw [scrubTagged, maskTagged, long, List.foldl_filter]
  simp

theorem places_replaceMatches : ∀ {prev : Option Char} {skip : ℕ} {τ : Tagged} {q : ℕ},
    q ∈ places (replaceMatches isWord isWhite Prod.fst marked prev skip τ) → q ∈ places τ
  | _, _, [], q, h => by
    rwa [replaceMatches] at h
  | _, skip + 1, c :: τ, q, h => by
    rw [replaceMatches] at h
    exact (List.Sublist.filterMap _ (List.sublist_cons_self c τ)).subset (places_replaceMatches h)
  | prev, 0, c :: τ, q, h => by
    have hsub : (places τ).Sublist (places (c :: τ)) :=
      List.Sublist.filterMap _ (List.sublist_cons_self c τ)
    rw [replaceMatches] at h
    cases hm : secretValue isWord isWhite prev ((c :: τ).map Prod.fst) with
    | some n =>
      rw [hm] at h
      dsimp only at h
      rw [places_append, places_marked, List.nil_append] at h
      exact hsub.subset (places_replaceMatches h)
    | none =>
      rw [hm] at h
      dsimp only at h
      rw [← List.singleton_append, places_append, List.mem_append] at h ⊢
      exact h.imp_right places_replaceMatches

/-- Where nothing has the shape of a token the text is kept. -/
theorem replaceMatches_none : ∀ {prev : Option Char} {τ : Tagged},
    (∀ prev x σ, τ = x ++ σ → secretValue isWord isWhite prev (σ.map Prod.fst) = none) →
    replaceMatches isWord isWhite Prod.fst marked prev 0 τ = τ
  | _, [], _ => by rw [replaceMatches]
  | prev, c :: τ, h => by
    rw [replaceMatches, h prev [] (c :: τ) rfl]
    dsimp only
    rw [replaceMatches_none fun prev x σ hτ => h prev (c :: x) σ (by rw [hτ]; rfl)]

theorem secretValue_none {s : Text} (h : ∀ lit ∈ tokenStarts, ¬lit <+: s) (prev : Option Char) :
    secretValue isWord isWhite prev s = none := by
  have hmiss : ∀ lit ∈ tokenStarts, lit.isPrefixOf s = false := by
    intro lit hlit
    rw [Bool.eq_false_iff, ne_eq, List.isPrefixOf_iff_prefix]
    exact h lit hlit
  rw [secretValue, bearer, shape, shape, shape]
  rw [hmiss "hf_".toList (by simp [tokenStarts]), hmiss "ec_".toList (by simp [tokenStarts]),
    hmiss "sk-".toList (by simp [tokenStarts]), hmiss "Bearer".toList (by simp [tokenStarts])]
  simp

/-- A word without square brackets fits. -/
theorem fits_of_plain (hopen : '[' ∉ w) (hclose : ']' ∉ w) : Fits vs text w :=
  ⟨fun _ _ _ _ h => hopen (h.subset (by simp)), fun _ _ _ _ h => hclose (h.subset (by simp))⟩

/-- The starts of tokens have no square bracket, and not only letters of the mark. -/
theorem plain_tokenStarts {lit : Text} (h : lit ∈ tokenStarts) :
    '[' ∉ lit ∧ ']' ∉ lit ∧ ∃ c ∈ lit, c ∉ redacted := by
  simp only [tokenStarts, List.mem_cons, List.not_mem_nil, or_false] at h
  rcases h with rfl | rfl | rfl | rfl
  · exact ⟨by decide, by decide, '_', by decide, by decide⟩
  · exact ⟨by decide, by decide, '_', by decide, by decide⟩
  · exact ⟨by decide, by decide, '-', by decide, by decide⟩
  · exact ⟨by decide, by decide, 'B', by decide, by decide⟩

/-- What is left of a text without starts of tokens has none. -/
theorem no_token (h : Left vs text τ) (hfree : TokenFree text) {x σ : Tagged} (hτ : τ = x ++ σ) :
    ∀ lit ∈ tokenStarts, ¬lit <+: σ.map Prod.fst := by
  intro lit hlit hfront
  obtain ⟨hopen, hclose, c, hc, hmark⟩ := plain_tokenStarts hlit
  -- the characters that read the word
  have hword : (σ.take lit.length).map Prod.fst = lit := by
    rw [List.map_take]
    exact (List.prefix_iff_eq_take.1 hfront).symm
  obtain ⟨hchain, hshows⟩ := h.segment (p := σ.take lit.length) (t := σ.drop lit.length)
    (by rw [List.take_append_drop, hτ])
  rcases read_fits hchain hshows (hword.symm ▸ fits_of_plain hopen hclose) with hnone | ⟨i, hrun⟩
  · rw [← hword] at hc
    obtain ⟨⟨d, y⟩, hd, rfl⟩ := List.mem_map.1 hc
    cases y with
    | none =>
      refine hmark (h.marks d ?_)
      rw [hτ]
      exact List.mem_append_right _ (List.mem_of_mem_take hd)
    | some q =>
      have hq : q ∈ places (σ.take lit.length) := mem_places.2 ⟨d, hd⟩
      rw [hnone] at hq
      cases hq
  · have hocc := hrun.occurs hshows
    rw [hword] at hocc
    exact hfree lit hlit (hocc.isInfix.trans (List.drop_suffix _ _).isInfix)

theorem long_ne (v : Text) (hv : v ∈ long vs) : v ∈ long vs ∧ v ≠ [] := by
  refine ⟨hv, ?_⟩
  rintro rfl
  simp [long] at hv

/-- The last step only takes more away. -/
theorem LeavesNothing.scrub (h : LeavesNothing (long vs) text (maskTagged (long vs) text)) :
    LeavesNothing (long vs) text (scrubTagged isWord isWhite vs text) := by
  rw [scrubTagged_eq]
  exact fun q hq hleft => h q hq (places_replaceMatches hleft)

/-- Without starts of tokens the last step takes nothing away. -/
theorem scrubTagged_of_free (hclear : Clear (long vs) text) (hfree : TokenFree text) :
    scrubTagged isWord isWhite vs text = maskTagged (long vs) text := by
  rw [scrubTagged_eq]
  have hleft := (run_stable hclear (long vs) long_ne).1
  exact replaceMatches_none fun prev x σ hτ => secretValue_none (no_token hleft hfree hτ) prev

end Tokens

end EngineConsole.Masking
