import Mathlib

/-!
# The pages of a node's library

A node answers `models.list` with one page of the generation it has published
(`Scanner::page` of ecnode, `models.rs`) : at most so many entries, and no entry with which a
page would grow beyond `PAGE_BYTES`, unless it is the first. The hub (`list_all` and
`one_pass` of ec-hub, `library.rs`) asks for one page after another, starts over when the
generation changes, and the third time takes what it gets.

It asks for as many pages as there would be if only the number of entries counted, and two
more. So it has the whole library exactly when the node needs no more pages than that
(`listing`); a library of large entries is cut short (`cut_short`).
-/

set_option linter.unusedSectionVars false

namespace EngineConsole

namespace Listing

variable {ε ρ E : Type}

/-! ## The node -/

/-- `PAGE_BYTES` -/
def pageBytes : ℕ := 768 * 1024

/-- What the scanner has published. -/
structure Published (ε ρ : Type) where
  generation : ℤ
  snapshot : List ε
  roots : List ρ

/-- An answer to `models.list`; a cursor may be no number. -/
structure Page (ε ρ : Type) where
  generation : Option ℤ
  entries : List ε
  nextCursor : Option (Option ℤ)
  roots : List ρ

/-- The entries that still fit on a page. -/
def fitting (size : ε → ℕ) : ℕ → List ε → List ε
  | _, [] => []
  | used, e :: es => if pageBytes < used + size e then [] else e :: fitting size (used + size e) es

/-- The first page of these entries. -/
def cut (size : ε → ℕ) (n : ℕ) (l : List ε) : List ε :=
  match l.take n with
  | [] => []
  | e :: es => e :: fitting size (size e) es

/-- The entries a page may have. -/
def pageCount (limit : Option ℤ) : ℕ :=
  let limit :=
    match limit with
    | none | some 0 => 200
    | some l => l
  (min 200 (max 1 limit)).toNat

/-- `Scanner::page`; `size` is the length of an entry's text. -/
def page (size : ε → ℕ) (pub : Published ε ρ) (cursor limit : Option ℤ) : Page ε ρ :=
  let first := (cursor.getD 0).toNat
  let entries := cut size (pageCount limit) (pub.snapshot.drop first)
  let last := first + entries.length
  { generation := some pub.generation
    entries
    nextCursor := if last < pub.snapshot.length then some (some last) else none
    roots := pub.roots }

/-! ## The hub -/

/-- `MAX_ENTRIES` -/
def maxEntries : ℕ := 20000

/-- What a pass has, and the generations of the pages it saw. -/
structure Pass (ε ρ : Type) where
  entries : List ε
  scans : List ρ
  generation : Option ℤ
  seen : List (Option ℤ)

/-- Nothing yet. -/
def Pass.empty : Pass ε ρ :=
  ⟨[], [], none, []⟩

/-- `one_pass` has more entries than the hub keeps, or more pages. -/
def Pass.truncate (p : Pass ε ρ) : Pass ε ρ :=
  { p with entries := p.entries.take maxEntries }

/-- The page is of another generation. -/
def Pass.differs (p : Pass ε ρ) (res : Page ε ρ) : Bool :=
  p.generation.isSome && res.generation.isSome && res.generation ≠ p.generation

/-- With one page more. -/
def Pass.add (p : Pass ε ρ) (res : Page ε ρ) : Pass ε ρ where
  entries := p.entries ++ res.entries
  scans := if p.scans.isEmpty then res.roots else p.scans
  generation := if p.generation.isNone then res.generation else p.generation
  seen := p.seen ++ [res.generation]

/-- How a node answers the calls of a hub, which are numbered. -/
abbrev NodeClient (ε ρ E : Type) :=
  ℕ → Option ℤ → Option ℤ → Except E (Page ε ρ)

/-- The argument `cursor`, which the first page has not. -/
def cursorArg (cursor : ℤ) : Option ℤ :=
  if cursor ≠ 0 then some cursor else none

/-- `one_pass`, with so many pages to go; it ends with the number of the next call. -/
def onePass (node : NodeClient ε ρ E) (limit : ℤ) (accept : Bool) :
    ℕ → ℕ → ℤ → Pass ε ρ → Except E (ℕ × Option (Pass ε ρ))
  | 0, k, _, p => .ok (k, some p.truncate)
  | n + 1, k, cursor, p =>
    match node k (cursorArg cursor) (some limit) with
    | .error e => .error e
    | .ok res =>
      if p.differs res && !accept then .ok (k + 1, none)
      else
        match res.nextCursor with
        | none => .ok (k + 1, some (p.add res))
        | some none => .ok (k + 1, some (p.add res))
        | some (some next) =>
          if cursor < next then
            if maxEntries ≤ (p.add res).entries.length then .ok (k + 1, some (p.add res).truncate)
            else onePass node limit accept n (k + 1) next (p.add res)
          else .ok (k + 1, some (p.add res))

/-- The pages that are asked for. -/
def maxPages (limit : ℤ) : ℕ :=
  (maxEntries / limit + 2).toNat

/-- The rest of `list_all`, with so many attempts to go. -/
def attempts (node : NodeClient ε ρ E) (limit : ℤ) (internal : E) :
    ℕ → ℕ → Except E (ℕ × Pass ε ρ)
  | 0, _ => .error internal
  | n + 1, k =>
    match onePass node limit (n = 0) (maxPages limit) k 0 .empty with
    | .error e => .error e
    | .ok (_, some p) => .ok (2 - n, p)
    | .ok (k, none) => attempts node limit internal n k

/-- `list_all`, with the attempt that gave the result. -/
def listAll (node : NodeClient ε ρ E) (limit : ℤ) (internal : E) : Except E (ℕ × Pass ε ρ) :=
  attempts node limit internal 3 0

/-! ## A hub and a node -/

/-- The pages of what a scanner has published at each call; a call may fail. -/
def scanner (size : ε → ℕ) (published : ℕ → Except E (Published ε ρ)) : NodeClient ε ρ E :=
  fun k cursor limit => (published k).map fun pub => page size pub cursor limit

/-- What is left of some entries after so many pages. -/
def leftAfter (size : ε → ℕ) (n : ℕ) : ℕ → List ε → List ε
  | 0, l => l
  | k + 1, l => leftAfter size n k (l.drop (cut size n l).length)

section

variable {size : ε → ℕ} {n k : ℕ} {l : List ε} {pub : Published ε ρ} {limit : ℤ}
  {published : ℕ → Except E (Published ε ρ)} {p : Pass ε ρ} {accept : Bool} {internal : E}

theorem fitting_prefix (used : ℕ) (l : List ε) : fitting size used l <+: l := by
  induction l generalizing used with
  | nil => exact List.prefix_rfl
  | cons e es ih =>
    unfold fitting
    split_ifs
    · exact List.nil_prefix
    · exact List.cons_prefix_cons.2 ⟨rfl, ih _⟩

theorem cut_isPrefix (n : ℕ) (l : List ε) : cut size n l <+: l := by
  have hle : cut size n l <+: l.take n := by
    unfold cut
    split
    · exact List.nil_prefix
    · next e es h =>
      rw [h]
      exact List.cons_prefix_cons.2 ⟨rfl, fitting_prefix _ _⟩
  exact hle.trans (List.take_prefix n l)

/-- A page of entries has one. -/
theorem cut_pos (hn : 0 < n) (hl : l ≠ []) : 0 < (cut size n l).length := by
  obtain ⟨e, es, rfl⟩ := List.exists_cons_of_ne_nil hl
  obtain ⟨m, rfl⟩ := Nat.exists_eq_succ_of_ne_zero hn.ne'
  simp [cut]

/-- With a page, what was read of a snapshot is longer by it. -/
theorem take_cut (c : ℕ) :
    pub.snapshot.take c ++ cut size n (pub.snapshot.drop c) =
      pub.snapshot.take (c + (cut size n (pub.snapshot.drop c)).length) := by
  rw [List.take_add, List.append_cancel_left_eq]
  exact List.prefix_iff_eq_take.1 (cut_isPrefix n _)

theorem pageCount_of_limit (h : 1 ≤ limit) (h' : limit ≤ 200) :
    pageCount (some limit) = limit.toNat := by
  unfold pageCount
  dsimp only
  split
  · next heq => cases heq
  · next heq => cases heq; omega
  · next heq => cases heq; omega

theorem leftAfter_nil (k : ℕ) : leftAfter size n k ([] : List ε) = [] := by
  induction k with
  | zero => rfl
  | succ k ih => rwa [leftAfter, List.drop_nil]

/-! ## A generation that stays -/

theorem first_of_cursorArg (c : ℕ) : ((cursorArg c).getD 0).toNat = c := by
  unfold cursorArg
  split_ifs with hc
  · exact Int.toNat_natCast c
  · obtain rfl : c = 0 := by omega
    rfl

/-- What one page adds to what was read of a snapshot. -/
theorem add_page {c : ℕ} {limit' : Option ℤ} (h : p.entries = pub.snapshot.take c)
    (hn : pageCount limit' = n) :
    (p.add (page size pub (cursorArg c) limit')).entries =
      pub.snapshot.take (c + (cut size n (pub.snapshot.drop c)).length) := by
  show p.entries ++ cut size (pageCount limit') (pub.snapshot.drop _) = _
  rw [h, first_of_cursorArg, hn, take_cut]

/-- The cursor of a page is where it ends. -/
theorem nextCursor_page (c : ℕ) {limit' : Option ℤ} (hn : pageCount limit' = n) :
    (page size pub (cursorArg c) limit').nextCursor =
      if c + (cut size n (pub.snapshot.drop c)).length < pub.snapshot.length then
        some (some ((c + (cut size n (pub.snapshot.drop c)).length : ℕ) : ℤ))
      else none := by
  show (if (_ : ℕ) + (cut size (pageCount limit') (pub.snapshot.drop _)).length < _ then
    some (some (((_ : ℕ) + _ : ℕ) : ℤ)) else none) = _
  rw [first_of_cursorArg, hn]

/-- A pass that starts somewhere in the snapshot has it all at the end, if nothing of it is
left after its pages. -/
theorem onePass_const (h₁ : 1 ≤ limit) (h₂ : limit ≤ 200)
    (hlen : pub.snapshot.length ≤ maxEntries) (N k c : ℕ) (p : Pass ε ρ)
    (hpub : ∀ i, k ≤ i → i < k + N → published i = .ok pub)
    (hentries : p.entries = pub.snapshot.take c)
    (hgen : p.generation = none ∨ p.generation = some pub.generation) :
    ∃ k' q, onePass (scanner size published) limit accept N k c p = .ok (k', some q) ∧
      (q.entries = pub.snapshot ↔ leftAfter size limit.toNat N (pub.snapshot.drop c) = []) := by
  have hcount := pageCount_of_limit h₁ h₂
  induction N generalizing k c p with
  | zero =>
    refine ⟨k, p.truncate, rfl, ?_⟩
    show p.entries.take maxEntries = pub.snapshot ↔ pub.snapshot.drop c = []
    have hshort : p.entries.length ≤ maxEntries := by
      rw [hentries, List.length_take]
      omega
    rw [List.take_of_length_le hshort, hentries, List.take_eq_self_iff, List.drop_eq_nil_iff]
  | succ N ih =>
    have hk : published k = .ok pub := hpub k le_rfl (by omega)
    let m := (cut size limit.toNat (pub.snapshot.drop c)).length
    have hadd : (p.add (page size pub (cursorArg c) limit)).entries =
        pub.snapshot.take (c + m) := add_page hentries hcount
    have hnext : (page size pub (cursorArg c) limit).nextCursor =
        if c + m < pub.snapshot.length then some (some ((c + m : ℕ) : ℤ)) else none :=
      nextCursor_page c hcount
    have hleft : leftAfter size limit.toNat (N + 1) (pub.snapshot.drop c) =
        leftAfter size limit.toNat N (pub.snapshot.drop (c + m)) := by
      rw [leftAfter, List.drop_drop]
    have hdiffers (cursor : Option ℤ) :
        p.differs (page size pub cursor (some limit)) = false := by
      rcases hgen with hg | hg <;> simp [Pass.differs, hg, page]
    rw [hleft]
    unfold onePass scanner
    rw [hk]
    simp only [Except.map, hdiffers, Bool.false_and, Bool.false_eq_true, if_false, hnext]
    by_cases hmore : c + m < pub.snapshot.length
    · have hpos : 0 < m := by
        refine cut_pos (by omega) fun hnil => ?_
        rw [List.drop_eq_nil_iff] at hnil
        omega
      rw [if_pos hmore]
      dsimp only
      rw [if_pos (by omega), if_neg ?_]
      · refine ih (k + 1) (c + m) _ (fun i hi hi' => hpub i (by omega) (by omega)) hadd ?_
        rcases hgen with hg | hg <;> simp [Pass.add, hg, page]
      · rw [hadd, List.length_take]
        omega
    · rw [if_neg hmore]
      refine ⟨_, _, rfl, ?_⟩
      rw [hadd, List.take_of_length_le (by omega), List.drop_eq_nil_of_le (by omega),
        leftAfter_nil]
      simp

/-! ## Generations that change -/

/-- Every page so far is of the generation of a pass, and of the snapshot it was published
with. -/
structure Same (published : ℕ → Except E (Published ε ρ)) (p : Pass ε ρ) (c : ℕ) : Prop where
  seen : ∀ g ∈ p.seen, g = p.generation
  entries : ∀ i pub, published i = .ok pub → p.generation = some pub.generation →
    p.entries = pub.snapshot.take c
  empty : p.generation = none → p.entries = [] ∧ p.seen = [] ∧ c = 0

theorem Same.start : Same published (.empty : Pass ε ρ) 0 :=
  ⟨by simp [Pass.empty], fun _ _ _ h => by simp [Pass.empty] at h, fun _ => ⟨rfl, rfl, rfl⟩⟩

/-- A page of the same generation. -/
theorem Same.add {c : ℕ} (h : Same published p c) (hk : published k = .ok pub)
    (hsnap : ∀ i q, published i = .ok q → q.generation = pub.generation →
      q.snapshot = pub.snapshot) {limit' : Option ℤ} (hn : pageCount limit' = n)
    (hdiffers : p.differs
      (page size pub (cursorArg c) limit') = false) :
    Same published (p.add (page size pub (cursorArg c) limit'))
      (c + (cut size n (pub.snapshot.drop c)).length) := by
  have hgen : (p.add (page size pub (cursorArg c) limit')).generation
      = some pub.generation ∧ (p.generation = none ∨ p.generation = some pub.generation) := by
    cases hg : p.generation with
    | none => exact ⟨by simp [Pass.add, hg, page], .inl rfl⟩
    | some g =>
      have hsame : pub.generation = g := by
        simpa [Pass.differs, hg, page] using hdiffers
      exact ⟨by simp [Pass.add, hg, hsame], .inr (by rw [hsame])⟩
  refine ⟨fun g hg => ?_, fun i q hq hqg => ?_, fun hnone => ?_⟩
  · rw [hgen.1]
    rcases List.mem_append.1 hg with hg | hg
    · rcases hgen.2 with hp | hp
      · rw [(h.empty hp).2.1] at hg
        cases hg
      · exact (h.seen g hg).trans hp
    · exact List.mem_singleton.1 hg
  · rw [hgen.1, Option.some_inj] at hqg
    rw [hsnap i q hq hqg.symm]
    refine add_page ?_ hn
    rcases hgen.2 with hp | hp
    · rw [(h.empty hp).1, (h.empty hp).2.2, List.take_zero]
    · exact h.entries k pub hk hp
  · rw [hgen.1] at hnone
    cases hnone

/-- A pass that a change makes start over has pages of one generation. -/
theorem onePass_same (h₁ : 1 ≤ limit) (h₂ : limit ≤ 200)
    (hsnap : ∀ i j q q', published i = .ok q → published j = .ok q' →
      q.generation = q'.generation → q.snapshot = q'.snapshot) (N k c : ℕ) (p : Pass ε ρ)
    (h : Same published p c) {k' : ℕ} {q : Pass ε ρ}
    (hq : onePass (scanner size published) limit false N k c p = .ok (k', some q)) :
    (∀ g ∈ q.seen, g = q.generation) ∧ ∀ i pub, published i = .ok pub →
      q.generation = some pub.generation → q.entries <+: pub.snapshot := by
  have hcount := pageCount_of_limit h₁ h₂
  have hend {p : Pass ε ρ} {c : ℕ} (h : Same published p c) :
      (∀ g ∈ p.seen, g = p.generation) ∧ ∀ i pub, published i = .ok pub →
        p.generation = some pub.generation → p.entries <+: pub.snapshot :=
    ⟨h.seen, fun i pub hi hg => h.entries i pub hi hg ▸ List.take_prefix ..⟩
  have hcut {p : Pass ε ρ} {c : ℕ} (h : Same published p c) :
      (∀ g ∈ p.truncate.seen, g = p.truncate.generation) ∧ ∀ i pub, published i = .ok pub →
        p.truncate.generation = some pub.generation → p.truncate.entries <+: pub.snapshot :=
    ⟨h.seen, fun i pub hi hg => (List.take_prefix ..).trans ((hend h).2 i pub hi hg)⟩
  induction N generalizing k c p with
  | zero =>
    obtain rfl := Option.some.inj (Prod.mk.inj (Except.ok.inj hq)).2
    exact hcut h
  | succ N ih =>
    unfold onePass scanner at hq
    cases hk : published k with
    | error e =>
      rw [hk] at hq
      cases hq
    | ok pub =>
      rw [hk] at hq
      simp only [Except.map, Bool.not_false, Bool.and_true] at hq
      by_cases hdiffers : p.differs (page size pub (cursorArg c) (some limit)) = true
      · rw [if_pos hdiffers] at hq
        cases hq
      · rw [if_neg hdiffers] at hq
        have hadd := h.add hk (fun i q hi hg => hsnap i k q pub hi hk hg) hcount
          (by simpa using hdiffers)
        rw [nextCursor_page c hcount] at hq
        by_cases hmore : c + (cut size limit.toNat (pub.snapshot.drop c)).length <
            pub.snapshot.length
        · rw [if_pos hmore] at hq
          dsimp only at hq
          by_cases hfull : maxEntries ≤
              (p.add (page size pub (cursorArg c) (some limit))).entries.length
          · rw [if_pos hfull] at hq
            split at hq
            · obtain rfl := Option.some.inj (Prod.mk.inj (Except.ok.inj hq)).2
              exact hcut hadd
            · obtain rfl := Option.some.inj (Prod.mk.inj (Except.ok.inj hq)).2
              exact hend hadd
          · rw [if_neg hfull] at hq
            split at hq
            · exact ih _ _ _ hadd hq
            · obtain rfl := Option.some.inj (Prod.mk.inj (Except.ok.inj hq)).2
              exact hend hadd
        · rw [if_neg hmore] at hq
          obtain rfl := Option.some.inj (Prod.mk.inj (Except.ok.inj hq)).2
          exact hend hadd

/-- An attempt that is not the last starts over when the generation changes. -/
theorem attempts_ok {node : NodeClient ε ρ E} {a N : ℕ} (hN : N ≤ 3)
    (h : attempts node limit internal N k = .ok (a, p)) (ha : a < 2) :
    ∃ k k', onePass node limit false (maxPages limit) k 0 .empty = .ok (k', some p) := by
  induction N generalizing k with
  | zero => cases h
  | succ N ih =>
    unfold attempts at h
    split at h
    · cases h
    · next k' q hq =>
      obtain ⟨rfl, rfl⟩ := Prod.mk.inj (Except.ok.inj h)
      have hN' : N ≠ 0 := by omega
      rw [decide_eq_false hN'] at hq
      exact ⟨k, k', hq⟩
    · exact ih (by omega) h

/-- While the generation stays the hub lists exactly what the node has published, if the node
needs no more pages than the hub asks for, and only then; and pages of two generations are
listed in the third attempt only. -/
theorem listing (h₁ : 1 ≤ limit) (h₂ : limit ≤ 200) :
    (∀ pub : Published ε ρ, pub.snapshot.length ≤ maxEntries →
      (∀ i < maxPages limit, published i = .ok pub) →
        ((∃ a q, listAll (scanner size published) limit internal = .ok (a, q) ∧
            q.entries = pub.snapshot) ↔
          leftAfter size limit.toNat (maxPages limit) pub.snapshot = [])) ∧
    ((∀ i j q q', published i = .ok q → published j = .ok q' →
        q.generation = q'.generation → q.snapshot = q'.snapshot) →
      ∀ a q, listAll (scanner size published) limit internal = .ok (a, q) → a < 2 →
        (∀ g ∈ q.seen, g = q.generation) ∧ ∀ i pub, published i = .ok pub →
          q.generation = some pub.generation → q.entries <+: pub.snapshot) := by
  refine ⟨fun pub hlen hpub => ?_, fun hsnap a q hq ha => ?_⟩
  · obtain ⟨k', q, hq, hiff⟩ := onePass_const h₁ h₂ hlen
      (maxPages limit) 0 0 .empty (fun i _ hi => hpub i (by omega)) rfl (.inl rfl)
    rw [List.drop_zero] at hiff
    have hall : listAll (scanner size published) limit internal = .ok (0, q) := by
      unfold listAll attempts
      have hq' : onePass (scanner size published) limit (decide (2 = 0)) (maxPages limit) 0 0
          .empty = .ok (k', some q) := hq
      rw [hq']
    rw [hall, ← hiff]
    constructor
    · rintro ⟨a, q', heq, hsnap⟩
      rw [(Prod.mk.inj (Except.ok.inj heq)).2]
      exact hsnap
    · exact fun hsnap => ⟨0, q, rfl, hsnap⟩
  · obtain ⟨k, k', hpass⟩ := attempts_ok le_rfl hq ha
    exact onePass_same h₁ h₂ hsnap _ k 0 .empty Same.start hpass

end

/-! ## Runs -/

/-- A library of so many entries that does not change. -/
def library (entries : ℕ) : Published ℕ Unit :=
  ⟨1, List.range entries, []⟩

/-- Three small entries are listed. -/
theorem listing_three :
    ∃ a q, listAll (scanner (fun _ => 2000) fun _ => .ok (library 3)) 200 () = .ok (a, q) ∧
      q.entries = [0, 1, 2] :=
  ((listing (by decide)
    (by decide)).1 (library 3) (by decide) fun _ _ => rfl).2 (by decide +kernel)

/-- Of 103 entries that fill a page each, the hub lists 102. -/
theorem cut_short :
    ¬∀ (size : ℕ → ℕ) (pub : Published ℕ Unit), pub.snapshot.length ≤ maxEntries →
      ∃ a q, listAll (scanner size fun _ => .ok pub) 200 () = .ok (a, q) ∧
        q.entries = pub.snapshot := by
  intro hall
  obtain ⟨a, q, hq, hentries⟩ := hall (fun _ => 400000) (library 103) (by decide)
  have hshort : (listAll (scanner (fun _ => 400000) fun _ => .ok (library 103)) 200
      ()).toOption.any (fun r => r.2.entries.length = 102) = true := by decide +kernel
  rw [hq] at hshort
  have hlen : q.entries.length = 102 := by simpa [Except.toOption] using hshort
  rw [hentries] at hlen
  exact absurd hlen (by decide)

end Listing

end EngineConsole
