import Mathlib

/-!
# Replacing every occurrence of a text

`str::replace` : the occurrences of a pattern are found from left to right, none begins inside
another, and each is replaced (`replaceAll`); an empty pattern occurs at every boundary. Over any
alphabet, with the test for an occurrence as a parameter (`replaceHits`), so that the same pass
can run over characters that carry more than what the pattern sees (`map_replaceHits`).

Where the pattern does not occur the text is kept (`replaceHits_append`), an occurrence becomes
the replacement (`replaceHits_hit`). `Pass` is the pass with the occurrences it replaces : they
lie apart in the text (`Pass.perm`), and an occurrence anywhere begins in one of them
(`Pass.start_mem`).
-/

set_option linter.unusedSectionVars false

namespace EngineConsole.Replace

variable {α β : Type*}

/-- Replace from here on, after so many more characters of an occurrence. -/
def replaceHits (hit : List α → Bool) (len : ℕ) (rep : List α) : ℕ → List α → List α
  | _, [] => []
  | skip + 1, _ :: s => replaceHits hit len rep skip s
  | 0, c :: s =>
    if hit (c :: s) then rep ++ replaceHits hit len rep (len - 1) s
    else c :: replaceHits hit len rep 0 s

/-- `replace` -/
def replaceAll [BEq α] (pat rep s : List α) : List α :=
  if pat.isEmpty then rep ++ s.flatMap fun c => c :: rep
  else replaceHits (fun t => pat.isPrefixOf t) pat.length rep 0 s

variable {hit : List α → Bool} {len skip : ℕ} {rep s t p : List α} {c : α}

theorem replaceHits_nil : ∀ skip, replaceHits hit len rep skip [] = []
  | 0 => rfl
  | _ + 1 => rfl

theorem replaceHits_cons (c : α) (s : List α) : replaceHits hit len rep 0 (c :: s) =
    if hit (c :: s) then rep ++ replaceHits hit len rep (len - 1) s
    else c :: replaceHits hit len rep 0 s :=
  rfl

theorem replaceHits_miss (h : hit (c :: s) = false) :
    replaceHits hit len rep 0 (c :: s) = c :: replaceHits hit len rep 0 s := by
  rw [replaceHits_cons, if_neg (by rw [h]; exact Bool.false_ne_true)]

theorem replaceHits_skip : ∀ (p s : List α),
    replaceHits hit len rep p.length (p ++ s) = replaceHits hit len rep 0 s
  | [], _ => rfl
  | _ :: p, s => replaceHits_skip p s

/-- An occurrence becomes the replacement. -/
theorem replaceHits_hit (hlen : p.length = len) (hp : p ≠ []) (h : hit (p ++ s) = true) :
    replaceHits hit len rep 0 (p ++ s) = rep ++ replaceHits hit len rep 0 s := by
  cases p with
  | nil => exact absurd rfl hp
  | cons c p =>
    rw [List.cons_append] at h
    rw [List.cons_append, replaceHits_cons, if_pos h, ← hlen, List.length_cons, Nat.add_sub_cancel,
      replaceHits_skip]

/-- A part in which no occurrence starts is kept. -/
theorem replaceHits_append : ∀ {p : List α}, (∀ x y, p = x ++ y → y ≠ [] → hit (y ++ s) = false) →
    replaceHits hit len rep 0 (p ++ s) = p ++ replaceHits hit len rep 0 s
  | [], _ => rfl
  | c :: p, h => by
    have hmiss : hit (c :: (p ++ s)) = false := h [] (c :: p) rfl (List.cons_ne_nil c p)
    have hrest : ∀ x y, p = x ++ y → y ≠ [] → hit (y ++ s) = false :=
      fun x y hxy hy => h (c :: x) y (by rw [hxy]; rfl) hy
    rw [List.cons_append, replaceHits_miss hmiss, replaceHits_append hrest]
    rfl

/-- A pass over characters that carry more is the pass over what they show. -/
theorem map_replaceHits (f : α → β) {hit' : List β → Bool}
    (h : ∀ s, hit s = hit' (s.map f)) : ∀ (skip : ℕ) (s : List α),
    (replaceHits hit len rep skip s).map f = replaceHits hit' len (rep.map f) skip (s.map f)
  | _, [] => by rw [replaceHits_nil, List.map_nil, replaceHits_nil]
  | skip + 1, _ :: s => map_replaceHits f h skip s
  | 0, c :: s => by
    have hcons := h (c :: s)
    rw [List.map_cons] at hcons
    rw [List.map_cons, replaceHits_cons, replaceHits_cons, hcons]
    split_ifs
    · rw [List.map_append, map_replaceHits f h]
    · rw [List.map_cons, map_replaceHits f h]

/-- Every character left is one of the text or of the replacement. -/
theorem mem_replaceHits : ∀ {skip : ℕ} {s : List α} {c : α},
    c ∈ replaceHits hit len rep skip s → c ∈ s ∨ c ∈ rep
  | _, [], c, h => by
    rw [replaceHits_nil] at h
    cases h
  | skip + 1, _ :: s, c, h => by
    have hrest : c ∈ replaceHits hit len rep skip s := h
    exact (mem_replaceHits hrest).imp_left (List.mem_cons_of_mem _)
  | 0, x :: s, c, h => by
    rw [replaceHits_cons] at h
    split_ifs at h
    · rcases List.mem_append.1 h with h | h
      · exact .inr h
      · exact (mem_replaceHits h).imp_left (List.mem_cons_of_mem _)
    · rcases List.mem_cons.1 h with rfl | h
      · exact .inl List.mem_cons_self
      · exact (mem_replaceHits h).imp_left (List.mem_cons_of_mem _)

theorem mem_replaceAll [BEq α] {pat : List α} (h : c ∈ replaceAll pat rep s) :
    c ∈ s ∨ c ∈ rep := by
  rw [replaceAll] at h
  split_ifs at h
  · rcases List.mem_append.1 h with h | h
    · exact .inr h
    · obtain ⟨x, hx, h⟩ := List.mem_flatMap.1 h
      rcases List.mem_cons.1 h with rfl | h
      exacts [.inl hx, .inr h]
  · exact mem_replaceHits h

/-! ## The occurrences that are replaced -/

/-- A pass : the text, what comes out, and the occurrences that were replaced. -/
inductive Pass (hit : List α → Bool) (len : ℕ) (rep : List α) :
    List α → List α → List (List α) → Prop where
  | nil : Pass hit len rep [] [] []
  | keep {c : α} {s out : List α} {ps : List (List α)} : hit (c :: s) = false →
    Pass hit len rep s out ps → Pass hit len rep (c :: s) (c :: out) ps
  | take {p s out : List α} {ps : List (List α)} : p ≠ [] → p.length = len →
    hit (p ++ s) = true → Pass hit len rep s out ps →
    Pass hit len rep (p ++ s) (rep ++ out) (p :: ps)

/-- `replaceHits` is a pass, where an occurrence is not empty and lies in the text. -/
theorem exists_pass (rep : List α) (hpos : 0 < len) (hlen : ∀ t, hit t = true → len ≤ t.length) (s : List α) :
    ∃ ps, Pass hit len rep s (replaceHits hit len rep 0 s) ps := by
  induction hn : s.length using Nat.strong_induction_on generalizing s with
  | _ n ih =>
    cases s with
    | nil => exact ⟨[], .nil⟩
    | cons c s =>
      cases hc : hit (c :: s) with
      | false =>
        obtain ⟨ps, hps⟩ := ih s.length (by rw [← hn, List.length_cons]; omega) s rfl
        rw [replaceHits_miss hc]
        exact ⟨ps, .keep hc hps⟩
      | true =>
        have hle := hlen _ hc
        have htake : ((c :: s).take len).length = len := by
          rw [List.length_take]
          omega
        have hne : (c :: s).take len ≠ [] := List.ne_nil_of_length_pos (by omega)
        have hdrop : ((c :: s).drop len).length < n := by
          rw [List.length_drop]
          omega
        have hhit : hit ((c :: s).take len ++ (c :: s).drop len) = true := by
          rw [List.take_append_drop]
          exact hc
        obtain ⟨ps, hps⟩ := ih _ hdrop ((c :: s).drop len) rfl
        have hpass := Pass.take hne htake hhit hps
        rw [← replaceHits_hit htake hne hhit, List.take_append_drop] at hpass
        exact ⟨_, hpass⟩

namespace Pass

variable {out : List α} {ps : List (List α)} {f : α → Option β}

/-- What carries a mark that the replacement lacks is replaced or comes out. -/
theorem perm (h : Pass hit len rep s out ps) (hrep : rep.filterMap f = []) :
    (s.filterMap f).Perm (ps.flatten.filterMap f ++ out.filterMap f) := by
  induction h with
  | nil => exact .refl _
  | @keep c _ _ _ _ _ ih =>
    cases hf : f c with
    | none => rwa [List.filterMap_cons_none hf, List.filterMap_cons_none hf]
    | some b =>
      rw [List.filterMap_cons_some hf, List.filterMap_cons_some hf]
      exact (ih.cons b).trans List.perm_middle.symm
  | take _ _ _ _ ih =>
    rw [List.filterMap_append, List.flatten_cons, List.filterMap_append, List.filterMap_append,
      hrep, List.nil_append, List.append_assoc]
    exact ih.append_left _

/-- What comes out is in the order of the text. -/
theorem sublist (h : Pass hit len rep s out ps) (hrep : rep.filterMap f = []) :
    (out.filterMap f).Sublist (s.filterMap f) := by
  induction h with
  | nil => exact .refl _
  | @keep c _ _ _ _ _ ih =>
    cases hf : f c with
    | none => rwa [List.filterMap_cons_none hf, List.filterMap_cons_none hf]
    | some b =>
      rw [List.filterMap_cons_some hf, List.filterMap_cons_some hf]
      exact ih.cons_cons b
  | take _ _ _ _ ih =>
    rw [List.filterMap_append, List.filterMap_append, hrep, List.nil_append]
    exact ih.trans (List.sublist_append_right _ _)

theorem mem_out (h : Pass hit len rep s out ps) (hc : c ∈ out) : c ∈ s ∨ c ∈ rep := by
  induction h with
  | nil => exact .inl hc
  | keep _ _ ih =>
    rcases List.mem_cons.1 hc with rfl | hc
    · exact .inl List.mem_cons_self
    · exact (ih hc).imp_left (List.mem_cons_of_mem _)
  | take _ _ _ _ ih =>
    rcases List.mem_append.1 hc with hc | hc
    · exact .inr hc
    · exact (ih hc).imp_left (List.mem_append_right _)

/-- The replaced occurrences are occurrences. -/
theorem hit_of_mem (h : Pass hit len rep s out ps) (hp : p ∈ ps) :
    p ≠ [] ∧ p.length = len ∧ ∃ x t, s = x ++ (p ++ t) ∧ hit (p ++ t) = true := by
  induction h with
  | nil => cases hp
  | keep _ _ ih =>
    obtain ⟨hne, hlen, x, t, rfl, ht⟩ := ih hp
    exact ⟨hne, hlen, _ :: x, t, rfl, ht⟩
  | @take q s _ _ hne hlen hhit _ ih =>
    rcases List.mem_cons.1 hp with rfl | hp
    · exact ⟨hne, hlen, [], s, rfl, hhit⟩
    · obtain ⟨hne, hlen, x, t, rfl, ht⟩ := ih hp
      exact ⟨hne, hlen, q ++ x, t, by rw [List.append_assoc], ht⟩

/-- An occurrence anywhere begins in one that is replaced. -/
theorem start_mem (h : Pass hit len rep s out ps) {x : List α} (hs : s = x ++ c :: t)
    (hhit : hit (c :: t) = true) : ∃ p ∈ ps, c ∈ p := by
  induction h generalizing x with
  | nil => simp at hs
  | keep hmiss _ ih =>
    cases x with
    | nil =>
      rw [hs, List.nil_append, hhit] at hmiss
      cases hmiss
    | cons d x => exact ih (List.cons.inj hs).2
  | @take q s _ qs _ _ _ _ ih =>
    rcases List.append_eq_append_iff.1 hs with ⟨y, rfl, hy⟩ | ⟨y, hq, hy⟩
    · obtain ⟨p, hp, hc⟩ := ih hy
      exact ⟨p, List.mem_cons_of_mem _ hp, hc⟩
    · cases y with
      | nil =>
        obtain ⟨p, hp, hc⟩ := ih (x := []) hy.symm
        exact ⟨p, List.mem_cons_of_mem _ hp, hc⟩
      | cons d y =>
        obtain ⟨rfl, -⟩ := List.cons.inj hy
        exact ⟨q, List.mem_cons_self, by rw [hq]; simp⟩

end Pass

end EngineConsole.Replace
