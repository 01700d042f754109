import Mathlib

/-!
# Tables keyed by a projection

A table is a list of entries whose keys `key e` do not repeat. `find`, `update` and
`remove` act on the entry of a key. Where a key is found the table splits around its entry
(`split_of_find`), and on a split table the operations touch that entry only
(`update_split`, `remove_split`), so what an operation does to a count over the table is
read off the split. A table built entry by entry holds the last entry of each key
(`find_collect`).
-/

set_option linter.unusedSectionVars false

namespace EngineConsole

namespace Keyed

variable {κ ε : Type*} [DecidableEq κ] (key : ε → κ)

/-- The keys of a table. -/
abbrev keys (l : List ε) : List κ :=
  l.map key

/-- The entry of `k`. -/
def find (k : κ) (l : List ε) : Option ε :=
  l.find? fun e => key e = k

/-- Change the entry of `k`. -/
def update (k : κ) (f : ε → ε) (l : List ε) : List ε :=
  l.map fun e => if key e = k then f e else e

/-- Remove the entry of `k`. -/
def remove (k : κ) (l : List ε) : List ε :=
  l.filter fun e => key e ≠ k

variable {key} {k k' : κ} {l : List ε} {e : ε} {f : ε → ε}

theorem key_of_find (h : find key k l = some e) : key e = k := by
  simpa using List.find?_some h

theorem mem_of_find (h : find key k l = some e) : e ∈ l :=
  List.mem_of_find?_eq_some h

theorem find_eq_none : find key k l = none ↔ k ∉ keys key l := by
  simp [find, List.find?_eq_none]

theorem isSome_find : (find key k l).isSome ↔ k ∈ keys key l := by
  rw [Option.isSome_iff_ne_none, ne_eq, find_eq_none, not_not]

/-- The keys of an update that keeps the key of its entry. -/
theorem keys_update (hf : ∀ e, key (f e) = key e) (k : κ) (l : List ε) :
    keys key (update key k f l) = keys key l := by
  simp only [keys, update, List.map_map]
  refine List.map_congr_left fun e _ => ?_
  simp only [Function.comp_apply]
  split <;> simp [hf]

theorem keys_remove (k : κ) (l : List ε) :
    keys key (remove key k l) = (keys key l).filter (· ≠ k) := by
  simp [keys, remove, List.filter_map, Function.comp_def]

theorem nodup_keys_remove (k : κ) (h : (keys key l).Nodup) :
    (keys key (remove key k l)).Nodup := by
  rw [keys_remove]
  exact h.filter _

theorem not_mem_keys_remove (k : κ) (l : List ε) : k ∉ keys key (remove key k l) := by
  simp [keys_remove]

theorem mem_update (h : e ∈ update key k f l) :
    ∃ e' ∈ l, e = e' ∨ (key e' = k ∧ e = f e') := by
  obtain ⟨e', he', rfl⟩ := List.mem_map.1 h
  refine ⟨e', he', ?_⟩
  split
  · exact .inr ⟨‹_›, rfl⟩
  · exact .inl rfl

theorem find_update (hf : ∀ e, key (f e) = key e) (k k' : κ) (l : List ε) :
    find key k (update key k' f l) =
      (find key k l).map fun e => if key e = k' then f e else e := by
  unfold find update
  rw [List.find?_map]
  congr 2
  funext e
  simp only [Function.comp_apply]
  split <;> simp [hf]

theorem find_remove (hk : k ≠ k') (l : List ε) : find key k (remove key k' l) = find key k l := by
  unfold find remove
  rw [List.find?_filter]
  congr 1
  funext e
  by_cases he : key e = k
  · simp [he, hk]
  · simp [he]

theorem find_append_of_not_mem {l' : List ε} (h : k ∉ keys key l) :
    find key k (l ++ l') = find key k l' := by
  unfold find
  rw [List.find?_append, show l.find? _ = none from find_eq_none.2 h, Option.none_or]

theorem mem_of_mem_remove (h : e ∈ remove key k l) : e ∈ l :=
  List.mem_of_mem_filter h

/-- Without the entry of `k` nothing else changes. -/
theorem remove_of_not_mem (h : k ∉ keys key l) : remove key k l = l := by
  refine List.filter_eq_self.2 fun e he => ?_
  have hne : key e ≠ k := fun hk => h (hk ▸ List.mem_map_of_mem he)
  simpa using hne

theorem update_of_not_mem (h : k ∉ keys key l) : update key k f l = l := by
  unfold update
  refine (List.map_congr_left fun e he => ?_).trans (List.map_id l)
  have hne : key e ≠ k := fun hk => h (hk ▸ List.mem_map_of_mem he)
  exact if_neg hne

/-- A table splits around the entry of a key that it holds. -/
theorem split_of_find (hn : (keys key l).Nodup) (h : find key k l = some e) :
    ∃ l₁ l₂, l = l₁ ++ e :: l₂ ∧ k ∉ keys key l₁ ∧ k ∉ keys key l₂ := by
  obtain ⟨l₁, l₂, rfl⟩ := List.append_of_mem (mem_of_find h)
  obtain rfl := key_of_find h
  refine ⟨l₁, l₂, rfl, fun h₁ => ?_, fun h₂ => ?_⟩
  · simp only [keys, List.map_append, List.map_cons] at hn
    exact (List.nodup_append.1 hn).2.2 _ h₁ _ List.mem_cons_self rfl
  · simp only [keys, List.map_append, List.map_cons] at hn
    exact (List.nodup_cons.1 (List.nodup_append.1 hn).2.1).1 h₂

variable {l₁ l₂ : List ε}

theorem update_split (h₁ : k ∉ keys key l₁) (h₂ : k ∉ keys key l₂) (he : key e = k) :
    update key k f (l₁ ++ e :: l₂) = l₁ ++ f e :: l₂ := by
  have h := update_of_not_mem (f := f) h₁
  have h' := update_of_not_mem (f := f) h₂
  unfold update at h h' ⊢
  rw [List.map_append, List.map_cons, h, h', if_pos he]

theorem remove_split (h₁ : k ∉ keys key l₁) (h₂ : k ∉ keys key l₂) (he : key e = k) :
    remove key k (l₁ ++ e :: l₂) = l₁ ++ l₂ := by
  have h := remove_of_not_mem h₁
  have h' := remove_of_not_mem h₂
  unfold remove at h h' ⊢
  rw [List.filter_append, List.filter_cons_of_neg (by simpa using he), h, h']

theorem find_of_mem (hn : (keys key l).Nodup) (h : e ∈ l) : find key (key e) l = some e := by
  have hkey : key e ∈ keys key l := List.mem_map_of_mem h
  obtain ⟨e', he'⟩ := Option.isSome_iff_exists.1 (isSome_find.2 hkey)
  rw [he', List.inj_on_of_nodup_map hn (mem_of_find he') h (key_of_find he')]

theorem perm_cons_remove (hn : (keys key l).Nodup) (h : find key k l = some e) :
    l.Perm (e :: remove key k l) := by
  obtain rfl := key_of_find h
  obtain ⟨l₁, l₂, rfl, h₁, h₂⟩ := split_of_find hn h
  rw [remove_split h₁ h₂ rfl]
  exact List.perm_middle

/-! ## Tables built entry by entry -/

/-- Put an entry : in the place of the entry of its key, else at the end. -/
def put (key : ε → κ) (e : ε) (l : List ε) : List ε :=
  if (find key (key e) l).isSome then update key (key e) (fun _ => e) l else l ++ [e]

/-- The table of a list of entries, a later one in the place of an earlier one of its key. -/
def collect (key : ε → κ) (l : List ε) : List ε :=
  l.foldl (fun m e => put key e m) []

theorem find_cons (k : κ) (e : ε) (l : List ε) :
    find key k (e :: l) = if key e = k then some e else find key k l := by
  unfold find
  rw [List.find?_cons]
  by_cases h : key e = k <;> simp [h]

theorem find_filter (hn : (keys key l).Nodup) (p : ε → Bool) (k : κ) :
    find key k (l.filter p) = (find key k l).filter p := by
  induction l with
  | nil => rfl
  | cons x l ih =>
    obtain ⟨hx, hn⟩ := List.nodup_cons.1 hn
    by_cases hk : key x = k
    · have hnone : find key k (l.filter p) = none := by
        refine find_eq_none.2 fun h => hx ?_
        obtain ⟨y, hy, hyk⟩ := List.mem_map.1 h
        exact List.mem_map.2 ⟨y, List.mem_of_mem_filter hy, hyk.trans hk.symm⟩
      rw [List.filter_cons, find_cons, if_pos hk]
      split_ifs with hp
      · rw [find_cons, if_pos hk, Option.filter_some_pos hp]
      · rw [hnone, Option.filter_some_neg (by simpa using hp)]
    · rw [List.filter_cons, find_cons, if_neg hk]
      split_ifs
      · rw [find_cons, if_neg hk, ih hn]
      · exact ih hn

theorem find_update_const (k : κ) (e : ε) : ∀ l : List ε,
    find key k (update key (key e) (fun _ => e) l) =
      if key e = k ∧ (find key k l).isSome then some e else find key k l
  | [] => by simp [find, update]
  | x :: l => by
    have hcons : update key (key e) (fun _ => e) (x :: l) =
        (if key x = key e then e else x) :: update key (key e) (fun _ => e) l := rfl
    rw [hcons, find_cons, find_cons, find_update_const k e l]
    by_cases hx : key x = key e <;> by_cases hk : key e = k
    · simp [hx, hk]
    · simp [hx, hk]
    · simp [hk, hk ▸ hx]
    · simp [hx, hk]

theorem find_put (k : κ) (e : ε) (l : List ε) :
    find key k (put key e l) = if key e = k then some e else find key k l := by
  unfold put
  split_ifs with hs hk hk
  · subst hk
    rw [find_update_const, if_pos ⟨rfl, hs⟩]
  · rw [find_update_const, if_neg fun h => hk h.1]
  · subst hk
    rw [find_append_of_not_mem (find_eq_none.1 (Option.not_isSome_iff_eq_none.1 hs)), find_cons,
      if_pos rfl]
  · unfold find
    rw [List.find?_append]
    simp [hk]

/-- A table whose keys do not repeat is built as it stands. -/
theorem collect_of_nodup (hn : (keys key l).Nodup) : collect key l = l := by
  suffices hgen : ∀ (l m : List ε), (keys key (m ++ l)).Nodup →
      l.foldl (fun m e => put key e m) m = m ++ l by
    simpa [collect] using hgen l [] hn
  intro l
  induction l with
  | nil => exact fun m _ => (List.append_nil m).symm
  | cons x l ih =>
    intro m hm
    have hx : find key (key x) m = none := by
      refine find_eq_none.2 fun h => ?_
      rw [keys, List.map_append, List.nodup_append] at hm
      exact hm.2.2 _ h _ List.mem_cons_self rfl
    have hput : put key x m = m ++ [x] := by simp [put, hx]
    rw [List.foldl_cons, hput, ih _ (by simpa using hm), List.append_assoc]
    rfl

theorem find_foldl_put (k : κ) : ∀ (l m : List ε),
    find key k (l.foldl (fun m e => put key e m) m) =
      (find key k l.reverse).or (find key k m)
  | [], m => rfl
  | e :: l, m => by
    rw [List.foldl_cons, find_foldl_put k l, find_put, List.reverse_cons]
    unfold find
    rw [List.find?_append, Option.or_assoc]
    congr 1
    by_cases h : key e = k <;> simp [h]

theorem find_collect (k : κ) (l : List ε) : find key k (collect key l) = find key k l.reverse := by
  rw [collect, find_foldl_put]
  exact Option.or_none

/-- A key all of whose entries agree is found with that entry. -/
theorem find_collect_of_mem (he : e ∈ l) (hk : key e = k) (hu : ∀ e' ∈ l, key e' = k → e' = e) :
    find key k (collect key l) = some e := by
  have hmem : k ∈ keys key l.reverse := by
    rw [← hk]
    exact List.mem_map_of_mem (List.mem_reverse.2 he)
  obtain ⟨e', he'⟩ := Option.isSome_iff_exists.1 (isSome_find.2 hmem)
  rw [find_collect, he', hu e' (List.mem_reverse.1 (mem_of_find he')) (key_of_find he')]

theorem find_collect_eq_none (h : k ∉ keys key l) : find key k (collect key l) = none := by
  rw [find_collect, find_eq_none]
  simpa using h

theorem mem_put {x : ε} (h : x ∈ put key e l) : x = e ∨ x ∈ l := by
  unfold put at h
  split_ifs at h
  · obtain ⟨x', hx', rfl | ⟨-, rfl⟩⟩ := mem_update h
    exacts [.inr hx', .inl rfl]
  · simpa [or_comm] using h

theorem mem_collect (h : e ∈ collect key l) : e ∈ l := by
  suffices hgen : ∀ (l m : List ε), e ∈ l.foldl (fun m e => put key e m) m → e ∈ l ∨ e ∈ m by
    simpa using hgen l [] h
  intro l
  induction l with
  | nil => exact fun m h => .inr h
  | cons x l ih =>
    intro m h
    rcases ih _ h with h | h
    · exact .inl (List.mem_cons_of_mem x h)
    · rcases mem_put h with rfl | h
      exacts [.inl List.mem_cons_self, .inr h]

theorem length_put_le (e : ε) (l : List ε) : (put key e l).length ≤ l.length + 1 := by
  unfold put update
  split <;> simp

theorem length_collect_le (l : List ε) : (collect key l).length ≤ l.length := by
  suffices hgen : ∀ (l m : List ε),
      (l.foldl (fun m e => put key e m) m).length ≤ l.length + m.length by
    simpa [collect] using hgen l []
  intro l
  induction l with
  | nil => exact fun m => by simp
  | cons x l ih =>
    intro m
    have h := ih (put key x m)
    have hput : (put key x m).length ≤ m.length + 1 := length_put_le x m
    simp only [List.foldl_cons, List.length_cons]
    omega

/-- A map that keeps the keys goes through a table. -/
theorem collect_map {δ : Type*} {key' : δ → κ} {g : ε → δ} (hg : ∀ e, key' (g e) = key e)
    (l : List ε) : collect key' (l.map g) = (collect key l).map g := by
  have hput : ∀ (e : ε) (m : List ε), put key' (g e) (m.map g) = (put key e m).map g := by
    intro e m
    have hmem : ∀ k, k ∈ keys key' (m.map g) ↔ k ∈ keys key m := by
      intro k
      simp [keys, hg]
    unfold put
    simp only [isSome_find, hmem, hg]
    split_ifs
    · simp only [update, List.map_map]
      refine List.map_congr_left fun x _ => ?_
      simp only [Function.comp_apply, hg]
      split <;> rfl
    · simp
  suffices hgen : ∀ l m : List ε, (l.map g).foldl (fun m e => put key' e m) (m.map g) =
      (l.foldl (fun m e => put key e m) m).map g from hgen l []
  intro l
  induction l with
  | nil => exact fun m => rfl
  | cons e l ih =>
    intro m
    rw [List.map_cons, List.foldl_cons, List.foldl_cons, hput, ih]

theorem keys_put (e : ε) (m : List ε) : keys key (put key e m) =
    if key e ∈ keys key m then keys key m else keys key m ++ [key e] := by
  unfold put
  by_cases h : key e ∈ keys key m
  · rw [if_pos (isSome_find.2 h), if_pos h]
    unfold keys update
    rw [List.map_map]
    refine List.map_congr_left fun x _ => ?_
    by_cases hx : key x = key e
    · simp [hx]
    · simp [hx]
  · rw [if_neg fun hs => h (isSome_find.1 hs), if_neg h, keys, List.map_append]
    rfl

/-- The keys of a table are those of the list, each where it comes first. -/
theorem keys_collect (l : List ε) :
    keys key (collect key l) = (keys key l).reverse.dedup.reverse := by
  induction l using List.reverseRecOn with
  | nil => rfl
  | append_singleton l e ih =>
    have hsnoc : collect key (l ++ [e]) = put key e (collect key l) := by
      rw [collect, List.foldl_append]
      rfl
    have hkeys : (keys key (l ++ [e])).reverse = key e :: (keys key l).reverse := by
      rw [keys, List.map_append, List.reverse_append]
      rfl
    have hmem : key e ∈ keys key (collect key l) ↔ key e ∈ (keys key l).reverse := by
      rw [ih, List.mem_reverse, List.mem_dedup]
    rw [hsnoc, keys_put, hkeys]
    by_cases h : key e ∈ (keys key l).reverse
    · rw [if_pos (hmem.2 h), List.dedup_cons_of_mem h, ih]
    · rw [if_neg fun h' => h (hmem.1 h'), List.dedup_cons_of_notMem h, List.reverse_cons, ih]

theorem nodup_put (e : ε) {m : List ε} (hm : (keys key m).Nodup) :
    (keys key (put key e m)).Nodup := by
  unfold put
  split_ifs with h
  · have hsame : keys key (update key (key e) (fun _ => e) m) = keys key m := by
      unfold keys update
      rw [List.map_map]
      refine List.map_congr_left fun x _ => ?_
      simp only [Function.comp_apply]
      split
      · exact Eq.symm ‹_›
      · rfl
    rwa [hsame]
  · rw [keys, List.map_append, List.nodup_append]
    refine ⟨hm, List.nodup_singleton _, ?_⟩
    intro k hk k' hk' hkk
    rw [List.map_singleton, List.mem_singleton] at hk'
    exact h (isSome_find.2 (hk' ▸ hkk ▸ hk))

theorem nodup_collect (l : List ε) : (keys key (collect key l)).Nodup := by
  suffices hgen : ∀ l m : List ε, (keys key m).Nodup →
      (keys key (l.foldl (fun m e => put key e m) m)).Nodup from hgen l [] List.nodup_nil
  intro l
  induction l with
  | nil => exact fun m hm => hm
  | cons e l ih => exact fun m hm => ih _ (nodup_put e hm)

/-! ## Counting the keys of some entries -/

/-- The keys of the entries that `p` holds of. -/
def keysWhere (key : ε → κ) (p : ε → Bool) (l : List ε) : List κ :=
  (l.filter p).map key

variable {p : ε → Bool}

@[simp] theorem keysWhere_nil : keysWhere key p [] = [] :=
  rfl

theorem keysWhere_append (l l' : List ε) :
    keysWhere key p (l ++ l') = keysWhere key p l ++ keysWhere key p l' := by
  simp [keysWhere]

theorem keysWhere_cons (e : ε) (l : List ε) :
    keysWhere key p (e :: l) = (if p e then [key e] else []) ++ keysWhere key p l := by
  unfold keysWhere
  rw [List.filter_cons]
  split <;> simp

/-- An update that `p` and the keys do not see. -/
theorem keysWhere_update_same (hf : ∀ e, key (f e) = key e) (hp : ∀ e, p (f e) = p e) (k : κ)
    (l : List ε) : keysWhere key p (update key k f l) = keysWhere key p l := by
  induction l with
  | nil => rfl
  | cons e l ih =>
    have hcons : update key k f (e :: l) =
        (if key e = k then f e else e) :: update key k f l := rfl
    rw [hcons, keysWhere_cons, keysWhere_cons, ih]
    split <;> simp [hf, hp]

theorem count_keysWhere_update (hn : (keys key l).Nodup) (h : find key k l = some e)
    (hf : key (f e) = key e) (r : κ) :
    (keysWhere key p (update key k f l)).count r + (if p e then [k] else []).count r =
      (keysWhere key p l).count r + (if p (f e) then [k] else []).count r := by
  obtain rfl := key_of_find h
  obtain ⟨l₁, l₂, rfl, h₁, h₂⟩ := split_of_find hn h
  rw [update_split h₁ h₂ rfl]
  simp only [keysWhere_append, keysWhere_cons, hf, List.count_append]
  omega

theorem count_keysWhere_remove (hn : (keys key l).Nodup) (h : find key k l = some e) (r : κ) :
    (keysWhere key p (remove key k l)).count r + (if p e then [k] else []).count r =
      (keysWhere key p l).count r := by
  obtain rfl := key_of_find h
  obtain ⟨l₁, l₂, rfl, h₁, h₂⟩ := split_of_find hn h
  rw [remove_split h₁ h₂ rfl]
  simp only [keysWhere_append, keysWhere_cons, List.count_append]
  omega

end Keyed

end EngineConsole
