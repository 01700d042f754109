import EngineConsole.PyJson

/-!
# Statistics from a clipped scrape

`iteration_stats` reads the objects of a JSON list of statistics, oldest first. When the body
does not parse as a whole, because its tail was cut off, the code goes from one opening brace
to the next and decodes an object at each.

Cut the written list anywhere : the objects that lie wholly inside are read, each once and in
order, and nothing else (`iterationStats_cut`). The search never lands inside an object : from
the end of one the next brace is the start of the next, and an object that is cut is not
decoded, since reading the whole one would then have stopped early too (`rawDecode_cut`). On any
text the search comes to an end.
-/

set_option linter.unusedSectionVars false

namespace EngineConsole.IterationStats

open JsonSyntax JsonReader PyJson

variable {F : Type*}

/-! ## The code -/

/-- White space of Unicode. -/
def isWhitespace (c : Char) : Bool :=
  (0x9 ≤ c.toNat && c.toNat ≤ 0xd) || c.toNat = 0x20 || c.toNat = 0x85 || c.toNat = 0xa0 ||
    c.toNat = 0x1680 || (0x2000 ≤ c.toNat && c.toNat ≤ 0x200a) || c.toNat = 0x2028 ||
    c.toNat = 0x2029 || c.toNat = 0x202f || c.toNat = 0x205f || c.toNat = 0x3000

/-- `isspace` -/
def isspace (c : Char) : Bool :=
  isWhitespace c || (0x1c ≤ c.toNat && c.toNat ≤ 0x1f)

/-- `strip` -/
def strip (s : Text) : Text :=
  (s.dropWhile isspace).rdropWhile isspace

/-- `is_value_error` -/
def isValueError (e : PyExc) : Bool :=
  e.kind = "ValueError" || e.kind = "JSONDecodeError"

/-- A dict. -/
def isDict : PyVal F → Bool
  | .obj _ => true
  | _ => false

/-- From the next opening brace : decode, keep a dict, and go on after it. -/
def decodeAll (Fl : Floats F) : ℕ → Text → Option (Except PyExc (List (PyVal F)))
  | 0, _ => none
  | fuel + 1, s =>
    if s.dropWhile (· ≠ '{') = [] then some (.ok [])
    else
      match rawDecode Fl (s.dropWhile (· ≠ '{')) with
      | none => none
      | some (.error e) => some (if isValueError e then .ok [] else .error e)
      | some (.ok (obj, rest)) =>
        (decodeAll Fl fuel rest).map fun r =>
          r.map fun out => if isDict obj then obj :: out else out

/-- `iteration_stats`; no answer is a run that has not come to an end. -/
def iterationStats (Fl : Floats F) (text : Text) : Option (Except PyExc (List (PyVal F))) :=
  let body := strip text
  if body = [] then some (.ok [])
  else
    match jsonLoads Fl body with
    | none => none
    | some (.ok (.arr items)) => some (.ok (items.filter isDict))
    | some (.ok (.obj d)) => some (.ok [.obj d])
    | some (.ok .null) => decodeAll Fl (body.length + 1) body
    | some (.ok _) => some (.ok [])
    | some (.error e) =>
      if isValueError e then decodeAll Fl (body.length + 1) body else some (.error e)

/-! ## Where the objects of a list end -/

/-- Where the text of each value ends, the first starting at `off` and a comma between two. -/
def ends (Fl : Floats F) : ℕ → List (PyVal F) → List ℕ
  | _, [] => []
  | off, v :: vs =>
    (off + (dumpsCompact Fl v).length) :: ends Fl (off + (dumpsCompact Fl v).length + 1) vs

/-- The values of a list whose text lies in the first `n` characters of the list's. -/
def whole (Fl : Floats F) (n : ℕ) (vs : List (PyVal F)) : List (PyVal F) :=
  ((vs.zip (ends Fl 1 vs)).filter fun e => e.2 ≤ n).map Prod.fst

variable {Fl : Floats F} {s q rest : Text} {v : PyVal F} {vs : List (PyVal F)} {n off : ℕ}

/-! ## A value that is cut -/

/-- A bracket opens the text. -/
def Opens (s : Text) : Prop :=
  s.head? = some '[' ∨ s.head? = some '{'

theorem closed_of_opens {t : Value} (h : t.Ok) (hopen : Opens (t.text ++ s)) : Closed t := by
  cases t with
  | num n =>
    obtain ⟨c, u, hc, htext | htext⟩ := numText_start h
    · obtain ⟨-, hsq, hbr, -, -⟩ := quiet_of_isDigit hc
      rw [Value.text, htext] at hopen
      rcases hopen with hopen | hopen
      · exact hsq (Option.some.inj hopen)
      · exact hbr (Option.some.inj hopen)
    · rw [Value.text, htext] at hopen
      rcases hopen with hopen | hopen <;> simp at hopen
  | word w => trivial
  | str ps => trivial
  | emptyArr space => trivial
  | arr es => trivial
  | emptyObj space => trivial
  | obj fs => trivial

theorem number_fail {e : JErr} (h : number Fl s = .fail e) : isValueError (toExc e) = true := by
  rw [number] at h
  rcases hn : scanNumber s with _ | ⟨t, u⟩ <;> rw [hn] at h
  · obtain rfl := Reading.fail.inj h
    rfl
  · dsimp only at h
    split_ifs at h
    obtain rfl := Reading.fail.inj h
    rfl

/-- A text whose brackets nest no deeper than the scanner goes is read, or is no JSON. -/
theorem scan_settles (h : nesting s ≤ maxDepth) :
    Settles (fun e => isValueError (toExc e) = true)
      (scanOnce (scanner Fl) (fuelFor s) 0 false s) := by
  refine (settles (Q := fun e => isValueError (toExc e) = true) (scanner_lawful Fl) rfl
    (fun _ => rfl) (fuelFor s)).1 0 false s le_rfl ⟨fun t _ => ?_, .inr h⟩
  change Settles _ (number Fl t)
  cases hn : number Fl t with
  | done n t' => trivial
  | fail e => exact number_fail hn
  | more => exact (scanner_lawful Fl).number_ends t hn

theorem nesting_written (hF : Fl.Exact) (hv : Canonical v) :
    nesting (dumpsCompact Fl v) ≤ v.depth := by
  have h := tree_spells hF v hv.keys hv.ints
  have hdeep := deepest_text (tree Fl v) h.ok 0 []
  rw [List.append_nil, h.text, h.depth] at hdeep
  rw [nesting, dumpsCompact, hdeep, levels]
  split_ifs <;> simp [deepest]

/-- What is cut off the text of an array or an object leaves no value at the start. -/
theorem scan_cut (hF : Fl.Exact) (hv : Canonical v) (hdepth : v.depth ≤ maxDepth)
    (hopen : Opens q) (hq : q <+: dumpsCompact Fl v) (hne : q ≠ dumpsCompact Fl v) :
    ∃ e, scanOnce (scanner Fl) (fuelFor q) 0 false q = .fail e ∧
      isValueError (toExc e) = true := by
  obtain ⟨cut, hcut⟩ := hq
  have hnest : nesting q ≤ maxDepth := by
    refine le_trans ?_ ((nesting_written hF hv).trans hdepth)
    rw [← hcut]
    exact deepest_append_le _ _ q cut
  have hend := @scan_settles F Fl q hnest
  cases hscan : scanOnce (scanner Fl) (fuelFor q) 0 false q with
  | done x rest =>
    -- the same value would be read off the whole text, and leave what was cut
    exfalso
    obtain ⟨t, hok, hnums, htext, -, hdeep⟩ := scanOnce_sound (scanner_lawful Fl) hscan
    have hclosed : Closed t := closed_of_opens hok (htext ▸ hopen)
    have hwhole : dumpsCompact Fl v = t.text ++ (rest ++ cut) := by
      rw [← hcut, htext, List.append_assoc]
    have hread := scanOnce_text (scanner_lawful Fl) t hok hnums
      (fuelFor (t.text ++ (rest ++ cut))) 0 false (rest ++ cut) (.inl hclosed) le_rfl
      (hdeep (Nat.zero_le _))
    have hspell := tree_spells hF v hv.keys hv.ints
    have hself : Closed (tree Fl v) := by
      refine closed_of_opens hspell.ok (s := []) ?_
      rw [List.append_nil, hspell.text, show writeJson Fl v = q ++ cut from hcut.symm]
      rcases q with _ | ⟨c, q⟩
      · rcases hopen with h | h <;> cases h
      · exact hopen
    have hwritten := scanOnce_written hF hv hdepth (.inl hself : Closed _ ∨ Follows [])
    rw [List.append_nil, hwhole, hread] at hwritten
    have hnil : rest ++ cut = [] := (Reading.done.inj hwritten).2
    refine hne ?_
    rw [← hcut, (List.append_eq_nil_iff.1 hnil).2, List.append_nil]
  | fail e =>
    rw [hscan] at hend
    exact ⟨e, rfl, hend⟩
  | more => exact absurd hscan (scanOnce_ends (scanner_lawful Fl) 0 false q)

/-! ## The search -/

theorem opens_dict (h : isDict v = true) : ∃ t, dumpsCompact Fl v = '{' :: t ++ ['}'] := by
  cases v with
  | obj fs => exact ⟨_, rfl⟩
  | null => cases h
  | bool b => cases h
  | num n => cases h
  | str s => cases h
  | arr vs => cases h

theorem rawDecode_dict (hF : Fl.Exact) (hv : Canonical v) (hdepth : v.depth ≤ maxDepth)
    (hd : isDict v = true) (rest : Text) :
    rawDecode Fl (dumpsCompact Fl v ++ rest) = some (.ok (v, rest)) := by
  have hspell := tree_spells hF v hv.keys hv.ints
  obtain ⟨t, htext⟩ := @opens_dict F Fl v hd
  have hclosed : Closed (tree Fl v) := by
    refine closed_of_opens hspell.ok (s := []) (.inr ?_)
    rw [List.append_nil, hspell.text, show writeJson Fl v = _ from htext]
    rfl
  rw [rawDecode, scanOnce_written hF hv hdepth (.inl hclosed)]

theorem rawDecode_cut (hF : Fl.Exact) (hv : Canonical v) (hdepth : v.depth ≤ maxDepth)
    (hopen : Opens q) (hq : q <+: dumpsCompact Fl v) (hne : q ≠ dumpsCompact Fl v) :
    ∃ e, rawDecode Fl q = some (.error e) ∧ isValueError e = true := by
  obtain ⟨e, he, hvalue⟩ := scan_cut hF hv hdepth hopen hq hne
  exact ⟨toExc e, by rw [rawDecode, he], hvalue⟩

/-- The text after a value of a list, with the bracket that closes the list. -/
def tailText (Fl : Floats F) : List (PyVal F) → Text
  | [] => [']']
  | v :: vs => ',' :: (dumpsCompact Fl v ++ tailText Fl vs)

theorem writeElems_tail (v : PyVal F) (vs : List (PyVal F)) :
    writeElems Fl (v :: vs) ++ [']'] = dumpsCompact Fl v ++ tailText Fl vs := by
  induction vs generalizing v with
  | nil => rfl
  | cons w vs ih =>
    rw [writeElems, List.append_assoc, List.cons_append, ih, tailText]
    rfl

/-- The values of a list that end in the first `n` characters, the first starting at `off`. -/
def wholeFrom (Fl : Floats F) (n off : ℕ) (vs : List (PyVal F)) : List (PyVal F) :=
  ((vs.zip (ends Fl off vs)).filter fun e => e.2 ≤ n).map Prod.fst

theorem lt_of_mem_ends {e : ℕ} (h : e ∈ ends Fl off vs) : off ≤ e := by
  induction vs generalizing off with
  | nil => cases h
  | cons v vs ih =>
    rcases List.mem_cons.1 h with rfl | h
    · omega
    · have := ih h
      omega

theorem wholeFrom_cons (h : off + (dumpsCompact Fl v).length ≤ n) :
    wholeFrom Fl n off (v :: vs) =
      v :: wholeFrom Fl n (off + (dumpsCompact Fl v).length + 1) vs := by
  rw [wholeFrom, ends, List.zip_cons_cons, List.filter_cons_of_pos (by simpa using h),
    List.map_cons, wholeFrom]

/-- Past the first value that does not end there, none does. -/
theorem wholeFrom_none (h : n < off + (dumpsCompact Fl v).length) :
    wholeFrom Fl n off (v :: vs) = [] := by
  rw [wholeFrom, List.map_eq_nil_iff, List.filter_eq_nil_iff]
  intro e he
  have hmem := (List.of_mem_zip he).2
  rw [ends] at hmem
  rw [decide_eq_true_eq]
  rcases List.mem_cons.1 hmem with heq | hmem
  · omega
  · have := lt_of_mem_ends hmem
    omega

/-- No brace in a text : the search finds nothing in it. -/
def NoBrace (s : Text) : Prop :=
  '{' ∉ s

theorem find_noBrace (h : NoBrace s) (q : Text) :
    (s ++ q).dropWhile (· ≠ '{') = q.dropWhile (· ≠ '{') := by
  induction s with
  | nil => rfl
  | cons c s ih =>
    have hc : c ≠ '{' := fun heq => h (heq ▸ List.mem_cons_self)
    rw [List.cons_append, List.dropWhile_cons_of_pos (by simpa using hc)]
    exact ih fun hs => h (List.mem_cons_of_mem _ hs)

theorem decodeAll_noBrace {fuel : ℕ} (h : NoBrace s) :
    decodeAll Fl (fuel + 1) s = some (.ok []) := by
  have hfind := find_noBrace h []
  rw [List.append_nil] at hfind
  rw [decodeAll, if_pos (by rw [hfind]; rfl)]

/-- Past a text without braces, at the text of a dict or what is left of it. -/
theorem find_dict {sep : Text} (hsep : NoBrace sep) (hd : isDict v = true) (hne : q ≠ [])
    (hq : q <+: dumpsCompact Fl v ++ rest) :
    (sep ++ q).dropWhile (· ≠ '{') = q ∧ Opens q := by
  obtain ⟨t, htext⟩ := @opens_dict F Fl v hd
  obtain ⟨c, q, rfl⟩ := List.exists_cons_of_ne_nil hne
  obtain rfl : c = '{' := by
    rw [htext] at hq
    exact (List.cons_prefix_cons.1 hq).1
  exact ⟨by rw [find_noBrace hsep, List.dropWhile_cons_of_neg (by simp)], .inr rfl⟩

/-- A beginning of the list, from a separator on : the dicts that lie wholly in it are found,
and nothing else. -/
theorem decodeAll_cut (hF : Fl.Exact) : ∀ (vs : List (PyVal F)),
    (∀ v ∈ vs, Canonical v ∧ v.depth ≤ maxDepth ∧ isDict v = true) →
    ∀ (sep q rest : Text) (fuel off : ℕ), NoBrace sep → q.length < fuel →
      (∀ v vs', vs = v :: vs' → rest = dumpsCompact Fl v ++ tailText Fl vs') →
      (vs = [] → NoBrace rest) → q <+: sep ++ rest → sep.length ≤ off →
      decodeAll Fl fuel q =
        some (.ok (wholeFrom Fl (off - sep.length + q.length) off vs)) := by
  intro vs
  induction vs with
  | nil =>
    intro hvs sep q rest fuel off hsep hfuel _ hrest hq _
    obtain ⟨fuel, rfl⟩ : ∃ k, fuel = k + 1 := ⟨fuel - 1, by omega⟩
    refine decodeAll_noBrace fun hmem => ?_
    rcases List.mem_append.1 (hq.subset hmem) with h | h
    · exact hsep h
    · exact hrest rfl h
  | cons v vs ih =>
    intro hvs sep q rest fuel off hsep hfuel hrest _ hq hoff
    obtain ⟨fuel, rfl⟩ : ∃ k, fuel = k + 1 := ⟨fuel - 1, by omega⟩
    obtain ⟨hv, hdepth, hd⟩ := hvs v List.mem_cons_self
    obtain rfl := hrest v vs rfl
    have hpos : 0 < (dumpsCompact Fl v).length := by
      obtain ⟨t, htext⟩ := @opens_dict F Fl v hd
      rw [htext]
      simp
    rcases le_or_gt q.length sep.length with hle | hlt
    · -- nothing of the dict is left
      have hq : q <+: sep := List.prefix_of_prefix_length_le hq (List.prefix_append _ _) hle
      rw [wholeFrom_none (by omega)]
      exact decodeAll_noBrace fun hmem => hsep (hq.subset hmem)
    · obtain ⟨p, rfl⟩ : sep <+: q :=
        List.prefix_of_prefix_length_le (List.prefix_append _ _) hq hlt.le
      have hp : p <+: dumpsCompact Fl v ++ tailText Fl vs :=
        (List.prefix_append_right_inj sep).1 hq
      rw [List.length_append] at hlt hfuel
      have hne : p ≠ [] := by
        rintro rfl
        simp at hlt
      obtain ⟨hfind, hopen⟩ := find_dict hsep hd hne hp
      rw [decodeAll, hfind, if_neg hne, List.length_append]
      rcases lt_or_ge p.length (dumpsCompact Fl v).length with hcut | hall
      · -- the dict is cut
        have hp : p <+: dumpsCompact Fl v :=
          List.prefix_of_prefix_length_le hp (List.prefix_append _ _) hcut.le
        obtain ⟨e, he, hvalue⟩ := rawDecode_cut hF hv hdepth hopen hp
          fun heq => by rw [heq] at hcut; omega
        rw [he, wholeFrom_none (by omega)]
        dsimp only
        rw [if_pos hvalue]
      · obtain ⟨q, rfl⟩ : dumpsCompact Fl v <+: p :=
          List.prefix_of_prefix_length_le (List.prefix_append _ _) hp hall
        have hq : q <+: tailText Fl vs := (List.prefix_append_right_inj _).1 hp
        rw [List.length_append] at hfuel ⊢
        rw [rawDecode_dict hF hv hdepth hd, wholeFrom_cons (by omega)]
        dsimp only
        have hnext : decodeAll Fl fuel q = some (.ok (wholeFrom Fl
            (off + (dumpsCompact Fl v).length + 1 - 1 + q.length)
            (off + (dumpsCompact Fl v).length + 1) vs)) := by
          have hvs' := fun w hw => hvs w (List.mem_cons_of_mem _ hw)
          rcases vs with _ | ⟨w, vs⟩
          · obtain ⟨fuel, rfl⟩ : ∃ k, fuel = k + 1 := ⟨fuel - 1, by omega⟩
            refine decodeAll_noBrace fun hmem => ?_
            have hbracket := hq.subset hmem
            simp [tailText] at hbracket
          · exact ih hvs' [','] q _ fuel _ (by simp [NoBrace]) (by omega)
              (fun _ _ h => by obtain ⟨rfl, rfl⟩ := List.cons.inj h; rfl) (by simp) hq (by simp)
        rw [hnext]
        have hlen : off - sep.length + (sep.length + ((dumpsCompact Fl v).length + q.length)) =
            off + (dumpsCompact Fl v).length + 1 - 1 + q.length := by omega
        rw [hlen]
        simp [Except.map, hd]

/-! ## The whole run -/

/-- A text that starts with a character that is no white space loses white space at its end
only. -/
theorem strip_spec {c : Char} (hc : isspace c = false) (s : Text) :
    (strip (c :: s)).head? = some c ∧
      ∃ space, c :: s = strip (c :: s) ++ space ∧ ∀ x ∈ space, isspace x = true := by
  have hstart : (c :: s).dropWhile isspace = c :: s :=
    List.dropWhile_cons_of_neg (by simp [hc])
  have hsplit : strip (c :: s) ++ (c :: s).rtakeWhile isspace = c :: s := by
    rw [strip, hstart]
    exact List.rdropWhile_append_rtakeWhile
  refine ⟨?_, _, hsplit.symm, fun x hx => List.mem_rtakeWhile_imp hx⟩
  rcases hstrip : strip (c :: s) with _ | ⟨x, t⟩
  · have hnil : (c :: s).rdropWhile isspace = [] := by rw [← hstrip, strip, hstart]
    have hall := List.rdropWhile_eq_nil_iff.1 hnil c List.mem_cons_self
    rw [hc] at hall
    cases hall
  · rw [hstrip] at hsplit
    rw [(List.cons.inj hsplit).1, List.head?_cons]

/-- What follows the opening bracket of a list. -/
def insideText (Fl : Floats F) : List (PyVal F) → Text
  | [] => [']']
  | v :: vs => dumpsCompact Fl v ++ tailText Fl vs

theorem dumpsCompact_arr (vs : List (PyVal F)) :
    dumpsCompact Fl (.arr vs) = '[' :: insideText Fl vs := by
  cases vs with
  | nil => rfl
  | cons v vs =>
    rw [dumpsCompact, writeJson, List.cons_append, writeElems_tail, insideText]

theorem length_lt_insideText : ∀ vs : List (PyVal F), 0 < (insideText Fl vs).length
  | [] => by simp [insideText]
  | v :: [] => by simp [insideText, tailText]
  | v :: w :: vs => by simp [insideText, tailText]

theorem wholeFrom_all : ∀ (vs : List (PyVal F)) (off : ℕ),
    off + (insideText Fl vs).length ≤ n + 1 → wholeFrom Fl n off vs = vs
  | [], _, _ => rfl
  | [v], off, h => by
    simp only [insideText, tailText, List.length_append, List.length_singleton] at h
    rw [wholeFrom_cons (by omega)]
    rfl
  | v :: w :: vs, off, h => by
    simp only [insideText, tailText, List.length_append, List.length_cons] at h
    have hrest := wholeFrom_all (w :: vs) (off + (dumpsCompact Fl v).length + 1)
      (by simp only [insideText, List.length_append]; omega)
    rw [wholeFrom_cons (by omega), hrest]

/-- Each dict of a list ends in a brace. -/
theorem ends_brace : ∀ (vs : List (PyVal F)), (∀ v ∈ vs, isDict v = true) →
    ∀ (pre : Text), ∀ e ∈ ends Fl pre.length vs,
      0 < e ∧ (pre ++ insideText Fl vs)[e - 1]? = some '}'
  | [], _, _, _, h => by cases h
  | v :: vs, hd, pre, e, h => by
    obtain ⟨t, htext⟩ := @opens_dict F Fl v (hd v List.mem_cons_self)
    rcases List.mem_cons.1 h with rfl | h
    · have hlen : pre.length + (dumpsCompact Fl v).length - 1 = (pre ++ '{' :: t).length := by
        rw [htext]
        simp only [List.length_append, List.length_cons, List.length_nil]
        omega
      have hsplit : pre ++ insideText Fl (v :: vs) = (pre ++ '{' :: t) ++ '}' :: tailText Fl vs := by
        rw [insideText, htext]
        simp
      refine ⟨?_, ?_⟩
      · rw [htext, List.length_append]
        simp
      · rw [hlen, hsplit, List.getElem?_append_right le_rfl, Nat.sub_self]
        rfl
    · rcases vs with _ | ⟨w, vs⟩
      · cases h
      · have hpre : (pre ++ dumpsCompact Fl v ++ [',']).length =
            pre.length + (dumpsCompact Fl v).length + 1 := by
          simp only [List.length_append, List.length_singleton]
        rw [← hpre] at h
        have hrest := ends_brace (w :: vs) (fun x hx => hd x (List.mem_cons_of_mem _ hx)) _ e h
        have hsplit : pre ++ insideText Fl (v :: w :: vs) =
            pre ++ dumpsCompact Fl v ++ [','] ++ insideText Fl (w :: vs) := by
          rw [insideText, tailText, insideText]
          simp
        rw [hsplit]
        exact hrest

/-- White space at the end of what is left of a list holds the end of no dict. -/
theorem whole_strip (hd : ∀ v ∈ vs, isDict v = true) {body space : Text}
    (hp : body ++ space <+: dumpsCompact Fl (.arr vs)) (hspace : ∀ x ∈ space, isspace x = true) :
    whole Fl (body ++ space).length vs = whole Fl body.length vs := by
  have hiff (e : PyVal F × ℕ) (he : e ∈ vs.zip (ends Fl 1 vs)) :
      decide (e.2 ≤ (body ++ space).length) = decide (e.2 ≤ body.length) := by
    rw [decide_eq_decide, List.length_append]
    refine ⟨fun hle => ?_, fun hle => by omega⟩
    by_contra hgt
    obtain ⟨hpos, hbrace⟩ := ends_brace vs hd ['['] e.2 (List.of_mem_zip he).2
    obtain ⟨rest, hrest⟩ := hp
    have htext : ['['] ++ insideText Fl vs = body ++ space ++ rest := by
      rw [hrest, dumpsCompact_arr]
      rfl
    rw [htext, List.append_assoc, List.getElem?_append_right (by omega),
      List.getElem?_append_left (by omega)] at hbrace
    have hmem := hspace '}' (List.mem_of_getElem? hbrace)
    exact absurd hmem (by decide)
  rw [whole, whole, List.filter_congr hiff]

theorem decodeAll_ends : ∀ (fuel : ℕ) (s : Text), s.length < fuel →
    (decodeAll Fl fuel s).isSome = true
  | 0, _, h => by omega
  | fuel + 1, s, h => by
    rw [decodeAll]
    split_ifs with hnone
    · rfl
    · have hsuffix : s.dropWhile (· ≠ '{') <:+ s := List.dropWhile_suffix _
      have hlen := hsuffix.length_le
      rw [rawDecode]
      cases hscan : scanOnce (scanner Fl) (fuelFor (s.dropWhile (· ≠ '{'))) 0 false
          (s.dropWhile (· ≠ '{')) with
      | done x rest =>
        obtain ⟨t, hok, -, htext, -, -⟩ := scanOnce_sound (scanner_lawful Fl) hscan
        obtain ⟨c, u, hstart, -⟩ := text_start hok
        have hshort : rest.length < (s.dropWhile (· ≠ '{')).length := by
          rw [htext, hstart]
          simp
        have ih := decodeAll_ends fuel rest (by omega)
        dsimp only
        rw [Option.isSome_map]
        exact ih
      | fail e => rfl
      | more => exact absurd hscan (scanOnce_ends (scanner_lawful Fl) 0 false _)

theorem jsonLoads_ends (s : Text) : (jsonLoads Fl s).isSome = true := by
  rw [jsonLoads]
  split_ifs with hbom
  · rfl
  · cases hscan : scanOnce (scanner Fl) (fuelFor (ws s)) 0 false (ws s) with
    | done x rest =>
      dsimp only
      split_ifs <;> rfl
    | fail e => rfl
    | more => exact absurd hscan (scanOnce_ends (scanner_lawful Fl) 0 false _)

theorem iterationStats_ends (text : Text) : (iterationStats Fl text).isSome = true := by
  have hdecode : (decodeAll Fl ((strip text).length + 1) (strip text)).isSome = true :=
    decodeAll_ends _ _ (Nat.lt_succ_self _)
  rw [iterationStats]
  split_ifs with hnil
  · rfl
  · have hloads : (jsonLoads Fl (strip text)).isSome = true := jsonLoads_ends _
    obtain ⟨r, hr⟩ := Option.isSome_iff_exists.1 hloads
    rw [hr]
    rcases r with e | v
    · dsimp only
      split_ifs
      · exact hdecode
      · rfl
    · cases v with
      | null => exact hdecode
      | bool b => rfl
      | num n => rfl
      | str s => rfl
      | arr vs => rfl
      | obj fs => rfl

theorem canonical_elems : ∀ {vs : List (PyVal F)}, Json.WFElems vs → AllNumElems IntOk vs →
    ∀ v ∈ vs, Canonical v ∧ v.depth ≤ Json.depthElems vs
  | [], _, _, _, h => by cases h
  | v :: vs, hw, hn, w, h => by
    rw [Json.depthElems]
    rcases List.mem_cons.1 h with rfl | h
    · exact ⟨⟨hw.1, hn.1⟩, le_max_left _ _⟩
    · obtain ⟨hv, hdepth⟩ := canonical_elems hw.2 hn.2 w h
      exact ⟨hv, hdepth.trans (le_max_right _ _)⟩

/-- The beginning of a list that is not all of it is no JSON. -/
theorem jsonLoads_cut (hF : Fl.Exact) (hv : Canonical v) (hdepth : v.depth ≤ maxDepth)
    (hopen : q.head? = some '[') (hq : q <+: dumpsCompact Fl v) (hne : q ≠ dumpsCompact Fl v) :
    ∃ e, jsonLoads Fl q = some (.error e) ∧ isValueError e = true := by
  obtain ⟨e, he, hvalue⟩ := scan_cut hF hv hdepth (.inl hopen) hq hne
  have hws : ws q = q := by
    rw [eq_cons_of_head? hopen, ws_of_not (by decide)]
  have hbom : q.head? ≠ some '\ufeff' := by
    rw [hopen]
    decide
  exact ⟨toExc e, by rw [jsonLoads, if_neg hbom, hws, he], hvalue⟩

/-- A clipped list of dicts loses its tail only : the dicts whose text lies wholly in what is
left are found, each once and in order, and nothing else. On any text the run comes to an
end. -/
theorem iterationStats_cut (hF : Fl.Exact) (vs : List (PyVal F))
    (hv : Canonical (.arr vs : PyVal F)) (hdepth : (.arr vs : PyVal F).depth ≤ maxDepth)
    (hd : ∀ v ∈ vs, isDict v = true) :
    (∀ p, p <+: dumpsCompact Fl (.arr vs) →
      iterationStats Fl p = some (.ok (whole Fl p.length vs))) ∧
    ∀ text, (iterationStats Fl text).isSome = true := by
  refine ⟨fun p hp => ?_, iterationStats_ends⟩
  rcases p with _ | ⟨c, p⟩
  · have hnone : whole Fl 0 vs = [] := by
      cases vs with
      | nil => rfl
      | cons v vs => exact wholeFrom_none (by omega)
    rw [List.length_nil, hnone]
    rfl
  · obtain rfl : c = '[' := by
      rw [dumpsCompact_arr] at hp
      exact (List.cons_prefix_cons.1 hp).1
    obtain ⟨hhead, space, hsplit, hspace⟩ := strip_spec (show isspace '[' = false by decide) p
    have hne : strip ('[' :: p) ≠ [] := by
      intro hnil
      rw [hnil] at hhead
      cases hhead
    have hbody : strip ('[' :: p) <+: dumpsCompact Fl (.arr vs) := by
      refine List.IsPrefix.trans ?_ hp
      exact ⟨space, hsplit.symm⟩
    have hcount : whole Fl ('[' :: p).length vs = whole Fl (strip ('[' :: p)).length vs := by
      conv_lhs => rw [hsplit]
      exact whole_strip hd (hsplit ▸ hp) hspace
    rw [hcount, iterationStats]
    generalize strip ('[' :: p) = body at hhead hne hbody
    rw [if_neg hne]
    by_cases hall : body = dumpsCompact Fl (.arr vs)
    · -- nothing but white space was cut
      have hlen : 1 + (insideText Fl vs).length ≤ body.length + 1 := by
        rw [hall, dumpsCompact_arr, List.length_cons]
        omega
      have hwhole : whole Fl body.length vs = vs := wholeFrom_all vs 1 hlen
      rw [hwhole, hall, jsonLoads_written hF hv hdepth]
      dsimp only
      rw [List.filter_eq_self.2 hd]
    · obtain ⟨e, he, hvalue⟩ := jsonLoads_cut hF hv hdepth hhead hbody hall
      rw [he]
      dsimp only
      rw [if_pos hvalue]
      have hvs (v : PyVal F) (hmem : v ∈ vs) :
          Canonical v ∧ v.depth ≤ maxDepth ∧ isDict v = true := by
        obtain ⟨hcanon, hle⟩ := canonical_elems hv.keys hv.ints v hmem
        have hlist : Json.depthElems vs + 1 ≤ maxDepth := hdepth
        exact ⟨hcanon, by omega, hd v hmem⟩
      rw [dumpsCompact_arr] at hbody
      have hall := decodeAll_cut hF vs hvs ['['] body (insideText Fl vs) (body.length + 1) 1
        (by simp [NoBrace]) (by omega) (fun v vs' h => by rw [h, insideText])
        (fun h => by rw [h]; simp [NoBrace, insideText]) hbody (by simp)
      rw [List.length_singleton, Nat.sub_self, Nat.zero_add] at hall
      exact hall

/-- Zero alone. -/
def zeros : Floats Unit where
  shown _ := .zero false
  parse s := if s = ['0', '.', '0'] then .finite () else .nan

theorem zeros_exact : zeros.Exact := fun _ => rfl

/-- Two statistics, the first with an object in it. -/
def twoStats : List (PyVal Unit) :=
  [.obj [(['a'], .arr [.obj [], .num (.int ['1', '2'])])], .obj [(['b'], .num (.float (.finite ())))]]

/-- Cut in the second object : the first is found, and no object in it. -/
theorem twoStats_cut :
    iterationStats zeros "[\x7b\"a\":[\x7b\x7d,12]\x7d,\x7b\"b\":0.".toList = some (.ok (twoStats.take 1)) ∧
      ∀ text, (iterationStats zeros text).isSome = true := by
  have hcanon : Canonical (.arr twoStats : PyVal Unit) := by
    have hint : IntText ['1', '2'] :=
      .inr ⟨false, '1', ['2'], rfl, by decide, fun x hx => by
        rw [List.mem_singleton.1 hx]
        rfl⟩
    exact ⟨by simp [twoStats, Json.WF, Json.WFElems, Json.WFFields],
      by simp [twoStats, AllNum, AllNumElems, AllNumFields, IntOk, hint, intMaxStrDigits]⟩
  obtain ⟨hcut, hends⟩ := iterationStats_cut zeros_exact twoStats hcanon
    (by simp [twoStats, Json.depth, Json.depthElems, Json.depthFields, maxDepth])
    (by simp [twoStats, isDict])
  refine ⟨?_, hends⟩
  rw [hcut _ (List.isPrefixOf_iff_prefix.1 (by decide))]
  rfl

end EngineConsole.IterationStats
