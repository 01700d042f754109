import EngineConsole.Keyed
import EngineConsole.ModelRefs

/-!
# The labels of an engine container

`engineLabels` is what the hub writes on a container it launches. They pass four hands : the
node cleans the arguments of `docker.run` (`cleanMap`), checks each label and adds its own
(`runLabels`), docker shows them among those of the image (`Shown`), the node reports what
docker shows with secrets masked and control characters dropped (`reported`), and the hub
cleans what the node pushes.

A label that fits every limit and that `scrub` leaves as it is comes back with its value,
and one that the hub did not write does not come back (`get_pushedLabels`). `scrub` stands
for the mask of secret-looking values, of which nothing else is used.
-/

set_option linter.unusedSectionVars false

namespace EngineConsole

namespace Lifecycle

open Web

/-- A label : its name and its value. -/
abbrev Label := Text × Text

/-- The value of a label. -/
def get (ls : List Label) (k : Text) : Option Text :=
  (Keyed.find Prod.fst k ls).map Prod.snd

/-! ## Integers as text -/

/-- `to_string` of an integer. -/
def intText : Int → Text
  | .ofNat n => Nat.toDigits 10 n
  | .negSucc n => '-' :: Nat.toDigits 10 (n + 1)

/-- `parse::<i64>()` of digits. -/
def parseDigits (s : Text) : Option Int :=
  if Nat.ofDigitChars 10 s 0 < 2 ^ 63 then some (Nat.ofDigitChars 10 s 0) else none

/-- `strip_prefix` of one character. -/
def stripChar (c : Char) : Text → Option Text
  | [] => none
  | d :: s => if d = c then some s else none

/-- White space, of any script where `uni` says so. -/
def white (uni : Char → Bool) (c : Char) : Bool :=
  c.isWhitespace || c == '\x0b' || c == '\x0c' || decide (127 < c.toNat) && uni c

/-- `trim`. -/
def trim (uni : Char → Bool) (s : Text) : Text :=
  (s.dropWhile (white uni)).rdropWhile (white uni)

/-- `py_int` : Python's `int(text)`. -/
def pyInt (uni : Char → Bool) (text : Text) : Option Int :=
  let t := trim uni text
  let (neg, digits) :=
    match stripChar '-' t with
    | some r => (true, r)
    | none => (false, (stripChar '+' t).getD t)
  if digits.isEmpty || digits.head? == some '_' || digits.getLast? == some '_' ||
      occurs "__" digits || !digits.all (fun c => c.isDigit || c == '_') then none
  else
    (parseDigits (digits.filter (· ≠ '_'))).map fun v => if neg then -v else v

/-! ## What the hub writes -/

/-- `LabelArgs`. -/
structure LabelArgs where
  inst : Text
  engine : Text
  display : Text
  ref : ModelRef
  port : Int
  name : Text
  gpuIds : List Int
  gpuUuids : List Text

/-- The texts with a comma between them. -/
def joined (l : List Text) : Text :=
  [','].intercalate l

/-- A value that the node would not cut short. -/
def fits (v : Text) : Bool :=
  !v.isEmpty && decide (v.length ≤ 256)

/-- The labels, before those whose values do not fit are left out. -/
def allLabels (a : LabelArgs) : List Label :=
  ([("engine-console.role", "engine"),
    ("engine-console.instance", a.inst),
    ("engine-console.engine", a.engine),
    ("engine-console.model", a.display),
    ("engine-console.port", intText a.port),
    ("engine-console.name", a.name),
    ("engine-console.format", a.ref.format),
    ("engine-console.gpu_ids", joined (a.gpuIds.map intText))] : List Label) ++
  ([("engine-console.gpus", joined a.gpuUuids),
    ("engine-console.root", a.ref.rootId.getD []),
    ("engine-console.rel", a.ref.rel.getD [])] : List Label).filter fun l => fits l.2

/-- `engine_labels`. -/
def engineLabels (a : LabelArgs) : List Label :=
  (allLabels a).filter fun l => fits l.2

/-! ## What the node does with them -/

/-- `cap_str` : Python's `str[:n].replace("\x00", "")`. -/
def capStr (v : Text) (n : ℕ) : Text :=
  (v.take n).filter (· ≠ '\x00')

/-- `clean` of an object against `M(S(n), cap)`. -/
def cleanMap (n cap : ℕ) (ls : List Label) : List Label :=
  Keyed.collect Prod.fst
    (((ls.take cap).filter fun l => decide (0 < l.1.length) && decide (l.1.length ≤ 256)).map
      fun l => (l.1.filter (· ≠ '\x00'), capStr l.2 n))

/-- A control character. -/
def ctrl (c : Char) : Bool :=
  decide (c.toNat < 32) || c.toNat == 127

/-- `LABEL_KEY`. -/
def labelKey (k : Text) : Bool :=
  (ascii "engine-console.").isPrefixOf k &&
    headed (fun c => c.isLower || c.isDigit) (fun c => c.isLower || c.isDigit || (ascii "_.-").contains c)
      62 (k.drop 15)

/-- Why `plan_run` refuses a label. -/
inductive LabelError where
  /-- keys must start with `engine-console.` -/
  | key (k : Text)
  /-- a control character in its value -/
  | control (k : Text)
  /-- it must be another value for this container -/
  | mustBe (k old : Text)
deriving DecidableEq

/-- One label of the specification. -/
def runLabel (labels : List Label) (l : Label) : Except LabelError (List Label) :=
  if !labelKey l.1 then .error (.key l.1)
  else if l.2.any ctrl then .error (.control l.1)
  else
    match get labels l.1 with
    | some old => if old ≠ l.2 then .error (.mustBe l.1 old) else .ok labels
    | none => .ok (labels ++ [l])

/-- The labels the node puts on every engine. -/
def fixedLabels (inst : Text) : List Label :=
  [("engine-console", "1"), ("engine-console.role", "engine"),
    ("engine-console.instance", inst)]

/-- The labels of `plan_run`. -/
def runLabels (inst : Text) (spec : List Label) : Except LabelError (List Label) :=
  spec.foldlM runLabel (fixedLabels inst)

/-- `clean_text`. -/
def cleanText (s : Text) (limit : ℕ) : Text :=
  (s.filter fun c => !ctrl c).take limit

/-- The labels of a container as the node reports them, of those docker shows. -/
def reported (scrub : Text → Text) (shown : List Label) : List Label :=
  Keyed.collect Prod.fst
    ((shown.take 48).map fun l => (cleanText l.1 256, cleanText (scrub l.2) 256))

/-- The labels the hub reads : as reported, cleaned against the push's specification. -/
def pushedLabels (scrub : Text → Text) (shown : List Label) : List Label :=
  cleanMap 256 48 (reported scrub shown)

/-- What docker shows of a container run with the labels `ls` : at most as many as the node
reads, these among them, and no other label whose name reads as one of the console's. -/
structure Shown (ls shown : List Label) : Prop where
  few : shown.length ≤ 48
  mem : ∀ l ∈ ls, l ∈ shown
  own : ∀ l ∈ shown, ascii "engine-console" <+: cleanText l.1 256 → l ∈ ls

/-! ## Integers come back -/

theorem isDigit_of_mem_toDigits {n : ℕ} {c : Char} (h : c ∈ Nat.toDigits 10 n) : c.isDigit = true :=
  Nat.isDigit_of_mem_toDigits (by omega) (by omega) h

theorem intText_of_nonneg {i : Int} (h : 0 ≤ i) : intText i = Nat.toDigits 10 i.toNat := by
  cases i with
  | ofNat n => rfl
  | negSucc n => exact absurd h (by simp)

theorem parseDigits_intText {i : Int} (h : 0 ≤ i) (h' : i < 2 ^ 63) :
    parseDigits (intText i) = some i := by
  rw [intText_of_nonneg h, parseDigits, Nat.ofDigitChars_ten_toDigits, if_pos (by omega)]
  simp [Int.toNat_of_nonneg h]

theorem intText_ne_nil {i : Int} (h : 0 ≤ i) : intText i ≠ [] := by
  rw [intText_of_nonneg h]
  exact Nat.toDigits_ne_nil

theorem all_isDigit_intText {i : Int} (h : 0 ≤ i) : (intText i).all Char.isDigit = true := by
  rw [intText_of_nonneg h]
  exact List.all_eq_true.2 fun c hc => isDigit_of_mem_toDigits hc

theorem not_white_of_isDigit {uni : Char → Bool} {c : Char} (h : c.isDigit = true) :
    white uni c = false := by
  have hc : 48 ≤ c.toNat ∧ c.toNat ≤ 57 := by
    simp only [Char.isDigit, Bool.and_eq_true, decide_eq_true_eq] at h
    exact ⟨UInt32.le_iff_toNat_le.1 h.1, UInt32.le_iff_toNat_le.1 h.2⟩
  have hne : ∀ d : Char, d.toNat < 48 → c ≠ d := fun d hd he => by
    subst he
    omega
  simp [white, Char.isWhitespace, hne ' ' (by decide), hne '\t' (by decide), hne '\r' (by decide),
    hne '\n' (by decide), hne '\x0b' (by decide), hne '\x0c' (by decide),
    show ¬ 127 < c.toNat by omega]


theorem ne_of_isDigit {c d : Char} (h : c.isDigit = true) (hd : d.isDigit = false) : c ≠ d :=
  fun he => by simp [he, hd] at h

theorem trim_of_isDigit {uni : Char → Bool} {s : Text} (h : ∀ c ∈ s, c.isDigit = true) :
    trim uni s = s := by
  have hw : ∀ c ∈ s, white uni c = false := fun c hc => not_white_of_isDigit (h c hc)
  have hd : s.dropWhile (white uni) = s := by
    cases s with
    | nil => rfl
    | cons c s => rw [List.dropWhile_cons_of_neg (by simp [hw c List.mem_cons_self])]
  rw [trim, hd, List.rdropWhile_eq_self_iff]
  exact fun hl => by simp [hw _ (List.getLast_mem hl)]

theorem occurs_of_not_mem : ∀ {s : Text}, (∀ c ∈ s, c ≠ '_') → occurs "__" s = false
  | [], _ => by decide
  | c :: s, h => by
    have hc := h c List.mem_cons_self
    have hu : ascii "__" = ['_', '_'] := by decide
    rw [occurs, occurs_of_not_mem fun d hd => h d (List.mem_cons_of_mem c hd), hu]
    simp only [List.isPrefixOf, Bool.or_false, Bool.and_eq_false_imp, beq_iff_eq]
    exact fun he => absurd he.symm hc

theorem stripChar_of_isDigit {s : Text} (h : ∀ c ∈ s, c.isDigit = true) {d : Char}
    (hd : d.isDigit = false) : stripChar d s = none := by
  cases s with
  | nil => rfl
  | cons c s => exact if_neg (ne_of_isDigit (h c List.mem_cons_self) hd)

/-- What is printed of a natural number reads back. -/
theorem pyInt_intText {uni : Char → Bool} {i : Int} (h : 0 ≤ i) (h' : i < 2 ^ 63) :
    pyInt uni (intText i) = some i := by
  have hdig : ∀ c ∈ intText i, c.isDigit = true := List.all_eq_true.1 (all_isDigit_intText h)
  have hne := intText_ne_nil h
  have hus : ∀ c ∈ intText i, c ≠ '_' := fun c hc => ne_of_isDigit (hdig c hc) (by decide)
  have hfilter : (intText i).filter (· ≠ '_') = intText i :=
    List.filter_eq_self.2 fun c hc => by simpa using hus c hc
  have hhead : ((intText i).head? == some '_') = false := by
    rw [beq_eq_false_iff_ne]
    exact fun he => hus _ (List.mem_of_head? he) rfl
  have hlast : ((intText i).getLast? == some '_') = false := by
    rw [beq_eq_false_iff_ne]
    exact fun he => hus _ (List.mem_of_getLast? he) rfl
  have hall : (intText i).all (fun c => c.isDigit || c == '_') = true :=
    List.all_eq_true.2 fun c hc => by simp [hdig c hc]
  unfold pyInt
  simp only [trim_of_isDigit hdig, stripChar_of_isDigit hdig (show '-'.isDigit = false by decide),
    stripChar_of_isDigit hdig (show '+'.isDigit = false by decide), Option.getD_none,
    occurs_of_not_mem hus, hhead, hlast, hall, hfilter, parseDigits_intText h h', List.isEmpty_eq_false_iff.2 hne]
  rfl

/-- The integers of a label, those that are not digits left out. -/
def parseIds (s : Text) : List Int :=
  ((s.splitOn ',').filter fun x => !x.isEmpty && x.all Char.isDigit).filterMap parseDigits

theorem parseIds_joined {ids : List Int} (h : ∀ i ∈ ids, 0 ≤ i ∧ i < 2 ^ 63) :
    parseIds (joined (ids.map intText)) = ids := by
  rcases eq_or_ne ids [] with rfl | hne
  · decide
  have hsplit : (joined (ids.map intText)).splitOn ',' = ids.map intText := by
    refine List.splitOn_intercalate ',' (fun s hs => ?_) (by simpa using hne)
    obtain ⟨i, hi, rfl⟩ := List.mem_map.1 hs
    exact fun hc => absurd (List.all_eq_true.1 (all_isDigit_intText (h i hi).1) ',' hc) (by decide)
  have hfilter : (ids.map intText).filter (fun x => !x.isEmpty && x.all Char.isDigit) =
      ids.map intText := by
    refine List.filter_eq_self.2 fun s hs => ?_
    obtain ⟨i, hi, rfl⟩ := List.mem_map.1 hs
    simp [intText_ne_nil (h i hi).1, -List.all_eq_true, all_isDigit_intText (h i hi).1]
  rw [parseIds, hsplit, hfilter, List.filterMap_map]
  conv_rhs => rw [← List.filterMap_some (l := ids)]
  exact List.filterMap_congr fun i hi => parseDigits_intText (h i hi).1 (h i hi).2

/-! ## Labels come back -/

theorem ctrl_eq_false {c : Char} (h : 32 ≤ c.toNat) (h' : c.toNat < 127) : ctrl c = false := by
  simp only [ctrl, Bool.or_eq_false_iff, decide_eq_false_iff_not, beq_eq_false_iff_ne]
  omega

theorem ctrl_of_isDigit {c : Char} (h : c.isDigit = true) : ctrl c = false := by
  simp only [Char.isDigit, Bool.and_eq_true, decide_eq_true_eq] at h
  have h₁ : 48 ≤ c.toNat := UInt32.le_iff_toNat_le.1 h.1
  have h₂ : c.toNat ≤ 57 := UInt32.le_iff_toNat_le.1 h.2
  exact ctrl_eq_false (by omega) (by omega)

theorem ctrl_of_isLower {c : Char} (h : c.isLower = true) : ctrl c = false := by
  simp only [Char.isLower, Bool.and_eq_true, decide_eq_true_eq] at h
  have h₁ : 97 ≤ c.toNat := UInt32.le_iff_toNat_le.1 h.1
  have h₂ : c.toNat ≤ 122 := UInt32.le_iff_toNat_le.1 h.2
  exact ctrl_eq_false (by omega) (by omega)

theorem ctrl_of_isUpper {c : Char} (h : c.isUpper = true) : ctrl c = false := by
  simp only [Char.isUpper, decide_eq_true_eq] at h
  have h₁ : 65 ≤ c.toNat := UInt32.le_iff_toNat_le.1 h.1
  have h₂ : c.toNat ≤ 90 := UInt32.le_iff_toNat_le.1 h.2
  exact ctrl_eq_false (by omega) (by omega)

/-- A text without control characters that fits is not changed. -/
theorem cleanText_eq {s : Text} {n : ℕ} (h : s.any ctrl = false) (hn : s.length ≤ n) :
    cleanText s n = s := by
  have hf : s.filter (fun c => !ctrl c) = s :=
    List.filter_eq_self.2 fun c hc => by simpa using List.any_eq_false.1 h c hc
  rw [cleanText, hf, List.take_of_length_le hn]

theorem cleanText_no_ctrl (s : Text) (n : ℕ) : (cleanText s n).any ctrl = false := by
  refine List.any_eq_false.2 fun c hc => ?_
  simpa using (List.mem_filter.1 (List.mem_of_mem_take hc)).2

theorem length_cleanText_le (s : Text) (n : ℕ) : (cleanText s n).length ≤ n :=
  List.length_take_le n _

theorem filter_nul_eq {s : Text} (h : s.any ctrl = false) : s.filter (· ≠ '\x00') = s := by
  refine List.filter_eq_self.2 fun c hc => ?_
  have hc' := List.any_eq_false.1 h c hc
  simp only [ne_eq, decide_not, Bool.not_eq_eq_eq_not, Bool.not_true, decide_eq_false_iff_not]
  rintro rfl
  exact hc' (by decide)

theorem capStr_eq {s : Text} {n : ℕ} (h : s.any ctrl = false) (hn : s.length ≤ n) :
    capStr s n = s := by
  rw [capStr, List.take_of_length_le hn, filter_nul_eq h]

/-- The name of a label : no control character, and it fits. -/
theorem labelKey_spec {k : Text} (h : labelKey k = true) :
    (ascii "engine-console") <+: k ∧ k.any ctrl = false ∧ k.length ≤ 256 := by
  simp only [labelKey, Bool.and_eq_true] at h
  obtain ⟨hpre, htail⟩ := h
  obtain ⟨s, rfl⟩ := List.isPrefixOf_iff_prefix.1 hpre
  have hlen : (ascii "engine-console.").length = 15 := by decide
  rw [← hlen, List.drop_left] at htail
  have hclass : ∀ c : Char, (c.isLower || c.isDigit || (ascii "_.-").contains c) = true →
      ctrl c = false := by
    intro c hc
    simp only [Bool.or_eq_true] at hc
    rcases hc with (hc | hc) | hc
    · exact ctrl_of_isLower hc
    · exact ctrl_of_isDigit hc
    · have hall : ((ascii "_.-").all fun d => !ctrl d) = true := by decide
      simpa using List.all_eq_true.1 hall c (by simpa using hc)
  refine ⟨?_, ?_, ?_⟩
  · exact List.IsPrefix.trans (by decide) (List.prefix_append _ s)
  all_goals cases s with
    | nil => decide
    | cons c s =>
      simp only [headed, Bool.and_eq_true, decide_eq_true_eq] at htail
      obtain ⟨⟨hc, hn⟩, hs⟩ := htail
      first
      | simp only [List.length_append, List.length_cons, hlen]
        omega
      | rw [List.any_append, show (ascii "engine-console.").any ctrl = false by decide,
          Bool.false_or, List.any_cons, hclass c (by rw [hc, Bool.true_or]), Bool.false_or]
        exact List.any_eq_false.2 fun d hd => by simp [hclass d (List.all_eq_true.1 hs d hd)]

theorem runLabel_eq_ok {acc ls : List Label} {l : Label} (h : runLabel acc l = .ok ls) :
    labelKey l.1 = true ∧ l.2.any ctrl = false ∧
      (get acc l.1 = some l.2 ∧ ls = acc ∨ get acc l.1 = none ∧ ls = acc ++ [l]) := by
  unfold runLabel at h
  split_ifs at h with hkey hctrl
  refine ⟨by simpa using hkey, by simpa using hctrl, ?_⟩
  split at h
  · rename_i old hold
    split_ifs at h with hne
    obtain rfl : acc = ls := Except.ok.inj h
    exact .inl ⟨by rw [hold, not_not.1 hne], rfl⟩
  · rename_i hnone
    obtain rfl : acc ++ [l] = ls := Except.ok.inj h
    exact .inr ⟨hnone, rfl⟩

theorem mem_of_get {ls : List Label} {k v : Text} (h : get ls k = some v) : (k, v) ∈ ls := by
  obtain ⟨l, hl, rfl⟩ := Option.map_eq_some_iff.1 h
  have hk := Keyed.key_of_find hl
  subst hk
  exact Keyed.mem_of_find hl

theorem get_eq_none {ls : List Label} {k : Text} :
    get ls k = none ↔ k ∉ Keyed.keys Prod.fst ls := by
  rw [get, Option.map_eq_none_iff, Keyed.find_eq_none]

/-- What a run's labels are : those of the node and those of the specification, each name
once, no control character in a value of the specification. -/
theorem foldlM_runLabel : ∀ {spec acc ls : List Label}, spec.foldlM runLabel acc = .ok ls →
    (Keyed.keys Prod.fst acc).Nodup → (Keyed.keys Prod.fst ls).Nodup ∧
      (∀ l, l ∈ ls ↔ l ∈ acc ∨ l ∈ spec) ∧ ∀ l ∈ spec, labelKey l.1 = true ∧ l.2.any ctrl = false
  | [], acc, ls, h, hn => by
    obtain rfl : acc = ls := by simpa [pure, Except.pure] using h
    exact ⟨hn, by simp, by simp⟩
  | l :: spec, acc, ls, h, hn => by
    rw [List.foldlM_cons] at h
    cases hl : runLabel acc l with
    | error e =>
      rw [hl] at h
      cases h
    | ok acc' =>
      rw [hl] at h
      obtain ⟨hkey, hctrl, hacc⟩ := runLabel_eq_ok hl
      have hacc' : (Keyed.keys Prod.fst acc').Nodup ∧ ∀ x, x ∈ acc' ↔ x ∈ acc ∨ x = l := by
        rcases hacc with ⟨hget, rfl⟩ | ⟨hget, rfl⟩
        · exact ⟨hn, fun x => ⟨.inl, fun hx => hx.elim id fun he => he ▸ mem_of_get hget⟩⟩
        · refine ⟨?_, by simp⟩
          rw [Keyed.keys, List.map_append]
          exact hn.append (by simp) (by simpa using get_eq_none.1 hget)
      obtain ⟨hn', hmem, hspec⟩ := foldlM_runLabel h hacc'.1
      refine ⟨hn', fun x => ?_, fun x hx => ?_⟩
      · rw [hmem, hacc'.2, List.mem_cons, or_assoc]
      · rcases List.mem_cons.1 hx with rfl | hx
        exacts [⟨hkey, hctrl⟩, hspec x hx]

theorem runLabels_spec {inst : Text} {spec ls : List Label} (h : runLabels inst spec = .ok ls) :
    (Keyed.keys Prod.fst ls).Nodup ∧ (∀ l, l ∈ ls ↔ l ∈ fixedLabels inst ∨ l ∈ spec) ∧
      ∀ l ∈ spec, labelKey l.1 = true ∧ l.2.any ctrl = false :=
  foldlM_runLabel h (by
    rw [show Keyed.keys Prod.fst (fixedLabels inst) =
      [ascii "engine-console", ascii "engine-console.role", ascii "engine-console.instance"]
      from rfl]
    decide)

/-- The names of a run's labels are the console's, and fit. -/
theorem runLabels_key {inst : Text} {spec ls : List Label} (h : runLabels inst spec = .ok ls)
    {l : Label} (hl : l ∈ ls) :
    ascii "engine-console" <+: l.1 ∧ l.1.any ctrl = false ∧ l.1.length ≤ 256 := by
  obtain ⟨-, hmem, hspec⟩ := runLabels_spec h
  rcases (hmem l).1 hl with hl | hl
  · simp only [fixedLabels, List.mem_cons, List.not_mem_nil, or_false] at hl
    have hinst : ascii "engine-console" <+: ascii "engine-console.instance" ∧
        (ascii "engine-console.instance").any ctrl = false ∧
        (ascii "engine-console.instance").length ≤ 256 := by decide
    rcases hl with rfl | rfl | rfl
    exacts [by decide, by decide, hinst]
  · exact labelKey_spec (hspec l hl).1

section Pushed

variable {scrub : Text → Text} {ls shown : List Label}

theorem eq_clean_of_mem_reported {m : Label} (h : m ∈ reported scrub shown) :
    ∃ l ∈ shown, m = (cleanText l.1 256, cleanText (scrub l.2) 256) := by
  obtain ⟨l, hl, rfl⟩ := List.mem_map.1 (Keyed.mem_collect h)
  exact ⟨l, List.mem_of_mem_take hl, rfl⟩

/-- What the hub's cleaning leaves of a report : all but an empty name. -/
theorem pushedLabels_eq (scrub : Text → Text) (shown : List Label) :
    pushedLabels scrub shown =
      Keyed.collect Prod.fst ((reported scrub shown).filter fun l => decide (0 < l.1.length)) := by
  have hlen : (reported scrub shown).length ≤ 48 :=
    (Keyed.length_collect_le _).trans (by simp)
  have hclean : ∀ m ∈ reported scrub shown, m.1.any ctrl = false ∧ m.1.length ≤ 256 ∧
      m.2.any ctrl = false ∧ m.2.length ≤ 256 := by
    intro m hm
    obtain ⟨l, -, rfl⟩ := eq_clean_of_mem_reported hm
    exact ⟨cleanText_no_ctrl _ _, length_cleanText_le _ _, cleanText_no_ctrl _ _,
      length_cleanText_le _ _⟩
  rw [pushedLabels, cleanMap, List.take_of_length_le hlen]
  congr 1
  have hfilter : (reported scrub shown).filter
      (fun l => decide (0 < l.1.length) && decide (l.1.length ≤ 256)) =
      (reported scrub shown).filter fun l => decide (0 < l.1.length) := by
    refine List.filter_congr fun m hm => ?_
    simp [(hclean m hm).2.1]
  rw [hfilter]
  refine (List.map_congr_left fun m hm => ?_).trans (List.map_id _)
  obtain ⟨h₁, -, h₂, h₃⟩ := hclean m (List.mem_of_mem_filter hm)
  rw [filter_nul_eq h₁, capStr_eq h₂ h₃]
  rfl

/-- A shown label whose name reads as that of a label of the run is that label. -/
theorem Shown.eq_of_key {inst : Text} {spec : List Label} (hrun : runLabels inst spec = .ok ls)
    (hs : Shown ls shown) {l m : Label} (hl : l ∈ ls) (hm : m ∈ shown)
    (hk : cleanText m.1 256 = l.1) : m = l := by
  have hown := hs.own m hm (hk ▸ (runLabels_key hrun hl).1)
  obtain ⟨-, hc, hle⟩ := runLabels_key hrun hown
  rw [cleanText_eq hc hle] at hk
  exact List.inj_on_of_nodup_map (runLabels_spec hrun).1 hown hl hk

/-- A label of the run is reported as it is, where the mask leaves its value. -/
theorem find_reported {inst : Text} {spec : List Label} (hrun : runLabels inst spec = .ok ls)
    (hs : Shown ls shown) {l : Label} (hl : l ∈ ls) (hscrub : scrub l.2 = l.2)
    (hctrl : l.2.any ctrl = false) (hlen : l.2.length ≤ 256) :
    Keyed.find Prod.fst l.1 (reported scrub shown) = some l := by
  obtain ⟨-, hkctrl, hklen⟩ := runLabels_key hrun hl
  have hself : (cleanText l.1 256, cleanText (scrub l.2) 256) = l := by
    rw [hscrub, cleanText_eq hkctrl hklen, cleanText_eq hctrl hlen]
  refine Keyed.find_collect_of_mem (List.mem_map.2 ⟨l, ?_, hself⟩) rfl fun m hm hk => ?_
  · rw [List.take_of_length_le hs.few]
    exact hs.mem _ hl
  · obtain ⟨m', hm', rfl⟩ := List.mem_map.1 hm
    obtain rfl := hs.eq_of_key hrun hl (List.mem_of_mem_take hm') hk
    exact hself

/-- Nor does the hub's cleaning change it. -/
theorem get_pushedLabels {inst : Text} {spec : List Label} (hrun : runLabels inst spec = .ok ls)
    (hs : Shown ls shown) {l : Label} (hl : l ∈ ls) (hscrub : scrub l.2 = l.2)
    (hctrl : l.2.any ctrl = false) (hlen : l.2.length ≤ 256) :
    get (pushedLabels scrub shown) l.1 = some l.2 := by
  have hrep := find_reported hrun hs hl hscrub hctrl hlen
  obtain ⟨hpre, hkctrl, hklen⟩ := runLabels_key hrun hl
  have hpos : 0 < l.1.length :=
    (show 0 < (ascii "engine-console").length by decide).trans_le hpre.length_le
  rw [get, pushedLabels_eq, Keyed.find_collect_of_mem (e := l) _ rfl]
  · rfl
  · intro m hm hk
    obtain ⟨m', hm', rfl⟩ := eq_clean_of_mem_reported (List.mem_of_mem_filter hm)
    obtain rfl := hs.eq_of_key hrun hl hm' hk
    simp only [hscrub, cleanText_eq hkctrl hklen, cleanText_eq hctrl hlen]
  · exact List.mem_filter.2 ⟨Keyed.mem_of_find hrep, by simpa using hpos⟩

/-- A name of the console's that the run did not have does not come back. -/
theorem get_pushedLabels_eq_none {inst : Text} {spec : List Label}
    (hrun : runLabels inst spec = .ok ls) (hs : Shown ls shown) {k : Text}
    (hpre : ascii "engine-console" <+: k) (hk : k ∉ Keyed.keys Prod.fst ls) :
    get (pushedLabels scrub shown) k = none := by
  rw [get_eq_none]
  intro hmem
  obtain ⟨m, hm, rfl⟩ := List.mem_map.1 hmem
  rw [pushedLabels_eq] at hm
  obtain ⟨l, hl, rfl⟩ := eq_clean_of_mem_reported (List.mem_of_mem_filter (Keyed.mem_collect hm))
  have hown := hs.own l hl hpre
  obtain ⟨-, hc, hle⟩ := runLabels_key hrun hown
  exact hk (List.mem_map.2 ⟨l, hown, (cleanText_eq hc hle).symm⟩)

end Pushed

/-! ## The console's labels come back -/

/-- All the labels that may be written. -/
def candidates (a : LabelArgs) : List Label :=
  [("engine-console.role", "engine"),
    ("engine-console.instance", a.inst),
    ("engine-console.engine", a.engine),
    ("engine-console.model", a.display),
    ("engine-console.port", intText a.port),
    ("engine-console.name", a.name),
    ("engine-console.format", a.ref.format),
    ("engine-console.gpu_ids", joined (a.gpuIds.map intText)),
    ("engine-console.gpus", joined a.gpuUuids),
    ("engine-console.root", a.ref.rootId.getD []),
    ("engine-console.rel", a.ref.rel.getD [])]

theorem engineLabels_eq (a : LabelArgs) :
    engineLabels a = (candidates a).filter fun l => fits l.2 := by
  rw [engineLabels, allLabels, List.filter_append, List.filter_filter]
  simp only [Bool.and_self]
  rw [← List.filter_append]
  rfl

/-- The names of the labels. -/
def labelNames : List Text :=
  ["engine-console.role", "engine-console.instance", "engine-console.engine",
    "engine-console.model", "engine-console.port", "engine-console.name",
    "engine-console.format", "engine-console.gpu_ids", "engine-console.gpus",
    "engine-console.root", "engine-console.rel"]

theorem keys_candidates (a : LabelArgs) : Keyed.keys Prod.fst (candidates a) = labelNames :=
  rfl

theorem labelNames_nodup : labelNames.Nodup := by
  decide

theorem labelNames_key : ∀ k ∈ labelNames, labelKey k = true := by
  decide

theorem get_engineLabels (a : LabelArgs) (k : Text) :
    get (engineLabels a) k = (get (candidates a) k).filter fits := by
  have hn : (Keyed.keys Prod.fst (candidates a)).Nodup := labelNames_nodup
  rw [engineLabels_eq, get, get, Keyed.find_filter hn, Option.filter_map]
  rfl

theorem keys_engineLabels_subset (a : LabelArgs) :
    (Keyed.keys Prod.fst (engineLabels a)).Sublist labelNames := by
  rw [engineLabels_eq, ← keys_candidates a]
  exact List.filter_sublist.map _

/-- Without NUL. -/
def stripNul (v : Text) : Text :=
  v.filter (· ≠ '\x00')

theorem stripNul_eq {v : Text} (h : '\x00' ∉ v) : stripNul v = v :=
  List.filter_eq_self.2 fun c hc => by simpa using fun he : c = '\x00' => h (he ▸ hc)

theorem get_map (ls : List Label) (f : Text → Text) (k : Text) :
    get (ls.map fun l => (l.1, f l.2)) k = (get ls k).map f := by
  unfold get Keyed.find
  rw [List.find?_map, Option.map_map, Option.map_map]
  rfl

/-- The node's cleaning of the arguments drops the NULs of the values. -/
theorem cleanMap_engineLabels (a : LabelArgs) :
    cleanMap 256 32 (engineLabels a) = (engineLabels a).map fun l => (l.1, stripNul l.2) := by
  have hsub := keys_engineLabels_subset a
  have hlen : (engineLabels a).length ≤ 32 := by
    have hle := hsub.length_le
    rw [List.length_map] at hle
    exact hle.trans (by decide)
  have hkey : ∀ l ∈ engineLabels a, l.1.any ctrl = false ∧ l.1.length ≤ 256 ∧ 0 < l.1.length := by
    intro l hl
    have hmem : l.1 ∈ labelNames := hsub.subset (List.mem_map_of_mem hl)
    obtain ⟨hpre, hc, hle⟩ := labelKey_spec (labelNames_key _ hmem)
    exact ⟨hc, hle, (show 0 < (ascii "engine-console").length by decide).trans_le hpre.length_le⟩
  have hfilter : (engineLabels a).filter
      (fun l => decide (0 < l.1.length) && decide (l.1.length ≤ 256)) = engineLabels a :=
    List.filter_eq_self.2 fun l hl => by simp [(hkey l hl).2.1, (hkey l hl).2.2]
  have hmap : (engineLabels a).map (fun l => (l.1.filter (· ≠ '\x00'), capStr l.2 256)) =
      (engineLabels a).map fun l => (l.1, stripNul l.2) := by
    refine List.map_congr_left fun l hl => ?_
    have hfits : l.2.length ≤ 256 := by
      rw [engineLabels_eq] at hl
      have hl' := (List.mem_filter.1 hl).2
      simp only [fits, Bool.and_eq_true, decide_eq_true_eq] at hl'
      exact hl'.2
    rw [filter_nul_eq (hkey l hl).1, capStr, List.take_of_length_le hfits, stripNul]
  rw [cleanMap, List.take_of_length_le hlen, hfilter, hmap]
  refine Keyed.collect_of_nodup ?_
  rw [Keyed.keys, List.map_map]
  exact hsub.nodup labelNames_nodup

/-- What the hub reads of its own labels is what it wrote, without NUL. -/
theorem get_pushedLabels_own {a : LabelArgs} {scrub : Text → Text} {ls shown : List Label}
    (hinst : fits a.inst = true)
    (hrun : runLabels a.inst (cleanMap 256 32 (engineLabels a)) = .ok ls) (hs : Shown ls shown)
    (hscrub : ∀ l ∈ ls, scrub l.2 = l.2) {k : Text} (hk : k ∈ labelNames) :
    get (pushedLabels scrub shown) k = (get (engineLabels a) k).map stripNul := by
  obtain ⟨hn, hmem, hspec⟩ := runLabels_spec hrun
  rw [cleanMap_engineLabels] at hmem hspec
  have hpre := (labelKey_spec (labelNames_key k hk)).1
  cases hget : get (engineLabels a) k with
  | some v =>
    have hl := mem_of_get hget
    have hfits : v.length ≤ 256 := by
      rw [engineLabels_eq] at hl
      have hv := (List.mem_filter.1 hl).2
      simp only [fits, Bool.and_eq_true, decide_eq_true_eq] at hv
      exact hv.2
    have hl' : (k, stripNul v) ∈ (engineLabels a).map fun l => (l.1, stripNul l.2) :=
      List.mem_map.2 ⟨(k, v), hl, rfl⟩
    have hls := (hmem _).2 (.inr hl')
    exact get_pushedLabels hrun hs hls (hscrub _ hls) (hspec _ hl').2
      ((List.length_filter_le _ _).trans hfits)
  | none =>
    refine get_pushedLabels_eq_none hrun hs hpre fun hkeys => ?_
    obtain ⟨l, hl, rfl⟩ := List.mem_map.1 hkeys
    rcases (hmem l).1 hl with hfix | hspec'
    · simp only [fixedLabels, List.mem_cons, List.not_mem_nil, or_false] at hfix
      rcases hfix with rfl | rfl | rfl
      · exact absurd hk (by decide)
      · rw [get_engineLabels, show get (candidates a) (ascii "engine-console.role") =
          some (ascii "engine") from rfl, Option.filter_some_pos (by decide)] at hget
        cases hget
      · rw [get_engineLabels, show get (candidates a) (ascii "engine-console.instance") = some a.inst
          from rfl, Option.filter_some_pos hinst] at hget
        cases hget
    · obtain ⟨l', hl', rfl⟩ := List.mem_map.1 hspec'
      exact get_eq_none.1 hget (List.mem_map.2 ⟨l', hl', rfl⟩)

end Lifecycle

end EngineConsole
