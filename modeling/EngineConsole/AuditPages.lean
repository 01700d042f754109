import EngineConsole.Validation

/-!
# Reading the audit trail in pages

The audit trail only grows : its table refuses every update and delete. It is read newest first, a
page at a time, and the cursor of the next page is a number of rows to leave out. Rows that are
recorded between two pages push the others back, so a reader may see a row twice.

`audit_read` : it misses none. Whatever is recorded while it reads, and whatever limits it asks
for, a reader that got to the end has seen every row that was there when it began; and it gets to
the end once as many pages are read as there are rows, with none recorded in between.
-/

set_option linter.unusedSectionVars false

namespace EngineConsole.AuditPages

abbrev Text := List Char

variable {ρ : Type*}

/-! ## The table -/

def i64Max : ℕ := 2 ^ 63 - 1

structure Row (ρ : Type*) where
  id : ℕ
  entry : ρ

/-- The rows, in the order of `ORDER BY id DESC`. -/
structure Table (ρ : Type*) where
  rows : List (Row ρ)
  newest : (rows.map Row.id).Pairwise (· > ·)
  range : ∀ r ∈ rows, 1 ≤ r.id ∧ r.id ≤ i64Max

def Table.empty : Table ρ :=
  ⟨[], List.Pairwise.nil, by simp⟩

/-- What `AUTOINCREMENT` gave last. -/
def Table.lastId (t : Table ρ) : ℕ :=
  (t.rows.head?.map Row.id).getD 0

theorem Table.id_le_lastId (t : Table ρ) {r : Row ρ} (hr : r ∈ t.rows) : r.id ≤ t.lastId := by
  have hnewest := t.newest
  unfold Table.lastId
  cases hrows : t.rows with
  | nil => simp [hrows] at hr
  | cons a rows =>
    rw [hrows] at hr hnewest
    rcases List.mem_cons.mp hr with rfl | hr
    · simp
    · have hlt : r.id < a.id := (List.pairwise_cons.mp hnewest).1 r.id (List.mem_map_of_mem hr)
      simpa using hlt.le

/-- `INSERT INTO audit` : a table whose numbers are used up takes no more rows. -/
def Table.record (t : Table ρ) (e : ρ) : Table ρ :=
  if h : t.lastId < i64Max then
    { rows := ⟨t.lastId + 1, e⟩ :: t.rows
      newest := by
        rw [List.map_cons, List.pairwise_cons]
        refine ⟨fun i hi => ?_, t.newest⟩
        obtain ⟨r, hr, rfl⟩ := List.mem_map.mp hi
        exact Nat.lt_succ_of_le (t.id_le_lastId hr)
      range := by
        intro r hr
        rcases List.mem_cons.mp hr with rfl | hr
        · exact ⟨Nat.succ_pos _, h⟩
        · exact t.range r hr }
  else t

/-! ## A page -/

/-- `py_int` -/
def pyInt (text : Text) : Option ℤ :=
  Validate.parseIntStr (Validate.trim text)

/-- The limit and the offset. -/
def paginate (limit : ℤ) (cursor : Option Text) : ℤ × ℤ :=
  (max 1 (min limit 500), ((cursor.filter (· ≠ [])).bind pyInt).elim 0 (max · 0))

structure Page (ρ : Type*) where
  items : List (Row ρ)
  next : Option Text

/-- `list_page` : one row more than the page has says whether there is a next. -/
def Table.listPage (t : Table ρ) (limit : ℤ) (cursor : Option Text) : Page ρ :=
  let size := (paginate limit cursor).1
  let off := (paginate limit cursor).2
  let rows := (t.rows.drop off.toNat).take (size + 1).toNat
  { items := rows.take size.toNat
    next :=
      if size.toNat < rows.length then some (Nat.toDigits 10 (off + size).toNat) else none }

/-! ## A reader -/

structure Reading (ρ : Type*) where
  table : Table ρ
  cursor : Option Text
  seen : List (Row ρ)
  ended : Bool

/-- Anyone records a row, or the reader asks for the next page with a limit of its own. -/
inductive Act (ρ : Type*) where
  | record (e : ρ)
  | page (limit : ℤ)

def Reading.start (t : Table ρ) : Reading ρ :=
  ⟨t, none, [], false⟩

def Reading.step (s : Reading ρ) : Act ρ → Reading ρ
  | .record e => { s with table := s.table.record e }
  | .page limit =>
    if s.ended then s
    else
      let p := s.table.listPage limit s.cursor
      { s with cursor := p.next, seen := s.seen ++ p.items, ended := p.next.isNone }

def Reading.run (s : Reading ρ) (acts : List (Act ρ)) : Reading ρ :=
  acts.foldl Reading.step s

/-! ## Cursors -/

theorem length_le_lastId : ∀ (rows : List (Row ρ)), (rows.map Row.id).Pairwise (· > ·) →
    (∀ r ∈ rows, 1 ≤ r.id) → rows.length ≤ (rows.head?.map Row.id).getD 0
  | [], _, _ => by simp
  | [a], _, hpos => by simpa using hpos a (by simp)
  | a :: b :: rows, hnewest, hpos => by
    have ih := length_le_lastId (b :: rows) (List.pairwise_cons.mp hnewest).2
      fun r hr => hpos r (List.mem_cons_of_mem _ hr)
    have hlt : b.id < a.id := (List.pairwise_cons.mp hnewest).1 b.id (by simp)
    simp only [List.length_cons, List.head?_cons, Option.map_some, Option.getD_some] at ih ⊢
    omega

/-- The numbers of the rows are enough for their count. -/
theorem Table.length_le (t : Table ρ) : t.rows.length ≤ i64Max := by
  refine (length_le_lastId t.rows t.newest fun r hr => (t.range r hr).1).trans ?_
  cases hrows : t.rows with
  | nil => simp
  | cons a rows => simpa using (t.range a (by simp [hrows])).2

theorem digit_not_white {c : Char} (h : c.isDigit = true) : Validate.isWhitespace c = false := by
  have hrange : 48 ≤ c.toNat ∧ c.toNat ≤ 57 := by
    simpa [Char.isDigit, UInt32.le_iff_toNat_le] using h
  simp only [Validate.isWhitespace, Bool.or_eq_false_iff, Bool.and_eq_false_iff,
    decide_eq_false_iff_not, beq_eq_false_iff_ne]
  omega

theorem trim_digits {ds : Text} (h : ∀ c ∈ ds, c.isDigit = true) : Validate.trim ds = ds := by
  have hdrop : ds.dropWhile Validate.isWhitespace = ds :=
    List.dropWhile_eq_self_iff.mpr fun hl => by
      simp [digit_not_white (h ds[0] (List.getElem_mem hl))]
  rw [Validate.trim, hdrop, List.rdropWhile_eq_self_iff]
  intro hl
  simp [digit_not_white (h _ (List.getLast_mem hl))]

theorem parseIntStr_digits {ds : Text} (hne : ds ≠ []) (h : ∀ c ∈ ds, c.isDigit = true)
    (hlt : Validate.digitsValue ds < 2 ^ 63) :
    Validate.parseIntStr ds = some (Validate.digitsValue ds : ℤ) := by
  have hscore (c : Char) (hc : c ∈ ds) : c ≠ '_' := by
    rintro rfl
    exact absurd (h '_' hc) (by decide)
  have hdigits : Validate.underscoredDigits ds = true := by
    simp only [Validate.underscoredDigits, Bool.and_eq_true, decide_eq_true_eq, List.all_eq_true]
    refine ⟨⟨⟨⟨hne, fun c hc => by simp [h c hc]⟩, fun hc => ?_⟩, fun hc => ?_⟩, fun p hp hq => ?_⟩
    · exact hscore '_' (List.mem_of_mem_head? hc) rfl
    · exact hscore '_' (List.mem_of_mem_getLast? hc) rfl
    · obtain ⟨a, b⟩ := p
      exact hscore a (List.of_mem_zip hp).1 (Prod.mk.inj hq).1
  have hfilter : ds.filter (· ≠ '_') = ds :=
    List.filter_eq_self.mpr fun c hc => by simpa using hscore c hc
  obtain ⟨c, r, rfl⟩ := List.exists_cons_of_ne_nil hne
  have hminus : c ≠ '-' := by
    rintro rfl
    exact absurd (h '-' (by simp)) (by decide)
  have hplus : c ≠ '+' := by
    rintro rfl
    exact absurd (h '+' (by simp)) (by decide)
  unfold Validate.parseIntStr
  split
  next neg digits hsign =>
    obtain ⟨rfl, rfl⟩ : false = neg ∧ c :: r = digits := by simpa [hminus, hplus] using hsign
    simp only [hdigits, hfilter, hlt, if_true, Bool.false_eq_true, if_false]

/-- A printed number is read back. -/
theorem pyInt_toDigits {n : ℕ} (hn : n ≤ i64Max) : pyInt (Nat.toDigits 10 n) = some (n : ℤ) := by
  have hdigit (c : Char) (hc : c ∈ Nat.toDigits 10 n) : c.isDigit = true :=
    Nat.isDigit_of_mem_toDigits (by decide) (by decide) hc
  have hvalue : Validate.digitsValue (Nat.toDigits 10 n) = n := by
    have h := @Nat.ofDigitChars_ten_toDigits n
    rw [Nat.ofDigitChars_eq_foldl] at h
    exact h
  have hlt : Validate.digitsValue (Nat.toDigits 10 n) < 2 ^ 63 := by
    rw [hvalue]
    exact Nat.lt_of_le_of_lt hn (by decide)
  rw [pyInt, trim_digits hdigit, parseIntStr_digits Nat.toDigits_ne_nil hdigit hlt, hvalue]

/-- The rows that a page with this cursor leaves out. -/
def offsetOf (cursor : Option Text) : ℕ :=
  (paginate 1 cursor).2.toNat

def pageSize (limit : ℤ) : ℕ :=
  (max 1 (min limit 500)).toNat

theorem pageSize_pos (limit : ℤ) : 0 < pageSize limit := by
  unfold pageSize
  omega

/-- One row more than a page has. -/
theorem pageSize_succ (limit : ℤ) : (max 1 (min limit 500) + 1).toNat = pageSize limit + 1 := by
  unfold pageSize
  omega

theorem offsetOf_toDigits {n : ℕ} (hn : n ≤ i64Max) : offsetOf (some (Nat.toDigits 10 n)) = n := by
  have hne : Nat.toDigits 10 n ≠ [] := Nat.toDigits_ne_nil
  simp [offsetOf, paginate, Option.filter, hne, pyInt_toDigits hn]

theorem listPage_items (t : Table ρ) (limit : ℤ) (cursor : Option Text) :
    (t.listPage limit cursor).items =
      (t.rows.drop (offsetOf cursor)).take (pageSize limit) := by
  change ((t.rows.drop (offsetOf cursor)).take (max 1 (min limit 500) + 1).toNat).take
    (pageSize limit) = _
  rw [pageSize_succ, List.take_take, Nat.min_eq_left (Nat.le_succ _)]

theorem listPage_next (t : Table ρ) (limit : ℤ) (cursor : Option Text) :
    (t.listPage limit cursor).next =
      if offsetOf cursor + pageSize limit < t.rows.length then
        some (Nat.toDigits 10 (offsetOf cursor + pageSize limit))
      else none := by
  have hoff : 0 ≤ (paginate limit cursor).2 := by
    unfold paginate
    cases (cursor.filter (· ≠ [])).bind pyInt with
    | none => simp
    | some v => simp
  have hsum : ((paginate limit cursor).2 + max 1 (min limit 500)).toNat =
      offsetOf cursor + pageSize limit :=
    Int.toNat_add hoff (by omega)
  change (if pageSize limit <
      ((t.rows.drop (offsetOf cursor)).take (max 1 (min limit 500) + 1).toNat).length then
    some (Nat.toDigits 10 ((paginate limit cursor).2 + max 1 (min limit 500)).toNat) else none) = _
  rw [hsum, pageSize_succ, List.length_take, List.length_drop]
  refine if_congr ?_ rfl rfl
  omega

/-! ## A reading -/

/-- What the reader has not seen of the rows it began with is still before it. -/
structure Reads (t : Table ρ) (s : Reading ρ) : Prop where
  ahead : ∀ r ∈ t.rows,
    r ∈ s.seen ∨ s.ended = false ∧ r ∈ s.table.rows.drop (offsetOf s.cursor)
  there : ∀ r ∈ s.seen, r ∈ s.table.rows

theorem Reads.start (t : Table ρ) : Reads t (Reading.start t) :=
  ⟨fun _ hr => .inr ⟨rfl, hr⟩, fun _ hr => absurd hr List.not_mem_nil⟩

/-- A row that is recorded moves the others back. -/
theorem mem_drop_record {t : Table ρ} {e : ρ} {r : Row ρ} {k : ℕ} (h : r ∈ t.rows.drop k) :
    r ∈ (t.record e).rows.drop k := by
  unfold Table.record
  split
  case isTrue =>
    cases k with
    | zero => exact List.mem_cons_of_mem _ h
    | succ k =>
      rw [List.drop_succ_cons]
      exact List.mem_of_mem_drop (List.drop_drop ▸ h : r ∈ (t.rows.drop k).drop 1)
  case isFalse => exact h

theorem mem_record {t : Table ρ} {e : ρ} {r : Row ρ} (h : r ∈ t.rows) :
    r ∈ (t.record e).rows := by
  simpa using mem_drop_record (k := 0) h

/-- The cursor of a page that is not the last leaves out what the page has shown. -/
theorem offsetOf_next {t : Table ρ} {limit : ℤ} {cursor : Option Text}
    (h : (t.listPage limit cursor).next.isNone = false) :
    offsetOf (t.listPage limit cursor).next = offsetOf cursor + pageSize limit ∧
      offsetOf cursor + pageSize limit < t.rows.length := by
  rw [listPage_next] at h ⊢
  split
  case isTrue hlt => exact ⟨offsetOf_toDigits (hlt.le.trans t.length_le), hlt⟩
  case isFalse hge => simp [hge] at h

theorem Reads.step {t : Table ρ} {s : Reading ρ} (h : Reads t s) (a : Act ρ) :
    Reads t (s.step a) := by
  cases a with
  | record e =>
    refine ⟨fun r hr => ?_, fun r hr => mem_record (h.there r hr)⟩
    rcases h.ahead r hr with hseen | ⟨hopen, hleft⟩
    · exact .inl hseen
    · exact .inr ⟨hopen, mem_drop_record hleft⟩
  | page limit =>
    cases hended : s.ended with
    | true => rwa [Reading.step, if_pos hended]
    | false =>
      rw [Reading.step, if_neg (by simp [hended])]
      refine ⟨fun r hr => ?_, fun r hr => ?_⟩
      · rcases h.ahead r hr with hseen | ⟨_, hleft⟩
        · exact .inl (List.mem_append_left _ hseen)
        · rw [← List.take_append_drop (pageSize limit) (s.table.rows.drop (offsetOf s.cursor)),
            ← listPage_items, List.mem_append, List.drop_drop] at hleft
          rcases hleft with hnow | hlater
          · exact .inl (List.mem_append_right _ hnow)
          · cases hnext : (s.table.listPage limit s.cursor).next.isNone with
            | false =>
              refine .inr ⟨hnext, ?_⟩
              rwa [(offsetOf_next hnext).1]
            | true =>
              have hend : s.table.rows.length ≤ offsetOf s.cursor + pageSize limit := by
                by_contra hlt
                rw [listPage_next, if_pos (by omega)] at hnext
                exact Bool.false_ne_true hnext
              rw [List.drop_of_length_le hend] at hlater
              exact absurd hlater List.not_mem_nil
      · rcases List.mem_append.mp hr with hseen | hnow
        · exact h.there r hseen
        · rw [listPage_items] at hnow
          exact List.mem_of_mem_drop (List.mem_of_mem_take hnow)

theorem Reads.run {t : Table ρ} : ∀ (acts : List (Act ρ)) {s : Reading ρ}, Reads t s →
    Reads t (s.run acts)
  | [], _, h => h
  | a :: acts, _, h => Reads.run acts (h.step a)

theorem ended_run : ∀ (limits : List ℤ) {s : Reading ρ}, s.ended = true →
    (s.run (limits.map Act.page)).ended = true
  | [], _, h => h
  | limit :: limits, s, h => by
    have hstep : s.step (.page limit) = s := by rw [Reading.step, if_pos h]
    change ((s.step (.page limit)).run (limits.map Act.page)).ended = true
    rw [hstep]
    exact ended_run limits h

/-- Each page that is not the last leaves fewer rows. -/
theorem ends : ∀ (limits : List ℤ) (s : Reading ρ),
    s.table.rows.length - offsetOf s.cursor < limits.length →
    (s.run (limits.map Act.page)).ended = true
  | [], _, h => absurd h (Nat.not_lt_zero _)
  | limit :: limits, s, h => by
    cases hended : s.ended with
    | true => exact ended_run (limit :: limits) hended
    | false =>
      change ((s.step (.page limit)).run (limits.map Act.page)).ended = true
      rw [Reading.step, if_neg (by simp [hended])]
      cases hnext : (s.table.listPage limit s.cursor).next.isNone with
      | true => exact ended_run limits hnext
      | false =>
        obtain ⟨hoff, hlt⟩ := offsetOf_next hnext
        have hpos := pageSize_pos limit
        refine ends limits _ ?_
        change s.table.rows.length - offsetOf (s.table.listPage limit s.cursor).next < limits.length
        rw [hoff]
        rw [List.length_cons] at h
        omega

/-- A reader that got to the end has seen every row that was there when it began, and none that
was never recorded; and from any state it gets to the end by as many pages as there are rows, and
one, with none recorded in between. -/
theorem audit_read (t : Table ρ) (acts : List (Act ρ)) :
    let s := (Reading.start t).run acts
    (s.ended = true → ∀ r ∈ t.rows, r ∈ s.seen) ∧ (∀ r ∈ s.seen, r ∈ s.table.rows) ∧
      ∀ limits : List ℤ, s.table.rows.length < limits.length →
        (s.run (limits.map Act.page)).ended = true := by
  intro s
  have h : Reads t s := (Reads.start t).run acts
  refine ⟨fun hended r hr => ?_, h.there, fun limits hlimits => ends limits s (by omega)⟩
  rcases h.ahead r hr with hseen | ⟨hopen, _⟩
  · exact hseen
  · rw [hended] at hopen
    exact absurd hopen (by decide)

def twoRows : Table ℕ :=
  (Table.empty.record 7).record 8

/-- A row is recorded between two pages of one row. -/
def pushedBack : List (Act ℕ) :=
  [.page 1, .record 9, .page 1, .page 1]

theorem audit_read_two :
    ∀ r ∈ twoRows.rows, r ∈ ((Reading.start twoRows).run pushedBack).seen :=
  (audit_read twoRows pushedBack).1 (by decide)

end EngineConsole.AuditPages
