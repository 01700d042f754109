import EngineConsole.PyJson
import EngineConsole.PyLines

/-!
# Live events

How the hub frames an event (`sse` of `services/common.rs`, over the JSON writer `pyjson.rs`) and
how the page reads the stream (`SSEParser` of `js/sse.js`) : text comes in chunks, a line is read
once its end is there, and a bare CR at the end of what came waits, as it may be half of CRLF.

The parser reads a line from the start of its buffer whatever comes after (`cutLine_append`), so
the events do not depend on how the text was cut (`feeds_eq`). A framed event is one `data` line
of printable characters, as the writer escapes all others, so each comes back as it was sent
(`events_arrive`).
-/

set_option linter.unusedSectionVars false

namespace EngineConsole.EventStream

open PyJson PyLines

/-! ## The hub writes -/

section Write

variable {F : Type*} (Fl : Floats F)

/-- A number of `serde_json` : an integer, or a float that is finite. -/
inductive Number (F : Type*) where
  | int (i : ℤ)
  | float (f : F)

/-- A JSON value of the hub. -/
abbrev Value (F : Type*) := Json Text (Number F)

/-- The text of a number. -/
def Number.text : Number F → Text
  | .int i => (toString i).toList
  | .float f => floatRepr Fl f

variable (item colon : Text)

mutual

/-- `write` -/
def write : Value F → Text
  | .null => ['n', 'u', 'l', 'l']
  | .bool true => ['t', 'r', 'u', 'e']
  | .bool false => ['f', 'a', 'l', 's', 'e']
  | .num n => n.text Fl
  | .str s => writeStr s
  | .arr vs => '[' :: writeElems vs ++ [']']
  | .obj fs => '{' :: writeFields fs ++ ['}']

/-- The elements, with `item` before each but the first. -/
def writeElems : List (Value F) → Text
  | [] => []
  | [v] => write v
  | v :: w :: vs => write v ++ item ++ writeElems (w :: vs)

/-- The fields, with `item` before each but the first. -/
def writeFields : List (Text × Value F) → Text
  | [] => []
  | [(k, v)] => writeStr k ++ colon ++ write v
  | (k, v) :: f :: fs => writeStr k ++ colon ++ write v ++ item ++ writeFields (f :: fs)

end

/-- `dumps_compact` -/
def dumpsCompact (v : Value F) : Text :=
  write Fl [','] [':'] v

/-- `sse_text` -/
def sseText (payload : Text) (event : Option Text) : Text :=
  let head := (event.map fun e => "event: ".toList ++ e ++ ['\n']).getD []
  let lines := pySplitlines payload
  let body :=
    if lines = [] then "data: ".toList
    else ['\n'].intercalate (lines.map fun l => "data: ".toList ++ l)
  head ++ body ++ ['\n', '\n']

/-- `sse` -/
def sse (data : Value F) (event : Option Text) : Text :=
  match data with
  | .str s => sseText s event
  | other => sseText (dumpsCompact Fl other) event

end Write

/-! ## The page reads -/

/-- An event, with the last id. -/
structure Event where
  event : Text
  data : Text
  id : Option Text
  deriving DecidableEq

/-- The event that is being read. -/
structure Current where
  event : Text
  data : List Text
  id : Option Text
  deriving DecidableEq

/-- The state of `SSEParser`. -/
structure Parser where
  buf : Text
  cur : Current
  deriving DecidableEq

/-- An event of which nothing was read. -/
def Current.new (id : Option Text) : Current :=
  ⟨"message".toList, [], id⟩

/-- The constructor of `SSEParser`. -/
def Parser.new : Parser :=
  ⟨[], .new none⟩

/-- The end of a line. -/
def isEol (c : Char) : Bool :=
  c = '\n' || c = '\r'

/-- The first line and what is left, unless its end is not there yet. -/
def cutLine (buf : Text) : Option (Text × Text) :=
  let line := buf.takeWhile fun c => !isEol c
  match buf.dropWhile fun c => !isEol c with
  | [] => none
  | ['\r'] => none
  | '\r' :: '\n' :: rest => some (line, rest)
  | _ :: rest => some (line, rest)

/-- What one line says. -/
def onLine (cur : Current) (line : Text) : Option Event × Current :=
  if line = [] then
    (if cur.data = [] then none else some ⟨cur.event, ['\n'].intercalate cur.data, cur.id⟩,
      .new cur.id)
  else if line.head? = some ':' then (none, cur)
  else
    let field := line.takeWhile fun c => c ≠ ':'
    let after := (line.dropWhile fun c => c ≠ ':').tail
    let value := if after.head? = some ' ' then after.tail else after
    if field = "data".toList then (none, { cur with data := cur.data ++ [value] })
    else if field = "event".toList then (none, { cur with event := value })
    else if field = "id".toList then (none, { cur with id := some value })
    else (none, cur)

/-- The loop of `feed`, of at most so many lines. -/
def drain : ℕ → Current → Text → List Event × Parser
  | 0, cur, buf => ([], ⟨buf, cur⟩)
  | n + 1, cur, buf =>
    match cutLine buf with
    | none => ([], ⟨buf, cur⟩)
    | some (line, rest) =>
      let r := drain n (onLine cur line).2 rest
      ((onLine cur line).1.toList ++ r.1, r.2)

/-- `feed`; every line read takes a character at least. -/
def feed (p : Parser) (chunk : Text) : List Event × Parser :=
  drain (p.buf ++ chunk).length p.cur (p.buf ++ chunk)

/-- The events of chunk after chunk. -/
def feeds (p : Parser) : List Text → List Event × Parser
  | [] => ([], p)
  | chunk :: chunks =>
    let r := feed p chunk
    let r' := feeds r.2 chunks
    (r.1 ++ r'.1, r'.2)

/-! ## One line after another -/

variable {line buf rest t x y : Text} {e : Char} {cur : Current} {n : ℕ}

/-- No end of a line in the text. -/
def Inner (s : Text) : Prop :=
  ∀ c ∈ s, isEol c = false

/-- A text is inside a line, or has a first end of a line. -/
theorem inner_or_split (buf : Text) :
    Inner buf ∨ ∃ line e t, Inner line ∧ isEol e = true ∧ buf = line ++ e :: t := by
  induction buf with
  | nil => exact .inl fun _ h => by cases h
  | cons c buf ih =>
    by_cases hc : isEol c = true
    · exact .inr ⟨[], c, buf, (fun _ h => by cases h), hc, rfl⟩
    have hc' := Bool.eq_false_iff.2 hc
    rcases ih with h | ⟨line, e, t, hline, he, rfl⟩
    · refine .inl fun x hx => ?_
      rcases List.mem_cons.1 hx with rfl | hx
      exacts [hc', h x hx]
    · refine .inr ⟨c :: line, e, t, fun x hx => ?_, he, rfl⟩
      rcases List.mem_cons.1 hx with rfl | hx
      exacts [hc', hline x hx]

theorem Inner.takeWhile (h : Inner line) (he : isEol e = true) :
    (line ++ e :: t).takeWhile (fun c => !isEol c) = line ∧
      (line ++ e :: t).dropWhile (fun c => !isEol c) = e :: t := by
  induction line with
  | nil => simp [he]
  | cons c line ih =>
    obtain ⟨htake, hdrop⟩ := ih fun x hx => h x (List.mem_cons_of_mem _ hx)
    have hc := h c List.mem_cons_self
    simp [hc, htake, hdrop]

theorem cutLine_inner (h : Inner buf) : cutLine buf = none := by
  have hdrop : buf.dropWhile (fun c => !isEol c) = [] :=
    List.dropWhile_eq_nil_iff.2 fun x hx => by rw [h x hx]; rfl
  rw [cutLine, hdrop]

/-- A line with its end : a CR at the end of the text waits, CRLF is one end. -/
theorem cutLine_split (h : Inner line) (he : isEol e = true) (t : Text) :
    cutLine (line ++ e :: t) =
      if e = '\r' ∧ t = [] then none
      else if e = '\r' ∧ t.head? = some '\n' then some (line, t.tail)
      else some (line, t) := by
  obtain ⟨htake, hdrop⟩ := h.takeWhile he (t := t)
  rw [cutLine, htake, hdrop]
  by_cases hcr : e = '\r'
  · subst hcr
    cases t with
    | nil => rfl
    | cons c t =>
      by_cases hlf : c = '\n'
      · subst hlf
        rfl
      · simp [hlf]
  · simp [hcr]

theorem cutLine_lf (h : Inner line) (t : Text) :
    cutLine (line ++ '\n' :: t) = some (line, t) := by
  rw [cutLine_split h rfl]
  rfl

theorem cutLine_length (h : cutLine buf = some (line, rest)) : rest.length < buf.length := by
  rcases inner_or_split buf with hbuf | ⟨l, e, t, hl, he, rfl⟩
  · rw [cutLine_inner hbuf] at h
    cases h
  · rw [cutLine_split hl he] at h
    rw [List.length_append, List.length_cons]
    split_ifs at h
    · obtain ⟨-, rfl⟩ := Prod.mk.inj (Option.some.inj h)
      rw [List.length_tail]
      omega
    · obtain ⟨-, rfl⟩ := Prod.mk.inj (Option.some.inj h)
      omega

/-- A line that was read is read whatever comes after. -/
theorem cutLine_append (h : cutLine x = some (line, rest)) (y : Text) :
    cutLine (x ++ y) = some (line, rest ++ y) := by
  rcases inner_or_split x with hx | ⟨l, e, t, hl, he, rfl⟩
  · rw [cutLine_inner hx] at h
    cases h
  rw [cutLine_split hl he] at h
  rw [List.append_assoc, List.cons_append, cutLine_split hl he]
  split_ifs at h with hwait hcrlf
  · obtain ⟨rfl, rfl⟩ := Prod.mk.inj (Option.some.inj h)
    cases t with
    | nil => cases hcrlf.2
    | cons c t =>
      rw [if_neg (by simp), List.cons_append, List.head?_cons, ← List.head?_cons (l := t),
        if_pos hcrlf]
      rfl
  · obtain ⟨rfl, rfl⟩ := Prod.mk.inj (Option.some.inj h)
    cases t with
    | nil =>
      have hcr : e ≠ '\r' := fun hcr => hwait ⟨hcr, rfl⟩
      simp [hcr]
    | cons c t =>
      rw [if_neg (by simp), List.cons_append, List.head?_cons, ← List.head?_cons (l := t),
        if_neg hcrlf]

/-- More fuel than characters changes nothing. -/
theorem drain_fuel : ∀ {n : ℕ} {cur : Current} {buf : Text}, buf.length ≤ n →
    drain n cur buf = drain buf.length cur buf := by
  suffices hgen : ∀ (n m : ℕ) (cur : Current) (buf : Text), buf.length ≤ n → buf.length ≤ m →
      drain n cur buf = drain m cur buf from fun {n cur buf} h => hgen n _ cur buf h le_rfl
  have hempty (n : ℕ) (cur : Current) : drain n cur [] = ([], ⟨[], cur⟩) := by
    cases n with
    | zero => rfl
    | succ n => rfl
  intro n
  induction n with
  | zero =>
    intro m cur buf hn hm
    rw [List.length_eq_zero_iff.1 (Nat.le_zero.1 hn), hempty, hempty]
  | succ n ih =>
    intro m cur buf hn hm
    cases m with
    | zero => rw [List.length_eq_zero_iff.1 (Nat.le_zero.1 hm), hempty, hempty]
    | succ m =>
      rw [drain, drain]
      rcases hcut : cutLine buf with _ | ⟨line, rest⟩
      · rfl
      · have hlen := cutLine_length hcut
        dsimp only
        rw [ih m _ rest (by omega) (by omega)]

/-- Every line there is. -/
def drainAll (cur : Current) (buf : Text) : List Event × Parser :=
  drain buf.length cur buf

theorem drainAll_none (h : cutLine buf = none) : drainAll cur buf = ([], ⟨buf, cur⟩) := by
  rw [drainAll]
  cases buf with
  | nil => rfl
  | cons c buf => rw [List.length_cons, drain, h]

theorem drainAll_some (h : cutLine buf = some (line, rest)) :
    drainAll cur buf = ((onLine cur line).1.toList ++ (drainAll (onLine cur line).2 rest).1,
      (drainAll (onLine cur line).2 rest).2) := by
  have hlen := cutLine_length h
  obtain ⟨n, hn⟩ : ∃ n, buf.length = n + 1 := ⟨buf.length - 1, by omega⟩
  rw [drainAll, hn, drain, h]
  dsimp only
  rw [drain_fuel (show rest.length ≤ n by omega), drainAll]

/-- What is left has no line that can be read. -/
theorem drainAll_ends (cur : Current) (buf : Text) : cutLine (drainAll cur buf).2.buf = none := by
  induction hn : buf.length using Nat.strongRecOn generalizing cur buf with
  | _ n ih =>
    rcases hcut : cutLine buf with _ | ⟨line, rest⟩
    · rw [drainAll_none hcut]
      exact hcut
    · rw [drainAll_some hcut]
      exact ih rest.length (hn ▸ cutLine_length hcut) _ rest rfl

/-- The lines of a text are those of its beginning, then those of what was left with the rest. -/
theorem drainAll_append (cur : Current) (x y : Text) :
    drainAll cur (x ++ y) =
      ((drainAll cur x).1 ++ (feed (drainAll cur x).2 y).1, (feed (drainAll cur x).2 y).2) := by
  induction hn : x.length using Nat.strongRecOn generalizing cur x with
  | _ n ih =>
    rcases hcut : cutLine x with _ | ⟨line, rest⟩
    · rw [drainAll_none hcut]
      rfl
    · rw [drainAll_some hcut, drainAll_some (cutLine_append hcut y),
        ih rest.length (hn ▸ cutLine_length hcut) _ rest rfl, List.append_assoc]

/-- However the text is cut, the events are those of the whole text, and so is the state. -/
theorem feeds_eq : ∀ (chunks : List Text) {p : Parser}, cutLine p.buf = none →
    feeds p chunks = feed p chunks.flatten
  | [], p, h => by
    rw [feeds, List.flatten_nil, feed, List.append_nil]
    exact (drainAll_none h).symm
  | chunk :: chunks, p, h => by
    have hends : cutLine (feed p chunk).2.buf = none := drainAll_ends _ _
    have happ := drainAll_append p.cur (p.buf ++ chunk) chunks.flatten
    rw [feeds, feeds_eq chunks hends, List.flatten_cons]
    rw [List.append_assoc] at happ
    exact happ.symm

/-! ## What the hub writes is printable -/

/-- Characters of printable ASCII. -/
def Printable (s : Text) : Prop :=
  ∀ c ∈ s, 0x20 ≤ c.toNat ∧ c.toNat ≤ 0x7e

theorem printable_nil : Printable [] :=
  fun _ h => by cases h

theorem printable_of_all (h : (x.all fun c => 0x20 ≤ c.toNat && c.toNat ≤ 0x7e) = true) :
    Printable x := by
  intro c hc
  simpa using List.all_eq_true.1 h c hc

theorem printable_cons {c : Char} (hc : 0x20 ≤ c.toNat ∧ c.toNat ≤ 0x7e) (h : Printable x) :
    Printable (c :: x) := by
  intro d hd
  rcases List.mem_cons.1 hd with rfl | hd
  exacts [hc, h d hd]

theorem printable_append (hx : Printable x) (hy : Printable y) : Printable (x ++ y) := by
  intro c hc
  rcases List.mem_append.1 hc with hc | hc
  exacts [hx c hc, hy c hc]

/-- No line break of any kind is printable. -/
theorem Printable.unbroken (h : Printable x) : Unbroken x := by
  intro c hc
  obtain ⟨hlo, hhi⟩ := h c hc
  exact isBreak_of_printable hlo hhi

theorem digits_printable (h : Digits x) : Printable x := by
  intro c hc
  have hdigit := h c hc
  rw [Char.isDigit_iff_toNat] at hdigit
  have h0 : ('0' : Char).toNat = 48 := rfl
  have h9 : ('9' : Char).toNat = 57 := rfl
  omega

theorem writeStr_printable (s : Text) : Printable (writeStr s) := by
  have hunit (u : ℕ) : Printable (unitPiece u).text := by
    have hhex : ∀ n : Fin 16, 0x20 ≤ (Nat.digitChar n).toNat ∧ (Nat.digitChar n).toNat ≤ 0x7e := by
      decide
    have hmod (n : ℕ) := hhex ⟨n % 16, Nat.mod_lt n (by decide)⟩
    exact printable_cons (by decide) (printable_cons (by decide) (printable_cons (hmod _)
      (printable_cons (hmod _) (printable_cons (hmod _) (printable_cons (hmod _) printable_nil)))))
  have hchar (c : Char) : Printable (JsonSyntax.piecesText (charPieces c)) := by
    rw [charPieces]
    rcases hshort : shortLetter c with _ | e
    · dsimp only
      split_ifs with hrange
      · rw [JsonSyntax.piecesText]
        intro d hd
        obtain ⟨p, hp, hd⟩ := List.mem_flatMap.1 hd
        obtain ⟨u, -, rfl⟩ := List.mem_map.1 hp
        exact hunit u d hd
      · exact printable_cons (by omega) printable_nil
    · have he : 0x20 ≤ e.toNat ∧ e.toNat ≤ 0x7e := by
        rw [shortLetter] at hshort
        split_ifs at hshort <;> obtain rfl := Option.some.inj hshort <;> decide
      exact printable_cons (by decide) (printable_cons he printable_nil)
  refine printable_cons (by decide) (printable_append ?_ (printable_cons (by decide) printable_nil))
  rw [JsonSyntax.piecesText, List.flatMap_assoc]
  intro d hd
  obtain ⟨c, -, hd⟩ := List.mem_flatMap.1 hd
  exact hchar c d hd

variable {F : Type*} (Fl : Floats F)

theorem numText_printable {n : JsonSyntax.NumText} (h : n.Ok) : Printable n.text := by
  have hsign : Printable n.signText := by
    rw [JsonSyntax.NumText.signText]
    split_ifs
    exacts [printable_cons (by decide) printable_nil, printable_nil]
  have hfrac : Printable n.fracText := by
    rw [JsonSyntax.NumText.fracText]
    rcases hf : n.frac with _ | ds
    · exact printable_nil
    · exact printable_cons (by decide) (digits_printable (h.frac ds hf).2)
  have hexp : Printable n.expText := by
    rw [JsonSyntax.NumText.expText]
    rcases he : n.exp with _ | ⟨c, sign, ds⟩
    · exact printable_nil
    · obtain ⟨hc, hs, -, hds⟩ := h.exp _ he
      refine printable_cons ?_ (printable_append ?_ (digits_printable hds))
      · rcases hc with rfl | rfl <;> decide
      · rcases hs with hs | hs | hs <;> rw [show sign = _ from hs]
        exacts [printable_nil, printable_cons (by decide) printable_nil,
          printable_cons (by decide) printable_nil]
  exact printable_append (printable_append (printable_append hsign (digits_printable h.digits))
    hfrac) hexp

theorem Number.text_printable (n : Number F) : Printable (n.text Fl) := by
  cases n with
  | int i =>
    have hnat (m : ℕ) : Printable (toString m).toList := by
      rw [Nat.toString_eq_repr, Nat.repr_eq_ofList_toDigits, String.toList_ofList]
      exact digits_printable (digits_toDigits m)
    cases i with
    | ofNat m => exact hnat m
    | negSucc m =>
      have htext : (toString (Int.negSucc m)).toList = '-' :: (toString (m + 1)).toList := by
        rw [show toString (Int.negSucc m) = "-" ++ toString (m + 1) from rfl, String.toList_append]
        rfl
      rw [Number.text, htext]
      exact printable_cons (by decide) (hnat _)
  | float f =>
    rw [Number.text, ← num_text_eq_floatRepr]
    exact numText_printable (Shown.num_ok _)

mutual

/-- The writer escapes everything outside printable ASCII. -/
theorem write_printable {item colon : Text} (hi : Printable item) (hc : Printable colon) :
    ∀ v : Value F, Printable (write Fl item colon v)
  | .null => printable_of_all (x := ['n', 'u', 'l', 'l']) (by decide)
  | .bool true => printable_of_all (x := ['t', 'r', 'u', 'e']) (by decide)
  | .bool false => printable_of_all (x := ['f', 'a', 'l', 's', 'e']) (by decide)
  | .num n => n.text_printable Fl
  | .str s => writeStr_printable s
  | .arr vs => printable_cons (by decide) (printable_append (writeElems_printable hi hc vs)
      (printable_cons (by decide) printable_nil))
  | .obj fs => printable_cons (by decide) (printable_append (writeFields_printable hi hc fs)
      (printable_cons (by decide) printable_nil))

/-- `write_printable` for elements. -/
theorem writeElems_printable {item colon : Text} (hi : Printable item) (hc : Printable colon) :
    ∀ vs : List (Value F), Printable (writeElems Fl item colon vs)
  | [] => printable_nil
  | [v] => write_printable hi hc v
  | v :: w :: vs => printable_append (printable_append (write_printable hi hc v) hi)
      (writeElems_printable hi hc (w :: vs))

/-- `write_printable` for fields. -/
theorem writeFields_printable {item colon : Text} (hi : Printable item) (hc : Printable colon) :
    ∀ fs : List (Text × Value F), Printable (writeFields Fl item colon fs)
  | [] => printable_nil
  | [(k, v)] => printable_append (printable_append (writeStr_printable k) hc)
      (write_printable hi hc v)
  | (k, v) :: f :: fs => printable_append (printable_append (printable_append (printable_append
      (writeStr_printable k) hc) (write_printable hi hc v)) hi)
      (writeFields_printable hi hc (f :: fs))

end

/-! ## Events arrive as they were sent -/

/-- An object or an array. -/
def Container : Value F → Prop
  | .arr _ => True
  | .obj _ => True
  | _ => False

/-- What is in a stream : an event of the hub, or a comment line, with an empty line after it
or not. -/
inductive Item (F : Type*) where
  | event (data : Value F) (name : Option Text)
  | comment (text : Text) (blank : Bool)

/-- The text of an item. -/
def Item.text : Item F → Text
  | .event data name => sse Fl data name
  | .comment c blank => ':' :: c ++ '\n' :: if blank then ['\n'] else []

/-- An event has an object or an array and a name without line breaks, a comment is one line. -/
def Item.Ok : Item F → Prop
  | .event data name => Container data ∧ ∀ e ∈ name, e ≠ [] ∧ Inner e
  | .comment c _ => Inner c

/-- The event as it should arrive. -/
def Item.sent : Item F → Option Event
  | .event data name => some ⟨name.getD "message".toList, dumpsCompact Fl data, none⟩
  | .comment _ _ => none

variable {Fl} {data : Value F} {name : Option Text} {item : Item F} {items : List (Item F)}

/-- A container is framed as one line of its compact text. -/
theorem sse_container (h : Container data) (name : Option Text) : sse Fl data name =
    ((name.map fun e => "event: ".toList ++ e ++ ['\n']).getD []) ++
      ("data: ".toList ++ dumpsCompact Fl data ++ ['\n', '\n']) := by
  have hprint : Printable (dumpsCompact Fl data) :=
    write_printable Fl (printable_of_all (by decide)) (printable_of_all (by decide)) data
  have hne : dumpsCompact Fl data ≠ [] := by
    cases data with
    | arr vs => exact List.cons_ne_nil _ _
    | obj fs => exact List.cons_ne_nil _ _
    | null | bool | num | str => exact h.elim
  have hsse : sse Fl data name = sseText (dumpsCompact Fl data) name := by
    cases data with
    | str s => exact h.elim
    | null | bool | num | arr | obj => rfl
  rw [hsse, sseText, pySplitlines_unbroken hprint.unbroken, if_neg hne]
  simp [List.intercalate]

theorem drainAll_lf (h : Inner line) (cur : Current) (t : Text) :
    drainAll cur (line ++ '\n' :: t) =
      ((onLine cur line).1.toList ++ (drainAll (onLine cur line).2 t).1,
        (drainAll (onLine cur line).2 t).2) :=
  drainAll_some (cutLine_lf h t)

theorem onLine_data (cur : Current) (value : Text) :
    onLine cur ("data: ".toList ++ value) = (none, { cur with data := cur.data ++ [value] }) := by
  rw [onLine]
  simp

theorem onLine_event (cur : Current) (value : Text) :
    onLine cur ("event: ".toList ++ value) = (none, { cur with event := value }) := by
  rw [onLine]
  simp

theorem Inner.append (hx : Inner x) (hy : Inner y) : Inner (x ++ y) := by
  intro c hc
  rcases List.mem_append.1 hc with hc | hc
  exacts [hx c hc, hy c hc]

theorem inner_of_unbroken (h : Unbroken x) : Inner x := by
  intro c hc
  have hbreak := h c hc
  simp only [isBreak, Bool.or_eq_false_iff, decide_eq_false_iff_not] at hbreak
  simp [isEol, hbreak]

/-- The lines of an event : its name, its data, and the empty line that sends it. -/
theorem drainAll_event (hdata : Container data) (hname : ∀ e ∈ name, e ≠ [] ∧ Inner e)
    (t : Text) :
    drainAll (.new none) (sse Fl data name ++ t) =
      (⟨name.getD "message".toList, dumpsCompact Fl data, none⟩ :: (drainAll (.new none) t).1,
        (drainAll (.new none) t).2) := by
  have hprint : Printable (dumpsCompact Fl data) :=
    write_printable Fl (printable_of_all (by decide)) (printable_of_all (by decide)) data
  have hline : Inner ("data: ".toList ++ dumpsCompact Fl data) :=
    Inner.append (inner_of_unbroken (printable_of_all (by decide)).unbroken)
      (inner_of_unbroken hprint.unbroken)
  have hempty : Inner [] := fun _ h => by cases h
  have hsend (cur : Current) (hcur : cur.data = []) (hid : cur.id = none) :
      drainAll cur ("data: ".toList ++ dumpsCompact Fl data ++ ['\n', '\n'] ++ t) =
        (⟨cur.event, dumpsCompact Fl data, none⟩ :: (drainAll (.new none) t).1,
          (drainAll (.new none) t).2) := by
    have hcut : "data: ".toList ++ dumpsCompact Fl data ++ ['\n', '\n'] ++ t =
        ("data: ".toList ++ dumpsCompact Fl data) ++ '\n' :: ([] ++ '\n' :: t) := by simp
    rw [hcut, drainAll_lf hline, onLine_data, drainAll_lf hempty, onLine, if_pos rfl, hcur, hid]
    simp [List.intercalate]
  rw [sse_container hdata]
  cases name with
  | none => exact hsend (.new none) rfl rfl
  | some e =>
    have hnameLine : Inner ("event: ".toList ++ e) :=
      Inner.append (inner_of_unbroken (printable_of_all (by decide)).unbroken) (hname e rfl).2
    have hcut : (Option.map (fun e => "event: ".toList ++ e ++ ['\n']) (some e)).getD [] ++
        ("data: ".toList ++ dumpsCompact Fl data ++ ['\n', '\n']) ++ t =
        ("event: ".toList ++ e) ++
          '\n' :: ("data: ".toList ++ dumpsCompact Fl data ++ ['\n', '\n'] ++ t) := by simp
    rw [hcut, drainAll_lf hnameLine, onLine_event, hsend _ rfl rfl]
    rfl

/-- An item is read as it was sent, and leaves nothing behind. -/
theorem drainAll_item (h : item.Ok) (t : Text) :
    drainAll (.new none) (item.text Fl ++ t) =
      ((item.sent Fl).toList ++ (drainAll (.new none) t).1, (drainAll (.new none) t).2) := by
  cases item with
  | event data name => exact drainAll_event h.1 h.2 t
  | comment c blank =>
    have hline : Inner (':' :: c) := Inner.append (x := [':'])
      (inner_of_unbroken (printable_of_all (by decide)).unbroken) h
    have hcomment : onLine (.new none) (':' :: c) = (none, .new none) := by
      rw [onLine, if_neg (List.cons_ne_nil _ _)]
      rfl
    have htext (rest : Text) : drainAll (.new none) (':' :: c ++ '\n' :: rest) =
        drainAll (.new none) rest := by
      rw [drainAll_lf hline, hcomment]
      rfl
    cases blank with
    | false =>
      have hcut : (Item.comment (F := F) c false).text Fl ++ t = ':' :: c ++ '\n' :: t := by
        simp [Item.text]
      rw [hcut, htext]
      rfl
    | true =>
      have hempty : Inner [] := fun _ h => by cases h
      have hblank := drainAll_lf hempty (.new none) t
      have hcut : (Item.comment (F := F) c true).text Fl ++ t = ':' :: c ++ '\n' :: ('\n' :: t) := by
        simp [Item.text]
      rw [hcut, htext]
      exact hblank

theorem drainAll_items : ∀ {items : List (Item F)}, (∀ i ∈ items, i.Ok) →
    (drainAll (.new none) (items.flatMap (Item.text Fl))).1 = items.filterMap (Item.sent Fl)
  | [], _ => rfl
  | item :: items, h => by
    have hrest := drainAll_items fun i hi => h i (List.mem_cons_of_mem item hi)
    rw [List.flatMap_cons, drainAll_item (h item List.mem_cons_self), hrest]
    cases hsent : item.sent Fl with
    | none => rw [List.filterMap_cons_none hsent]; rfl
    | some ev => rw [List.filterMap_cons_some hsent]; rfl

/-- However the stream is cut, the events of the hub arrive in order, each once, with its name
and its compact text; and every text gives the same events however it is cut. -/
theorem events_arrive (Fl : Floats F) :
    (∀ items : List (Item F), (∀ i ∈ items, i.Ok) → ∀ chunks : List Text,
      chunks.flatten = items.flatMap (Item.text Fl) →
        (feeds .new chunks).1 = items.filterMap (Item.sent Fl)) ∧
    ∀ chunks chunks' : List Text, chunks.flatten = chunks'.flatten →
      (feeds .new chunks).1 = (feeds .new chunks').1 := by
  have hnew : cutLine Parser.new.buf = none := rfl
  refine ⟨fun items hitems chunks htext => ?_, fun chunks chunks' h => ?_⟩
  · rw [feeds_eq chunks hnew, htext]
    exact drainAll_items hitems
  · rw [feeds_eq chunks hnew, feeds_eq chunks' hnew, h]

/-- A stream cut inside an escape and between the two line feeds of an event. -/
def cutStream : List Text :=
  ["event: log\ndata: [\"\\u000".toList, "1\"]\n\n: hi\ndata: [-0.0]\n".toList, ['\n']]

theorem events_arrive_cut : (feeds .new cutStream).1 =
    [⟨"log".toList, "[\"\\u0001\"]".toList, none⟩, ⟨"message".toList, "[-0.0]".toList, none⟩] := by
  have hname : ∀ e ∈ some "log".toList, e ≠ [] ∧ Inner e := by
    intro e he
    obtain rfl := Option.some.inj he
    exact ⟨by decide, inner_of_unbroken (printable_of_all (by decide)).unbroken⟩
  refine (events_arrive zeros).1 [.event (.arr [.str ['\x01']]) (some "log".toList),
    .comment " hi".toList false, .event (.arr [.num (.float true)]) none] ?_ cutStream (by decide)
  intro i hi
  simp only [List.mem_cons, List.not_mem_nil, or_false] at hi
  rcases hi with rfl | rfl | rfl
  · exact ⟨trivial, hname⟩
  · exact inner_of_unbroken (printable_of_all (by decide)).unbroken
  · exact ⟨trivial, fun _ h => by cases h⟩

end EngineConsole.EventStream
