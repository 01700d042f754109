import EngineConsole.EventStream
import EngineConsole.IterationStats

/-!
# A reply that is shown and saved

A streamed chat reply is read twice. The hub's `Recorder` (`services/chat.rs`) looks at every line
it passes on and keeps what it saves; the page (`js/components/chat-core.js`, over the event loop
of `js/sse.js`) reads the same lines as events and adds up what it shows.

Both are folds over the values of the stream (`shown_eq`, `saved_eq`), and what one value adds to
them is the same text. The page takes `reasoning_content` unless it is absent or null, the hub
unless it is empty; the page keeps any usage that counts as true in JavaScript, the hub only an
object with fields. So what is saved is what was shown just when neither rule decides
(`saved_iff`).
-/

set_option linter.unusedSectionVars false

namespace EngineConsole.ChatRecord

open EventStream JsonSyntax

variable {N : Type*}

/-! ## Values -/

/-- A JSON value. -/
abbrev Data (N : Type*) := Json Text N

/-- What is known of numbers, and the text of a value that is none : `str_value` of the hub,
`String` of the page. -/
structure Values (N : Type*) where
  isZero : N → Bool
  strValue : Data N → Text
  toText : Data N → Text

variable (V : Values N)

/-- The field of an object; other values have none. -/
def field (v : Data N) (k : Text) : Option (Data N) :=
  match v with
  | .obj fs => (fs.find? fun f => f.1 = k).map Prod.snd
  | _ => none

/-- `truthy` of the hub. -/
def truthy : Data N → Bool
  | .null => false
  | .bool b => b
  | .num n => !V.isZero n
  | .str s => s ≠ []
  | .arr vs => !vs.isEmpty
  | .obj fs => !fs.isEmpty

/-- What counts as true in JavaScript. -/
def jsTruthy : Data N → Bool
  | .null => false
  | .bool b => b
  | .num n => !V.isZero n
  | .str s => s ≠ []
  | .arr _ => true
  | .obj _ => true

/-- `or_chain` : the first that is truthy, or the last. -/
def orChain : Option (Data N) → List (Option (Data N)) → Option (Data N)
  | last, [] => last
  | _, v :: vs => if v.any (truthy V) then v else orChain v vs

/-- `str_value` -/
def strValue : Data N → Text
  | .str s => s
  | v => V.strValue v

/-- What `+=` appends to a text. -/
def toText : Data N → Text
  | .str s => s
  | v => V.toText v

/-- `[0]` -/
def index0 : Data N → Option (Data N)
  | .arr vs => vs.head?
  | .obj fs => field (.obj fs) ['0']
  | .str s => s.head?.map fun c => .str [c]
  | _ => none

/-! ## The hub -/

/-- `Reply` -/
structure Reply (N : Type*) where
  text : Text
  reasoning : Text
  usageObj : List (Text × Data N)

/-- `Recorder` -/
structure Recorder (N : Type*) where
  reply : Option (Reply N)

/-- `recorder` -/
def Recorder.new : Recorder N :=
  ⟨some ⟨[], [], []⟩⟩

/-- What a delta adds. -/
def observeDelta (r : Reply N) (d : Data N) : Reply N :=
  let r := match (field d "content".toList).filter (truthy V) with
    | some (.str c) => { r with text := r.text ++ c }
    | _ => r
  match (orChain V none [field d "reasoning_content".toList, field d "reasoning".toList]).filter
    (truthy V) with
  | some x => { r with reasoning := r.reasoning ++ strValue V x }
  | none => r

/-- What a choice adds. -/
def observeChoice (r : Reply N) (ch : Data N) : Reply N :=
  match field ch "delta".toList with
  | some (.obj fs) => observeDelta V r (.obj fs)
  | _ => r

/-- What the choices of an event add. -/
def observeChoices (r : Reply N) : Option (Data N) → Reply N
  | some (.arr choices) => choices.foldl (observeChoice V) r
  | _ => r

/-- What the usage of an event changes. -/
def observeUsage (r : Reply N) (usage : Option (Data N)) : Reply N :=
  match usage.filter (truthy V) with
  | some (.obj u) => { r with usageObj := u }
  | _ => r

/-- What an event adds. -/
def observeEvent (r : Reply N) (ev : Data N) : Reply N :=
  observeChoices V (observeUsage V r (field ev "usage".toList)) (field ev "choices".toList)

/-- `observe`, where `hub` is `serde_json::from_str`. -/
def Recorder.observe (hub : Text → Option (Data N)) (rec : Recorder N) (line : Text) :
    Recorder N :=
  match rec.reply with
  | none => rec
  | some r =>
    if !"data:".toList.isPrefixOf line || IterationStats.strip line = "data: [DONE]".toList then rec
    else
      match hub (line.drop 5) with
      | some (.obj fs) => ⟨some (observeEvent V r (.obj fs))⟩
      | _ => rec

/-- `take` -/
def Recorder.take (rec : Recorder N) : Option (Reply N) × Recorder N :=
  (rec.reply, ⟨none⟩)

/-- The reply that is handed to the writer after these lines. -/
def saved (hub : Text → Option (Data N)) (lines : List Text) : Option (Reply N) :=
  (lines.foldl (Recorder.observe V hub) .new).take.1

/-- The lines as `open_stream` passes them on. -/
def relayed (lines : List Text) : Text :=
  lines.flatMap fun line => line ++ ['\n']

/-! ## The page -/

/-- `acc`, and whether the reply has finished, well or with an error. -/
structure Shown (N : Type*) where
  text : Text
  reasoning : Text
  usage : Option (Data N)
  finished : Option Bool

/-- What is shown at first. -/
def Shown.new : Shown N :=
  ⟨[], [], none, none⟩

/-- `done` : only the first counts. -/
def Shown.done (acc : Shown N) (ok : Bool) : Shown N :=
  { acc with finished := acc.finished.or (some ok) }

/-- The text with one more, if it counts as true. -/
def Shown.addText (acc : Shown N) (x : Option (Data N)) : Shown N :=
  match x.filter (jsTruthy V) with
  | some x => { acc with text := acc.text ++ toText V x }
  | none => acc

/-- The reasoning with one more, if it counts as true. -/
def Shown.addReasoning (acc : Shown N) (x : Option (Data N)) : Shown N :=
  match x.filter (jsTruthy V) with
  | some x => { acc with reasoning := acc.reasoning ++ toText V x }
  | none => acc

/-- `??` -/
def coalesce : Option (Data N) → Option (Data N) → Option (Data N)
  | none, w => w
  | some .null, w => w
  | some v, _ => some v

/-- `choices?.[0]?.delta` -/
def delta (v : Data N) : Option (Data N) :=
  ((field v "choices".toList).bind index0).bind (field · "delta".toList)

/-- `onEvent` of `streamCompletion`. -/
def onEvent (acc : Shown N) (event : Text) (data : Data N) : Shown N :=
  if event = "done".toList then acc.done true
  else if event = "error".toList then acc.done false
  else
    let c := delta data
    let acc := acc.addText V (c.bind (field · "content".toList))
    let acc := acc.addReasoning V (coalesce (c.bind (field · "reasoning_content".toList))
      (c.bind (field · "reasoning".toList)))
    { acc with usage := ((field data "usage".toList).filter (jsTruthy V)).or acc.usage }

/-- The events of one chunk, and whether one of them closed the stream; `page` is `JSON.parse`. -/
def readEvents (page : Text → Option (Data N)) : Shown N → List Event → Shown N × Bool
  | acc, [] => (acc, false)
  | acc, ev :: evs =>
    if ev.data = "[DONE]".toList then (onEvent V acc "done".toList .null, true)
    else readEvents page (onEvent V acc ev.event ((page ev.data).getD (.str ev.data))) evs

/-- The loop of `openStream` over the chunks, until one closes the stream. -/
def readChunks (page : Text → Option (Data N)) : Parser → Shown N → List Text → Shown N × Bool
  | _, acc, [] => (acc, false)
  | p, acc, chunk :: chunks =>
    let r := feed p chunk
    let a := readEvents V page acc r.1
    if a.2 then a else readChunks page r.2 a.1 chunks

/-- What `streamCompletion` has shown after these chunks. -/
def shown (page : Text → Option (Data N)) (chunks : List Text) : Shown N :=
  (readChunks V page .new .new chunks).1

/-! ## Streams -/

/-- The value of a data line, one leading space less. -/
def dropSpace (rest : Text) : Text :=
  if rest.head? = some ' ' then rest.tail else rest

/-- What is in a stream : a data line with what is read of it, if it is JSON, and the empty line
after it; or a comment line, with an empty line after it or not. -/
inductive Item (N : Type*) where
  | data (rest : Text) (ev : Option (Data N))
  | comment (text : Text) (blank : Bool)

/-- The lines of an item. -/
def Item.lines : Item N → List Text
  | .data rest _ => ["data:".toList ++ rest, []]
  | .comment c blank => (':' :: c) :: if blank then [[]] else []

/-- The value of an item. -/
def Item.value : Item N → Option (Data N)
  | .data _ ev => ev
  | .comment _ _ => none

/-- The lines of a whole reply, which ends with the DONE line. -/
def replyLines (items : List (Item N)) : List Text :=
  items.flatMap Item.lines ++ ["data: [DONE]".toList, []]

/-- Absent, null or a text. -/
def TextField (d : Data N) (k : Text) : Prop :=
  ∀ x, field d k = some x → x = .null ∨ ∃ s, x = .str s

/-- The texts that are read of a delta. -/
def Delta (d : Data N) : Prop :=
  TextField d "content".toList ∧ TextField d "reasoning_content".toList ∧
    TextField d "reasoning".toList

/-- An event with at most one choice, whose delta has texts in the fields that are read. -/
def OneChoice (v : Data N) : Prop :=
  ∀ x, field v "choices".toList = some x →
    (∀ fs, x ≠ .obj fs) ∧ ∀ vs, x = .arr vs → vs.length ≤ 1 ∧
      ∀ ch ∈ vs, ∀ d, field ch "delta".toList = some d → Delta d

/-- A line that both programs read in the same way. -/
def Item.Ok (hub page : Text → Option (Data N)) : Item N → Prop
  | .data rest ev => Inner rest ∧ dropSpace rest ≠ "[DONE]".toList ∧ hub rest = ev ∧
      page (dropSpace rest) = ev ∧ ∀ v ∈ ev, OneChoice v
  | .comment c _ => Inner c

/-! ## What one value adds -/

/-- The text in a field. -/
def textOf (d : Data N) (k : Text) : Option Text :=
  match field d k with
  | some (.str s) => some s
  | _ => none

/-- The text in a field of the delta. -/
def said (v : Data N) (k : Text) : Option Text :=
  (delta v).bind (textOf · k)

/-- The content. -/
def content (v : Data N) : Text :=
  (said v "content".toList).getD []

/-- The reasoning of a value as the hub takes it. -/
def hubReasoning (v : Data N) : Text :=
  if (said v "reasoning_content".toList).getD [] = [] then (said v "reasoning".toList).getD []
  else (said v "reasoning_content".toList).getD []

/-- The reasoning of a value as the page takes it. -/
def pageReasoning (v : Data N) : Text :=
  (said v "reasoning_content".toList).getD ((said v "reasoning".toList).getD [])

/-- A value whose reasoning the page passes over : `reasoning_content` is the empty text. -/
def PassedOver (v : Data N) : Prop :=
  said v "reasoning_content".toList = some [] ∧ (said v "reasoning".toList).getD [] ≠ []

/-- The usage that the page takes. -/
def usageOf (v : Data N) : Option (Data N) :=
  (field v "usage".toList).filter (jsTruthy V)

/-- The fields of an object. -/
def fieldsOf : Data N → List (Text × Data N)
  | .obj fs => fs
  | _ => []

/-- The usage that the hub has after one more that is taken by the page. -/
def keepUsage (kept : List (Text × Data N)) (u : Data N) : List (Text × Data N) :=
  if fieldsOf u = [] then kept else fieldsOf u

variable {V} {v d ch : Data N} {k : Text} {r : Reply N} {acc : Shown N}

theorem TextField.cases (h : TextField d k) :
    (textOf d k = none ∧ (field d k = none ∨ field d k = some .null)) ∨
      ∃ s, textOf d k = some s ∧ field d k = some (.str s) := by
  rcases hf : field d k with _ | x
  · exact .inl ⟨by rw [textOf, hf], .inl rfl⟩
  · rcases h x hf with rfl | ⟨s, rfl⟩
    · exact .inl ⟨by rw [textOf, hf], .inr rfl⟩
    · exact .inr ⟨s, by rw [textOf, hf], rfl⟩

/-- A text field is truthy for the hub if its text is not empty. -/
theorem TextField.filter_truthy (h : TextField d k) :
    (field d k).filter (truthy V) =
      if (textOf d k).getD [] = [] then none else some (.str ((textOf d k).getD [])) := by
  rcases h.cases with ⟨ht, hf | hf⟩ | ⟨s, ht, hf⟩ <;> rw [ht, hf]
  · rfl
  · rfl
  · cases s <;> rfl

/-- `or_chain` takes the second text if the first is empty. -/
theorem orChain_texts {k' : Text} (h : TextField d k) (h' : TextField d k') :
    (orChain V none [field d k, field d k']).filter (truthy V) =
      if (textOf d k).getD [] = [] then
        (if (textOf d k').getD [] = [] then none else some (.str ((textOf d k').getD [])))
      else some (.str ((textOf d k).getD [])) := by
  have hlast : (orChain V (field d k) [field d k']).filter (truthy V) =
      (field d k').filter (truthy V) := by
    rw [orChain, orChain]
    split_ifs <;> rfl
  rw [← h'.filter_truthy (V := V), orChain]
  rcases h.cases with ⟨ht, hf | hf⟩ | ⟨s, ht, hf⟩
  · rw [ht, ← hlast, hf]
    rfl
  · rw [ht, ← hlast, hf]
    rfl
  · rw [ht]
    cases s with
    | nil =>
      rw [← hlast, hf]
      rfl
    | cons c s =>
      rw [hf]
      rfl

theorem observeDelta_eq (hc : TextField d "content".toList)
    (hr : TextField d "reasoning_content".toList) (hs : TextField d "reasoning".toList) :
    observeDelta V r d = ⟨r.text ++ (textOf d "content".toList).getD [],
      r.reasoning ++ (if (textOf d "reasoning_content".toList).getD [] = [] then
        (textOf d "reasoning".toList).getD [] else (textOf d "reasoning_content".toList).getD []),
      r.usageObj⟩ := by
  rw [observeDelta, hc.filter_truthy, orChain_texts hr hs]
  split_ifs with h1 h2 h3 h2 <;> simp_all [strValue]

/-- A value without fields has no texts. -/
theorem textOf_none (h : ∀ fs, d ≠ .obj fs) (k : Text) : textOf d k = none := by
  have hf : field d k = none := by
    cases d with
    | obj fs => exact absurd rfl (h fs)
    | null | bool | num | str | arr => rfl
  rw [textOf, hf]

/-- What a choice adds is what is said in its delta. -/
theorem observeChoice_eq (h : ∀ d, field ch "delta".toList = some d → Delta d) :
    observeChoice V r ch =
      ⟨r.text ++ ((field ch "delta".toList).bind (textOf · "content".toList)).getD [],
        r.reasoning ++
          (if ((field ch "delta".toList).bind (textOf · "reasoning_content".toList)).getD [] = []
          then ((field ch "delta".toList).bind (textOf · "reasoning".toList)).getD []
          else ((field ch "delta".toList).bind (textOf · "reasoning_content".toList)).getD []),
        r.usageObj⟩ := by
  have hsame : r = ⟨r.text ++ [], r.reasoning ++ [], r.usageObj⟩ := by
    rw [List.append_nil, List.append_nil]
  rw [observeChoice]
  rcases hd : field ch "delta".toList with _ | d
  · exact hsame
  obtain ⟨hc, hr, hs⟩ := h d hd
  by_cases hobj : ∃ fs, d = .obj fs
  · obtain ⟨fs, rfl⟩ := hobj
    exact observeDelta_eq hc hr hs
  · have hnone := textOf_none fun fs hfs => hobj ⟨fs, hfs⟩
    simp only [Option.bind_some, hnone]
    cases d with
    | obj fs => exact absurd ⟨fs, rfl⟩ hobj
    | null | bool | num | str | arr => exact hsame

/-- With one choice at most, the delta that is read has texts. -/
theorem OneChoice.delta (h : OneChoice v) (hd : delta v = some d) : Delta d := by
  obtain ⟨ch, hch, hd⟩ := Option.bind_eq_some_iff.1 hd
  obtain ⟨x, hx, hch⟩ := Option.bind_eq_some_iff.1 hch
  obtain ⟨hobj, harr⟩ := h x hx
  cases x with
  | obj fs => exact absurd rfl (hobj fs)
  | arr vs => exact (harr vs rfl).2 ch (List.mem_of_mem_head? hch) d hd
  | str s =>
    obtain ⟨c, -, rfl⟩ := Option.map_eq_some_iff.1 hch
    cases hd
  | null | bool | num => cases hch

/-- With one choice at most, the hub's loop over the choices adds what the first delta says. -/
theorem observeChoices_eq (h : OneChoice v) :
    observeChoices V r (field v "choices".toList) =
      ⟨r.text ++ content v, r.reasoning ++ hubReasoning v, r.usageObj⟩ := by
  have hnone (hdelta : ChatRecord.delta v = none) :
      r = ⟨r.text ++ content v, r.reasoning ++ hubReasoning v, r.usageObj⟩ := by
    have hsaid (k : Text) : said v k = none := by
      rw [said, hdelta]
      rfl
    rw [content, hubReasoning, hsaid, hsaid, hsaid, Option.getD_none, if_pos rfl,
      List.append_nil, List.append_nil]
  rcases hx : field v "choices".toList with _ | x
  · exact hnone (by rw [ChatRecord.delta, hx]; rfl)
  obtain ⟨hobj, harr⟩ := h x hx
  cases x with
  | obj fs => exact absurd rfl (hobj fs)
  | null | bool | num => exact hnone (by rw [ChatRecord.delta, hx]; rfl)
  | str s => exact hnone (by rw [ChatRecord.delta, hx]; cases s <;> rfl)
  | arr vs =>
    obtain ⟨hlen, hvs⟩ := harr vs rfl
    rcases vs with _ | ⟨ch, _ | ⟨ch', vs⟩⟩
    · exact hnone (by rw [ChatRecord.delta, hx]; rfl)
    · have hdelta : ChatRecord.delta v = field ch "delta".toList := by
        rw [ChatRecord.delta, hx]
        rfl
      rw [content, hubReasoning, said, said, said, hdelta]
      exact observeChoice_eq (hvs ch List.mem_cons_self)
    · simp at hlen

/-- The hub keeps a usage that is an object with fields. -/
theorem observeUsage_eq (r : Reply N) (v : Data N) :
    observeUsage V r (field v "usage".toList) =
      ⟨r.text, r.reasoning, (usageOf V v).toList.foldl keepUsage r.usageObj⟩ := by
  rw [observeUsage, usageOf]
  rcases field v "usage".toList with _ | u
  · rfl
  cases u with
  | null => rfl
  | bool b => cases b <;> rfl
  | num n =>
    cases hz : V.isZero n <;> simp [Option.filter, truthy, jsTruthy, hz, keepUsage, fieldsOf]
  | str s => cases s <;> rfl
  | arr vs => cases vs <;> rfl
  | obj fs => cases fs <;> rfl

/-- What one value adds to what the hub saves. -/
theorem observeEvent_eq (h : OneChoice v) : observeEvent V r v =
    ⟨r.text ++ content v, r.reasoning ++ hubReasoning v,
      (usageOf V v).toList.foldl keepUsage r.usageObj⟩ := by
  rw [observeEvent, observeUsage_eq, observeChoices_eq h]

/-- A text field counts as true on the page if its text is not empty. -/
theorem TextField.filter_jsTruthy (h : TextField d k) :
    (field d k).filter (jsTruthy V) =
      if (textOf d k).getD [] = [] then none else some (.str ((textOf d k).getD [])) := by
  rcases h.cases with ⟨ht, hf | hf⟩ | ⟨s, ht, hf⟩ <;> rw [ht, hf]
  · rfl
  · rfl
  · cases s <;> rfl

/-- `??` takes the second text only if there is no first. -/
theorem coalesce_texts {k' : Text} (h : TextField d k) (h' : TextField d k') :
    (coalesce (field d k) (field d k')).filter (jsTruthy V) =
      if (textOf d k).getD ((textOf d k').getD []) = [] then none
      else some (.str ((textOf d k).getD ((textOf d k').getD []))) := by
  rcases h.cases with ⟨ht, hf | hf⟩ | ⟨s, ht, hf⟩
  · rw [ht, hf]
    exact h'.filter_jsTruthy
  · rw [ht, hf]
    exact h'.filter_jsTruthy
  · rw [ht, hf]
    cases s <;> rfl

theorem addText_eq {x : Option (Data N)} {s : Text}
    (h : x.filter (jsTruthy V) = if s = [] then none else some (.str s)) :
    acc.addText V x = { acc with text := acc.text ++ s } := by
  rw [Shown.addText, h]
  split_ifs with hs
  · rw [hs, List.append_nil]
  · rfl

theorem addReasoning_eq {x : Option (Data N)} {s : Text}
    (h : x.filter (jsTruthy V) = if s = [] then none else some (.str s)) :
    acc.addReasoning V x = { acc with reasoning := acc.reasoning ++ s } := by
  rw [Shown.addReasoning, h]
  split_ifs with hs
  · rw [hs, List.append_nil]
  · rfl

/-- What one value adds to what the page shows. -/
theorem onEvent_eq (h : OneChoice v) : onEvent V acc "message".toList v =
    ⟨acc.text ++ content v, acc.reasoning ++ pageReasoning v, (usageOf V v).or acc.usage,
      acc.finished⟩ := by
  have hdone : "message".toList ≠ "done".toList := by decide
  have herror : "message".toList ≠ "error".toList := by decide
  have htext : ((ChatRecord.delta v).bind (field · "content".toList)).filter (jsTruthy V) =
      if content v = [] then none else some (.str (content v)) := by
    rw [content, said]
    rcases hd : ChatRecord.delta v with _ | d
    · rfl
    · exact (h.delta hd).1.filter_jsTruthy
  have hreasoning : (coalesce ((ChatRecord.delta v).bind (field · "reasoning_content".toList))
      ((ChatRecord.delta v).bind (field · "reasoning".toList))).filter (jsTruthy V) =
      if pageReasoning v = [] then none else some (.str (pageReasoning v)) := by
    rw [pageReasoning, said, said]
    rcases hd : ChatRecord.delta v with _ | d
    · rfl
    · exact coalesce_texts (h.delta hd).2.1 (h.delta hd).2.2
  rw [onEvent, if_neg hdone, if_neg herror]
  dsimp only
  rw [addText_eq htext, addReasoning_eq hreasoning, usageOf]

/-! ## The page adds up the values -/

variable {hub page : Text → Option (Data N)} {item : Item N} {items : List (Item N)}
  {p : Parser} {evs evs' : List Event}

/-- The events of two chunks, one after the other. -/
theorem readEvents_append : ∀ (evs : List Event) (acc : Shown N),
    readEvents V page acc (evs ++ evs') =
      if (readEvents V page acc evs).2 then readEvents V page acc evs
      else readEvents V page (readEvents V page acc evs).1 evs'
  | [], acc => rfl
  | ev :: evs, acc => by
    rw [List.cons_append, readEvents, readEvents]
    by_cases hdone : ev.data = "[DONE]".toList
    · rw [if_pos hdone, if_pos hdone]
      rfl
    · rw [if_neg hdone, if_neg hdone]
      exact readEvents_append evs _

/-- The chunks of a stream add what its events add. -/
theorem readChunks_eq : ∀ (chunks : List Text) (p : Parser) (acc : Shown N),
    readChunks V page p acc chunks = readEvents V page acc (feeds p chunks).1
  | [], p, acc => rfl
  | chunk :: chunks, p, acc => by
    rw [readChunks, feeds, readEvents_append, ← readChunks_eq chunks]

/-- The event of an item. -/
def Item.sent : Item N → Option Event
  | .data rest _ => some ⟨"message".toList, dropSpace rest, none⟩
  | .comment _ _ => none

theorem onLine_rest (cur : Current) (rest : Text) :
    onLine cur ("data:".toList ++ rest) =
      (none, { cur with data := cur.data ++ [dropSpace rest] }) := by
  rw [onLine, dropSpace]
  rfl

/-- The empty line sends an event of one data line. -/
theorem onLine_blank {cur : Current} (h : cur.data = []) (x : Text) :
    onLine { cur with data := cur.data ++ [x] } [] =
      (some ⟨cur.event, x, cur.id⟩, .new cur.id) := by
  have hjoin : ['\n'].intercalate [x] = x := by simp [List.intercalate]
  rw [onLine, if_pos rfl, h, List.nil_append, if_neg (List.cons_ne_nil x []), hjoin]

/-- The lines of an item give its event, and leave nothing behind. -/
theorem drainAll_item (h : item.Ok hub page) (t : Text) :
    drainAll (.new none) (relayed item.lines ++ t) =
      (item.sent.toList ++ (drainAll (.new none) t).1, (drainAll (.new none) t).2) := by
  have hempty : Inner [] := fun _ h => by cases h
  have hblank (cur : Current) := drainAll_lf hempty cur t
  cases item with
  | data rest ev =>
    have hline : Inner ("data:".toList ++ rest) :=
      Inner.append (inner_of_unbroken (printable_of_all (by decide)).unbroken) h.1
    have hcut : relayed (Item.data rest ev).lines ++ t =
        ("data:".toList ++ rest) ++ '\n' :: ([] ++ '\n' :: t) := by
      simp [relayed, Item.lines]
    rw [hcut]
    refine (drainAll_lf hline _ _).trans ?_
    rw [onLine_rest]
    dsimp only
    rw [hblank, onLine_blank rfl]
    rfl
  | comment c blank =>
    have hline : Inner (':' :: c) := Inner.append (x := [':'])
      (inner_of_unbroken (printable_of_all (by decide)).unbroken) h
    have hcomment : onLine (.new none) (':' :: c) = (none, .new none) := by
      rw [onLine, if_neg (List.cons_ne_nil _ _)]
      rfl
    cases blank with
    | false =>
      have hcut : relayed (Item.comment (N := N) c false).lines ++ t = (':' :: c) ++ '\n' :: t := by
        simp [relayed, Item.lines]
      rw [hcut, drainAll_lf hline, hcomment]
      rfl
    | true =>
      have hcut : relayed (Item.comment (N := N) c true).lines ++ t =
          (':' :: c) ++ '\n' :: ([] ++ '\n' :: t) := by
        simp [relayed, Item.lines]
      rw [hcut, drainAll_lf hline, hcomment, hblank]
      rfl

/-- The events of a whole reply : one for each data line, and the last one. -/
theorem drainAll_reply : ∀ {items : List (Item N)}, (∀ i ∈ items, i.Ok hub page) →
    (drainAll (.new none) (relayed (replyLines items))).1 =
      items.filterMap Item.sent ++ [⟨"message".toList, "[DONE]".toList, none⟩]
  | [], _ => rfl
  | item :: items, h => by
    have hrest := drainAll_reply fun i hi => h i (List.mem_cons_of_mem item hi)
    have hcut : relayed (replyLines (item :: items)) =
        relayed item.lines ++ relayed (replyLines items) := by
      simp [relayed, replyLines]
    rw [hcut, drainAll_item (h item List.mem_cons_self), hrest]
    cases hsent : item.sent with
    | none => rw [List.filterMap_cons_none hsent]; rfl
    | some ev => rw [List.filterMap_cons_some hsent]; rfl

/-- The value that the page reads in an item. -/
def values (items : List (Item N)) : List (Data N) :=
  items.filterMap Item.value

/-- The events of the items add what their values add. -/
theorem readEvents_items : ∀ {items : List (Item N)}, (∀ i ∈ items, i.Ok hub page) →
    ∀ acc : Shown N, readEvents V page acc (items.filterMap Item.sent ++
      [⟨"message".toList, "[DONE]".toList, none⟩]) =
        (((values items).foldl (onEvent V · "message".toList) acc).done true, true)
  | [], _, acc => rfl
  | item :: items, h, acc => by
    have hrest (acc : Shown N) :=
      readEvents_items (fun i hi => h i (List.mem_cons_of_mem item hi)) acc
    have hitem := h item List.mem_cons_self
    cases item with
    | comment c blank => exact hrest acc
    | data rest ev =>
      obtain ⟨-, hdone, -, hpage, -⟩ := hitem
      have hcons : (Item.data rest ev :: items).filterMap Item.sent =
          ⟨"message".toList, dropSpace rest, none⟩ :: items.filterMap Item.sent := rfl
      rw [hcons, List.cons_append, readEvents, if_neg hdone, hrest, hpage]
      cases ev with
      | some v => rfl
      | none => rfl

/-- What is shown is what the values add, in order. -/
theorem foldl_onEvent : ∀ {vs : List (Data N)}, (∀ v ∈ vs, OneChoice v) → ∀ acc : Shown N,
    vs.foldl (onEvent V · "message".toList) acc =
      ⟨acc.text ++ vs.flatMap content, acc.reasoning ++ vs.flatMap pageReasoning,
        (vs.filterMap (usageOf V)).getLast?.or acc.usage, acc.finished⟩
  | [], _, acc => by simp
  | v :: vs, h, acc => by
    rw [List.foldl_cons, foldl_onEvent fun w hw => h w (List.mem_cons_of_mem v hw),
      onEvent_eq (h v List.mem_cons_self), List.flatMap_cons, List.flatMap_cons,
      List.append_assoc, List.append_assoc]
    congr 1
    cases husage : usageOf V v with
    | none => rw [List.filterMap_cons_none husage, Option.none_or]
    | some u =>
      rw [List.filterMap_cons_some husage, List.getLast?_cons]
      cases (vs.filterMap (usageOf V)).getLast? <;> rfl

theorem oneChoice_values (h : ∀ i ∈ items, i.Ok hub page) : ∀ v ∈ values items, OneChoice v := by
  intro v hv
  obtain ⟨item, hitem, hvalue⟩ := List.mem_filterMap.1 hv
  cases item with
  | data rest ev => exact (h _ hitem).2.2.2.2 v hvalue
  | comment c blank => cases hvalue

/-- What the page has shown at the end of a reply. -/
theorem shown_eq (h : ∀ i ∈ items, i.Ok hub page) {chunks : List Text}
    (hchunks : chunks.flatten = relayed (replyLines items)) :
    shown V page chunks =
      ⟨(values items).flatMap content, (values items).flatMap pageReasoning,
        ((values items).filterMap (usageOf V)).getLast?, some true⟩ := by
  have hfeed : feed .new (relayed (replyLines items)) =
      drainAll (.new none) (relayed (replyLines items)) := rfl
  rw [shown, readChunks_eq, feeds_eq chunks rfl, hchunks, hfeed, drainAll_reply h,
    readEvents_items h, foldl_onEvent (oneChoice_values h)]
  rw [Shown.new, List.nil_append, List.nil_append, Option.or_none]
  rfl

/-! ## The hub adds up the values -/

/-- No JSON starts with the DONE mark. -/
def DoneMark (page : Text → Option (Data N)) : Prop :=
  ∀ space, (∀ c ∈ space, IterationStats.isspace c = true) → page ("[DONE]".toList ++ space) = none

/-- A value that is no object adds nothing. -/
theorem observeEvent_other (h : ∀ fs, v ≠ .obj fs) : observeEvent V r v = r := by
  cases v with
  | obj fs => exact absurd rfl (h fs)
  | null | bool | num | str | arr => rfl

/-- Only JSON that is not the DONE mark is looked at. -/
theorem observe_data {rest : Text} {ev : Option (Data N)} (hmark : DoneMark page)
    (h : (Item.data rest ev).Ok hub page) :
    Recorder.observe V hub ⟨some r⟩ ("data:".toList ++ rest) =
      ⟨some (ev.toList.foldl (observeEvent V) r)⟩ := by
  obtain ⟨-, -, hhub, hpage, -⟩ := h
  have hdata : ("data:".toList.isPrefixOf ("data:".toList ++ rest)) = true :=
    List.isPrefixOf_iff_prefix.2 (List.prefix_append _ _)
  have hdrop : ("data:".toList ++ rest).drop 5 = rest := rfl
  rw [Recorder.observe, hdata, hdrop, hhub]
  dsimp only
  by_cases hstrip : IterationStats.strip ("data:".toList ++ rest) = "data: [DONE]".toList
  · obtain ⟨-, space, hsplit, hspace⟩ :=
      IterationStats.strip_spec (c := 'd') (by decide) ("ata:".toList ++ rest)
    have hrest : rest = ' ' :: ("[DONE]".toList ++ space) := by
      have hline : "data:".toList ++ rest = "data: [DONE]".toList ++ space := by
        rw [← hstrip]
        exact hsplit
      exact List.append_cancel_left (hline.trans (List.append_assoc "data:".toList _ _))
    have hev : ev = none := by
      rw [← hpage, hrest]
      exact hmark space hspace
    rw [decide_eq_true hstrip, hev]
    rfl
  · rw [decide_eq_false hstrip]
    rcases ev with _ | v
    · rfl
    · cases v with
      | obj fs => rfl
      | null | bool | num | str | arr => rfl

/-- Empty lines and comments are not looked at. -/
theorem observe_other {line : Text} (h : "data:".toList.isPrefixOf line = false) :
    Recorder.observe V hub ⟨some r⟩ line = ⟨some r⟩ := by
  rw [Recorder.observe, h]
  rfl

theorem foldl_observe (hmark : DoneMark page) : ∀ {items : List (Item N)},
    (∀ i ∈ items, i.Ok hub page) → ∀ r : Reply N,
      (replyLines items).foldl (Recorder.observe V hub) ⟨some r⟩ =
        ⟨some ((values items).foldl (observeEvent V) r)⟩
  | [], _, r => by
    have hstrip : IterationStats.strip "data: [DONE]".toList = "data: [DONE]".toList := by decide
    have hdone : Recorder.observe V hub ⟨some r⟩ "data: [DONE]".toList = ⟨some r⟩ := by
      rw [Recorder.observe, decide_eq_true hstrip, Bool.or_true]
      rfl
    have hempty : Recorder.observe V hub ⟨some r⟩ [] = ⟨some r⟩ := observe_other rfl
    rw [replyLines, List.flatMap_nil, List.nil_append, List.foldl_cons, hdone, List.foldl_cons,
      hempty]
    rfl
  | item :: items, h, r => by
    have hrest (r : Reply N) :=
      foldl_observe hmark (fun i hi => h i (List.mem_cons_of_mem item hi)) r
    have hcut : replyLines (item :: items) = item.lines ++ replyLines items := by
      simp [replyLines]
    have hempty (r : Reply N) : Recorder.observe V hub ⟨some r⟩ [] = ⟨some r⟩ := observe_other rfl
    rw [hcut, List.foldl_append]
    cases item with
    | data rest ev =>
      rw [Item.lines, List.foldl_cons, List.foldl_cons, List.foldl_nil,
        observe_data hmark (h _ List.mem_cons_self), hempty, hrest]
      cases ev <;> rfl
    | comment c blank =>
      have hcomment : Recorder.observe V hub ⟨some r⟩ (':' :: c) = ⟨some r⟩ := observe_other rfl
      rw [Item.lines, List.foldl_cons, hcomment]
      cases blank with
      | false => exact hrest r
      | true =>
        rw [if_pos rfl, List.foldl_cons, hempty]
        exact hrest r

/-- What is saved is what the values add, in order. -/
theorem foldl_observeEvent : ∀ {vs : List (Data N)}, (∀ v ∈ vs, OneChoice v) → ∀ r : Reply N,
    vs.foldl (observeEvent V) r =
      ⟨r.text ++ vs.flatMap content, r.reasoning ++ vs.flatMap hubReasoning,
        (vs.filterMap (usageOf V)).foldl keepUsage r.usageObj⟩
  | [], _, r => by simp
  | v :: vs, h, r => by
    rw [List.foldl_cons, foldl_observeEvent fun w hw => h w (List.mem_cons_of_mem v hw),
      observeEvent_eq (h v List.mem_cons_self), List.flatMap_cons, List.flatMap_cons,
      List.append_assoc, List.append_assoc]
    congr 1
    cases husage : usageOf V v with
    | none => rw [List.filterMap_cons_none husage]; rfl
    | some u => rw [List.filterMap_cons_some husage]; rfl

/-- What the hub has collected at the end of a reply. -/
theorem saved_eq (hmark : DoneMark page) (h : ∀ i ∈ items, i.Ok hub page) :
    saved V hub (replyLines items) =
      some ⟨(values items).flatMap content, (values items).flatMap hubReasoning,
        ((values items).filterMap (usageOf V)).foldl keepUsage []⟩ := by
  rw [saved, Recorder.new, foldl_observe hmark h, foldl_observeEvent (oneChoice_values h)]
  rfl

/-! ## Where they agree -/

/-- The same usage : none is an empty object. -/
def SameUsage : Option (Data N) → List (Text × Data N) → Prop
  | none, kept => kept = []
  | some u, kept => u = .obj kept

/-- The same reply. -/
def Same (acc : Shown N) (r : Reply N) : Prop :=
  acc.text = r.text ∧ acc.reasoning = r.reasoning ∧ SameUsage acc.usage r.usageObj

/-- The last usage that counts as true is an object, and it is empty only if none before it had
a field. -/
def UsageKept (us : List (Data N)) : Prop :=
  ∀ u, us.getLast? = some u → ∃ fs, u = .obj fs ∧ (fs = [] → ∀ w ∈ us, fieldsOf w = [])

/-- Texts that are the same or shorter are the same in all if they are the same together. -/
theorem flatMap_eq_iff {α β : Type*} {f g : α → List β} {l : List α}
    (h : ∀ a ∈ l, f a = g a ∨ (f a).length < (g a).length) :
    l.flatMap f = l.flatMap g ↔ ∀ a ∈ l, f a = g a := by
  have hle : ∀ {l : List α}, (∀ a ∈ l, f a = g a ∨ (f a).length < (g a).length) →
      (l.flatMap f).length ≤ (l.flatMap g).length := by
    intro l
    induction l with
    | nil => exact fun _ => le_rfl
    | cons a l ih =>
      intro h
      have hrest := ih fun b hb => h b (List.mem_cons_of_mem a hb)
      have ha : (f a).length ≤ (g a).length := by
        rcases h a List.mem_cons_self with heq | hlt
        · rw [heq]
        · omega
      rw [List.flatMap_cons, List.flatMap_cons, List.length_append, List.length_append]
      omega
  induction l with
  | nil => simp
  | cons a l ih =>
    have htail := fun b hb => h b (List.mem_cons_of_mem a hb)
    have hrest := hle htail
    rw [List.flatMap_cons, List.flatMap_cons, List.forall_mem_cons]
    refine ⟨fun heq => ?_, fun ⟨ha, hl⟩ => by rw [ha, (ih htail).2 hl]⟩
    have hlen := congrArg List.length heq
    rw [List.length_append, List.length_append] at hlen
    rcases h a List.mem_cons_self with ha | hlt
    · rw [ha] at heq
      exact ⟨ha, (ih htail).1 (List.append_cancel_left heq)⟩
    · omega

theorem reasoning_iff (vs : List (Data N)) :
    vs.flatMap pageReasoning = vs.flatMap hubReasoning ↔ ∀ v ∈ vs, ¬ PassedOver v := by
  have hone (v : Data N) : (¬ PassedOver v ∧ pageReasoning v = hubReasoning v) ∨
      (PassedOver v ∧ (pageReasoning v).length < (hubReasoning v).length) := by
    rw [PassedOver, pageReasoning, hubReasoning]
    generalize (said v "reasoning".toList).getD [] = t
    rcases said v "reasoning_content".toList with _ | _ | ⟨c, s⟩
    · simp
    · by_cases hs : t = []
      · simp [hs]
      · simp [hs, List.length_pos_iff]
    · simp
  rw [flatMap_eq_iff fun v _ => (hone v).imp And.right And.right]
  refine forall₂_congr fun v _ => ?_
  rcases hone v with ⟨hnot, heq⟩ | ⟨hpassed, hlt⟩
  · exact iff_of_true heq hnot
  · refine iff_of_false (fun heq => ?_) fun hnot => hnot hpassed
    rw [heq] at hlt
    exact lt_irrefl _ hlt

/-- Nothing is kept just when no usage has a field. -/
theorem foldl_keepUsage_nil : ∀ (us : List (Data N)) (kept : List (Text × Data N)),
    us.foldl keepUsage kept = [] ↔ kept = [] ∧ ∀ w ∈ us, fieldsOf w = []
  | [], kept => by simp
  | u :: us, kept => by
    have hkeep : keepUsage kept u = [] ↔ kept = [] ∧ fieldsOf u = [] := by
      rw [keepUsage]
      split_ifs with hu <;> simp [hu]
    rw [List.foldl_cons, foldl_keepUsage_nil, hkeep, List.forall_mem_cons, and_assoc]

theorem usage_iff (us : List (Data N)) :
    SameUsage us.getLast? (us.foldl keepUsage []) ↔ UsageKept us := by
  rcases List.eq_nil_or_concat us with rfl | ⟨us, u, rfl⟩
  · exact iff_of_true rfl fun u hu => by cases hu
  have hnil := foldl_keepUsage_nil us []
  rw [UsageKept, List.concat_eq_append, List.getLast?_concat, List.foldl_append]
  have hsame : SameUsage (some u) (([u] : List (Data N)).foldl keepUsage (us.foldl keepUsage [])) ↔
      u = .obj (if fieldsOf u = [] then us.foldl keepUsage [] else fieldsOf u) := Iff.rfl
  rw [hsame]
  constructor
  · intro hu w hw
    obtain rfl := Option.some.inj hw
    refine ⟨_, hu, fun hempty => ?_⟩
    split_ifs at hempty with hfields
    · intro x hx
      rcases List.mem_append.1 hx with hx | hx
      · exact (hnil.1 hempty).2 x hx
      · rw [List.mem_singleton.1 hx]
        exact hfields
    · exact absurd hempty hfields
  · intro h
    obtain ⟨fs, rfl, hfs⟩ := h u rfl
    have hfields : fieldsOf (.obj fs) = fs := rfl
    rw [hfields]
    split_ifs with hempty
    · have hkept := hnil.2 ⟨rfl, fun w hw => hfs hempty w (List.mem_append_left _ hw)⟩
      rw [hkept, hempty]
    · rfl

/-- The reply finishes, and its text is saved as it was shown. All of it is, just when no value
has an empty `reasoning_content` beside a `reasoning` and the usage shown at the end is an object
that no other stands for. -/
theorem saved_iff (V : Values N) {hub page : Text → Option (Data N)} (hmark : DoneMark page)
    {items : List (Item N)} (h : ∀ i ∈ items, i.Ok hub page) {chunks : List Text}
    (hchunks : chunks.flatten = relayed (replyLines items)) :
    (shown V page chunks).finished = some true ∧
      ∃ r, saved V hub (replyLines items) = some r ∧ (shown V page chunks).text = r.text ∧
        (Same (shown V page chunks) r ↔
          (∀ v ∈ values items, ¬ PassedOver v) ∧
            UsageKept ((values items).filterMap (usageOf V))) := by
  rw [shown_eq h hchunks]
  refine ⟨rfl, _, saved_eq hmark h, rfl, ?_⟩
  rw [Same, reasoning_iff, usage_iff]
  exact and_iff_right rfl

/-- An event with one choice, and more fields. -/
def deltaEvent (fs more : List (Text × Data N)) : Data N :=
  .obj (("choices".toList, .arr [.obj [("delta".toList, .obj fs)]]) :: more)

theorem oneChoice_deltaEvent {fs : List (Text × Data N)}
    (h : ∀ f ∈ fs, f.2 = .null ∨ ∃ s, f.2 = .str s) (more : List (Text × Data N)) :
    OneChoice (deltaEvent fs more) := by
  have htext (k : Text) : TextField (.obj fs) k := by
    intro x hx
    obtain ⟨f, hf, rfl⟩ := Option.map_eq_some_iff.1 hx
    exact h f (List.mem_of_find?_eq_some hf)
  intro x hx
  obtain rfl := Option.some.inj hx
  refine ⟨fun _ hobj => (by cases hobj), fun vs hvs => ?_⟩
  obtain rfl := Json.arr.inj hvs
  refine ⟨le_rfl, fun ch hch d hd => ?_⟩
  obtain rfl := List.mem_singleton.1 hch
  obtain rfl := Option.some.inj hd
  exact ⟨htext _, htext _, htext _⟩

/-- Numbers as they are, and no text of a value that is none. -/
def plain : Values ℕ :=
  ⟨fun n => n = 0, fun _ => [], fun _ => []⟩

/-- A reader that knows one text, with or without a space before it. -/
def reads (json : Text) (v : Data ℕ) (t : Text) : Option (Data ℕ) :=
  if dropSpace t = json then some v else none

theorem doneMark_reads (json : Text) (v : Data ℕ) : DoneMark (reads ('\x7b' :: json) v) :=
  fun _ _ => rfl

/-- A stream of one event. -/
def oneEvent (json : Text) (v : Data ℕ) : List (Item ℕ) :=
  [.comment " engine".toList true, .data (" \x7b".toList ++ json) (some v)]

theorem oneEvent_ok {json : Text} {v : Data ℕ} (hjson : Inner json) (hv : OneChoice v) :
    ∀ i ∈ oneEvent json v, i.Ok (reads ('\x7b' :: json) v) (reads ('\x7b' :: json) v) := by
  have hread (t : Text) (ht : dropSpace t = '\x7b' :: json) :
      reads ('\x7b' :: json) v t = some v := if_pos ht
  intro i hi
  rcases List.mem_cons.1 hi with rfl | hi
  · exact inner_of_unbroken (printable_of_all (by decide)).unbroken
  · rw [List.mem_singleton.1 hi]
    refine ⟨Inner.append (inner_of_unbroken (printable_of_all (by decide)).unbroken) hjson, ?_,
      hread _ rfl, hread _ rfl, fun w hw => ?_⟩
    · exact fun heq => absurd (List.cons.inj heq).1 (by decide)
    · exact Option.some.inj hw ▸ hv

/-- The text of an event with a usage, after its opening brace. -/
def usageJson : Text :=
  ("\"choices\":[\x7b\"delta\":\x7b\"reasoning_content\":null,\"reasoning\":\"hm\"\x7d\x7d]," ++
    "\"usage\":\x7b\"total_tokens\":3\x7d\x7d").toList

/-- Its value. -/
def usageValue : Data ℕ :=
  deltaEvent [("reasoning_content".toList, .null), ("reasoning".toList, .str "hm".toList)]
    [("usage".toList, .obj [("total_tokens".toList, .num 3)])]

theorem saved_iff_usage : ∃ r, saved plain (reads ('\x7b' :: usageJson) usageValue)
      (replyLines (oneEvent usageJson usageValue)) = some r ∧
    Same (shown plain (reads ('\x7b' :: usageJson) usageValue)
      [relayed (replyLines (oneEvent usageJson usageValue))]) r := by
  have hone : OneChoice usageValue := by
    refine oneChoice_deltaEvent (fun f hf => ?_) _
    simp only [List.mem_cons, List.not_mem_nil, or_false] at hf
    rcases hf with rfl | rfl
    exacts [.inl rfl, .inr ⟨_, rfl⟩]
  have hjson : Inner usageJson := inner_of_unbroken (printable_of_all (by decide)).unbroken
  have hchunks : [relayed (replyLines (oneEvent usageJson usageValue))].flatten =
      relayed (replyLines (oneEvent usageJson usageValue)) := List.flatten_singleton
  obtain ⟨-, r, hr, -, hiff⟩ := saved_iff plain (doneMark_reads usageJson usageValue)
    (oneEvent_ok hjson hone) hchunks
  refine ⟨r, hr, hiff.2 ⟨fun v hv hpassed => ?_, fun u hu => ?_⟩⟩
  · obtain rfl := List.mem_singleton.1 hv
    cases hpassed.1
  · obtain rfl := Option.some.inj hu
    exact ⟨_, rfl, fun hempty => by cases hempty⟩

/-- The text of an event with an empty `reasoning_content`, after its opening brace. -/
def passedJson : Text :=
  ("\"choices\":[\x7b\"delta\":\x7b\"reasoning_content\":\"\"," ++
    "\"reasoning\":\"hm\"\x7d\x7d]\x7d").toList

/-- Its value. -/
def passedValue : Data ℕ :=
  deltaEvent [("reasoning_content".toList, .str []), ("reasoning".toList, .str "hm".toList)] []

/-- The reasoning that is saved is not shown. -/
theorem passed_over :
    (∀ i ∈ oneEvent passedJson passedValue, i.Ok (reads ('\x7b' :: passedJson) passedValue)
      (reads ('\x7b' :: passedJson) passedValue)) ∧
    (shown plain (reads ('\x7b' :: passedJson) passedValue)
      [relayed (replyLines (oneEvent passedJson passedValue))]).reasoning = [] ∧
    (saved plain (reads ('\x7b' :: passedJson) passedValue)
      (replyLines (oneEvent passedJson passedValue))).map Reply.reasoning =
        some "hm".toList := by
  have hone : OneChoice passedValue := by
    refine oneChoice_deltaEvent (fun f hf => ?_) _
    simp only [List.mem_cons, List.not_mem_nil, or_false] at hf
    rcases hf with rfl | rfl
    exacts [.inr ⟨_, rfl⟩, .inr ⟨_, rfl⟩]
  have hjson : Inner passedJson := inner_of_unbroken (printable_of_all (by decide)).unbroken
  exact ⟨oneEvent_ok hjson hone, by decide +kernel, by decide +kernel⟩

end EngineConsole.ChatRecord
