import EngineConsole.FrameStream

/-!
# The noise before the first frame

A login shell may print before the node speaks. The node's first line ends with `magic`; both
readers skip what comes before it, up to `maxPreamble` bytes. The blocking one
(`findMagicSync`) cuts lines that are longer than that, the async one (`findMagicAsync`) refuses
lines that are longer than its own limit.

What either returns depends on the bytes only, not on how they are split over the reads
(`findMagicBy_sim`). The limits are not the same for a line that ends with the magic and for the
end of the stream : `agree_iff_within` is when the readers agree and keep to the bound.
-/

set_option linter.unusedSectionVars false

namespace EngineConsole

namespace Preamble

/-! ## Lines -/

def newline : UInt8 := 10

/-- `MAGIC` : `ecnode-proto 1` and a newline. -/
def magic : List UInt8 :=
  [101, 99, 110, 111, 100, 101, 45, 112, 114, 111, 116, 111, 32, 49, 10]

/-- `MAX_PREAMBLE`. -/
def maxPreamble : ℕ := 64 * 1024

/-- The far side ended. -/
def closed : ReadError :=
  .proto (.invalid "the far side closed before speaking the ecnode protocol")

/-- The far side said something else. -/
def otherThan : ReadError :=
  .proto (.invalid "the far side printed something other than the ecnode protocol")

/-- The first line, with its newline where it has one. -/
def firstLine : List UInt8 → List UInt8
  | [] => []
  | b :: s => if b = newline then [b] else b :: firstLine s

/-- A source of which some of the first chunk is left. -/
def leave (rest : List UInt8) (src : Source) : Source :=
  if rest = [] then src else .bytes rest :: src

/-- `read_line_capped` : up to a newline, and at most `room` bytes. -/
def readLineCapped : ℕ → Source → Except ReadError (List UInt8 × Source)
  | 0, src => .ok ([], src)
  | _ + 1, [] => .ok ([], [])
  | room + 1, .interrupted :: src => readLineCapped (room + 1) src
  | _ + 1, .failed error :: _ => .error (.io error)
  | _ + 1, .bytes [] :: src => .ok ([], src)
  | room + 1, .bytes (b :: buf) :: src =>
    let piece := (b :: buf).take (room + 1)
    if newline ∈ piece then
      .ok (firstLine piece, leave ((b :: buf).drop (firstLine piece).length) src)
    else if buf.length ≤ room then
      (readLineCapped (room - buf.length) src).map fun r => (piece ++ r.1, r.2)
    else .ok (piece, leave ((b :: buf).drop (room + 1)) src)

/-- The line that `find_magic_async` reads, of which `have` bytes are there already : all of it,
and no longer than `limit`. -/
def readLineLimited (limit : ℕ) : ℕ → Source → Except ReadError (List UInt8 × Source)
  | _, [] => .error closed
  | _, .interrupted :: _ => .error (.io "interrupted")
  | _, .failed error :: _ => .error (.io error)
  | _, .bytes [] :: _ => .error closed
  | got, .bytes (b :: buf) :: src =>
    let piece := firstLine (b :: buf)
    if limit < got + piece.length then .error otherThan
    else if newline ∈ piece then .ok (piece, leave ((b :: buf).drop piece.length) src)
    else (readLineLimited limit (got + piece.length) src).map fun r => (piece ++ r.1, r.2)

section

variable {σ : Type*}

/-- The loop of both readers : lines are skipped up to the one that ends with the magic. A line
of the async reader is never empty. -/
def findMagicBy (readLine : σ → Except ReadError (List UInt8 × σ)) (skipped : ℕ) (src : σ) :
    Except ReadError (ℕ × σ) :=
  match readLine src with
  | .error e => .error e
  | .ok (line, rest) =>
    if line = [] then .error closed
    else if magic.isSuffixOf line then .ok (skipped + line.length - magic.length, rest)
    else if maxPreamble < skipped + line.length then .error otherThan
    else findMagicBy readLine (skipped + line.length) rest
termination_by maxPreamble + 1 - skipped
decreasing_by
  have hpos : 0 < line.length := List.length_pos_iff.2 ‹_›
  omega

end

/-- `find_magic_sync`. -/
def findMagicSync (src : Source) : Except ReadError (ℕ × Source) :=
  findMagicBy (readLineCapped (maxPreamble + 1)) 0 src

/-- `find_magic_async`. -/
def findMagicAsync (limit : ℕ) (src : Source) : Except ReadError (ℕ × Source) :=
  findMagicBy (readLineLimited limit 0) 0 src

/-! ## Lines of bytes -/

/-- `readLineCapped` on the bytes that are to come. -/
def capped (room : ℕ) (s : List UInt8) : Except ReadError (List UInt8 × List UInt8) :=
  .ok ((firstLine s).take room, s.drop ((firstLine s).take room).length)

/-- `readLineLimited` on the bytes that are to come. -/
def limited (limit got : ℕ) (s : List UInt8) : Except ReadError (List UInt8 × List UInt8) :=
  if limit < got + (firstLine s).length then .error otherThan
  else if newline ∈ s then .ok (firstLine s, s.drop (firstLine s).length)
  else .error closed

/-- What a reader leaves, as bytes. -/
def bytesOf {α : Type*} (r : α × Source) : α × List UInt8 :=
  (r.1, r.2.content)

theorem content_leave (rest : List UInt8) (src : Source) :
    (leave rest src).content = rest ++ src.content := by
  unfold leave
  split
  · simp [*]
  · rfl

theorem flows_leave {retry : Bool} {rest : List UInt8} {src : Source} (h : src.Flows retry) :
    (leave rest src).Flows retry := by
  unfold leave
  split
  · exact h
  · intro r hr
    rcases List.mem_cons.1 hr with rfl | hr
    · assumption
    · exact h r hr

theorem firstLine_cons (b : UInt8) (s : List UInt8) :
    firstLine (b :: s) = if b = newline then [b] else b :: firstLine s :=
  rfl

theorem firstLine_ne_nil : ∀ {s : List UInt8}, s ≠ [] → firstLine s ≠ []
  | [], h => absurd rfl h
  | b :: s, _ => by
    rw [firstLine_cons]
    split <;> exact List.cons_ne_nil _ _

theorem length_firstLine_le : ∀ s : List UInt8, (firstLine s).length ≤ s.length
  | [] => le_rfl
  | b :: s => by
    rw [firstLine_cons]
    split
    · exact Nat.succ_le_succ (Nat.zero_le _)
    · exact Nat.succ_le_succ (length_firstLine_le s)

theorem firstLine_of_not_mem : ∀ {s : List UInt8}, newline ∉ s → firstLine s = s
  | [], _ => rfl
  | b :: s, h => by
    have hb : b ≠ newline := by
      rintro rfl
      exact h List.mem_cons_self
    rw [firstLine_cons, if_neg hb, firstLine_of_not_mem fun hs => h (List.mem_cons_of_mem b hs)]

theorem mem_firstLine : ∀ {s : List UInt8}, newline ∈ firstLine s ↔ newline ∈ s
  | [] => Iff.rfl
  | b :: s => by
    rw [firstLine_cons]
    split_ifs with hb
    · simp [hb]
    · rw [List.mem_cons, List.mem_cons, mem_firstLine]

theorem firstLine_append : ∀ s t : List UInt8,
    firstLine (s ++ t) = if newline ∈ s then firstLine s else s ++ firstLine t
  | [], t => rfl
  | b :: s, t => by
    rw [List.cons_append, firstLine_cons, firstLine_append s t, firstLine_cons]
    by_cases hb : b = newline
    · simp [hb]
    · by_cases hs : newline ∈ s
      · simp [hb, hs]
      · simp [hb, hs, Ne.symm hb]

theorem firstLine_split : ∀ s : List UInt8, firstLine s ++ s.drop (firstLine s).length = s
  | [] => rfl
  | b :: s => by
    rw [firstLine_cons]
    split_ifs
    · rfl
    · rw [List.length_cons, List.drop_succ_cons, List.cons_append, firstLine_split s]

/-- A whole line has its newline at the end only. -/
theorem firstLine_idem : ∀ s : List UInt8, firstLine (firstLine s) = firstLine s
  | [] => rfl
  | b :: s => by
    rw [firstLine_cons]
    split_ifs with hb
    · simp [firstLine_cons, hb]
    · rw [firstLine_cons, if_neg hb, firstLine_idem s]

/-! ## The reads -/

/-- The blocking reader takes the first line of what is to come, cut at its room. -/
theorem readLineCapped_spec : ∀ (src : Source) (room : ℕ), src.Flows true →
    ∃ rest, readLineCapped room src = .ok ((firstLine src.content).take room, rest) ∧
      rest.content = src.content.drop ((firstLine src.content).take room).length ∧
      rest.Flows true
  | src, 0, h => ⟨src, by simp [readLineCapped], by simp, h⟩
  | [], room + 1, h => ⟨[], rfl, rfl, h⟩
  | .interrupted :: src, room + 1, h => by
    rw [readLineCapped]
    exact readLineCapped_spec src (room + 1) h.tail
  | .failed error :: src, room + 1, h => (h _ List.mem_cons_self).elim
  | .bytes [] :: src, room + 1, h => absurd rfl (h _ List.mem_cons_self)
  | .bytes (b :: buf) :: src, room + 1, h => by
    rw [readLineCapped]
    have hcontent : Source.content (.bytes (b :: buf) :: src) = b :: buf ++ Source.content src := rfl
    have hsplit : (b :: buf).take (room + 1) ++ ((b :: buf).drop (room + 1) ++ Source.content src) =
        b :: buf ++ Source.content src := by
      rw [← List.append_assoc, List.take_append_drop]
    split_ifs with hmem hlen
    · -- the newline is in the buffer, within the room
      have hline : firstLine (b :: buf ++ Source.content src) =
          firstLine ((b :: buf).take (room + 1)) := by
        rw [← hsplit, firstLine_append, if_pos hmem]
      have hle : (firstLine ((b :: buf).take (room + 1))).length ≤ room + 1 :=
        (length_firstLine_le _).trans (List.length_take_le _ _)
      have hle' : (firstLine ((b :: buf).take (room + 1))).length ≤ (b :: buf).length :=
        (length_firstLine_le _).trans (List.length_take_le' _ _)
      refine ⟨leave ((b :: buf).drop (firstLine ((b :: buf).take (room + 1))).length) src,
        ?_, ?_, flows_leave h.tail⟩
      · rw [hcontent, hline, List.take_of_length_le hle]
      · rw [hcontent, hline, List.take_of_length_le hle, content_leave,
          List.drop_append_of_le_length hle']
    · -- the buffer is taken whole
      have htake : (b :: buf).take (room + 1) = b :: buf :=
        List.take_of_length_le (Nat.succ_le_succ hlen)
      rw [htake] at hmem ⊢
      obtain ⟨rest, hread, hrest, hflows⟩ := readLineCapped_spec src (room - buf.length) h.tail
      have hline : (firstLine (b :: buf ++ Source.content src)).take (room + 1) =
          b :: buf ++ (firstLine (Source.content src)).take (room - buf.length) := by
        rw [firstLine_append, if_neg hmem, List.take_append,
          List.take_of_length_le (Nat.succ_le_succ hlen)]
        simp
      refine ⟨rest, ?_, ?_, hflows⟩
      · rw [hread, hcontent, hline]
        rfl
      · rw [hcontent, hline, hrest, List.length_append, ← List.drop_drop, List.drop_left]
    · -- the room is used up
      have hline : (firstLine (b :: buf ++ Source.content src)).take (room + 1) =
          (b :: buf).take (room + 1) := by
        have hlong : ((b :: buf).take (room + 1)).length = room + 1 := by
          rw [List.length_take, List.length_cons]
          omega
        rw [← hsplit, firstLine_append, if_neg hmem, List.take_append_of_le_length hlong.ge,
          List.take_of_length_le hlong.le]
      refine ⟨leave ((b :: buf).drop (room + 1)) src, by rw [hcontent, hline], ?_,
        flows_leave h.tail⟩
      rw [hcontent, hline, content_leave, List.length_take, List.length_cons,
        min_eq_left (by omega), List.drop_append_of_le_length (by simp; omega)]

/-- The async reader takes the first line of what is to come, or gives up. -/
theorem readLineLimited_spec {limit : ℕ} : ∀ (src : Source) (got : ℕ), src.Flows false →
    got ≤ limit →
    (readLineLimited limit got src).map bytesOf = limited limit got src.content ∧
      ∀ r, readLineLimited limit got src = .ok r → r.2.Flows false
  | [], got, h, hg => by
    refine ⟨?_, fun r hr => by simp [readLineLimited] at hr⟩
    simp [readLineLimited, limited, Source.content, firstLine, hg, Except.map]
  | .interrupted :: src, got, h, _ => absurd (h _ List.mem_cons_self) (by simp)
  | .failed error :: src, got, h, _ => (h _ List.mem_cons_self).elim
  | .bytes [] :: src, got, h, _ => absurd rfl (h _ List.mem_cons_self)
  | .bytes (b :: buf) :: src, got, h, hg => by
    have hcontent : Source.content (.bytes (b :: buf) :: src) =
        b :: buf ++ Source.content src := rfl
    rw [readLineLimited, hcontent, limited, firstLine_append]
    by_cases hmem : newline ∈ b :: buf
    · have hwhole : newline ∈ b :: buf ++ Source.content src := List.mem_append_left _ hmem
      rw [if_pos hmem, if_pos hwhole, if_pos (mem_firstLine.2 hmem)]
      split_ifs with hlong
      · exact ⟨rfl, fun r hr => by simp at hr⟩
      · refine ⟨?_, ?_⟩
        · simp only [Except.map, bytesOf, content_leave]
          rw [List.drop_append_of_le_length (length_firstLine_le _)]
        · rintro r hr
          obtain rfl := Except.ok.inj hr
          exact flows_leave h.tail
    · rw [if_neg hmem, firstLine_of_not_mem hmem, if_neg hmem]
      by_cases hlong : limit < got + (b :: buf).length
      · rw [if_pos hlong, if_pos (by rw [List.length_append]; omega)]
        exact ⟨rfl, fun r hr => by simp at hr⟩
      · rw [if_neg hlong]
        obtain ⟨hread, hflows⟩ :=
          readLineLimited_spec src (got + (b :: buf).length) h.tail (not_lt.1 hlong)
        have hmem' : newline ∈ b :: buf ++ Source.content src ↔
            newline ∈ Source.content src := by
          rw [List.mem_append, or_iff_right hmem]
        rw [limited] at hread
        constructor
        · rw [List.length_append, ← Nat.add_assoc, if_congr hmem' rfl rfl]
          cases hr : readLineLimited limit (got + (b :: buf).length) src with
          | error e =>
            rw [hr] at hread
            split_ifs at hread ⊢ with h₁ h₂
            · exact hread
            · simp [Except.map] at hread
            · exact hread
          | ok r =>
            rw [hr] at hread
            split_ifs at hread ⊢ with h₁ h₂
            · simp [Except.map] at hread
            · simp only [Except.map, bytesOf, Except.ok.injEq, Prod.mk.injEq] at hread ⊢
              rw [hread.1, hread.2, ← List.drop_drop, List.drop_left]
              exact ⟨rfl, rfl⟩
            · simp [Except.map] at hread
        · intro r hr
          cases hr' : readLineLimited limit (got + (b :: buf).length) src with
          | error e =>
            rw [hr'] at hr
            exact absurd hr (by simp [Except.map])
          | ok r' =>
            rw [hr'] at hr
            obtain rfl := Except.ok.inj hr
            exact hflows r' hr'

section

variable {σ : Type*} {view : σ → List UInt8} {Good : σ → Prop}
  {readLine : σ → Except ReadError (List UInt8 × σ)}
  {lineOf : List UInt8 → Except ReadError (List UInt8 × List UInt8)}

variable (Good) in
/-- A reader of lines that goes by the bytes makes a loop that does. -/
theorem findMagicBy_sim
    (hread : ∀ src, Good src →
      (readLine src).map (fun r => (r.1, view r.2)) = lineOf (view src) ∧
        ∀ r, readLine src = .ok r → Good r.2) :
    ∀ (n skipped : ℕ) (src : σ), maxPreamble + 1 - skipped = n → Good src →
      (findMagicBy readLine skipped src).map (fun r => (r.1, view r.2)) =
        findMagicBy lineOf skipped (view src) := by
  intro n
  induction n using Nat.strong_induction_on with
  | _ n ih =>
    intro skipped src hn hgood
    obtain ⟨hline, hnext⟩ := hread src hgood
    rw [findMagicBy, findMagicBy, ← hline]
    cases hr : readLine src with
    | error e => rfl
    | ok r =>
      obtain ⟨line, rest⟩ := r
      dsimp only [Except.map]
      split_ifs with hnil hmagic hlong
      · rfl
      · rfl
      · rfl
      · have hpos : 0 < line.length := List.length_pos_iff.2 hnil
        exact ih _ (by omega) (skipped + line.length) rest rfl (hnext _ hr)

end

/-! ## What the readers return -/

/-- The blocking reader on bytes, from `skipped` bytes of noise on. -/
def syncFrom (skipped : ℕ) (s : List UInt8) : Except ReadError (ℕ × List UInt8) :=
  findMagicBy (capped (maxPreamble + 1)) skipped s

/-- The async reader on bytes, from `skipped` bytes of noise on. -/
def asyncFrom (limit skipped : ℕ) (s : List UInt8) : Except ReadError (ℕ × List UInt8) :=
  findMagicBy (limited limit 0) skipped s

theorem findMagicSync_bytes {src : Source} (h : src.Flows true) :
    (findMagicSync src).map bytesOf = syncFrom 0 src.content := by
  refine findMagicBy_sim (Source.Flows true) (fun src h => ?_) _ 0 src rfl h
  obtain ⟨rest, hread, hrest, hflows⟩ := readLineCapped_spec src (maxPreamble + 1) h
  rw [hread]
  refine ⟨?_, fun r hr => ?_⟩
  · simp only [Except.map, capped, hrest]
  · obtain rfl := Except.ok.inj hr
    exact hflows

theorem findMagicAsync_bytes {limit : ℕ} {src : Source} (h : src.Flows false) :
    (findMagicAsync limit src).map bytesOf = asyncFrom limit 0 src.content :=
  findMagicBy_sim (Source.Flows false)
    (fun src h => readLineLimited_spec src 0 h (Nat.zero_le limit)) _ 0 src rfl h

/-- The bytes after the first line. -/
def afterLine (s : List UInt8) : List UInt8 :=
  s.drop (firstLine s).length

theorem newline_of_magic {line : List UInt8} (h : magic.isSuffixOf line) : newline ∈ line :=
  (List.isSuffixOf_iff_suffix.1 h).subset (by decide)

/-- Short of its end a line has no newline. -/
theorem not_mem_take_firstLine : ∀ {s : List UInt8} {n : ℕ}, n < (firstLine s).length →
    newline ∉ (firstLine s).take n
  | _, 0, _ => by simp
  | [], n + 1, h => by simp [firstLine] at h
  | b :: s, n + 1, h => by
    rw [firstLine] at h ⊢
    split_ifs at h ⊢ with hb
    · simp at h
    · rw [List.take_succ_cons, List.mem_cons, not_or]
      exact ⟨Ne.symm hb, not_mem_take_firstLine (Nat.lt_of_succ_lt_succ h)⟩

section

variable {skipped limit : ℕ} {s : List UInt8}

/-- A line that the blocking reader cuts is the last it reads. -/
theorem syncFrom_long (h : maxPreamble + 1 < (firstLine s).length) :
    syncFrom skipped s = .error otherThan := by
  have hcut : ((firstLine s).take (maxPreamble + 1)).length = maxPreamble + 1 := by
    rw [List.length_take]
    omega
  have hne : (firstLine s).take (maxPreamble + 1) ≠ [] := by
    intro hnil
    rw [hnil] at hcut
    exact absurd hcut (by decide)
  have hmagic : ¬magic.isSuffixOf ((firstLine s).take (maxPreamble + 1)) := fun hm =>
    not_mem_take_firstLine h (newline_of_magic hm)
  rw [syncFrom, findMagicBy, capped]
  dsimp only
  rw [if_neg hne, if_neg hmagic, if_pos (by omega)]

/-- A line that the blocking reader takes whole. -/
theorem syncFrom_line (hs : s ≠ []) (h : (firstLine s).length ≤ maxPreamble + 1) :
    syncFrom skipped s =
      if magic.isSuffixOf (firstLine s) then
        .ok (skipped + (firstLine s).length - magic.length, afterLine s)
      else if maxPreamble < skipped + (firstLine s).length then .error otherThan
      else syncFrom (skipped + (firstLine s).length) (afterLine s) := by
  rw [syncFrom, findMagicBy, capped, List.take_of_length_le h]
  exact if_neg (firstLine_ne_nil hs)

theorem syncFrom_nil : syncFrom skipped [] = .error closed := by
  rw [syncFrom, findMagicBy]
  rfl

/-- A line that is too long for the async reader. -/
theorem asyncFrom_long (h : limit < (firstLine s).length) :
    asyncFrom limit skipped s = .error otherThan := by
  rw [asyncFrom, findMagicBy, limited, if_pos (by omega)]

/-- The end of the stream, for the async reader. -/
theorem asyncFrom_end (h : newline ∉ s) (hl : s.length ≤ limit) :
    asyncFrom limit skipped s = .error closed := by
  rw [asyncFrom, findMagicBy, limited, firstLine_of_not_mem h, if_neg (by omega), if_neg h]

/-- A line that the async reader takes. -/
theorem asyncFrom_line (h : newline ∈ s) (hl : (firstLine s).length ≤ limit) :
    asyncFrom limit skipped s =
      if magic.isSuffixOf (firstLine s) then
        .ok (skipped + (firstLine s).length - magic.length, afterLine s)
      else if maxPreamble < skipped + (firstLine s).length then .error otherThan
      else asyncFrom limit (skipped + (firstLine s).length) (afterLine s) := by
  have hs : s ≠ [] := List.ne_nil_of_mem h
  rw [asyncFrom, findMagicBy, limited, if_neg (by omega), if_pos h]
  exact if_neg (firstLine_ne_nil hs)

end

/-- Lines of noise : each ends with a newline, none with the magic. -/
inductive Noise : List UInt8 → Prop
  | nil : Noise []
  | line {s : List UInt8} (hs : newline ∈ s) (hm : magic.isSuffixOf (firstLine s) = false)
      (h : Noise (afterLine s)) : Noise s

/-- After lines of noise within the bound, a line that ends with the magic, if the async reader
takes it, leaves the noise within the bound and is not cut by the blocking one; and an end
without a newline, if the async reader takes it, stays within the bound. -/
def Within (limit : ℕ) (s : List UInt8) : Prop :=
  ∀ noise rest, s = noise ++ rest → Noise noise → noise.length ≤ maxPreamble →
    (firstLine rest).length ≤ limit →
    (magic.isSuffixOf (firstLine rest) →
      noise.length + (firstLine rest).length ≤ maxPreamble + magic.length ∧
        (firstLine rest).length ≤ maxPreamble + 1) ∧
    (newline ∉ rest → noise.length + rest.length ≤ maxPreamble)

/-- An answer that counts the noise : at most the bound, with the magic after it. -/
def Placed (s : List UInt8) (r : Except ReadError (ℕ × List UInt8)) : Prop :=
  ∀ n rest, r = .ok (n, rest) →
    n ≤ maxPreamble ∧ ∃ noise, s = noise ++ magic ++ rest ∧ noise.length = n

/-- However the bytes `s` are split over their reads, both readers return the same, and what
they return counts the noise. -/
def Agree (limit : ℕ) (s : List UInt8) : Prop :=
  ∀ src src' : Source, src.Flows true → src'.Flows false → src.content = s → src'.content = s →
    (findMagicAsync limit src').map bytesOf = (findMagicSync src).map bytesOf ∧
      Placed s ((findMagicSync src).map bytesOf)

/-- The magic is where the blocking reader says. -/
theorem syncFrom_at : ∀ (m skipped : ℕ) (s : List UInt8) {n : ℕ} {rest : List UInt8},
    maxPreamble + 1 - skipped = m → syncFrom skipped s = .ok (n, rest) →
    ∃ noise, s = noise ++ magic ++ rest ∧ skipped + noise.length = n := by
  intro m
  induction m using Nat.strong_induction_on with
  | _ m ih =>
    intro skipped s n rest hm h
    by_cases hs : s = []
    · rw [hs, syncFrom_nil] at h
      cases h
    by_cases hlong : maxPreamble + 1 < (firstLine s).length
    · rw [syncFrom_long hlong] at h
      cases h
    rw [syncFrom_line hs (not_lt.1 hlong)] at h
    split_ifs at h with hmagic hbound
    · obtain ⟨noise, hnoise⟩ := List.isSuffixOf_iff_suffix.1 hmagic
      simp only [Except.ok.injEq, Prod.mk.injEq] at h
      refine ⟨noise, ?_, ?_⟩
      · rw [hnoise, ← h.2, afterLine, firstLine_split]
      · rw [← h.1, ← hnoise, List.length_append]
        omega
    · have hpos : 0 < (firstLine s).length := List.length_pos_iff.2 (firstLine_ne_nil hs)
      obtain ⟨noise, hnoise, hn⟩ :=
        ih _ (by omega) (skipped + (firstLine s).length) (afterLine s) rfl h
      refine ⟨firstLine s ++ noise, ?_, ?_⟩
      · rw [List.append_assoc, List.append_assoc, ← List.append_assoc noise, ← hnoise, afterLine,
          firstLine_split]
      · rw [List.length_append]
        omega

/-- `Agree` on bytes, after `skipped` bytes of noise. -/
def AgreeFrom (limit skipped : ℕ) (s : List UInt8) : Prop :=
  asyncFrom limit skipped s = syncFrom skipped s ∧
    ∀ n rest, syncFrom skipped s = .ok (n, rest) → n ≤ maxPreamble

/-- `Within`, after `skipped` bytes of noise. -/
def WithinFrom (limit skipped : ℕ) (s : List UInt8) : Prop :=
  ∀ noise rest, s = noise ++ rest → Noise noise → skipped + noise.length ≤ maxPreamble →
    (firstLine rest).length ≤ limit →
    (magic.isSuffixOf (firstLine rest) →
      skipped + noise.length + (firstLine rest).length ≤ maxPreamble + magic.length ∧
        (firstLine rest).length ≤ maxPreamble + 1) ∧
    (newline ∉ rest → skipped + noise.length + rest.length ≤ maxPreamble)

theorem agree_iff_bytes (limit : ℕ) (s : List UInt8) : Agree limit s ↔ AgreeFrom limit 0 s := by
  have hflows : ∀ retry, (leave s []).Flows retry := fun retry =>
    flows_leave fun r hr => absurd hr List.not_mem_nil
  have hcontent : (leave s []).content = s := by
    rw [content_leave]
    exact List.append_nil s
  have hplaced : Placed s (syncFrom 0 s) ↔
      ∀ n rest, syncFrom 0 s = .ok (n, rest) → n ≤ maxPreamble := by
    refine forall₂_congr fun n rest => imp_congr_right fun h => and_iff_left ?_
    obtain ⟨noise, hs, hn⟩ := syncFrom_at _ 0 s rfl h
    exact ⟨noise, hs, by omega⟩
  rw [AgreeFrom, ← hplaced]
  constructor
  · intro h
    have hs := h _ _ (hflows true) (hflows false) hcontent hcontent
    rwa [findMagicSync_bytes (hflows true), findMagicAsync_bytes (hflows false), hcontent] at hs
  · rintro h src src' hsrc hsrc' rfl hs
    rwa [findMagicSync_bytes hsrc, findMagicAsync_bytes hsrc', hs]

/-- Noise is empty or starts with the first line. -/
theorem noise_split {noise rest s : List UInt8} (h : Noise noise) (hs : s = noise ++ rest) :
    noise = [] ∨ ∃ noise', noise = firstLine s ++ noise' ∧ afterLine s = noise' ++ rest ∧
      newline ∈ s ∧ magic.isSuffixOf (firstLine s) = false ∧ Noise noise' := by
  cases h with
  | nil => exact .inl rfl
  | line hmem hm h =>
    have hline : firstLine s = firstLine noise := by rw [hs, firstLine_append, if_pos hmem]
    refine .inr ⟨afterLine noise, ?_, ?_, ?_, hline ▸ hm, h⟩
    · rw [hline, afterLine, firstLine_split]
    · rw [afterLine, hline, hs, List.drop_append_of_le_length (length_firstLine_le noise),
        afterLine]
    · exact hs ▸ List.mem_append_left _ hmem

theorem noise_line {s noise : List UInt8} (hmem : newline ∈ s)
    (hm : magic.isSuffixOf (firstLine s) = false) (h : Noise noise) :
    Noise (firstLine s ++ noise) := by
  have hmem' : newline ∈ firstLine s := mem_firstLine.2 hmem
  have hline : firstLine (firstLine s ++ noise) = firstLine s := by
    rw [firstLine_append, if_pos hmem', firstLine_idem]
  refine .line (List.mem_append_left _ hmem') (by rwa [hline]) ?_
  rwa [afterLine, hline, List.drop_left]

section

variable {limit skipped : ℕ} {s : List UInt8}

/-- A line of noise within the bounds of both readers. -/
theorem agreeFrom_line (hl : maxPreamble + 1 ≤ limit) (hmem : newline ∈ s)
    (hm : magic.isSuffixOf (firstLine s) = false)
    (hk : skipped + (firstLine s).length ≤ maxPreamble) :
    AgreeFrom limit skipped s ↔
      AgreeFrom limit (skipped + (firstLine s).length) (afterLine s) := by
  have hsync : syncFrom skipped s =
      syncFrom (skipped + (firstLine s).length) (afterLine s) := by
    rw [syncFrom_line (List.ne_nil_of_mem hmem) (by omega), hm, if_neg (by simp),
      if_neg (by omega)]
  have hasync : asyncFrom limit skipped s =
      asyncFrom limit (skipped + (firstLine s).length) (afterLine s) := by
    rw [asyncFrom_line hmem (by omega), hm, if_neg (by simp), if_neg (by omega)]
  rw [AgreeFrom, AgreeFrom, hsync, hasync]

theorem withinFrom_line (hmem : newline ∈ s) (hm : magic.isSuffixOf (firstLine s) = false) :
    WithinFrom limit skipped s ↔
      WithinFrom limit (skipped + (firstLine s).length) (afterLine s) := by
  constructor
  · intro h noise rest hs hnoise hk hlen
    have hwhole : s = firstLine s ++ noise ++ rest := by
      rw [List.append_assoc, ← hs, afterLine, firstLine_split]
    have := h (firstLine s ++ noise) rest hwhole (noise_line hmem hm hnoise)
      (by rw [List.length_append]; omega) hlen
    rw [List.length_append, ← Nat.add_assoc] at this
    exact this
  · intro h noise rest hs hnoise hk hlen
    rcases noise_split hnoise hs with rfl | ⟨noise', hline, hafter, -, -, hnoise'⟩
    · obtain rfl : s = rest := hs
      exact ⟨fun hm' => absurd hm' (by simp [hm]), fun hmem' => absurd hmem hmem'⟩
    · have := h noise' rest hafter hnoise' (by rw [hline, List.length_append] at hk; omega) hlen
      rw [hline, List.length_append, ← Nat.add_assoc]
      exact this

/-- Only the first line is in question where no line of noise fits before it. -/
theorem withinFrom_first (hk : skipped ≤ maxPreamble)
    (h : newline ∈ s → magic.isSuffixOf (firstLine s) = false →
      maxPreamble < skipped + (firstLine s).length) :
    WithinFrom limit skipped s ↔
      ((firstLine s).length ≤ limit →
        (magic.isSuffixOf (firstLine s) →
          skipped + (firstLine s).length ≤ maxPreamble + magic.length ∧
            (firstLine s).length ≤ maxPreamble + 1) ∧
        (newline ∉ s → skipped + s.length ≤ maxPreamble)) := by
  constructor
  · exact fun hw => hw [] s rfl .nil hk
  · intro hw noise rest hs hnoise hk hlen
    rcases noise_split hnoise hs with rfl | ⟨noise', hline, -, hmem, hm, -⟩
    · obtain rfl : s = rest := hs
      exact hw hlen
    · have := h hmem hm
      rw [hline, List.length_append] at hk
      omega

end

section

variable {skipped limit : ℕ} {s : List UInt8}

/-- Both readers give up in the same way. -/
theorem agreeFrom_error {e : ReadError} (ha : asyncFrom limit skipped s = .error e)
    (hs : syncFrom skipped s = .error e) : AgreeFrom limit skipped s :=
  ⟨ha.trans hs.symm, fun n rest h => by rw [hs] at h; cases h⟩

theorem closed_ne_otherThan : closed ≠ otherThan := by
  intro h
  have htext := ProtoError.invalid.inj (ReadError.proto.inj h)
  exact absurd htext (by decide)

/-- The end of the stream. -/
theorem agreeFrom_iff_end (hl : maxPreamble + 1 ≤ limit) (hk : skipped ≤ maxPreamble)
    (hmem : newline ∉ s) : AgreeFrom limit skipped s ↔ WithinFrom limit skipped s := by
  have hline := firstLine_of_not_mem hmem
  have hmagic : ¬magic.isSuffixOf (firstLine s) := fun hm =>
    hmem (mem_firstLine.1 (newline_of_magic hm))
  rw [withinFrom_first hk fun h => absurd h hmem, hline]
  by_cases hlen : s.length ≤ limit
  · have hasync : asyncFrom limit skipped s = .error closed := asyncFrom_end hmem hlen
    rcases eq_or_ne s [] with rfl | hs
    · exact iff_of_true (agreeFrom_error hasync syncFrom_nil)
        fun _ => ⟨fun hm => absurd hm (by decide), fun _ => hk⟩
    by_cases hbound : skipped + s.length ≤ maxPreamble
    · have hsync : syncFrom skipped s = .error closed := by
        rw [syncFrom_line hs (by rw [hline]; omega), if_neg hmagic, if_neg (by rw [hline]; omega),
          afterLine, hline, List.drop_length, syncFrom_nil]
      exact iff_of_true (agreeFrom_error hasync hsync)
        fun _ => ⟨fun hm => absurd hm (hline ▸ hmagic), fun _ => hbound⟩
    · have hsync : syncFrom skipped s = .error otherThan := by
        by_cases hlong : maxPreamble + 1 < (firstLine s).length
        · exact syncFrom_long hlong
        · rw [syncFrom_line hs (not_lt.1 hlong), if_neg hmagic, if_pos (by rw [hline]; omega)]
      refine iff_of_false (fun h => ?_) fun h => hbound ((h hlen).2 hmem)
      have heq := h.1
      rw [hasync, hsync] at heq
      exact closed_ne_otherThan (Except.error.inj heq)
  · exact iff_of_true
      (agreeFrom_error (asyncFrom_long (by rw [hline]; omega))
        (syncFrom_long (by rw [hline]; omega))) fun h => absurd h hlen

/-- A line that ends with the magic, which the async reader takes. -/
theorem agreeFrom_iff_magic (hk : skipped ≤ maxPreamble) (hmem : newline ∈ s)
    (hlen : (firstLine s).length ≤ limit) (hm : magic.isSuffixOf (firstLine s)) :
    AgreeFrom limit skipped s ↔ WithinFrom limit skipped s := by
  have hmagic : magic.length ≤ (firstLine s).length :=
    (List.isSuffixOf_iff_suffix.1 hm).length_le
  have hasync : asyncFrom limit skipped s = _ := asyncFrom_line hmem hlen
  rw [if_pos hm] at hasync
  rw [withinFrom_first hk fun _ h => absurd hm (by simp [h])]
  by_cases hlong : maxPreamble + 1 < (firstLine s).length
  · have hsync : syncFrom skipped s = .error otherThan := syncFrom_long hlong
    refine iff_of_false (fun h => ?_) fun h => ?_
    · have heq := h.1
      rw [hasync, hsync] at heq
      cases heq
    · have := ((h hlen).1 hm).2
      omega
  · have hsync : syncFrom skipped s = _ :=
      syncFrom_line (List.ne_nil_of_mem hmem) (not_lt.1 hlong)
    rw [if_pos hm] at hsync
    constructor
    · intro h _
      have hbound := h.2 _ _ hsync
      exact ⟨fun _ => ⟨by omega, by omega⟩, fun h => absurd hmem h⟩
    · intro h
      have hbound := ((h hlen).1 hm).1
      refine ⟨hasync.trans hsync.symm, fun n rest hn => ?_⟩
      rw [hsync] at hn
      simp only [Except.ok.injEq, Prod.mk.injEq] at hn
      omega

end

/-- The readers agree just when what comes is within the bounds, from any line on. -/
theorem agreeFrom_iff {limit : ℕ} (hl : maxPreamble + 1 ≤ limit) : ∀ (m skipped : ℕ)
    (s : List UInt8), maxPreamble + 1 - skipped = m → skipped ≤ maxPreamble →
    (AgreeFrom limit skipped s ↔ WithinFrom limit skipped s) := by
  intro m
  induction m using Nat.strong_induction_on with
  | _ m ih =>
    intro skipped s hmeasure hk
    by_cases hmem : newline ∈ s
    swap
    · exact agreeFrom_iff_end hl hk hmem
    have hpos : 0 < (firstLine s).length :=
      List.length_pos_iff.2 (firstLine_ne_nil (List.ne_nil_of_mem hmem))
    by_cases hlen : (firstLine s).length ≤ limit
    swap
    · -- too long for both
      rw [withinFrom_first hk fun _ _ => by omega]
      exact iff_of_true
        (agreeFrom_error (asyncFrom_long (not_le.1 hlen)) (syncFrom_long (by omega)))
        fun h => absurd h hlen
    by_cases hm : magic.isSuffixOf (firstLine s)
    · exact agreeFrom_iff_magic hk hmem hlen hm
    have hm' : magic.isSuffixOf (firstLine s) = false := Bool.eq_false_iff.2 hm
    by_cases hbound : skipped + (firstLine s).length ≤ maxPreamble
    · rw [agreeFrom_line hl hmem hm' hbound, withinFrom_line hmem hm']
      exact ih _ (by omega) (skipped + (firstLine s).length) (afterLine s) rfl hbound
    · -- more noise than there may be
      have hasync : asyncFrom limit skipped s = .error otherThan := by
        rw [asyncFrom_line hmem hlen, if_neg hm, if_pos (by omega)]
      have hsync : syncFrom skipped s = .error otherThan := by
        by_cases hlong : maxPreamble + 1 < (firstLine s).length
        · exact syncFrom_long hlong
        · rw [syncFrom_line (List.ne_nil_of_mem hmem) (not_lt.1 hlong), if_neg hm,
            if_pos (by omega)]
      rw [withinFrom_first hk fun _ _ => by omega]
      exact iff_of_true (agreeFrom_error hasync hsync)
        fun _ => ⟨fun h => absurd h hm, fun h => absurd hmem h⟩

theorem withinFrom_zero {limit : ℕ} {s : List UInt8} : WithinFrom limit 0 s ↔ Within limit s := by
  simp only [WithinFrom, Within, zero_add]

/-- The readers agree and keep to the bound, however the bytes are split, just when the bytes
are within the bounds of both. -/
theorem agree_iff_within {limit : ℕ} (hl : maxData ≤ limit) (s : List UInt8) :
    Agree limit s ↔ Within limit s := by
  have hl' : maxPreamble + 1 ≤ limit := le_trans (by decide) hl
  rw [agree_iff_bytes, agreeFrom_iff hl' _ 0 s rfl (Nat.zero_le _), withinFrom_zero]

/-- A prompt before the magic. -/
theorem prompt_agree : Agree maxData (36 :: 32 :: magic) := by
  refine (agree_iff_within le_rfl _).2 fun noise rest hs hnoise _ _ => ?_
  have hlen : noise.length + rest.length = 17 := by
    rw [← List.length_append, ← hs]
    rfl
  have hfirst := length_firstLine_le rest
  have hmax : maxPreamble = 65536 := rfl
  exact ⟨fun _ => ⟨by omega, by omega⟩, fun _ => by omega⟩

/-- A line with the magic that only the async reader takes. -/
theorem not_agree_of_long {limit : ℕ} {s : List UInt8} (hl : maxPreamble + 1 ≤ limit)
    (hline : firstLine s = s) (hm : magic.isSuffixOf s) (hlong : maxPreamble + 1 < s.length)
    (hlen : s.length ≤ limit) : ¬Agree limit s := by
  rw [agree_iff_bytes, agreeFrom_iff hl _ 0 s rfl (Nat.zero_le _)]
  intro h
  have hbound := ((h [] s rfl .nil (Nat.zero_le _) (hline.symm ▸ hlen)).1 (hline.symm ▸ hm)).2
  rw [hline] at hbound
  omega

/-- 70000 bytes of noise on the line of the magic. -/
theorem long_prompt_disagrees : ¬ ∀ limit s, maxData ≤ limit → Agree limit s := by
  intro h
  have hmem : newline ∉ List.replicate 70000 (36 : UInt8) := fun hm =>
    absurd (List.eq_of_mem_replicate hm) (by decide)
  have hline : firstLine (List.replicate 70000 36 ++ magic) = List.replicate 70000 36 ++ magic := by
    rw [firstLine_append, if_neg hmem, show firstLine magic = magic by decide]
  have hlen : (List.replicate 70000 (36 : UInt8) ++ magic).length = 70015 := by
    rw [List.length_append, List.length_replicate]
    rfl
  have hmagic : magic.isSuffixOf (List.replicate 70000 36 ++ magic) :=
    List.isSuffixOf_iff_suffix.2 (List.suffix_append _ _)
  exact not_agree_of_long (by decide) hline hmagic (by rw [hlen]; decide) (by rw [hlen]; decide)
    (h maxData _ le_rfl)

end Preamble

end EngineConsole
