import EngineConsole.HttpMessage
import EngineConsole.Preamble

/-!
# Responses of an engine

The client of the node's HTTP proxy (`client.rs`) and the half of `exchange` that relays what it
reads : the status and the headers as one event, the body as data, the length at the end. A text
of ISO-8859-1 is its bytes here, one for each character.

Whatever the reads are split into, a response with its body framed by its length, in chunks or by
the end of the connection is relayed as it is, and one whose chunks are cut short ends in an error
(`response_relays`). One whose length is cut short ends as if it was whole, as in Python.
-/

set_option linter.unusedSectionVars false

namespace EngineConsole

namespace Relay

open Http Preamble

/-! ## Texts -/

/-- A word of the source. -/
def word (s : String) : Bytes :=
  s.toList.map fun c => UInt8.ofNat c.toNat

/-- `isspace`, of ISO-8859-1. -/
def isspace (b : UInt8) : Bool :=
  (9 ≤ b && b ≤ 13) || (28 ≤ b && b ≤ 32) || b == 133 || b == 160

/-- `strip` -/
def strip (s : Bytes) : Bytes :=
  (s.dropWhile isspace).rdropWhile isspace

/-- `to_lowercase`, of ISO-8859-1. -/
def lowerByte (b : UInt8) : UInt8 :=
  if (65 ≤ b && b ≤ 90) || (192 ≤ b && b ≤ 222 && b ≠ 215) then b + 32 else b

def lower (s : Bytes) : Bytes :=
  s.map lowerByte

/-- `to_digit` -/
def digitVal (b : UInt8) : ℕ :=
  if b ≤ 57 then b.toNat - 48 else if b ≤ 70 then b.toNat - 55 else b.toNat - 87

def isDecDigit (b : UInt8) : Bool :=
  48 ≤ b && b ≤ 57

def underscore : UInt8 := 95

/-- `digits_with_underscores` : single underscores, only between digits. -/
def digitsWithUnderscores (isDigit : UInt8 → Bool) (s : Bytes) : Bool :=
  s ≠ [] && s.head? ≠ some underscore && s.getLast? ≠ some underscore &&
    !(s.zip s.tail).contains (underscore, underscore) && s.all fun b => b == underscore || isDigit b

/-- The value of digits. -/
def digitsValue (radix : ℕ) (s : Bytes) : ℕ :=
  s.foldl (fun n b => radix * n + digitVal b) 0

/-- `parse_int` -/
def parseInt (s : Bytes) : Option ℤ :=
  let t := strip s
  let neg := t.head? = some 45
  let body := if t.head? = some 45 ∨ t.head? = some 43 then t.tail else t
  if digitsWithUnderscores isDecDigit body then
    let v := digitsValue 10 (body.filter (· ≠ underscore))
    if v < 2 ^ 63 then some (if neg then -v else v) else none
  else none

/-- `parse_int_hex` -/
def parseIntHex (s : Bytes) : Option ℕ :=
  let t := strip s
  let body := if (word "0x").isPrefixOf t || (word "0X").isPrefixOf t then t.drop 2 else t
  if digitsWithUnderscores hexDigit body then
    let v := digitsValue 16 (body.filter (· ≠ underscore))
    if v < 2 ^ 64 then some v else none
  else none

/-! ## Reading -/

/-- `HttpError` : that of a read, or the name of an exception. -/
inductive HttpError where
  | io (e : ReadError)
  | proto (name : String)

/-- `MAXLINE` and `MAXHEADERS` -/
def maxLine : ℕ := 65536
def maxHeaders : ℕ := 100

/-- `readline(r, MAXLINE + 1)`, where a line that is longer than `MAXLINE` is an error. -/
def readLine (src : Source) : Except HttpError (Bytes × Source) :=
  match readLineCapped (maxLine + 1) src with
  | .error e => .error (.io e)
  | .ok (line, rest) =>
    if maxLine < line.length then .error (.proto "LineTooLong") else .ok (line, rest)

/-- The words of a line. -/
def words (line : Bytes) : List Bytes :=
  (line.splitOnP isspace).filter (· ≠ [])

/-- `read_status` -/
def readStatus (src : Source) : Except HttpError ((Bytes × ℕ) × Source) :=
  match readLine src with
  | .error e => .error e
  | .ok (raw, rest) =>
    if raw = [] then .error (.proto "RemoteDisconnected")
    else
      let (version, status) :=
        match words raw with
        | v :: s :: _ => (v, s)
        | _ => ([], [])
      if !(word "HTTP/").isPrefixOf version then .error (.proto "BadStatusLine")
      else
        match parseInt status with
        | some s =>
          if 100 ≤ s ∧ s ≤ 999 then .ok ((version, s.toNat), rest)
          else .error (.proto "BadStatusLine")
        | none => .error (.proto "BadStatusLine")

/-- An empty line, or the end. -/
def blank (line : Bytes) : Bool :=
  line = crlf || line = [newline] || line = []

/-- `read_header_lines`, where `room` lines may come. -/
def readHeaderLines : ℕ → Source → Except HttpError (List Bytes × Source)
  | room, src =>
    match readLine src with
    | .error e => .error e
    | .ok (line, rest) =>
      if blank line then .ok ([], rest)
      else
        match room with
        | 0 => .error (.proto "HTTPException")
        | room + 1 => (readHeaderLines room rest).map fun r => (line :: r.1, r.2)

/-- The universal-newline split of a text, line endings kept. -/
def splitLines : Bytes → List Bytes
  | [] => []
  | b :: s =>
    if b = newline || (b = 13 && s.head? ≠ some newline) then [b] :: splitLines s
    else
      match splitLines s with
      | [] => [[b]]
      | line :: lines => (b :: line) :: lines

def colon : UInt8 := 58

/-- A line that goes on with the one before it. -/
def folded (line : Bytes) : Bool :=
  line.head? = some 32 || line.head? = some 9

/-- `is_header_line` -/
def isHeaderLine (line : Bytes) : Bool :=
  (word "From ").isPrefixOf line || folded line ||
    (line.contains colon && (line.takeWhile (· ≠ colon)).all visible)

/-- `flush` : the header whose lines these are. -/
def flush : List Bytes → List Field
  | [] => []
  | first :: more =>
    let value := ((first.dropWhile (· ≠ colon)).tail.dropWhile ows) ++ more.flatten
    [(first.takeWhile (· ≠ colon), value.rdropWhile fun b => b == 13 || b == newline)]

/-- The loop of `parse_header_block`, with the lines of the last header. -/
def parseLines : List Bytes → List Bytes → List Field
  | last, [] => flush last
  | last, line :: lines =>
    if !isHeaderLine line then flush last
    else if folded line then parseLines (if last = [] then [] else last ++ [line]) lines
    else
      -- a mailbox line and a line without a name are left out
      flush last ++
        if (word "From ").isPrefixOf line || line.head? = some colon || !line.contains colon then
          parseLines [] lines
        else parseLines [line] lines

/-- `parse_header_block` -/
def parseHeaderBlock (raw : List Bytes) : List Field :=
  parseLines [] (splitLines raw.flatten)

/-! ## What is read comes off the source -/

theorem content_readLineCapped : ∀ {src : Source} {room : ℕ} {line : Bytes} {rest : Source},
    readLineCapped room src = .ok (line, rest) → src.content = line ++ rest.content
  | src, 0, line, rest, h => by
    rw [readLineCapped] at h
    cases h
    rfl
  | [], _ + 1, line, rest, h => by
    rw [readLineCapped] at h
    cases h
    rfl
  | .interrupted :: src, room + 1, line, rest, h => by
    rw [readLineCapped] at h
    have ih : Source.content src = line ++ rest.content := content_readLineCapped h
    exact ih
  | .failed error :: _, _ + 1, line, rest, h => by
    rw [readLineCapped] at h
    cases h
  | .bytes [] :: src, _ + 1, line, rest, h => by
    rw [readLineCapped] at h
    cases h
    rfl
  | .bytes (b :: buf) :: src, room + 1, line, rest, h => by
    rw [readLineCapped] at h
    have hcontent : Source.content (.bytes (b :: buf) :: src) = b :: buf ++ Source.content src := rfl
    split_ifs at h with hmem hlen
    · cases h
      have hleads : firstLine ((b :: buf).take (room + 1)) <+: b :: buf :=
        List.IsPrefix.trans ⟨_, firstLine_split _⟩ (List.take_prefix _ _)
      rw [content_leave, hcontent, ← List.append_assoc, List.prefix_iff_eq_append.1 hleads]
    · rcases hread : readLineCapped (room - buf.length) src with e | ⟨line', rest'⟩
      · rw [hread] at h
        cases h
      · rw [hread] at h
        cases h
        rw [hcontent, content_readLineCapped hread, List.take_of_length_le (by simpa using hlen),
          List.append_assoc]
    · cases h
      rw [content_leave, hcontent, ← List.append_assoc, List.take_append_drop]

/-- What `read_line` reads is what comes next. -/
theorem content_readLine {src rest : Source} {line : Bytes} (h : readLine src = .ok (line, rest)) :
    src.content = line ++ rest.content := by
  rw [readLine] at h
  rcases hread : readLineCapped (maxLine + 1) src with e | ⟨line', rest'⟩
  · rw [hread] at h
    cases h
  · rw [hread] at h
    dsimp only at h
    split_ifs at h
    cases h
    exact content_readLineCapped hread

theorem content_readHeaderLines {room : ℕ} {src rest : Source} {lines : List Bytes}
    (h : readHeaderLines room src = .ok (lines, rest)) :
    rest.content.length ≤ src.content.length := by
  induction room generalizing src lines with
  | zero =>
    rw [readHeaderLines] at h
    rcases hline : readLine src with e | ⟨line, rest'⟩
    · rw [hline] at h
      cases h
    · rw [hline] at h
      dsimp only at h
      split_ifs at h
      cases h
      rw [content_readLine hline, List.length_append]
      omega
  | succ room ih =>
    rw [readHeaderLines] at h
    rcases hline : readLine src with e | ⟨line, rest'⟩
    · rw [hline] at h
      cases h
    · rw [hline] at h
      dsimp only at h
      rw [content_readLine hline, List.length_append]
      split_ifs at h
      · cases h
        omega
      · rcases hmore : readHeaderLines room rest' with e | ⟨lines', rest''⟩
        · rw [hmore] at h
          cases h
        · rw [hmore] at h
          cases h
          have hle := ih hmore
          omega

theorem content_readStatus {src rest : Source} {v : Bytes × ℕ} (h : readStatus src = .ok (v, rest)) :
    rest.content.length < src.content.length := by
  rw [readStatus] at h
  rcases hline : readLine src with e | ⟨line, rest'⟩
  · rw [hline] at h
    cases h
  · rw [hline] at h
    dsimp only at h
    rw [content_readLine hline, List.length_append]
    by_cases hnil : line = []
    · rw [if_pos hnil] at h
      cases h
    · have hpos : 0 < line.length := List.length_pos_iff.2 hnil
      have hrest : rest' = rest := by
        rw [if_neg hnil] at h
        split_ifs at h
        split at h
        · split_ifs at h
          cases h
          rfl
        · cases h
      rw [hrest]
      omega

/-! ## Responses -/

/-- The loop of `get_response` : the version and the status of the first response that is not an
interim one. -/
def finalStatus (src : Source) : Except HttpError ((Bytes × ℕ) × Source) :=
  match _h : readStatus src with
  | .error e => .error e
  | .ok (v, rest) =>
    if v.2 ≠ 100 then .ok (v, rest)
    else
      match _h' : readHeaderLines maxHeaders rest with
      | .error e => .error e
      | .ok (_, rest') => finalStatus rest'
termination_by src.content.length
decreasing_by exact (content_readHeaderLines _h').trans_lt (content_readStatus _h)

/-- `Body` : `chunked` has the bytes left in the chunk, `none` before the first. -/
inductive Body where
  | length (left : ℕ)
  | chunked (left : Option ℕ)
  | close
  | done

/-- `Response` : its source is `none` once it is closed. -/
structure Response where
  status : ℕ
  headers : List Field
  src : Option Source
  body : Body

/-- What may still come. -/
def Response.content (r : Response) : Bytes :=
  r.src.elim [] Source.content

/-- The value of the first header of a name. -/
def getHeader (headers : List Field) (name : Bytes) : Option Bytes :=
  (headers.find? fun h => lower h.1 = name).map Prod.snd

/-- How the body is framed, in `get_response`. -/
def bodyOf (head : Bool) (status : ℕ) (headers : List Field) : Body :=
  let chunked := ((getHeader headers transferEncoding).map lower) = some (word "chunked")
  let length :=
    if status = 204 ∨ status = 304 ∨ (100 ≤ status ∧ status < 200) ∨ head then some 0
    else if chunked then none
    else ((getHeader headers contentLength).filter (· ≠ [])).bind fun l =>
      (parseInt l).bind fun n => if 0 ≤ n then some n.toNat else none
  if head then .done
  else if chunked then .chunked none
  else
    match length with
    | some n => .length n
    | none => .close

/-- `Conn::get_response` -/
def getResponse (head : Bool) (src : Source) : Except HttpError Response :=
  match finalStatus src with
  | .error e => .error e
  | .ok ((version, status), rest) =>
    if !(word "HTTP/1.").isPrefixOf version && version ≠ word "HTTP/0.9" then
      .error (.proto "UnknownProtocol")
    else
      match readHeaderLines maxHeaders rest with
      | .error e => .error e
      | .ok (lines, rest) =>
        let headers := parseHeaderBlock lines
        .ok ⟨status, headers, some rest, bodyOf head status headers⟩

/-- `fp_read1` : what one read finds, up to `n` bytes. -/
def fpRead1 : ℕ → Source → Except HttpError (Bytes × Source)
  | 0, src => .ok ([], src)
  | _ + 1, [] => .ok ([], [])
  | n + 1, .interrupted :: src => fpRead1 (n + 1) src
  | _ + 1, .failed error :: _ => .error (.io (.io error))
  | n + 1, .bytes chunk :: src => .ok (chunk.take (n + 1), leave (chunk.drop (n + 1)) src)

/-- The trailer, up to an empty line. -/
def readTrailer (src : Source) : Except HttpError Source :=
  match _h : readLine src with
  | .error e => .error e
  | .ok (line, rest) => if blank line then .ok rest else readTrailer rest
termination_by src.content.length
decreasing_by
  have hline : line ≠ [] := fun hnil => by simp [blank, hnil] at *
  have hpos : 0 < line.length := List.length_pos_iff.2 hline
  rw [content_readLine _h, List.length_append]
  omega

/-- The end of a chunk. -/
def skipCrlf (src : Source) : Except HttpError Source :=
  match readExact true 2 src with
  | .error e => .error (.io e)
  | .ok (got, rest) => if got.length < 2 then .error (.proto "IncompleteRead") else .ok rest

/-- The size of the next chunk, in `chunk_left`. -/
def readSize (src : Source) : Except HttpError (ℕ × Source) :=
  match readLine src with
  | .error e => .error e
  | .ok (line, rest) =>
    match parseIntHex (line.takeWhile (· ≠ 59)) with
    | none => .error (.proto "IncompleteRead")
    | some size => .ok (size, rest)

/-- After the end of a chunk, in `chunk_left` : the next one, or the trailer. -/
def nextSize (r : Response) (src : Source) : Except HttpError (Option ℕ × Response) := do
  let (size, src) ← readSize src
  if size = 0 then do
    let _ ← readTrailer src
    .ok (none, { r with src := none, body := .chunked none })
  else .ok (some size, { r with src := some src, body := .chunked (some size) })

/-- `chunk_left`, of a response in chunks with `left` bytes of one. -/
def chunkLeft (r : Response) (left : Option ℕ) : Except HttpError (Option ℕ × Response) :=
  match left, r.src with
  | some (l + 1), _ => .ok (some (l + 1), r)
  | _, none => .ok (none, r)
  | left, some src => do
    let src ← if left.isSome then skipCrlf src else .ok src
    nextSize r src

/-- `read1_chunked` -/
def read1Chunked (n : ℕ) (r : Response) (left : Option ℕ) : Except HttpError (Bytes × Response) := do
  let (left, r) ← chunkLeft r left
  match left, r.src with
  | some left, some src =>
    if n = 0 then .ok ([], r)
    else do
      let (got, src) ← fpRead1 (min n left) src
      if got = [] then .error (.proto "IncompleteRead")
      else .ok (got, { r with src := some src, body := .chunked (some (left - got.length)) })
  | _, _ => .ok ([], r)

/-- `read1` -/
def read1 (n : ℕ) (r : Response) : Except HttpError (Bytes × Response) :=
  match r.src, r.body with
  | none, _ => .ok ([], r)
  | some _, .done => .ok ([], r)
  | some _, .chunked left => read1Chunked n r left
  | some src, .length left => do
    let (got, src) ← fpRead1 (min n left) src
    if got = [] && 0 < min n left then .ok (got, { r with src := none })
    else .ok (got, { r with
      src := if left - got.length = 0 then none else some src
      body := .length (left - got.length) })
  | some src, .close => do
    let (got, src) ← fpRead1 n src
    .ok (got, { r with src := if got = [] && 0 < n then none else some src })

/-! ## Every round of the loop takes something off the source -/

theorem ok_of_bind {ε α β : Type} {x : Except ε α} {f : α → Except ε β} {b : β}
    (h : (x >>= f) = .ok b) : ∃ a, x = .ok a ∧ f a = .ok b := by
  cases x with
  | error e => cases h
  | ok a => exact ⟨a, rfl, h⟩

theorem content_readExact {retry : Bool} : ∀ {src : Source} {n : ℕ} {got : Bytes} {rest : Source},
    readExact retry n src = .ok (got, rest) → src.content = got ++ rest.content
  | src, 0, got, rest, h => by
    rw [readExact] at h
    cases h
    rfl
  | [], _ + 1, got, rest, h => by
    rw [readExact] at h
    cases h
    rfl
  | .interrupted :: src, n + 1, got, rest, h => by
    rw [readExact] at h
    split_ifs at h
    have ih : Source.content src = got ++ rest.content := content_readExact h
    exact ih
  | .failed error :: _, _ + 1, got, rest, h => by
    rw [readExact] at h
    cases h
  | .bytes [] :: src, _ + 1, got, rest, h => by
    rw [readExact] at h
    cases h
    rfl
  | .bytes (b :: chunk) :: src, n + 1, got, rest, h => by
    rw [readExact] at h
    have hcontent : Source.content (.bytes (b :: chunk) :: src) =
        b :: chunk ++ Source.content src := rfl
    split_ifs at h
    · rcases hread : readExact retry (n - chunk.length) src with e | ⟨got', rest'⟩
      · rw [hread] at h
        cases h
      · rw [hread] at h
        cases h
        rw [hcontent, content_readExact hread, List.append_assoc]
    · cases h
      rw [hcontent, List.cons_append, List.cons_append]
      show _ = b :: (chunk.take n ++ (chunk.drop n ++ Source.content src))
      rw [← List.append_assoc, List.take_append_drop]

theorem content_fpRead1 : ∀ {src : Source} {n : ℕ} {got : Bytes} {rest : Source},
    fpRead1 n src = .ok (got, rest) → src.content = got ++ rest.content
  | src, 0, got, rest, h => by
    rw [fpRead1] at h
    cases h
    rfl
  | [], _ + 1, got, rest, h => by
    rw [fpRead1] at h
    cases h
    rfl
  | .interrupted :: src, n + 1, got, rest, h => by
    rw [fpRead1] at h
    have ih : Source.content src = got ++ rest.content := content_fpRead1 h
    exact ih
  | .failed error :: _, _ + 1, got, rest, h => by
    rw [fpRead1] at h
    cases h
  | .bytes chunk :: src, n + 1, got, rest, h => by
    rw [fpRead1] at h
    cases h
    show chunk ++ Source.content src = _
    rw [content_leave, ← List.append_assoc, List.take_append_drop]

theorem content_skipCrlf {src rest : Source} (h : skipCrlf src = .ok rest) :
    rest.content.length ≤ src.content.length := by
  rw [skipCrlf] at h
  rcases hread : readExact true 2 src with e | ⟨got, rest'⟩
  · rw [hread] at h
    cases h
  · rw [hread] at h
    dsimp only at h
    split_ifs at h
    cases h
    rw [content_readExact hread, List.length_append]
    omega

theorem content_readSize {src rest : Source} {size : ℕ} (h : readSize src = .ok (size, rest)) :
    rest.content.length ≤ src.content.length := by
  rw [readSize] at h
  rcases hline : readLine src with e | ⟨line, rest'⟩
  · rw [hline] at h
    cases h
  · rw [hline] at h
    dsimp only at h
    rw [content_readLine hline, List.length_append]
    split at h
    · cases h
    · cases h
      omega

theorem content_nextSize {r r' : Response} {left' : Option ℕ} {src : Source}
    (h : nextSize r src = .ok (left', r')) : r'.content.length ≤ src.content.length := by
  obtain ⟨⟨size, src'⟩, hsize, h⟩ := ok_of_bind h
  have hle := content_readSize hsize
  dsimp only at h
  split_ifs at h
  · obtain ⟨src'', -, h⟩ := ok_of_bind h
    cases h
    exact Nat.zero_le _
  · cases h
    exact hle

theorem content_chunkLeft {r r' : Response} {left left' : Option ℕ}
    (h : chunkLeft r left = .ok (left', r')) : r'.content.length ≤ r.content.length := by
  rcases r with ⟨status, headers, _ | src, body⟩
  · rcases left with _ | _ | l <;> cases h <;> exact le_rfl
  rcases left with _ | _ | l
  · exact content_nextSize h
  · obtain ⟨src', hcrlf, h⟩ := ok_of_bind h
    exact (content_nextSize h).trans (content_skipCrlf hcrlf)
  · cases h
    exact le_rfl

theorem content_read1Chunked {n : ℕ} {r r' : Response} {left : Option ℕ} {got : Bytes}
    (h : read1Chunked n r left = .ok (got, r')) :
    got.length + r'.content.length ≤ r.content.length := by
  obtain ⟨⟨left', r''⟩, hleft, h⟩ := ok_of_bind h
  have hle := content_chunkLeft hleft
  rcases r'' with ⟨status, headers, _ | src, body⟩
  · rcases left' with _ | l <;> cases h <;> simpa using hle
  rcases left' with _ | l
  · cases h
    simpa using hle
  dsimp only at h
  split_ifs at h
  · cases h
    simpa using hle
  · obtain ⟨⟨got', src'⟩, hread, h⟩ := ok_of_bind h
    have hcontent : (Response.mk status headers (some src) body).content = src.content := rfl
    dsimp only at h
    split_ifs at h
    cases h
    rw [hcontent, content_fpRead1 hread, List.length_append] at hle
    exact hle

theorem content_read1 {n : ℕ} {r r' : Response} {got : Bytes} (h : read1 n r = .ok (got, r')) :
    got.length + r'.content.length ≤ r.content.length := by
  rcases r with ⟨status, headers, _ | src, body⟩
  · cases h
    exact (Nat.zero_add _).le
  have hcontent : (Response.mk status headers (some src) body).content = src.content := rfl
  cases body with
  | length left =>
    obtain ⟨⟨got', src'⟩, hread, h⟩ := ok_of_bind h
    rw [hcontent, content_fpRead1 hread, List.length_append]
    dsimp only at h
    split_ifs at h
    all_goals
      cases h
      simp [Response.content]
  | chunked left => exact content_read1Chunked h
  | close =>
    obtain ⟨⟨got', src'⟩, hread, h⟩ := ok_of_bind h
    rw [hcontent, content_fpRead1 hread, List.length_append]
    dsimp only at h
    cases h
    split_ifs <;> simp [Response.content]
  | done =>
    cases h
    exact (Nat.zero_add _).le

/-- The loop of `exchange` that relays the body : the data, and how many bytes there were. -/
def relay (r : Response) : List Bytes × Except HttpError ℕ :=
  match _h : read1 65536 r with
  | .error e => ([], .error e)
  | .ok (got, r') =>
    if _hgot : got = [] then ([], .ok 0)
    else
      let rest := relay r'
      (got :: rest.1, rest.2.map (got.length + ·))
termination_by r.content.length
decreasing_by
  have hpos : 0 < got.length := List.length_pos_iff.2 _hgot
  have hle := content_read1 _h
  omega

/-- `HOP_BY_HOP` -/
def hopByHop : List Bytes :=
  [word "connection", word "keep-alive", word "proxy-authenticate", word "proxy-authorization",
    word "proxy-connection", word "te", word "trailer", word "trailers",
    word "transfer-encoding", word "upgrade", word "host", word "content-length", word "expect"]

/-- A header is added to those of the event. -/
def addHeader (hdrs : List Field) (h : Field) : List Field :=
  let lk := lower h.1
  if (lk ≠ contentLength && hopByHop.contains lk) || 64 ≤ hdrs.length || 256 < h.1.length then hdrs
  else
    match (hdrs.find? fun e => e.1 = lk).map Prod.snd with
    | some prev =>
      hdrs.map fun e => if e.1 = lk then (lk, (prev ++ word ", " ++ h.2).take 4096) else e
    | none => hdrs ++ [(lk, h.2.take 4096)]

/-- The headers of the event. -/
def eventHeaders (headers : List Field) : List Field :=
  headers.foldl addHeader []

/-- What `exchange` says after the request is sent : its events, its data, and its result, the
status and the number of bytes. -/
structure Relayed where
  events : List (ℕ × List Field)
  data : List Bytes
  res : Except HttpError (ℕ × ℕ)

/-- The response half of `exchange`. -/
def exchangeResponse (src : Source) : Relayed :=
  match getResponse false src with
  | .error e => ⟨[], [], .error e⟩
  | .ok r =>
    let body := relay r
    ⟨[(r.status, eventHeaders r.headers)], body.1, body.2.map fun n => (r.status, n)⟩

/-! ## Responses as they are written -/

/-- A chunk : the digits of its size, its extensions and its data. -/
structure Chunk where
  size : Bytes
  ext : Bytes
  data : Bytes

/-- The line of a size. -/
def sizeLine (size ext : Bytes) : Bytes :=
  size ++ ext ++ crlf

def Chunk.bytes (c : Chunk) : Bytes :=
  sizeLine c.size c.ext ++ (c.data ++ crlf)

/-- A body, with how it is framed. -/
inductive Content where
  | length (body : Bytes)
  | chunked (chunks : List Chunk) (size ext : Bytes) (trailer : List Bytes)
  | close (body : Bytes)

/-- What a body says. -/
def Content.body : Content → Bytes
  | .length body => body
  | .chunked chunks _ _ _ => chunks.flatMap Chunk.data
  | .close body => body

def Content.bytes : Content → Bytes
  | .length body => body
  | .chunked chunks size ext trailer =>
    chunks.flatMap Chunk.bytes ++ (sizeLine size ext ++ (trailer.flatMap (· ++ crlf) ++ crlf))
  | .close body => body

/-- A status in three digits. -/
def statusDigits (status : ℕ) : Bytes :=
  [UInt8.ofNat (48 + status / 100), UInt8.ofNat (48 + status / 10 % 10),
    UInt8.ofNat (48 + status % 10)]

def statusLine (status : ℕ) (reason : Bytes) : Bytes :=
  word "HTTP/1.1" ++ 32 :: (statusDigits status ++ 32 :: (reason ++ crlf))

/-- The status line, the fields, and an empty line. -/
def headBytes (status : ℕ) (reason : Bytes) (fields : List Field) : Bytes :=
  statusLine status reason ++ (fields.flatMap writeField ++ crlf)

/-- A response : its interim ones, its status and its fields, and its body. -/
structure Reply where
  interims : List (Bytes × List Field)
  status : ℕ
  reason : Bytes
  fields : List Field
  content : Content

/-- What comes before the body. -/
def Reply.head (w : Reply) : Bytes :=
  w.interims.flatMap (fun i => headBytes 100 i.1 i.2) ++ headBytes w.status w.reason w.fields

def Reply.bytes (w : Reply) : Bytes :=
  w.head ++ w.content.bytes

/-- A field of a response that fits into a line. -/
structure FieldOk (f : Field) : Prop where
  ne_nil : f.1 ≠ []
  name : ∀ b ∈ f.1, tchar b
  value : 13 ∉ f.2 ∧ newline ∉ f.2
  short : (writeField f).length ≤ maxLine

/-- A status line and fields within the limits. -/
structure HeadOk (status : ℕ) (reason : Bytes) (fields : List Field) : Prop where
  range : 100 ≤ status ∧ status ≤ 999
  oneLine : newline ∉ reason
  short : (statusLine status reason).length ≤ maxLine
  count : fields.length ≤ maxHeaders
  fields : ∀ f ∈ fields, FieldOk f

/-- A size in hexadecimal digits, with extensions, that fits into a line. -/
structure SizeOk (size ext : Bytes) (n : ℕ) : Prop where
  ne_nil : size ≠ []
  digits : ∀ b ∈ size, hexDigit b
  value : digitsValue 16 size = n
  range : n < 2 ^ 64
  start : ext = [] ∨ ext.head? = some 59
  oneLine : newline ∉ ext
  short : (sizeLine size ext).length ≤ maxLine

structure Chunk.Ok (c : Chunk) : Prop where
  size : SizeOk c.size c.ext c.data.length
  ne_nil : c.data ≠ []

/-- A line of a trailer. -/
structure TrailerOk (line : Bytes) : Prop where
  ne_nil : line ≠ []
  oneLine : newline ∉ line
  short : (line ++ crlf).length ≤ maxLine

/-- A response that has no body. -/
def bodiless (status : ℕ) : Prop :=
  status = 204 ∨ status = 304 ∨ status < 200

/-- The fields say how the body is framed. -/
def Content.Framed (fields : List Field) : Content → Prop
  | .length body => valuesOf transferEncoding fields = [] ∧
      ∃ v, valuesOf contentLength fields = [v] ∧ v ≠ [] ∧ (∀ b ∈ v, isDecDigit b) ∧
        digitsValue 10 v = body.length ∧ body.length < 2 ^ 63
  | .chunked chunks size ext trailer =>
    (∃ v, valuesOf transferEncoding fields = [v] ∧ lowerName v = word "chunked") ∧
      (∀ c ∈ chunks, c.Ok) ∧ SizeOk size ext 0 ∧ ∀ line ∈ trailer, TrailerOk line
  | .close _ => valuesOf transferEncoding fields = [] ∧ valuesOf contentLength fields = []

/-- A response of HTTP/1.1 within the limits. -/
structure Reply.Ok (w : Reply) : Prop where
  interims : ∀ i ∈ w.interims, HeadOk 100 i.1 i.2
  head : HeadOk w.status w.reason w.fields
  final : w.status ≠ 100
  framed : w.content.Framed w.fields
  empty : bodiless w.status → w.content.body = []

/-- The end of the connection is the end of the body. -/
def Content.Closes : Content → Prop
  | .close _ => True
  | _ => False

/-! ## Numbers -/

theorem rdropWhile_append {p : UInt8 → Bool} {s t : Bytes} (hs : ∀ b ∈ s, p b = false)
    (ht : ∀ b ∈ t, p b) : (s ++ t).rdropWhile p = s := by
  have hkeep : s.reverse.dropWhile p = s.reverse := by
    rw [List.dropWhile_eq_self_iff]
    intro hpos
    simpa using hs _ (List.mem_reverse.1 (List.getElem_mem hpos))
  rw [List.rdropWhile, List.reverse_append,
    List.dropWhile_append_of_pos fun b hb => ht b (List.mem_reverse.1 hb), hkeep,
    List.reverse_reverse]

/-- White space at the end goes. -/
theorem strip_append {s white : Bytes} (hs : ∀ b ∈ s, isspace b = false)
    (hwhite : ∀ b ∈ white, isspace b) : strip (s ++ white) = s := by
  cases s with
  | nil =>
    rw [List.nil_append, strip, List.dropWhile_eq_nil_iff.2 hwhite]
    rfl
  | cons b s =>
    have hfirst : (b :: s ++ white).dropWhile isspace = b :: s ++ white := by
      rw [List.cons_append, List.dropWhile_cons_of_neg]
      simpa using hs b (List.mem_cons_self ..)
    rw [strip, hfirst, rdropWhile_append hs hwhite]

theorem isspace_visible {b : UInt8} (h : visible b) : isspace b = false := by
  simp only [visible, Bool.and_eq_true, decide_eq_true_eq, UInt8.le_iff_toNat_le] at h
  rw [← Bool.not_eq_true]
  simp only [isspace, Bool.or_eq_true, Bool.and_eq_true, decide_eq_true_eq, beq_iff_eq,
    UInt8.le_iff_toNat_le, ← UInt8.toNat_inj]
  simp only [UInt8.reduceToNat] at h ⊢
  omega

theorem isspace_hexDigit {b : UInt8} (h : hexDigit b) : isspace b = false :=
  isspace_visible (visible_of_hexDigit h)

theorem hexDigit_of_dec {b : UInt8} (h : isDecDigit b) : hexDigit b := by
  rw [hexDigit, show (48 ≤ b && b ≤ 57) = true from h]
  rfl

/-- Digits have no underscores. -/
theorem digits_plain {isDigit : UInt8 → Bool} (hu : isDigit underscore = false) {s : Bytes}
    (hne : s ≠ []) (h : ∀ b ∈ s, isDigit b) :
    digitsWithUnderscores isDigit s = true ∧ s.filter (· ≠ underscore) = s := by
  have hnot : underscore ∉ s := fun hmem => by simp [h _ hmem] at hu
  constructor
  · have hhead : s.head? ≠ some underscore := fun hs => hnot (List.mem_of_mem_head? hs)
    have hlast : s.getLast? ≠ some underscore := fun hs => hnot (List.mem_of_mem_getLast? hs)
    have hpair : (underscore, underscore) ∉ s.zip s.tail := fun hs => hnot (List.of_mem_zip hs).1
    have hall : s.all (fun b => b == underscore || isDigit b) = true :=
      List.all_eq_true.2 fun b hb => by rw [h b hb, Bool.or_true]
    rw [digitsWithUnderscores, hall]
    simp [hne, hhead, hlast, hpair]
  · exact List.filter_eq_self.2 fun b hb => by
      simpa using fun hb' : b = underscore => hnot (hb' ▸ hb)

theorem parseInt_digits {v : Bytes} (hne : v ≠ []) (h : ∀ b ∈ v, isDecDigit b)
    (hlt : digitsValue 10 v < 2 ^ 63) : parseInt v = some (digitsValue 10 v : ℤ) := by
  have hstrip : strip v = v := by
    simpa using strip_append (fun b hb => isspace_hexDigit (hexDigit_of_dec (h b hb)))
      fun b (hb : b ∈ []) => (List.not_mem_nil hb).elim
  have hsign : ∀ c : UInt8, isDecDigit c = false → v.head? ≠ some c := fun c hc hv => by
    simp [h c (List.mem_of_mem_head? hv)] at hc
  obtain ⟨hdigits, hfilter⟩ := digits_plain (by decide : isDecDigit underscore = false) hne h
  rw [parseInt, hstrip]
  dsimp only
  rw [if_neg (show ¬(v.head? = some 45 ∨ v.head? = some 43) by
      simp [hsign 45 (by decide), hsign 43 (by decide)]), if_pos hdigits, hfilter,
    if_pos hlt, if_neg (hsign 45 (by decide))]

/-- White space after the digits does not matter. -/
theorem parseIntHex_digits {v white : Bytes} (hne : v ≠ []) (h : ∀ b ∈ v, hexDigit b)
    (hlt : digitsValue 16 v < 2 ^ 64) (hwhite : ∀ b ∈ white, isspace b) :
    parseIntHex (v ++ white) = some (digitsValue 16 v) := by
  have hstrip : strip (v ++ white) = v := strip_append (fun b hb => isspace_hexDigit (h b hb)) hwhite
  have hsign : ∀ w : Bytes, (∃ c ∈ w, hexDigit c = false) → w.isPrefixOf v = false := fun w hw => by
    obtain ⟨c, hc, hdigit⟩ := hw
    rw [← Bool.not_eq_true, List.isPrefixOf_iff_prefix]
    intro hleads
    simp [h c (hleads.subset hc)] at hdigit
  obtain ⟨hdigits, hfilter⟩ := digits_plain (by decide : hexDigit underscore = false) hne h
  rw [parseIntHex, hstrip]
  dsimp only
  rw [hsign (word "0x") ⟨120, by decide, by decide⟩, hsign (word "0X") ⟨88, by decide, by decide⟩,
    Bool.or_false, if_neg Bool.false_ne_true, if_pos hdigits, hfilter, if_pos hlt]

/-! ## A head is read back -/

/-- A line that fits is read as it is. -/
theorem readLine_line {src : Source} {l more : Bytes} (hflows : src.Flows true)
    (hcontent : src.content = l ++ crlf ++ more) (hl : newline ∉ l)
    (hshort : (l ++ crlf).length ≤ maxLine) :
    ∃ rest, readLine src = .ok (l ++ crlf, rest) ∧ rest.content = more ∧ rest.Flows true := by
  obtain ⟨rest, hread, hrest, hflows'⟩ := readLineCapped_spec src (maxLine + 1) hflows
  have hnot : newline ∉ l ++ [13] := by simpa using ⟨hl, by decide⟩
  have hfirst : firstLine src.content = l ++ crlf := by
    rw [hcontent, show l ++ crlf ++ more = (l ++ [13]) ++ ([newline] ++ more) by simp [crlf, newline],
      firstLine_append, if_neg hnot, firstLine_append, if_pos (List.mem_singleton_self _)]
    simp [firstLine, crlf, newline]
  rw [hfirst, List.take_of_length_le (by omega)] at hread hrest
  refine ⟨rest, ?_, ?_, hflows'⟩
  · rw [readLine, hread]
    dsimp only
    rw [if_neg (by omega)]
  · rw [hrest, hcontent, List.drop_left]

theorem words_cons {w : Bytes} {b : UInt8} {s : Bytes} (hne : w ≠ [])
    (hw : ∀ c ∈ w, isspace c = false) (hb : isspace b) : words (w ++ b :: s) = w :: words s := by
  rw [words, List.splitOnP_append_cons_of_forall_mem hw b hb, List.filter_cons_of_pos (by simpa),
    words]

theorem digitsValue_status {status : ℕ} (hlo : 100 ≤ status) (hhi : status ≤ 999) :
    (∀ b ∈ statusDigits status, isDecDigit b) ∧ digitsValue 10 (statusDigits status) = status := by
  have hdigit : ∀ d : ℕ, d < 10 → isDecDigit (UInt8.ofNat (48 + d)) ∧
      digitVal (UInt8.ofNat (48 + d)) = d := by decide
  obtain ⟨h1, v1⟩ := hdigit (status / 100) (by omega)
  obtain ⟨h2, v2⟩ := hdigit (status / 10 % 10) (by omega)
  obtain ⟨h3, v3⟩ := hdigit (status % 10) (by omega)
  refine ⟨fun b hb => ?_, ?_⟩
  · rw [statusDigits, List.mem_cons, List.mem_cons, List.mem_singleton] at hb
    rcases hb with rfl | rfl | rfl
    · exact h1
    · exact h2
    · exact h3
  rw [digitsValue, statusDigits]
  simp only [List.foldl_cons, List.foldl_nil, v1, v2, v3]
  omega

/-- The version of a response. -/
theorem version_eq : word "HTTP/1.1" = [72, 84, 84, 80, 47, 49, 46, 49] := by
  decide

theorem readStatus_line {src : Source} {status : ℕ} {reason more : Bytes} {fields : List Field}
    (hflows : src.Flows true) (hcontent : src.content = statusLine status reason ++ more)
    (hok : HeadOk status reason fields) :
    ∃ rest, readStatus src = .ok ((word "HTTP/1.1", status), rest) ∧ rest.content = more ∧
      rest.Flows true := by
  obtain ⟨hlo, hhi⟩ := hok.range
  obtain ⟨hdigits, hvalue⟩ := digitsValue_status hlo hhi
  have hspace : ∀ b ∈ statusDigits status, isspace b = false := fun b hb =>
    isspace_hexDigit (hexDigit_of_dec (hdigits b hb))
  have hne : statusDigits status ≠ [] := List.cons_ne_nil _ _
  have hline : statusLine status reason =
      (word "HTTP/1.1" ++ 32 :: (statusDigits status ++ 32 :: reason)) ++ crlf := by
    simp [statusLine]
  have hnot : newline ∉ word "HTTP/1.1" ++ 32 :: (statusDigits status ++ 32 :: reason) := by
    have hstatus : newline ∉ statusDigits status := fun hmem =>
      absurd (hspace newline hmem) (by decide)
    simp only [List.mem_append, List.mem_cons, not_or]
    exact ⟨by decide, by decide, hstatus, by decide, hok.oneLine⟩
  obtain ⟨rest, hread, hrest, hflows'⟩ := readLine_line hflows (hline ▸ hcontent) hnot
    (hline ▸ hok.short)
  refine ⟨rest, ?_, hrest, hflows'⟩
  have hwords : words (statusLine status reason) =
      word "HTTP/1.1" :: statusDigits status :: words (reason ++ crlf) := by
    have hversion : ∀ c ∈ word "HTTP/1.1", isspace c = false := by
      rw [version_eq]
      simp [isspace]
    have hblank : isspace 32 = true := by decide
    rw [statusLine, words_cons (by rw [version_eq]; exact List.cons_ne_nil _ _) hversion hblank,
      words_cons hne hspace hblank]
  rw [readStatus, hread, ← hline]
  dsimp only
  rw [if_neg (by simp [statusLine]), hwords]
  dsimp only
  rw [parseInt_digits hne hdigits (by omega), hvalue]
  dsimp only
  rw [if_neg (by rw [version_eq]; decide), if_pos (by omega), Int.toNat_natCast]

/-- The line of a field, without its end. -/
def fieldLine (f : Field) : Bytes :=
  f.1 ++ colon :: 32 :: f.2

theorem writeField_eq (f : Field) : writeField f = fieldLine f ++ crlf := by
  simp [writeField, fieldLine, colon]

theorem tchar_ne {b c : UInt8} (h : tchar b) (hc : tchar c = false) : b ≠ c := fun hbc => by
  rw [hbc, hc] at h
  exact absurd h (by decide)

theorem visible_of_tchar {b : UInt8} (h : tchar b) : visible b := by
  have hsigns : [33, 35, 36, 37, 38, 39, 42, 43, 45, 46, 94, 95, 96, 124, 126].all visible := by
    decide
  rw [tchar, Bool.or_eq_true, Bool.or_eq_true, Bool.or_eq_true] at h
  rcases h with ((h | h) | h) | h
  · exact visible_of_range h (by decide) (by decide)
  · exact visible_of_range h (by decide) (by decide)
  · exact visible_of_range h (by decide) (by decide)
  · exact List.all_eq_true.1 hsigns b (List.contains_iff_mem.1 h)

theorem FieldOk.not_mem {f : Field} (h : FieldOk f) : 13 ∉ fieldLine f ∧ newline ∉ fieldLine f := by
  have hname : ∀ c, tchar c = false → c ∉ f.1 := fun c hc hmem => tchar_ne (h.name c hmem) hc rfl
  simp only [fieldLine, List.mem_append, List.mem_cons, not_or]
  exact ⟨⟨hname 13 (by decide), by decide, by decide, h.value.1⟩,
    ⟨hname newline (by decide), by decide, by decide, h.value.2⟩⟩

theorem blank_writeField (f : Field) : blank (writeField f) = false := by
  have hlen : 4 ≤ (writeField f).length := by
    simp [writeField, crlf]
    omega
  have hne : ∀ l : Bytes, l.length < 4 → writeField f ≠ l := fun l hl heq => by
    rw [heq] at hlen
    omega
  rw [blank, decide_eq_false (hne crlf (by decide)), decide_eq_false (hne [newline] (by decide)),
    decide_eq_false (hne [] (by decide))]
  rfl

/-- The lines of the fields, up to the empty one. -/
theorem readHeaderLines_fields {more : Bytes} : ∀ {fields : List Field} {room : ℕ} {src : Source},
    (∀ f ∈ fields, FieldOk f) → fields.length ≤ room → src.Flows true →
    src.content = fields.flatMap writeField ++ crlf ++ more →
    ∃ rest, readHeaderLines room src = .ok (fields.map writeField, rest) ∧ rest.content = more ∧
      rest.Flows true
  | [], room, src, _, _, hflows, hcontent => by
    obtain ⟨rest, hread, hrest⟩ := readLine_line (l := []) hflows hcontent List.not_mem_nil
      (by decide)
    refine ⟨rest, ?_, hrest⟩
    rw [readHeaderLines, hread]
    rfl
  | f :: fields, 0, _, _, hroom, _, _ => by simp at hroom
  | f :: fields, room + 1, src, hok, hroom, hflows, hcontent => by
    have hf := hok f (List.mem_cons_self ..)
    have hline : src.content = fieldLine f ++ crlf ++ (fields.flatMap writeField ++ crlf ++ more) := by
      rw [hcontent, List.flatMap_cons, writeField_eq]
      simp only [List.append_assoc]
    obtain ⟨rest, hread, hrest, hflows'⟩ := readLine_line hflows hline hf.not_mem.2
      (writeField_eq f ▸ hf.short)
    obtain ⟨rest', hread', hrest'⟩ := readHeaderLines_fields
      (fun f hf => hok f (List.mem_cons_of_mem _ hf)) (Nat.le_of_succ_le_succ hroom) hflows' hrest
    refine ⟨rest', ?_, hrest'⟩
    rw [readHeaderLines, hread]
    dsimp only
    rw [← writeField_eq, blank_writeField, if_neg Bool.false_ne_true, hread']
    rfl

theorem splitLines_line {l : Bytes} (h13 : 13 ∉ l) (hl : newline ∉ l) (s : Bytes) :
    splitLines (l ++ crlf ++ s) = (l ++ crlf) :: splitLines s := by
  induction l with
  | nil => simp [splitLines, crlf, newline]
  | cons b l ih =>
    have hb13 : b ≠ 13 := fun h => h13 (h ▸ List.mem_cons_self ..)
    have hb : b ≠ newline := fun h => hl (h ▸ List.mem_cons_self ..)
    rw [List.cons_append, List.cons_append, splitLines, decide_eq_false hb, decide_eq_false hb13,
      ih (fun h => h13 (List.mem_cons_of_mem _ h)) fun h => hl (List.mem_cons_of_mem _ h)]
    rfl

theorem splitLines_fields {fields : List Field} (hok : ∀ f ∈ fields, FieldOk f) :
    splitLines (fields.map writeField).flatten = fields.map writeField := by
  induction fields with
  | nil => rfl
  | cons f fields ih =>
    have hf := (hok f (List.mem_cons_self ..)).not_mem
    rw [List.map_cons, List.flatten_cons, writeField_eq, splitLines_line hf.1 hf.2,
      ih fun f hf => hok f (List.mem_cons_of_mem _ hf)]

/-- A field as it is read : without the white space before its value. -/
def parsed (f : Field) : Field :=
  (f.1, f.2.dropWhile ows)

theorem takeWhile_colon {f : Field} (hok : FieldOk f) (s : Bytes) :
    (fieldLine f ++ s).takeWhile (· ≠ colon) = f.1 ∧
      (fieldLine f ++ s).dropWhile (· ≠ colon) = colon :: 32 :: (f.2 ++ s) := by
  have hname : ∀ b ∈ f.1, (decide (b ≠ colon)) = true := fun b hb =>
    decide_eq_true (tchar_ne (hok.name b hb) (by decide))
  rw [fieldLine, List.append_assoc, List.takeWhile_append_of_pos hname,
    List.dropWhile_append_of_pos hname]
  simp

theorem flush_field {f : Field} (hok : FieldOk f) : flush [writeField f] = [parsed f] := by
  obtain ⟨htake, hdrop⟩ := takeWhile_colon hok crlf
  have hvalue : (32 :: (f.2 ++ crlf)).dropWhile ows = f.2.dropWhile ows ++ crlf := by
    rw [List.dropWhile_cons_of_pos (by decide), List.dropWhile_append]
    split_ifs with hempty
    · rw [List.isEmpty_iff.1 hempty]
      rfl
    · rfl
  have hends : ∀ b ∈ f.2.dropWhile ows, (b == 13 || b == newline) = false := fun b hb => by
    have hmem := (List.dropWhile_sublist ows).subset hb
    have h13 : b ≠ 13 := fun h => hok.value.1 (h ▸ hmem)
    have hnl : b ≠ newline := fun h => hok.value.2 (h ▸ hmem)
    simp [h13, hnl]
  rw [flush, writeField_eq, htake, hdrop, List.tail_cons, hvalue, List.flatten_nil, List.append_nil,
    rdropWhile_append hends (by simp [crlf, newline]), parsed]

theorem isHeaderLine_field {f : Field} (hok : FieldOk f) :
    isHeaderLine (writeField f) = true ∧ folded (writeField f) = false ∧
      (word "From ").isPrefixOf (writeField f) = false ∧
      (writeField f).head? ≠ some colon ∧ (writeField f).contains colon = true := by
  obtain ⟨htake, -⟩ := takeWhile_colon hok crlf
  have hvisible : f.1.all visible = true :=
    List.all_eq_true.2 fun b hb => visible_of_tchar (hok.name b hb)
  have hcolon : (writeField f).contains colon = true := by
    simp [writeField, colon]
  have hhead : ∀ c, tchar c = false → (writeField f).head? ≠ some c := fun c hc hhead => by
    obtain ⟨b, name, hname⟩ := List.exists_cons_of_ne_nil hok.ne_nil
    rw [writeField, hname, List.cons_append, List.cons_append, List.cons_append,
      List.head?_cons] at hhead
    exact tchar_ne (hok.name b (hname ▸ List.mem_cons_self ..)) hc (Option.some.inj hhead)
  have hfolded : folded (writeField f) = false := by
    rw [folded, decide_eq_false (hhead 32 (by decide)), decide_eq_false (hhead 9 (by decide))]
    rfl
  have hfrom : (word "From ").isPrefixOf (writeField f) = false := by
    rw [← Bool.not_eq_true, List.isPrefixOf_iff_prefix]
    rintro ⟨t, ht⟩
    -- before its first space a field has its colon, and `From ` has none
    have hname : ∀ b ∈ f.1, (decide (b ≠ 32)) = true := fun b hb =>
      decide_eq_true (tchar_ne (hok.name b hb) (by decide))
    have hfield : (writeField f).takeWhile (· ≠ 32) = f.1 ++ [colon] := by
      rw [writeField_eq, fieldLine, List.append_assoc, List.takeWhile_append_of_pos hname]
      simp [colon]
    have hword : (word "From " ++ t).takeWhile (· ≠ 32) = [70, 114, 111, 109] := by
      rw [show word "From " = [70, 114, 111, 109, 32] by decide]
      simp
    rw [ht, hfield] at hword
    have hlast := congrArg List.getLast? hword
    simp [colon] at hlast
  refine ⟨?_, hfolded, hfrom, hhead colon (by decide), hcolon⟩
  rw [isHeaderLine, hcolon, writeField_eq, htake, hvisible, Bool.and_self, Bool.or_true]

/-- The header block is read as the fields. -/
theorem parseLines_fields {fields : List Field} (hok : ∀ f ∈ fields, FieldOk f) :
    ∀ {last : List Bytes}, parseLines last (fields.map writeField) =
      flush last ++ fields.map parsed := by
  induction fields with
  | nil => intro last; rw [List.map_nil, parseLines, List.map_nil, List.append_nil]
  | cons f fields ih =>
    intro last
    have hf := hok f (List.mem_cons_self ..)
    obtain ⟨hheader, hfolded, hfrom, hcolon, hcontains⟩ := isHeaderLine_field hf
    rw [List.map_cons, parseLines, hheader, hfolded, hfrom, hcontains, decide_eq_false hcolon]
    simp only [Bool.not_true, Bool.false_eq_true, if_false, Bool.or_self]
    rw [ih fun f hf => hok f (List.mem_cons_of_mem _ hf), flush_field hf, List.map_cons]
    rfl

theorem parseHeaderBlock_fields {fields : List Field} (hok : ∀ f ∈ fields, FieldOk f) :
    parseHeaderBlock (fields.map writeField) = fields.map parsed := by
  rw [parseHeaderBlock, splitLines_fields hok, parseLines_fields hok, flush, List.nil_append]

/-- `finalStatus`, without the steps that its end is proved from. -/
theorem finalStatus_eq (src : Source) : finalStatus src =
    (readStatus src).bind fun r =>
      if r.1.2 ≠ 100 then .ok (r.1, r.2)
      else (readHeaderLines maxHeaders r.2).bind fun r' => finalStatus r'.2 := by
  rw [finalStatus]
  split
  · next h => rw [h]; rfl
  · next v rest h =>
    rw [h]
    dsimp only [Except.bind]
    split_ifs
    · rfl
    · split
      · next h' => rw [h']
      · next h' => rw [h']

/-- Interim responses are skipped. -/
theorem finalStatus_head {status : ℕ} {reason : Bytes} {fields : List Field} {more : Bytes}
    (hok : HeadOk status reason fields) (hfinal : status ≠ 100) :
    ∀ {interims : List (Bytes × List Field)} {src : Source},
      (∀ i ∈ interims, HeadOk 100 i.1 i.2) → src.Flows true →
      src.content = interims.flatMap (fun i => headBytes 100 i.1 i.2) ++
        (statusLine status reason ++ more) →
      ∃ rest, finalStatus src = .ok ((word "HTTP/1.1", status), rest) ∧ rest.content = more ∧
        rest.Flows true
  | [], src, _, hflows, hcontent => by
    obtain ⟨rest, hread, hrest⟩ := readStatus_line hflows hcontent hok
    refine ⟨rest, ?_, hrest⟩
    rw [finalStatus_eq, hread]
    exact if_pos hfinal
  | i :: interims, src, hinterims, hflows, hcontent => by
    have hi := hinterims i (List.mem_cons_self ..)
    have hline : src.content = statusLine 100 i.1 ++ (i.2.flatMap writeField ++ crlf ++
        (interims.flatMap (fun i => headBytes 100 i.1 i.2) ++
          (statusLine status reason ++ more))) := by
      rw [hcontent, List.flatMap_cons, headBytes]
      simp only [List.append_assoc]
    obtain ⟨rest, hread, hrest, hflows'⟩ := readStatus_line hflows hline hi
    obtain ⟨rest', hread', hrest', hflows''⟩ :=
      readHeaderLines_fields hi.fields hi.count hflows' hrest
    obtain ⟨rest'', hread'', hrest''⟩ := finalStatus_head hok hfinal
      (fun i hi => hinterims i (List.mem_cons_of_mem _ hi)) hflows'' hrest'
    refine ⟨rest'', ?_, hrest''⟩
    rw [finalStatus_eq, hread]
    dsimp only [Except.bind]
    rw [if_neg (by simp), hread']
    exact hread''

/-- The case of ASCII text. -/
theorem lower_eq {s : Bytes} (h : ∀ b ∈ s, b < 128) : lower s = lowerName s := by
  refine List.map_congr_left fun b hb => ?_
  have hlow : ¬192 ≤ b := fun hhigh => by
    have hlt := h b hb
    rw [UInt8.lt_iff_toNat_lt] at hlt
    rw [UInt8.le_iff_toNat_le] at hhigh
    simp only [UInt8.reduceToNat] at hlt hhigh
    omega
  rw [lowerByte, Http.lowerByte, decide_eq_false hlow, Bool.false_and, Bool.false_and,
    Bool.or_false]

theorem getHeader_parsed {fields : List Field} (hok : ∀ f ∈ fields, FieldOk f) (name : Bytes) :
    getHeader (fields.map parsed) name =
      (valuesOf name fields).head?.map (List.dropWhile ows) := by
  have hlower : ∀ f ∈ fields, lower (parsed f).1 = lowerName f.1 := fun f hf =>
    lower_eq fun b hb => by
      have hvisible := visible_of_tchar ((hok f hf).name b hb)
      rw [visible, Bool.and_eq_true, decide_eq_true_eq, decide_eq_true_eq] at hvisible
      exact UInt8.lt_of_le_of_lt hvisible.2 (by decide)
  have hfind : (fields.find? fun f => lower (parsed f).1 = name) =
      fields.find? fun f => lowerName f.1 = name := by
    induction fields with
    | nil => rfl
    | cons f fields ih =>
      rw [List.find?_cons, List.find?_cons, hlower f (List.mem_cons_self ..),
        ih (fun f hf => hok f (List.mem_cons_of_mem _ hf))
          fun f hf => hlower f (List.mem_cons_of_mem _ hf)]
  rw [getHeader, List.find?_map, valuesOf, List.head?_map, List.head?_filter, Option.map_map,
    Option.map_map]
  exact congrArg (Option.map _) hfind

theorem dropWhile_ows {v : Bytes} (h : ∀ b ∈ v, ows b = false) : v.dropWhile ows = v := by
  rw [List.dropWhile_eq_self_iff]
  intro hpos
  simpa using h _ (List.getElem_mem hpos)

variable {w : Reply}

theorem ows_of_isspace {b : UInt8} (h : isspace b = false) : ows b = false := by
  rw [← Bool.not_eq_true, ows, Bool.or_eq_true, beq_iff_eq, beq_iff_eq]
  rintro (rfl | rfl)
  · exact absurd h (by decide)
  · exact absurd h (by decide)

/-- What the fields say of the body is what the client makes of them. -/
theorem bodyOf_length (hok : w.Ok) {body : Bytes} (hw : w.content = .length body) :
    bodyOf false w.status (w.fields.map parsed) = .length body.length := by
  have hframed := hok.framed
  have hempty := hok.empty
  rw [hw] at hframed hempty
  obtain ⟨hte, v, hcl, hne, hdigits, hvalue, hlt⟩ := hframed
  have hows : ∀ b ∈ v, ows b = false := fun b hb =>
    ows_of_isspace (isspace_hexDigit (hexDigit_of_dec (hdigits b hb)))
  have hlo := hok.head.range.1
  rw [bodyOf, getHeader_parsed hok.head.fields, getHeader_parsed hok.head.fields, hte, hcl,
    List.head?_nil, List.head?_cons, Option.map_none, Option.map_some, dropWhile_ows hows]
  simp only [Option.map_none, reduceCtorEq, if_false, Bool.false_eq_true, or_false]
  by_cases hbodiless : w.status = 204 ∨ w.status = 304 ∨ 100 ≤ w.status ∧ w.status < 200
  · rw [if_pos hbodiless]
    have hnil : body = [] := hempty (by rw [bodiless]; omega)
    rw [hnil]
    rfl
  · rw [if_neg hbodiless, Option.filter_some, if_pos (by simpa using hne), Option.bind_some,
      parseInt_digits hne hdigits (by omega), Option.bind_some, if_pos (by omega), hvalue,
      Int.toNat_natCast]

theorem bodyOf_chunked (hok : w.Ok) {chunks : List Chunk} {size ext : Bytes}
    {trailer : List Bytes} (hw : w.content = .chunked chunks size ext trailer) :
    bodyOf false w.status (w.fields.map parsed) = .chunked none := by
  have hframed := hok.framed
  rw [hw] at hframed
  obtain ⟨⟨v, hte, hv⟩, -⟩ := hframed
  have hlow : ∀ b ∈ v, b < 128 ∧ ows b = false := fun b hb => by
    have hmem : Http.lowerByte b ∈ word "chunked" := hv ▸ List.mem_map_of_mem hb
    have hletters : (word "chunked").all (fun c => c < 128 && !ows c) = true := by decide
    by_cases hupper : (65 ≤ b && b ≤ 90) = true
    · rw [Bool.and_eq_true, decide_eq_true_eq, decide_eq_true_eq] at hupper
      refine ⟨UInt8.lt_of_le_of_lt hupper.2 (by decide), ows_of_isspace ?_⟩
      exact isspace_visible (by
        rw [visible, Bool.and_eq_true, decide_eq_true_eq, decide_eq_true_eq]
        exact ⟨UInt8.le_trans (by decide) hupper.1, UInt8.le_trans hupper.2 (by decide)⟩)
    · rw [Http.lowerByte, if_neg hupper] at hmem
      simpa using List.all_eq_true.1 hletters b hmem
  rw [bodyOf, getHeader_parsed hok.head.fields, hte, List.head?_cons, Option.map_some,
    Option.map_some, dropWhile_ows fun b hb => (hlow b hb).2, lower_eq fun b hb => (hlow b hb).1, hv]
  simp

/-- A response that closes the connection has its length where there is no body. -/
theorem bodyOf_close (hok : w.Ok) {body : Bytes} (hw : w.content = .close body) :
    bodyOf false w.status (w.fields.map parsed) = .close ∨
      (body = [] ∧ bodyOf false w.status (w.fields.map parsed) = .length 0) := by
  have hframed := hok.framed
  have hempty := hok.empty
  rw [hw] at hframed hempty
  obtain ⟨hte, hcl⟩ := hframed
  have hlo := hok.head.range.1
  rw [bodyOf, getHeader_parsed hok.head.fields, getHeader_parsed hok.head.fields, hte, hcl,
    List.head?_nil, Option.map_none, Option.map_none]
  simp only [reduceCtorEq, if_false, Bool.false_eq_true, or_false]
  by_cases hbodiless : w.status = 204 ∨ w.status = 304 ∨ 100 ≤ w.status ∧ w.status < 200
  · rw [if_pos hbodiless]
    exact .inr ⟨hempty (by rw [bodiless]; omega), rfl⟩
  · rw [if_neg hbodiless]
    exact .inl rfl

/-- The head of a response is read back, and its body is to come. -/
theorem getResponse_head (hok : w.Ok) {src : Source} {more : Bytes} (hflows : src.Flows true)
    (hcontent : src.content = w.head ++ more) :
    ∃ rest, getResponse false src = .ok ⟨w.status, w.fields.map parsed, some rest,
      bodyOf false w.status (w.fields.map parsed)⟩ ∧ rest.content = more ∧ rest.Flows true := by
  have hline : src.content = w.interims.flatMap (fun i => headBytes 100 i.1 i.2) ++
      (statusLine w.status w.reason ++ (w.fields.flatMap writeField ++ crlf ++ more)) := by
    rw [hcontent, Reply.head, headBytes]
    simp only [List.append_assoc]
  obtain ⟨rest, hread, hrest, hflows'⟩ :=
    finalStatus_head hok.head hok.final hok.interims hflows hline
  obtain ⟨rest', hread', hrest'⟩ :=
    readHeaderLines_fields hok.head.fields hok.head.count hflows' hrest
  refine ⟨rest', ?_, hrest'⟩
  rw [getResponse, hread]
  dsimp only
  rw [show (word "HTTP/1.").isPrefixOf (word "HTTP/1.1") = true by decide, hread']
  dsimp only
  rw [parseHeaderBlock_fields hok.head.fields]
  rfl

/-! ## A body is relayed -/

/-- One read finds some of what is to come, or its end. -/
theorem fpRead1_spec : ∀ {src : Source} {n : ℕ}, src.Flows true → 0 < n →
    ∃ got rest, fpRead1 n src = .ok (got, rest) ∧ src.content = got ++ rest.content ∧
      rest.Flows true ∧ got.length ≤ n ∧ (got = [] → src.content = [])
  | [], n + 1, hflows, _ => ⟨[], [], rfl, rfl, hflows, Nat.zero_le _, fun _ => rfl⟩
  | .interrupted :: src, n + 1, hflows, hn => by
    have ih := fpRead1_spec hflows.tail hn
    rwa [fpRead1]
  | .failed error :: src, n + 1, hflows, _ => (hflows _ List.mem_cons_self).elim
  | .bytes chunk :: src, n + 1, hflows, _ => by
    have hne : chunk ≠ [] := hflows _ List.mem_cons_self
    refine ⟨chunk.take (n + 1), leave (chunk.drop (n + 1)) src, rfl, ?_,
      flows_leave hflows.tail, List.length_take_le _ _, fun h => ?_⟩
    · show chunk ++ Source.content src = _
      rw [content_leave, ← List.append_assoc, List.take_append_drop]
    · rw [List.take_eq_nil_iff] at h
      exact absurd (h.resolve_left (by omega)) hne

/-- `relay`, without the step that its end is proved from. -/
theorem relay_eq (r : Response) : relay r =
    match read1 65536 r with
    | .error e => ([], .error e)
    | .ok (got, r') =>
      if got = [] then ([], .ok 0)
      else (got :: (relay r').1, (relay r').2.map (got.length + ·)) := by
  rw [relay]
  split
  · next h => rw [h]
  · next h =>
    rw [h]
    dsimp only
    split_ifs <;> rfl

variable {r r' : Response}

theorem relay_end (h : read1 65536 r = .ok ([], r')) : relay r = ([], .ok 0) := by
  rw [relay_eq, h]
  exact if_pos rfl

theorem relay_error {e : HttpError} (h : read1 65536 r = .error e) : relay r = ([], .error e) := by
  rw [relay_eq, h]

theorem relay_got {got : Bytes} (h : read1 65536 r = .ok (got, r')) (hgot : got ≠ []) :
    relay r = (got :: (relay r').1, (relay r').2.map (got.length + ·)) := by
  rw [relay_eq, h]
  exact if_neg hgot

variable {status : ℕ} {headers : List Field}

theorem relay_closed (body : Body) : relay ⟨status, headers, none, body⟩ = ([], .ok 0) :=
  relay_end rfl

variable (status headers) in
/-- A body with a length is relayed up to there. -/
theorem relay_length {n : ℕ} : ∀ {src : Source}, src.Flows true →
    (relay ⟨status, headers, some src, .length n⟩).1.flatten = src.content.take n ∧
      (relay ⟨status, headers, some src, .length n⟩).2 = .ok (src.content.take n).length := by
  induction n using Nat.strong_induction_on with
  | _ n ih =>
    intro src hflows
    rcases Nat.eq_zero_or_pos n with rfl | hn
    · have hread1 : read1 65536 ⟨status, headers, some src, .length 0⟩ =
          .ok ([], ⟨status, headers, none, .length 0⟩) := by
        show (fpRead1 (min 65536 0) src >>= _) = _
        rw [Nat.min_zero, fpRead1]
        rfl
      rw [relay_end hread1, List.take_zero]
      exact ⟨rfl, rfl⟩
    obtain ⟨got, rest, hread, hcontent, hrest, hle, hend⟩ :=
      fpRead1_spec (n := min 65536 n) hflows (by omega)
    by_cases hgot : got = []
    · have hread1 : read1 65536 ⟨status, headers, some src, .length n⟩ =
          .ok ([], ⟨status, headers, none, .length n⟩) := by
        show (fpRead1 (min 65536 n) src >>= _) = _
        rw [hread, hgot]
        exact if_pos (by simpa using hn)
      rw [relay_end hread1, hend hgot, List.take_nil]
      exact ⟨rfl, rfl⟩
    · have hread1 : read1 65536 ⟨status, headers, some src, .length n⟩ =
          .ok (got, ⟨status, headers, if n - got.length = 0 then none else some rest,
            .length (n - got.length)⟩) := by
        show (fpRead1 (min 65536 n) src >>= _) = _
        rw [hread]
        exact if_neg (by simp [hgot])
      have hpos : 0 < got.length := List.length_pos_iff.2 hgot
      have htake : src.content.take n = got ++ rest.content.take (n - got.length) := by
        rw [hcontent, List.take_append, List.take_of_length_le (by omega)]
      rw [relay_got hread1 hgot, htake]
      by_cases hleft : n - got.length = 0
      · rw [if_pos hleft, relay_closed, hleft, List.take_zero, List.append_nil]
        exact ⟨List.append_nil got, rfl⟩
      · rw [if_neg hleft]
        obtain ⟨hdata, hres⟩ := ih (n - got.length) (by omega) hrest
        rw [List.flatten_cons, hdata, hres, List.length_append]
        exact ⟨rfl, rfl⟩

variable (status headers) in
/-- A body without one is relayed up to the end. -/
theorem relay_close {m : ℕ} : ∀ {src : Source}, src.content.length = m → src.Flows true →
    (relay ⟨status, headers, some src, .close⟩).1.flatten = src.content ∧
      (relay ⟨status, headers, some src, .close⟩).2 = .ok src.content.length := by
  induction m using Nat.strong_induction_on with
  | _ m ih =>
    intro src hm hflows
    obtain ⟨got, rest, hread, hcontent, hrest, -, hend⟩ := fpRead1_spec (n := 65536) hflows
      (by decide)
    have hread1 : read1 65536 ⟨status, headers, some src, .close⟩ =
        .ok (got, ⟨status, headers, if got = [] && 0 < 65536 then none else some rest,
          .close⟩) := by
      show (fpRead1 65536 src >>= _) = _
      rw [hread]
      rfl
    by_cases hgot : got = []
    · rw [hgot] at hread1
      rw [relay_end hread1, hend hgot]
      exact ⟨rfl, rfl⟩
    · have hpos : 0 < got.length := List.length_pos_iff.2 hgot
      have hlen : got.length + rest.content.length = m := by
        rw [← hm, hcontent, List.length_append]
      obtain ⟨hdata, hres⟩ := ih rest.content.length (by omega) rfl hrest
      rw [relay_got hread1 hgot, if_neg (by simp [hgot]), List.flatten_cons, hdata, hres, hcontent,
        List.length_append]
      exact ⟨rfl, rfl⟩

/-! ## Chunks -/

theorem map_add (x : Except HttpError ℕ) (a b : ℕ) :
    (x.map (b + ·)).map (a + ·) = x.map (a + b + ·) := by
  cases x with
  | error e => rfl
  | ok n => exact congrArg Except.ok (Nat.add_assoc a b n).symm

/-- One read in a chunk. -/
theorem read1_chunk {n : ℕ} {src : Source} (hn : 0 < n) (hflows : src.Flows true) :
    (src.content = [] ∧ ∃ e, read1 65536 ⟨status, headers, some src, .chunked (some n)⟩ =
      .error e) ∨
    ∃ got rest, got ≠ [] ∧ got.length ≤ n ∧ src.content = got ++ rest.content ∧
      rest.Flows true ∧ read1 65536 ⟨status, headers, some src, .chunked (some n)⟩ =
        .ok (got, ⟨status, headers, some rest, .chunked (some (n - got.length))⟩) := by
  obtain ⟨l, rfl⟩ := Nat.exists_eq_succ_of_ne_zero hn.ne'
  obtain ⟨got, rest, hread, hcontent, hrest, hle, hend⟩ :=
    fpRead1_spec (n := min 65536 (l + 1)) hflows (by omega)
  by_cases hgot : got = []
  · refine .inl ⟨hend hgot, .proto "IncompleteRead", ?_⟩
    show (fpRead1 (min 65536 (l + 1)) src >>= _) = _
    rw [hread]
    exact if_pos hgot
  · refine .inr ⟨got, rest, hgot, by omega, hcontent, hrest, ?_⟩
    show (fpRead1 (min 65536 (l + 1)) src >>= _) = _
    rw [hread]
    exact if_neg hgot

variable (status headers) in
/-- In a chunk whose data are there, they are relayed, up to its end. -/
theorem relay_chunk {n : ℕ} : ∀ {src : Source}, 0 < n → n ≤ src.content.length →
    src.Flows true → ∃ data rest, rest.content = src.content.drop n ∧ rest.Flows true ∧
      data.flatten = src.content.take n ∧
      relay ⟨status, headers, some src, .chunked (some n)⟩ =
        (data ++ (relay ⟨status, headers, some rest, .chunked (some 0)⟩).1,
          (relay ⟨status, headers, some rest, .chunked (some 0)⟩).2.map (n + ·)) := by
  induction n using Nat.strong_induction_on with
  | _ n ih =>
    intro src hn hle hflows
    rcases read1_chunk hn hflows with
      ⟨hnil, -⟩ | ⟨got, rest, hgot, hgotle, hcontent, hrest, hread1⟩
    · rw [hnil] at hle
      exact absurd hle (by simpa using hn.ne')
    have hpos : 0 < got.length := List.length_pos_iff.2 hgot
    rcases hgotle.eq_or_lt with heq | hlt
    · rw [heq, Nat.sub_self] at hread1
      refine ⟨[got], rest, ?_, hrest, ?_, ?_⟩
      · rw [hcontent, ← heq, List.drop_left]
      · rw [hcontent, ← heq, List.take_left]
        exact List.append_nil got
      · rw [relay_got hread1 hgot, heq]
        rfl
    · have hle' : n - got.length ≤ rest.content.length := by
        rw [hcontent, List.length_append] at hle
        omega
      obtain ⟨data, rest', hrest', hflows', hdata, hrelay⟩ :=
        ih (n - got.length) (by omega) (by omega) hle' hrest
      refine ⟨got :: data, rest', ?_, hflows', ?_, ?_⟩
      · rw [hrest', hcontent, List.drop_append, List.drop_of_length_le hlt.le, List.nil_append]
      · rw [List.flatten_cons, hdata, hcontent, List.take_append, List.take_of_length_le hlt.le]
      · rw [relay_got hread1 hgot, hrelay, map_add, Nat.add_sub_cancel' hlt.le]
        rfl

/-- In a chunk that is cut short, the end is an error. -/
theorem relay_chunk_cut {n : ℕ} : ∀ {src : Source}, src.content.length < n → src.Flows true →
    ∃ e, (relay ⟨status, headers, some src, .chunked (some n)⟩).2 = .error e := by
  induction n using Nat.strong_induction_on with
  | _ n ih =>
    intro src hlt hflows
    have hn : 0 < n := by omega
    rcases read1_chunk hn hflows with
      ⟨-, e, hread1⟩ | ⟨got, rest, hgot, hgotle, hcontent, hrest, hread1⟩
    · rw [relay_error hread1]
      exact ⟨e, rfl⟩
    have hpos : 0 < got.length := List.length_pos_iff.2 hgot
    rw [hcontent, List.length_append] at hlt
    obtain ⟨e, hres⟩ := ih (n - got.length) (by omega) (by omega) hrest
    rw [relay_got hread1 hgot, hres]
    exact ⟨e, rfl⟩

/-- Where the line of a size is to come. -/
def Start (left : Option ℕ) (src : Source) (s : Bytes) : Prop :=
  src.Flows true ∧ ((left = none ∧ src.content = s) ∨ (left = some 0 ∧ src.content = crlf ++ s))

variable {left : Option ℕ} {src : Source} {s : Bytes} {body : Body}

variable (status headers) in
/-- The end of the chunk before is skipped. -/
theorem chunkLeft_start (h : Start left src s) :
    ∃ src', src'.content = s ∧ src'.Flows true ∧
      chunkLeft ⟨status, headers, some src, body⟩ left =
        nextSize ⟨status, headers, some src, body⟩ src' := by
  obtain ⟨hflows, ⟨rfl, hcontent⟩ | ⟨rfl, hcontent⟩⟩ := h
  · exact ⟨src, hcontent, hflows, rfl⟩
  · obtain ⟨rest, hread, hrest, hflows'⟩ := readExact_spec src 2 hflows
    rw [hcontent] at hread hrest
    refine ⟨rest, hrest, hflows', ?_⟩
    have hskip : skipCrlf src = .ok rest := by
      rw [skipCrlf, hread]
      rfl
    show (skipCrlf src >>= _) = _
    rw [hskip]
    rfl

/-- Once the next size is known, it is as in the chunk. -/
theorem relay_next {n : ℕ} {src' : Source}
    (h : chunkLeft ⟨status, headers, some src, .chunked left⟩ left =
      .ok (some (n + 1), ⟨status, headers, some src', .chunked (some (n + 1))⟩)) :
    relay ⟨status, headers, some src, .chunked left⟩ =
      relay ⟨status, headers, some src', .chunked (some (n + 1))⟩ := by
  have hread1 : read1 65536 ⟨status, headers, some src, .chunked left⟩ =
      read1 65536 ⟨status, headers, some src', .chunked (some (n + 1))⟩ := by
    show read1Chunked 65536 _ left = read1Chunked 65536 _ (some (n + 1))
    rw [read1Chunked, h]
    rfl
  rw [relay_eq, hread1, ← relay_eq]

theorem relay_last {r' : Response}
    (h : chunkLeft ⟨status, headers, some src, .chunked left⟩ left = .ok (none, r')) :
    relay ⟨status, headers, some src, .chunked left⟩ = ([], .ok 0) := by
  have hread1 : read1 65536 ⟨status, headers, some src, .chunked left⟩ = .ok ([], r') := by
    show read1Chunked 65536 _ left = _
    rw [read1Chunked, h]
    rfl
  exact relay_end hread1

theorem relay_refused {e : HttpError}
    (h : chunkLeft ⟨status, headers, some src, .chunked left⟩ left = .error e) :
    relay ⟨status, headers, some src, .chunked left⟩ = ([], .error e) := by
  refine relay_error ?_
  show read1Chunked 65536 _ left = _
  rw [read1Chunked, h]
  rfl

/-- The digits of a size line, and white space. -/
theorem takeWhile_sizeLine {size ext : Bytes} {n : ℕ} (hok : SizeOk size ext n) :
    ∃ white, (∀ b ∈ white, isspace b) ∧
      (sizeLine size ext).takeWhile (· ≠ 59) = size ++ white := by
  have hdigits : ∀ b ∈ size, decide (b ≠ 59) = true := fun b hb =>
    decide_eq_true fun h => absurd (h ▸ hok.digits b hb) (by decide)
  rw [sizeLine, List.append_assoc, List.takeWhile_append_of_pos hdigits]
  rcases hok.start with hnil | hhead
  · refine ⟨crlf, by simp [crlf, isspace], ?_⟩
    rw [hnil]
    rfl
  · obtain ⟨ext', rfl⟩ := List.head?_eq_some_iff.1 hhead
    exact ⟨[], fun b hb => (List.not_mem_nil hb).elim, by simp⟩

theorem newline_not_mem_size {size ext : Bytes} {n : ℕ} (hok : SizeOk size ext n) :
    newline ∉ size ++ ext := by
  rw [List.mem_append, not_or]
  exact ⟨fun h => absurd (hok.digits _ h) (by decide), hok.oneLine⟩

theorem readSize_line {size ext more : Bytes} {n : ℕ} (hok : SizeOk size ext n)
    (hflows : src.Flows true) (hcontent : src.content = sizeLine size ext ++ more) :
    ∃ rest, readSize src = .ok (n, rest) ∧ rest.content = more ∧ rest.Flows true := by
  obtain ⟨rest, hread, hrest⟩ := readLine_line hflows hcontent (newline_not_mem_size hok) hok.short
  obtain ⟨white, hwhite, htake⟩ := takeWhile_sizeLine hok
  have hrange := hok.range
  refine ⟨rest, ?_, hrest⟩
  rw [readSize, hread]
  dsimp only
  rw [← sizeLine, htake, parseIntHex_digits hok.ne_nil hok.digits (hok.value ▸ hrange) hwhite,
    hok.value]

theorem readTrailer_eq (src : Source) : readTrailer src =
    (readLine src).bind fun r => if blank r.1 then .ok r.2 else readTrailer r.2 := by
  rw [readTrailer]
  split
  · next h => rw [h]; rfl
  · next h => rw [h]; rfl

theorem blank_line {l : Bytes} (hl : l ≠ []) : blank (l ++ crlf) = false := by
  have hlen : 3 ≤ (l ++ crlf).length := by
    have hpos : 0 < l.length := List.length_pos_iff.2 hl
    rw [List.length_append, show crlf.length = 2 from rfl]
    omega
  have hne : ∀ l' : Bytes, l'.length < 3 → l ++ crlf ≠ l' := fun l' hl' heq => by
    rw [heq] at hlen
    omega
  rw [blank, decide_eq_false (hne crlf (by decide)), decide_eq_false (hne [newline] (by decide)),
    decide_eq_false (hne [] (by decide))]
  rfl

/-- A trailer is skipped. -/
theorem readTrailer_lines {more : Bytes} : ∀ {trailer : List Bytes} {src : Source},
    (∀ line ∈ trailer, TrailerOk line) → src.Flows true →
    src.content = trailer.flatMap (· ++ crlf) ++ crlf ++ more →
    ∃ rest, readTrailer src = .ok rest
  | [], src, _, hflows, hcontent => by
    obtain ⟨rest, hread, -⟩ := readLine_line (l := []) hflows hcontent List.not_mem_nil (by decide)
    refine ⟨rest, ?_⟩
    rw [readTrailer_eq, hread]
    rfl
  | line :: trailer, src, hok, hflows, hcontent => by
    have hline := hok line (List.mem_cons_self ..)
    have hfirst : src.content = line ++ crlf ++ (trailer.flatMap (· ++ crlf) ++ crlf ++ more) := by
      rw [hcontent, List.flatMap_cons]
      simp only [List.append_assoc]
    obtain ⟨rest, hread, hrest, hflows'⟩ := readLine_line hflows hfirst hline.oneLine hline.short
    obtain ⟨rest', hread'⟩ := readTrailer_lines
      (fun line h => hok line (List.mem_cons_of_mem _ h)) hflows' hrest
    refine ⟨rest', ?_⟩
    rw [readTrailer_eq, hread]
    dsimp only [Except.bind]
    rw [blank_line hline.ne_nil, if_neg Bool.false_ne_true, hread']

variable (status headers) in
/-- The line of a chunk is read, and then its data are. -/
theorem relay_size {size ext more : Bytes} {n : ℕ} (hok : SizeOk size ext n) (hn : 0 < n)
    (h : Start left src (sizeLine size ext ++ more)) :
    ∃ src', src'.content = more ∧ src'.Flows true ∧
      relay ⟨status, headers, some src, .chunked left⟩ =
        relay ⟨status, headers, some src', .chunked (some n)⟩ := by
  obtain ⟨l, rfl⟩ := Nat.exists_eq_succ_of_ne_zero hn.ne'
  obtain ⟨src₁, hcontent, hflows, hleft⟩ := chunkLeft_start status headers h
  obtain ⟨src₂, hsize, hrest, hflows'⟩ := readSize_line hok hflows hcontent
  refine ⟨src₂, hrest, hflows', relay_next ?_⟩
  rw [hleft, nextSize, hsize]
  rfl

variable (status headers) in
/-- Chunks that are there are relayed. -/
theorem relay_chunks {more : Bytes} : ∀ {chunks : List Chunk} {left : Option ℕ} {src : Source},
    (∀ c ∈ chunks, c.Ok) → Start left src (chunks.flatMap Chunk.bytes ++ more) →
    ∃ data left' src', Start left' src' more ∧ data.flatten = chunks.flatMap Chunk.data ∧
      relay ⟨status, headers, some src, .chunked left⟩ =
        (data ++ (relay ⟨status, headers, some src', .chunked left'⟩).1,
          (relay ⟨status, headers, some src', .chunked left'⟩).2.map
            ((chunks.flatMap Chunk.data).length + ·))
  | [], left, src, _, h => by
    refine ⟨[], left, src, h, rfl, Prod.ext rfl ?_⟩
    show _ = Except.map (0 + ·) _
    rcases (relay ⟨status, headers, some src, .chunked left⟩).2 with e | n
    · rfl
    · exact congrArg Except.ok (Nat.zero_add n).symm
  | c :: chunks, left, src, hok, h => by
    have hc := hok c (List.mem_cons_self ..)
    have hpos : 0 < c.data.length := List.length_pos_iff.2 hc.ne_nil
    rw [List.flatMap_cons, Chunk.bytes, List.append_assoc, List.append_assoc] at h
    obtain ⟨src₁, hcontent, hflows, hrelay⟩ := relay_size status headers
      hc.size hpos h
    obtain ⟨data, src₂, hrest, hflows', hdata, hrelay'⟩ := relay_chunk status headers hpos (by simp [hcontent]) hflows
    have hstart : Start (some 0) src₂ (chunks.flatMap Chunk.bytes ++ more) := by
      refine ⟨hflows', .inr ⟨rfl, ?_⟩⟩
      rw [hrest, hcontent, List.append_assoc, List.drop_left]
    obtain ⟨data', left', src', hstart', hdata', hrelay''⟩ := relay_chunks
      (fun c h => hok c (List.mem_cons_of_mem _ h)) hstart
    refine ⟨data ++ data', left', src', hstart', ?_, ?_⟩
    · rw [List.flatten_append, hdata, hdata', hcontent, List.append_assoc, List.take_left,
        List.flatMap_cons]
    · rw [hrelay, hrelay', hrelay'', map_add, List.flatMap_cons, List.length_append,
        List.append_assoc]

/-- The last chunk ends the body. -/
theorem relay_trailer {size ext more : Bytes} {trailer : List Bytes} (hok : SizeOk size ext 0)
    (htrailer : ∀ line ∈ trailer, TrailerOk line)
    (h : Start left src (sizeLine size ext ++ (trailer.flatMap (· ++ crlf) ++ crlf ++ more))) :
    relay ⟨status, headers, some src, .chunked left⟩ = ([], .ok 0) := by
  obtain ⟨src₁, hcontent, hflows, hleft⟩ := chunkLeft_start status headers h
  obtain ⟨src₂, hsize, hrest, hflows'⟩ := readSize_line hok hflows hcontent
  obtain ⟨rest, htrail⟩ := readTrailer_lines htrailer hflows' hrest
  have hlast : chunkLeft ⟨status, headers, some src, .chunked left⟩ left =
      .ok (none, ⟨status, headers, none, .chunked none⟩) := by
    rw [hleft, nextSize, hsize]
    show (readTrailer src₂ >>= fun _ => _) = _
    rw [htrail]
    rfl
  exact relay_last hlast

variable (status headers) in
/-- A whole body in chunks is relayed. -/
theorem relay_chunked {chunks : List Chunk} {size ext more : Bytes} {trailer : List Bytes}
    (hchunks : ∀ c ∈ chunks, c.Ok) (hok : SizeOk size ext 0)
    (htrailer : ∀ line ∈ trailer, TrailerOk line) (hflows : src.Flows true)
    (hcontent : src.content = (Content.chunked chunks size ext trailer).bytes ++ more) :
    (relay ⟨status, headers, some src, .chunked none⟩).1.flatten = chunks.flatMap Chunk.data ∧
      (relay ⟨status, headers, some src, .chunked none⟩).2 =
        .ok (chunks.flatMap Chunk.data).length := by
  have hstart : Start none src (chunks.flatMap Chunk.bytes ++
      (sizeLine size ext ++ (trailer.flatMap (· ++ crlf) ++ crlf ++ more))) := by
    refine ⟨hflows, .inl ⟨rfl, ?_⟩⟩
    rw [hcontent, Content.bytes]
    simp only [List.append_assoc]
  obtain ⟨data, left', src', hstart', hdata, hrelay⟩ := relay_chunks status headers hchunks hstart
  rw [hrelay, relay_trailer hok htrailer hstart', List.append_nil]
  exact ⟨hdata, rfl⟩

/-! ## Chunks that are cut short -/

theorem le_digitsValue (a t : Bytes) : digitsValue 16 a ≤ digitsValue 16 (a ++ t) := by
  induction t using List.reverseRecOn with
  | nil => rw [List.append_nil]
  | append_singleton t b ih =>
    have hstep : digitsValue 16 (a ++ t ++ [b]) = 16 * digitsValue 16 (a ++ t) + digitVal b := by
      rw [digitsValue, List.foldl_append]
      rfl
    rw [← List.append_assoc, hstep]
    omega

theorem digitsValue_pos {v : Bytes} (h : ∀ b ∈ v, hexDigit b) (hne : ∃ x ∈ v, x ≠ 48) :
    0 < digitsValue 16 v := by
  obtain ⟨x, hx, hzero⟩ := hne
  obtain ⟨a, t, rfl⟩ := List.append_of_mem hx
  have hdigit : 0 < digitVal x := by
    have hhex := h x hx
    simp only [hexDigit, Bool.or_eq_true, Bool.and_eq_true, decide_eq_true_eq,
      UInt8.le_iff_toNat_le] at hhex
    rw [ne_eq, ← UInt8.toNat_inj] at hzero
    rw [digitVal]
    simp only [UInt8.le_iff_toNat_le]
    simp only [UInt8.reduceToNat] at hhex hzero ⊢
    split_ifs <;> omega
  have hstep : digitsValue 16 (a ++ [x]) = 16 * digitsValue 16 a + digitVal x := by
    rw [digitsValue, List.foldl_append]
    rfl
  have hle := le_digitsValue (a ++ [x]) t
  rw [List.append_assoc, List.singleton_append] at hle
  omega

/-- What there is without a newline is a line. -/
theorem readLine_end (hflows : src.Flows true) (hs : newline ∉ src.content)
    (hshort : src.content.length ≤ maxLine) :
    ∃ rest, readLine src = .ok (src.content, rest) ∧ rest.content = [] ∧ rest.Flows true := by
  obtain ⟨rest, hread, hrest, hflows'⟩ := readLineCapped_spec src (maxLine + 1) hflows
  rw [firstLine_of_not_mem hs, List.take_of_length_le (by omega)] at hread hrest
  refine ⟨rest, ?_, ?_, hflows'⟩
  · rw [readLine, hread]
    dsimp only
    rw [if_neg (by omega)]
  · rw [hrest, List.drop_length]

/-- A size line that is cut short is an error unless it says zero. -/
theorem relay_size_cut (h : Start left src s) (hs : newline ∉ s) (hshort : s.length ≤ maxLine)
    (hzero : parseIntHex (s.takeWhile (· ≠ 59)) ≠ some 0) :
    ∃ e, (relay ⟨status, headers, some src, .chunked left⟩).2 = .error e := by
  obtain ⟨src₁, hcontent, hflows, hleft⟩ := chunkLeft_start status headers h
  obtain ⟨src₂, hread, hrest, hflows'⟩ := readLine_end hflows (hcontent ▸ hs)
    (hcontent ▸ hshort)
  rw [hcontent] at hread
  rcases hparse : parseIntHex (s.takeWhile (· ≠ 59)) with _ | n
  · have hsize : readSize src₁ = .error (.proto "IncompleteRead") := by
      rw [readSize, hread]
      dsimp only
      rw [hparse]
    rw [nextSize, hsize] at hleft
    rw [relay_refused (e := .proto "IncompleteRead") hleft]
    exact ⟨_, rfl⟩
  · have hsize : readSize src₁ = .ok (n, src₂) := by
      rw [readSize, hread]
      dsimp only
      rw [hparse]
    obtain ⟨l, rfl⟩ := Nat.exists_eq_succ_of_ne_zero fun hn => hzero (hn ▸ hparse)
    rw [nextSize, hsize] at hleft
    rw [relay_next hleft]
    exact relay_chunk_cut (by rw [hrest]; exact Nat.succ_pos l) hflows'

theorem parseIntHex_pos {v white : Bytes} {n : ℕ} (hne : v ≠ []) (h : ∀ b ∈ v, hexDigit b)
    (hpos : 0 < digitsValue 16 v) (hle : digitsValue 16 v ≤ n) (hn : n < 2 ^ 64)
    (hwhite : ∀ b ∈ white, isspace b) : parseIntHex (v ++ white) ≠ some 0 := by
  rw [parseIntHex_digits hne h (by omega) hwhite]
  exact fun hzero => hpos.ne' (Option.some.inj hzero)

/-- What there is of a size line that is cut short. -/
theorem sizeLine_cut {size ext p t : Bytes} {n : ℕ} (hok : SizeOk size ext n) (hn : 0 < n)
    (hp : p = [] ∨ ∃ x ∈ p, x ≠ 48) (ht : t ≠ []) (hsplit : sizeLine size ext = p ++ t) :
    newline ∉ p ∧ p.length ≤ maxLine ∧ parseIntHex (p.takeWhile (· ≠ 59)) ≠ some 0 := by
  have hshort := hok.short
  have hrange := hok.range
  rw [hsplit, List.length_append] at hshort
  have hbefore : p <+: size ++ (ext ++ [13]) := by
    have hline : sizeLine size ext = (size ++ (ext ++ [13])) ++ [newline] := by
      simp [sizeLine, crlf, newline]
    rcases List.prefix_concat_iff.1 (⟨t, hsplit.symm.trans hline⟩ :
      p <+: (size ++ (ext ++ [13])) ++ [newline]) with hall | hbefore
    · rw [hline, ← hall] at hsplit
      exact absurd (List.self_eq_append_right.1 hsplit) ht
    · exact hbefore
  have hnot : newline ∉ size ++ (ext ++ [13]) := by
    rw [← List.append_assoc, List.mem_append, not_or]
    exact ⟨newline_not_mem_size hok, by decide⟩
  refine ⟨fun hmem => hnot (hbefore.subset hmem), by omega, ?_⟩
  have hsemi : ∀ b ∈ size, decide (b ≠ 59) = true := fun b hb =>
    decide_eq_true fun h => absurd (h ▸ hok.digits b hb) (by decide)
  obtain ⟨r, hr⟩ := hbefore
  rcases List.append_eq_append_iff.1 hr with ⟨u, hu, -⟩ | ⟨u, rfl, hu⟩
  · -- the cut is in the digits
    have hdigits : p <+: size := ⟨u, hu.symm⟩
    rw [List.takeWhile_eq_self_iff.2 fun b hb => hsemi b (hdigits.subset hb)]
    rcases hp with rfl | hne
    · decide
    · have hhex : ∀ b ∈ p, hexDigit b := fun b hb => hok.digits b (hdigits.subset hb)
      have hle := le_digitsValue p u
      rw [← hu, hok.value] at hle
      have hnil : p ≠ [] := hne.elim fun _ hx => List.ne_nil_of_mem hx.1
      have hparse := parseIntHex_pos hnil hhex (digitsValue_pos hhex hne) hle hrange
        fun b (hb : b ∈ []) => (List.not_mem_nil hb).elim
      rwa [List.append_nil] at hparse
  · -- the digits are there
    rw [List.takeWhile_append_of_pos hsemi]
    refine parseIntHex_pos hok.ne_nil hok.digits (hok.value ▸ hn) hok.value.le hrange ?_
    intro b hb
    rcases hok.start with hnil | hhead
    · have hmem : b ∈ ext ++ [13] := by
        rw [hu]
        exact List.mem_append_left _ ((List.takeWhile_sublist _).subset hb)
      rw [hnil, List.nil_append, List.mem_singleton] at hmem
      rw [hmem]
      decide
    · obtain ⟨ext', rfl⟩ := List.head?_eq_some_iff.1 hhead
      cases u with
      | nil => cases hb
      | cons y u =>
        obtain rfl : y = 59 := (List.cons.inj hu).1.symm
        rw [List.takeWhile_cons_of_neg (by decide)] at hb
        cases hb

/-- A chunk that is cut short after its line. -/
theorem relay_data_cut {c : Chunk} (hc : c.Ok) {p : Bytes} (hp : p.length < c.data.length + 2)
    (h : Start left src (sizeLine c.size c.ext ++ p)) :
    ∃ e, (relay ⟨status, headers, some src, .chunked left⟩).2 = .error e := by
  have hpos : 0 < c.data.length := List.length_pos_iff.2 hc.ne_nil
  obtain ⟨src₁, hcontent, hflows, hrelay⟩ := relay_size status headers hc.size hpos h
  rw [hrelay]
  rcases lt_or_ge p.length c.data.length with hlt | hge
  · exact relay_chunk_cut (hcontent ▸ hlt) hflows
  -- the line break after the data is not whole
  obtain ⟨data, src₂, hrest, hflows', -, hrelay'⟩ := relay_chunk status headers hpos (hcontent ▸ hge) hflows
  obtain ⟨rest, hread, -⟩ := readExact_spec src₂ 2 hflows'
  have hskip : skipCrlf src₂ = .error (.proto "IncompleteRead") := by
    rw [skipCrlf, hread]
    dsimp only
    rw [if_pos]
    rw [hrest, hcontent, List.length_take, List.length_drop]
    omega
  have hleft : chunkLeft ⟨status, headers, some src₂, .chunked (some 0)⟩ (some 0) =
      .error (.proto "IncompleteRead") := by
    show (skipCrlf src₂ >>= _) = _
    rw [hskip]
    rfl
  rw [hrelay', relay_refused hleft]
  exact ⟨_, rfl⟩

/-- A chunk that is cut short is an error, unless only zeros of its size are there. -/
theorem relay_cut {c : Chunk} (hc : c.Ok) {p q : Bytes} {b : UInt8}
    (hsplit : c.bytes = p ++ b :: q) (hp : p = [] ∨ ∃ x ∈ p, x ≠ 48) (h : Start left src p) :
    ∃ e, (relay ⟨status, headers, some src, .chunked left⟩).2 = .error e := by
  have hpos : 0 < c.data.length := List.length_pos_iff.2 hc.ne_nil
  rw [Chunk.bytes] at hsplit
  rcases List.append_eq_append_iff.1 hsplit with ⟨mid, rfl, hmid⟩ | ⟨mid, hfirst, hmid⟩
  · have hlen := congrArg List.length hmid
    simp only [List.length_append, List.length_cons, show crlf.length = 2 from rfl] at hlen
    exact relay_data_cut hc (by omega) h
  · cases mid with
    | nil =>
      rw [List.append_nil] at hfirst
      rw [← hfirst, ← List.append_nil (sizeLine c.size c.ext)] at h
      exact relay_data_cut (p := []) hc (Nat.succ_pos _) h
    | cons y mid =>
      obtain ⟨hs, hshort, hzero⟩ := sizeLine_cut hc.size hpos hp (List.cons_ne_nil y mid) hfirst
      exact relay_size_cut h hs hshort hzero

/-! ## Responses are relayed -/

/-- What is relayed of a response : its status, its headers, and this body. -/
def Relays (w : Reply) (src : Source) (body : Bytes) : Prop :=
  let r := exchangeResponse src
  r.events = [(w.status, eventHeaders (w.fields.map parsed))] ∧ r.data.flatten = body ∧
    r.res = .ok (w.status, body.length)

/-- The status and the headers of a response are relayed, and then it is an error. -/
def Fails (w : Reply) (src : Source) : Prop :=
  let r := exchangeResponse src
  r.events = [(w.status, eventHeaders (w.fields.map parsed))] ∧ ∃ e, r.res = .error e

/-- Where chunks are cut short : before the line of a size, or in a chunk unless only zeros of its
size are there. -/
def CutShort (chunks : List Chunk) (part : Bytes) : Prop :=
  ∃ before after p, chunks = before ++ after ∧ part = before.flatMap Chunk.bytes ++ p ∧
    (p = [] ∨ ∃ c rest b q, after = c :: rest ∧ c.bytes = p ++ b :: q ∧ ∃ x ∈ p, x ≠ 48)

theorem exchange_head {w : Reply} (hok : w.Ok) {more : Bytes} (hflows : src.Flows true)
    (hcontent : src.content = w.head ++ more) :
    ∃ rest, rest.content = more ∧ rest.Flows true ∧ exchangeResponse src =
      (let body := relay ⟨w.status, w.fields.map parsed, some rest,
        bodyOf false w.status (w.fields.map parsed)⟩
      ⟨[(w.status, eventHeaders (w.fields.map parsed))], body.1,
        body.2.map fun n => (w.status, n)⟩) := by
  obtain ⟨rest, hread, hrest, hflows'⟩ := getResponse_head hok hflows hcontent
  refine ⟨rest, hrest, hflows', ?_⟩
  rw [exchangeResponse, hread]

theorem relays_whole {w : Reply} (hok : w.Ok) (hflows : src.Flows true) {more : Bytes}
    (hcontent : src.content = w.bytes ++ more) (hcloses : w.content.Closes → more = []) :
    Relays w src w.content.body := by
  rw [Reply.bytes, List.append_assoc] at hcontent
  obtain ⟨rest, hrest, hflows', hexchange⟩ := exchange_head hok hflows hcontent
  rw [Relays, hexchange]
  have hframed := hok.framed
  rcases hw : w.content with body | ⟨chunks, size, ext, trailer⟩ | body
  · obtain ⟨hdata, hres⟩ := relay_length w.status (w.fields.map parsed)
      (n := body.length) hflows'
    rw [hw, Content.bytes] at hrest
    rw [hrest, List.take_left] at hdata hres
    dsimp only
    rw [bodyOf_length hok hw, hdata, hres]
    exact ⟨rfl, rfl, rfl⟩
  · rw [hw] at hframed hrest
    obtain ⟨-, hchunks, hsize, htrailer⟩ := hframed
    obtain ⟨hdata, hres⟩ := relay_chunked w.status (w.fields.map parsed)
      hchunks hsize htrailer hflows' hrest
    dsimp only
    rw [bodyOf_chunked hok hw, hdata, hres]
    exact ⟨rfl, rfl, rfl⟩
  · rw [hw, hcloses (by rw [hw]; trivial), List.append_nil, Content.bytes] at hrest
    dsimp only
    rcases bodyOf_close hok hw with hbody | ⟨hnil, hbody⟩
    · obtain ⟨hdata, hres⟩ := relay_close w.status (w.fields.map parsed)
        rfl hflows'
      rw [hrest] at hdata hres
      rw [hbody, hdata, hres]
      exact ⟨rfl, rfl, rfl⟩
    · obtain ⟨hdata, hres⟩ := relay_length w.status (w.fields.map parsed) (n := 0) hflows'
      rw [List.take_zero] at hdata hres
      rw [hbody, hdata, hres, hnil]
      exact ⟨rfl, rfl, rfl⟩

/-- A body of a length that is cut short ends as if it was whole. -/
theorem relays_length_cut {w : Reply} (hok : w.Ok) (hflows : src.Flows true) {body part : Bytes}
    (hw : w.content = .length body) (hpart : part.length ≤ body.length)
    (hcontent : src.content = w.head ++ part) : Relays w src part := by
  obtain ⟨rest, hrest, hflows', hexchange⟩ := exchange_head hok hflows hcontent
  obtain ⟨hdata, hres⟩ := relay_length w.status (w.fields.map parsed)
    (n := body.length) hflows'
  rw [hrest, List.take_of_length_le hpart] at hdata hres
  rw [Relays, hexchange]
  dsimp only
  rw [bodyOf_length hok hw, hdata, hres]
  exact ⟨rfl, rfl, rfl⟩

/-- Chunks that are cut short end in an error. -/
theorem fails_chunks_cut {w : Reply} (hok : w.Ok) (hflows : src.Flows true)
    {chunks : List Chunk} {size ext : Bytes} {trailer : List Bytes} {part : Bytes}
    (hw : w.content = .chunked chunks size ext trailer) (hcut : CutShort chunks part)
    (hcontent : src.content = w.head ++ part) : Fails w src := by
  obtain ⟨rest, hrest, hflows', hexchange⟩ := exchange_head hok hflows hcontent
  obtain ⟨before, after, p, hchunks, hpart, hcut⟩ := hcut
  have hframed := hok.framed
  rw [hw] at hframed
  have hall : ∀ c ∈ before ++ after, c.Ok := hchunks ▸ hframed.2.1
  rw [hpart] at hrest
  obtain ⟨data, left', src', hstart, -, hrelay⟩ := relay_chunks w.status (w.fields.map parsed) (fun c hc => hall c (List.mem_append_left _ hc))
    ⟨hflows', .inl ⟨rfl, hrest⟩⟩
  have herror : ∃ e, (relay ⟨w.status, w.fields.map parsed, some src', .chunked left'⟩).2 =
      .error e := by
    rcases hcut with hnil | ⟨c, more, b, q, hafter, hsplit, hzeros⟩
    · rw [hnil] at hstart
      exact relay_size_cut hstart List.not_mem_nil (Nat.zero_le _) (by decide)
    · have hc : c.Ok := hall c (by rw [hafter]; simp)
      exact relay_cut hc hsplit (.inr hzeros) hstart
  obtain ⟨e, he⟩ := herror
  rw [Fails, hexchange]
  dsimp only
  rw [bodyOf_chunked hok hw, hrelay, he]
  exact ⟨rfl, e, rfl⟩

/-- Whatever comes, no more is relayed than there was, and all of it is counted. -/
theorem relay_counts {m : ℕ} : ∀ {r : Response}, r.content.length = m →
    (relay r).1.flatten.length ≤ m ∧
      ∀ n, (relay r).2 = .ok n → n = (relay r).1.flatten.length := by
  induction m using Nat.strong_induction_on with
  | _ m ih =>
    intro r hm
    rcases hread : read1 65536 r with e | ⟨got, r'⟩
    · rw [relay_error hread]
      exact ⟨Nat.zero_le _, fun n hn => by cases hn⟩
    by_cases hgot : got = []
    · rw [hgot] at hread
      rw [relay_end hread]
      exact ⟨Nat.zero_le _, fun n hn => by cases hn; rfl⟩
    · have hpos : 0 < got.length := List.length_pos_iff.2 hgot
      have hle := content_read1 hread
      obtain ⟨hdata, hres⟩ := ih r'.content.length (by omega) rfl
      rw [relay_got hread hgot, List.flatten_cons, List.length_append]
      refine ⟨by omega, fun n hn => ?_⟩
      rcases hrest : (relay r').2 with e | k
      · rw [hrest] at hn
        cases hn
      · rw [hrest] at hn
        rw [← hres k hrest]
        exact (Except.ok.inj hn).symm

theorem content_finalStatus {m : ℕ} : ∀ {src rest : Source} {v : Bytes × ℕ},
    src.content.length = m → finalStatus src = .ok (v, rest) →
    rest.content.length ≤ src.content.length := by
  induction m using Nat.strong_induction_on with
  | _ m ih =>
    intro src rest v hm h
    rw [finalStatus_eq] at h
    rcases hstatus : readStatus src with e | ⟨v', rest'⟩
    · rw [hstatus] at h
      cases h
    rw [hstatus] at h
    dsimp only [Except.bind] at h
    have hlt := content_readStatus hstatus
    split_ifs at h
    · cases h
      exact hlt.le
    · rcases hlines : readHeaderLines maxHeaders rest' with e | ⟨lines, rest''⟩
      · rw [hlines] at h
        cases h
      · rw [hlines] at h
        have hle := content_readHeaderLines hlines
        have hrest := ih rest''.content.length (by omega) rfl h
        omega

theorem content_getResponse {head : Bool} {r : Response} (h : getResponse head src = .ok r) :
    r.content.length ≤ src.content.length := by
  rw [getResponse] at h
  rcases hstatus : finalStatus src with e | ⟨⟨version, status⟩, rest⟩
  · rw [hstatus] at h
    cases h
  rw [hstatus] at h
  dsimp only at h
  split_ifs at h
  have hle := content_finalStatus rfl hstatus
  rcases hlines : readHeaderLines maxHeaders rest with e | ⟨lines, rest'⟩
  · rw [hlines] at h
    cases h
  · rw [hlines] at h
    cases h
    exact (content_readHeaderLines hlines).trans hle

theorem exchange_counts (src : Source) : (exchangeResponse src).data.flatten.length ≤
    src.content.length ∧ ∀ st n, (exchangeResponse src).res = .ok (st, n) →
      n = (exchangeResponse src).data.flatten.length ∧
        ∃ headers, (exchangeResponse src).events = [(st, headers)] := by
  rw [exchangeResponse]
  rcases hread : getResponse false src with e | r
  · exact ⟨Nat.zero_le _, fun st n hn => by cases hn⟩
  obtain ⟨hdata, hres⟩ := relay_counts (r := r) rfl
  refine ⟨hdata.trans (content_getResponse hread), fun st n hn => ?_⟩
  dsimp only at hn ⊢
  rcases hrest : (relay r).2 with e | k
  · rw [hrest] at hn
    cases hn
  · rw [hrest] at hn
    obtain ⟨rfl, rfl⟩ := Prod.mk.inj (Except.ok.inj hn)
    exact ⟨hres _ hrest, _, rfl⟩

/-- A response within the limits is relayed as it is, however the reads are split; chunks that are
cut short end in an error, a body of a length that is cut short is relayed up to there. Whatever
comes, it ends, with no more relayed than there was. -/
theorem response_relays :
    (∀ (w : Reply) (src : Source) (more : Bytes), w.Ok → src.Flows true →
      src.content = w.bytes ++ more → (w.content.Closes → more = []) →
      Relays w src w.content.body) ∧
    (∀ (w : Reply) (src : Source) (chunks : List Chunk) (size ext : Bytes)
      (trailer : List Bytes) (part : Bytes), w.Ok → src.Flows true →
      w.content = .chunked chunks size ext trailer → CutShort chunks part →
      src.content = w.head ++ part → Fails w src) ∧
    (∀ (w : Reply) (src : Source) (body part : Bytes), w.Ok → src.Flows true →
      w.content = .length body → part.length ≤ body.length → src.content = w.head ++ part →
      Relays w src part) ∧
    ∀ src : Source, (exchangeResponse src).data.flatten.length ≤ src.content.length ∧
      ∀ st n, (exchangeResponse src).res = .ok (st, n) →
        n = (exchangeResponse src).data.flatten.length ∧
          ∃ headers, (exchangeResponse src).events = [(st, headers)] :=
  ⟨fun _ _ _ hok hflows hcontent hcloses => relays_whole hok hflows hcontent hcloses,
    fun _ _ _ _ _ _ _ hok hflows hw hcut hcontent => fails_chunks_cut hok hflows hw hcut hcontent,
    fun _ _ _ _ hok hflows hw hpart hcontent => relays_length_cut hok hflows hw hpart hcontent,
    exchange_counts⟩

/-- A response with a body of a length. -/
def lengthReply : Reply where
  interims := []
  status := 200
  reason := word "OK"
  fields := [(word "Content-Length", word "5")]
  content := .length (word "hello")

theorem lengthReply_ok : lengthReply.Ok where
  interims i hi := (List.not_mem_nil hi).elim
  head :=
    { range := by decide
      oneLine := by decide
      short := by decide
      count := by decide
      fields := fun f hf => by
        obtain rfl := List.mem_singleton.1 hf
        exact ⟨by decide, List.all_eq_true.1 (by decide), by decide, by decide⟩ }
  final := by decide
  framed := ⟨by decide, word "5", by decide, by decide, List.all_eq_true.1 (by decide), by decide,
    by decide⟩
  empty h := absurd h (by rw [bodiless]; decide)

/-- A response with one chunk, after an interim one. -/
def chunkedReply : Reply where
  interims := [(word "Continue", [])]
  status := 200
  reason := word "OK"
  fields := [(word "Transfer-Encoding", word "Chunked")]
  content := .chunked [⟨word "05", word ";a=b", word "hello"⟩] (word "0") [] [word "Done: yes"]

theorem chunkedReply_ok : chunkedReply.Ok where
  interims i hi := by
    obtain rfl := List.mem_singleton.1 hi
    exact ⟨by decide, by decide, by decide, by decide, fun f hf => (List.not_mem_nil hf).elim⟩
  head :=
    { range := by decide
      oneLine := by decide
      short := by decide
      count := by decide
      fields := fun f hf => by
        obtain rfl := List.mem_singleton.1 hf
        exact ⟨by decide, List.all_eq_true.1 (by decide), by decide, by decide⟩ }
  final := by decide
  framed := by
    refine ⟨⟨word "Chunked", by decide, by decide⟩, fun c hc => ?_, ?_, fun line hline => ?_⟩
    · obtain rfl := List.mem_singleton.1 hc
      exact ⟨⟨by decide, List.all_eq_true.1 (by decide), by decide, by decide, by decide, by decide,
        by decide⟩, by decide⟩
    · exact ⟨by decide, List.all_eq_true.1 (by decide), by decide, by decide, by decide, by decide,
        by decide⟩
    · obtain rfl := List.mem_singleton.1 hline
      exact ⟨by decide, by decide, by decide⟩
  empty h := absurd h (by rw [bodiless]; decide)

theorem flows_chunks (chunks : List Bytes) (h : ∀ c ∈ chunks, c ≠ []) :
    Source.Flows true (chunks.map Read.bytes) := by
  intro r hr
  obtain ⟨c, hc, rfl⟩ := List.mem_map.1 hr
  exact h c hc

/-- Such responses are relayed, and the second ends in an error in the line break of its chunk. -/
theorem replies_relay :
    Relays chunkedReply [.bytes chunkedReply.bytes] (word "hello") ∧
    Fails chunkedReply [.bytes chunkedReply.head, .bytes (word "05;a=b\r\nhello\r")] ∧
    Relays lengthReply [.bytes lengthReply.head, .bytes (word "he")] (word "he") :=
  ⟨response_relays.1 chunkedReply _ [] chunkedReply_ok
      (flows_chunks [chunkedReply.bytes] (by decide)) (by simp [Source.content])
      fun h => h.elim,
    response_relays.2.1 chunkedReply _ _ _ _ _ (word "05;a=b\r\nhello\r") chunkedReply_ok
      (flows_chunks [chunkedReply.head, word "05;a=b\r\nhello\r"] (by decide)) rfl
      ⟨[], _, _, rfl, rfl, .inr ⟨_, [], 10, [], rfl, by decide, 53, by decide, by decide⟩⟩
      (by simp [Source.content]),
    response_relays.2.2.1 lengthReply _ (word "hello") (word "he") lengthReply_ok
      (flows_chunks [lengthReply.head, word "he"] (by decide)) rfl (by decide)
      (by simp [Source.content])⟩

/-- A body of a length that is cut short does not end in an error. -/
theorem short_reply_relayed : ∃ (w : Reply) (src : Source) (body part : Bytes) (b : UInt8)
    (more : Bytes), w.Ok ∧ src.Flows true ∧ w.content = .length body ∧ body = part ++ b :: more ∧
      src.content = w.head ++ part ∧ ¬ Fails w src := by
  have hflows : Source.Flows true [.bytes lengthReply.head, .bytes (word "he")] :=
    flows_chunks [lengthReply.head, word "he"] (by decide)
  refine ⟨lengthReply, _, word "hello", word "he", 108, word "lo", lengthReply_ok, hflows, rfl,
    by decide, by simp [Source.content], fun hfails => ?_⟩
  have hrelays : Relays lengthReply [.bytes lengthReply.head, .bytes (word "he")] (word "he") :=
    relays_length_cut lengthReply_ok hflows rfl (by decide) (by simp [Source.content])
  obtain ⟨-, -, hres⟩ := hrelays
  obtain ⟨-, e, he⟩ := hfails
  rw [hres] at he
  cases he

end Relay

end EngineConsole
