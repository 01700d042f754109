import EngineConsole.HttpMessage
import EngineConsole.StrictArgs
import EngineConsole.Frames
import EngineConsole.DecodedPaths

/-!
# Requests that are forwarded to an engine

What the node sends to an engine on 127.0.0.1 for an `http.request` of the hub : the port, the
method, the path, the headers and the length of the body are checked (`checkRequest`); then the
head is written with a `Host` and a `Content-Length` of the node's own, and the body as it is
uploaded, up to its length (`exchangeRequest`).

The bytes that are sent are those of one request, read as any recipient reads one, up to where
the upload ends : `forwarded_is_checked`.
-/

set_option linter.unusedSectionVars false

namespace EngineConsole

namespace HttpProxy

open Web Wire Http

/-! ## Texts -/

/-- What of Python and Unicode is not fixed here : the case of a text that is not ASCII, white
space outside ASCII, `repr` of a text and of a value that is none. -/
structure Locale where
  lowerUni : Text → Text
  upperUni : Text → Text
  white : Char → Bool
  repr : Text → Text
  reprValue : Value → Text

variable (loc : Locale)

def isAscii (c : Char) : Bool :=
  c.toNat < 128

/-- `to_lowercase`. -/
def Locale.lower (s : Text) : Text :=
  if s.all isAscii then s.map Char.toLower else loc.lowerUni s

/-- `to_uppercase`. -/
def Locale.upper (s : Text) : Text :=
  if s.all isAscii then s.map Char.toUpper else loc.upperUni s

/-- `isspace`. -/
def Locale.isSpace (c : Char) : Bool :=
  if isAscii c then (9 ≤ c.toNat && c.toNat ≤ 13) || (28 ≤ c.toNat && c.toNat ≤ 32)
  else loc.white c

/-- `py::strip`. -/
def Locale.strip (s : Text) : Text :=
  (s.dropWhile loc.isSpace).rdropWhile loc.isSpace

/-- `str_of`. -/
def Locale.strOf (v : Value) : Text :=
  match v with
  | .str s => s
  | v => loc.reprValue v

/-- A refusal : its code and its message. -/
abbrev Refusal := Text × Text

def badArgs (message : Text) : Refusal :=
  ("bad_args", message)

def policyDenied (message : Text) : Refusal :=
  ("policy_denied", message)

/-! ## The checks -/

/-- `PATH_PREFIXES`. -/
def pathPrefixes : List Text :=
  ["/v1/", "/health", "/metrics", "/version", "/api/", "/get_model_info", "/get_server_info",
    "/server_info"]

/-- `HOP_BY_HOP`. -/
def hopByHop : List Text :=
  ["connection", "keep-alive", "proxy-authenticate", "proxy-authorization", "proxy-connection",
    "te", "trailer", "trailers", "transfer-encoding", "upgrade", "host", "content-length",
    "expect"]

def maxBody : ℤ := 2 ^ 30

/-- `INFERENCE_POSTS`. -/
def inferencePosts : List Text :=
  ["/v1/chat/completions", "/v1/completions", "/v1/embeddings", "/api/chat", "/api/generate",
    "/api/embed", "/api/embeddings", "/api/show"]

/-- `INFERENCE_POSTS`, sorted. -/
def inferencePostsSorted : List Text :=
  ["/api/chat", "/api/embed", "/api/embeddings", "/api/generate", "/api/show",
    "/v1/chat/completions", "/v1/completions", "/v1/embeddings"]

/-- A character of a token. -/
def tokenChar (c : Char) : Bool :=
  c.isAlphanum || (ascii "!#$%&'*+.^_`|~-").contains c

/-- `TOKEN`. -/
def isToken (s : Text) : Bool :=
  decide (1 ≤ s.length) && decide (s.length ≤ 128) && s.all tokenChar

/-- `PATH`. -/
def pathOk (s : Text) : Bool :=
  s.head? == some '/' && decide (s.length ≤ 2048) &&
    s.tail.all fun c => 0x21 ≤ c.toNat && c.toNat ≤ 0x7e

/-- `unquote`. -/
def unquote (s : Text) : Text :=
  if '%' ∈ s then utf8Lossy (percentDecode (utf8 s)) else s

/-- What is before the query. -/
def routeOf (path : Text) : Text :=
  path.takeWhile (· ≠ '?')

/-- `check_path`. -/
def checkPath (path : Text) : Except Refusal Text :=
  if !pathOk path || path.contains '#' then
    .error (badArgs
      "the path must start with '/' and hold only printable ASCII (no spaces)")
  else
    let route := routeOf path
    let decoded := unquote route
    if ((decoded.splitOn '/').any fun s => s = ascii "." || s = ascii "..") ||
        decoded.contains '\\' || decoded.any (fun c => c.toNat < 32) then
      .error (badArgs
        "the path may not contain '.' or '..' segments or control characters")
    else if !pathPrefixes.any fun p => p.isPrefixOf route then
      .error (policyDenied ("path " ++ loc.repr (route.take 200) ++
        " is not an engine API path this node forwards (" ++
        (ascii ", ").intercalate pathPrefixes ++ ")"))
    else .ok path

/-- The names that a `Connection` header of the hub lists. -/
def connectionNamed (headers : Obj) : List Text :=
  (headers.filter fun h => loc.lower h.1 = ascii "connection").flatMap fun h =>
    ((loc.strOf h.2).splitOn ',').map fun n => loc.lower (loc.strip n)

/-- A header is not passed on. -/
def dropped (named : List Text) (name : Text) : Bool :=
  hopByHop.contains (loc.lower name) || named.contains (loc.lower name)

/-- The headers that are passed on, one after another. -/
def cleanHeadersFrom (named : List Text) : Obj → Except Refusal (List (Text × Text))
  | [] => .ok []
  | (k, v) :: headers =>
    if dropped loc named k then cleanHeadersFrom named headers
    else if !isToken k then
      .error (badArgs
        ("header name " ++ loc.repr (k.take 60) ++ " is not a valid HTTP token"))
    else if (loc.strOf v).any fun c => c = '\r' || c = '\n' || c = '\x00' then
      .error (badArgs ("header " ++ loc.repr k ++ " has a line break in its value"))
    else (cleanHeadersFrom named headers).map fun out => (k, loc.strOf v) :: out

/-- `clean_headers`. -/
def cleanHeaders (headers : Option Value) : Except Refusal (List (Text × Text)) :=
  match headers with
  | some (.obj hs) => cleanHeadersFrom loc (connectionNamed loc hs) hs
  | _ => .ok []

/-- `int_arg`. -/
def intArg (args : Obj) (key : Text) : Option ℤ :=
  match Wire.get args key with
  | some (.num (.int i)) => if -2 ^ 63 ≤ i ∧ i < 2 ^ 63 then some i else none
  | _ => none

/-- A request that was checked. -/
structure Checked where
  port : ℕ
  method : Text
  path : Text
  headers : List (Text × Text)
  bodyLen : ℕ
deriving DecidableEq

/-- The checks of `request`. `ports refresh` are the ports of engines and gateways. -/
def checkRequest (args : Obj) (ports : Bool → List ℕ) (monitor : Bool) :
    Except Refusal Checked := do
  let port := (intArg args "port").getD 0
  if !(1 ≤ port && port ≤ 65535) then
    throw (badArgs "port must be 1-65535")
  if port.toNat ∉ ports false ∧ port.toNat ∉ ports true then
    throw (policyDenied ("port " ++ decimal port.toNat ++
      " is not an engine endpoint or console gateway on this node"))
  let method := loc.upper (loc.strOf ((Wire.get args "method").getD .null))
  if method ≠ ascii "GET" ∧ method ≠ ascii "POST" then
    throw (policyDenied "only GET and POST are forwarded to engines")
  let path ← checkPath loc (loc.strOf ((Wire.get args "path").getD .null))
  if monitor ∧ method = ascii "POST" ∧ routeOf path ∉ inferencePosts then
    throw (policyDenied
      ("this node is in monitor mode: POST is forwarded only to inference endpoints (" ++
        (ascii ", ").intercalate inferencePostsSorted ++
        "); other engine requests need mode \"manage\" in the node's policy"))
  let headers ← cleanHeaders loc (Wire.get args "headers")
  let bodyLen := (intArg args "body_len").getD 0
  if !(0 ≤ bodyLen && bodyLen ≤ maxBody) then
    throw (badArgs "body_len must be 0 to 1 GiB")
  if bodyLen ≠ 0 ∧ method = ascii "GET" then
    throw (badArgs "a GET request has no body")
  return ⟨port.toNat, method, path, headers, bodyLen.toNat⟩

/-! ## Sending -/

/-- A character of ISO-8859-1. -/
def latin1Byte (c : Char) : UInt8 :=
  if c.toNat ≤ 0xff then UInt8.ofNat c.toNat else 63

/-- `request_head`. -/
def requestHead (method path : Text) (headers : List (Text × Text)) : Bytes :=
  utf8 (method ++ ' ' :: path ++ ascii " HTTP/1.1\r\n") ++
    headers.flatMap (fun h => utf8 h.1 ++ utf8 ": " ++ h.2.map latin1Byte ++ utf8 "\r\n") ++
    utf8 "\r\n"

/-- The headers that are sent. -/
def allHeaders (c : Checked) : List (Text × Text) :=
  (ascii "Host", "127.0.0.1:" ++ decimal c.port) :: c.headers ++
    if c.method = ascii "POST" then [(ascii "Content-Length", decimal c.bodyLen)] else []

/-- What `read_upload` returns, call by call; afterwards, nothing. -/
abbrev Upload := List (Except Refusal Bytes)

/-- The hub sent too much. -/
def moreThan (bodyLen : ℕ) : Refusal :=
  badArgs ("the hub sent more than body_len (" ++ decimal bodyLen ++ ") bytes")

/-- The loop of the body, after `sent` bytes of it : the bytes that are sent, and what is left
of the upload. -/
def sendBody (bodyLen : ℕ) : ℕ → Upload → Bytes × Except Refusal Upload
  | _, [] => ([], .ok [])
  | sent, read :: upload =>
    if bodyLen ≤ sent then ([], .ok (read :: upload))
    else
      match read with
      | .error e => ([], .error e)
      | .ok chunk =>
        if chunk = [] then ([], .ok upload)
        else
          let part := chunk.take (bodyLen - sent)
          if part.length < chunk.length then (part, .error (moreThan bodyLen))
          else
            let r := sendBody bodyLen (sent + part.length) upload
            (part ++ r.1, r.2)

/-- The request half of `exchange` : the bytes that are sent, where the connection takes them
all, and whether the request went out whole. -/
def exchangeRequest (c : Checked) (upload : Upload) : Bytes × Except Refusal Unit :=
  if c.headers.any fun h => h.2.any fun ch => 0xff < ch.toNat then
    ([], .error ("internal", "UnicodeEncodeError"))
  else
    let head := requestHead c.method c.path (allHeaders c)
    let r := sendBody c.bodyLen 0 upload
    (head ++ r.1,
      match r.2 with
      | .error e => .error e
      | .ok rest =>
        if r.1.length ≠ c.bodyLen then
          .error (badArgs ("the hub sent " ++ decimal r.1.length ++ " of body_len " ++
            decimal c.bodyLen ++ " bytes"))
        else if 0 < c.bodyLen then
          match rest with
          | [] => .ok ()
          | .error e :: _ => .error e
          | .ok chunk :: _ => if chunk = [] then .ok () else .error (moreThan c.bodyLen)
        else .ok ())

/-- `request`, up to the response. -/
def request (args : Obj) (ports : Bool → List ℕ) (monitor : Bool) (upload : Upload) :
    Bytes × Except Refusal Unit :=
  match checkRequest loc args ports monitor with
  | .error e => ([], .error e)
  | .ok c => exchangeRequest c upload

/-! ## Bytes of ASCII text -/

theorem ascii_forall (p : Char → Prop) (h : ∀ n : Fin 128, p (Char.ofNat n)) {c : Char}
    (hc : isAscii c) : p c := by
  have hlt : c.toNat < 128 := of_decide_eq_true hc
  have hp := h ⟨c.toNat, hlt⟩
  rwa [Char.ofNat_toNat] at hp

theorem utf8Char_ascii {c : Char} (hc : isAscii c) :
    String.utf8EncodeChar c = [latin1Byte c] := by
  refine ascii_forall (fun c => String.utf8EncodeChar c = [latin1Byte c]) ?_ hc
  decide

theorem utf8_of_ascii : ∀ {s : Text}, s.all isAscii → utf8 s = s.map latin1Byte
  | [], _ => rfl
  | c :: s, h => by
    obtain ⟨hc, hs⟩ := Bool.and_eq_true_iff.1 h
    have ih := utf8_of_ascii (s := s) hs
    rw [utf8, List.flatMap_cons, utf8Char_ascii hc, ← utf8, ih]
    rfl

theorem utf8_injective : Function.Injective utf8 := by
  intro a b h
  have := congrArg fromUtf8 h
  rwa [fromUtf8_utf8, fromUtf8_utf8, Option.some_inj] at this

theorem toLower_ascii {c : Char} (hc : isAscii c) : isAscii c.toLower := by
  refine ascii_forall (fun c => isAscii c.toLower) ?_ hc
  decide

theorem lowerByte_ascii {c : Char} (hc : isAscii c) :
    lowerByte (latin1Byte c) = latin1Byte c.toLower := by
  refine ascii_forall (fun c => lowerByte (latin1Byte c) = latin1Byte c.toLower) ?_ hc
  decide

/-- The name of a header without case, as bytes. -/
theorem lowerName_utf8 {s : Text} (h : s.all isAscii) :
    lowerName (utf8 s) = utf8 (loc.lower s) := by
  have hs := List.all_eq_true.1 h
  have hlow : (s.map Char.toLower).all isAscii := by
    rw [List.all_map, List.all_eq_true]
    exact fun c hc => toLower_ascii (hs c hc)
  rw [Locale.lower, if_pos h, utf8_of_ascii h, utf8_of_ascii hlow, lowerName, List.map_map,
    List.map_map]
  exact List.map_congr_left fun c hc => lowerByte_ascii (hs c hc)

theorem tokenChar_ascii {c : Char} (h : tokenChar c) : isAscii c := by
  have hsigns : (ascii "!#$%&'*+.^_`|~-").all isAscii := by decide
  rw [tokenChar, Bool.or_eq_true] at h
  rcases h with h | h
  · simp only [Char.isAlphanum, Char.isAlpha, Char.isUpper, Char.isLower, Char.isDigit,
      Bool.or_eq_true, Bool.and_eq_true, decide_eq_true_eq, UInt32.le_iff_toNat_le] at h
    have hZ : 'Z'.val.toNat = 90 := rfl
    have hz : 'z'.val.toNat = 122 := rfl
    have h9 : '9'.val.toNat = 57 := rfl
    rw [isAscii, decide_eq_true_eq, Char.toNat]
    omega
  · exact List.all_eq_true.1 hsigns c (List.contains_iff_mem.1 h)

theorem tchar_of_tokenChar {c : Char} (h : tokenChar c) : tchar (latin1Byte c) := by
  have hall : ∀ n : Fin 128, tokenChar (Char.ofNat n) → tchar (latin1Byte (Char.ofNat n)) := by
    decide
  exact ascii_forall (fun c => tokenChar c → tchar (latin1Byte c)) hall (tokenChar_ascii h) h

/-! ## What was checked -/

theorem isToken_iff {s : Text} : isToken s ↔ 1 ≤ s.length ∧ s.length ≤ 128 ∧
    ∀ c ∈ s, tokenChar c := by
  rw [isToken, Bool.and_eq_true, Bool.and_eq_true, decide_eq_true_eq, decide_eq_true_eq,
    List.all_eq_true, and_assoc]

/-- A header that is passed on. -/
structure Passed (named : List Text) (h : Text × Text) : Prop where
  token : isToken h.1
  line : ∀ c ∈ h.2, c ≠ '\r' ∧ c ≠ '\n' ∧ c ≠ '\x00'
  kept : dropped loc named h.1 = false

theorem passed_of_cleanHeadersFrom {named : List Text} : ∀ {hs : Obj} {out : List (Text × Text)},
    cleanHeadersFrom loc named hs = .ok out → ∀ h ∈ out, Passed loc named h
  | [], out, hout => by
    rw [cleanHeadersFrom, Except.ok.injEq] at hout
    simp [← hout]
  | (k, v) :: hs, out, hout => by
    rw [cleanHeadersFrom] at hout
    split_ifs at hout with hdrop htok hline
    · exact passed_of_cleanHeadersFrom hout
    · cases htail : cleanHeadersFrom loc named hs with
      | error e =>
        rw [htail] at hout
        cases hout
      | ok rest =>
        rw [htail, Except.map, Except.ok.injEq] at hout
        subst hout
        intro h hh
        rcases List.mem_cons.1 hh with rfl | hh
        · refine ⟨by simpa using htok, fun c hc => ?_, by simpa using hdrop⟩
          simp only [List.any_eq_true, not_exists, not_and, decide_eq_true_eq,
            Bool.or_eq_true, not_or] at hline
          simpa [and_assoc] using hline c hc
        · exact passed_of_cleanHeadersFrom htail h hh

/-- The headers that are passed on are of the hub. -/
theorem mem_of_cleanHeadersFrom {named : List Text} : ∀ {hs : Obj} {out : List (Text × Text)},
    cleanHeadersFrom loc named hs = .ok out → ∀ h ∈ out, ∃ v, (h.1, v) ∈ hs ∧ h.2 = loc.strOf v
  | [], out, hout => by
    rw [cleanHeadersFrom, Except.ok.injEq] at hout
    simp [← hout]
  | (k, v) :: hs, out, hout => by
    rw [cleanHeadersFrom] at hout
    have htail {rest : List (Text × Text)} (hrest : cleanHeadersFrom loc named hs = .ok rest) :
        ∀ h ∈ rest, ∃ w, (h.1, w) ∈ (k, v) :: hs ∧ h.2 = loc.strOf w := fun h hh => by
      obtain ⟨w, hw, heq⟩ := mem_of_cleanHeadersFrom hrest h hh
      exact ⟨w, List.mem_cons_of_mem _ hw, heq⟩
    split_ifs at hout
    · exact htail hout
    · cases hrest : cleanHeadersFrom loc named hs with
      | error e =>
        rw [hrest] at hout
        cases hout
      | ok rest =>
        rw [hrest, Except.map, Except.ok.injEq] at hout
        subst hout
        intro h hh
        rcases List.mem_cons.1 hh with rfl | hh
        · exact ⟨v, List.mem_cons_self, rfl⟩
        · exact htail hrest h hh

/-- The headers of the hub. -/
def hubHeaders (args : Obj) : Obj :=
  match Wire.get args "headers" with
  | some (.obj hs) => hs
  | _ => []

theorem passed_of_cleanHeaders {args : Obj} {out : List (Text × Text)}
    (h : cleanHeaders loc (Wire.get args "headers") = .ok out) :
    ∀ f ∈ out, Passed loc (connectionNamed loc (hubHeaders args)) f := by
  unfold cleanHeaders at h
  unfold hubHeaders
  split at h
  · exact passed_of_cleanHeadersFrom loc h
  · rw [Except.ok.injEq] at h
    simp [← h]

theorem mem_of_cleanHeaders {args : Obj} {out : List (Text × Text)}
    (h : cleanHeaders loc (Wire.get args "headers") = .ok out) :
    ∀ f ∈ out, ∃ v, (f.1, v) ∈ hubHeaders args ∧ f.2 = loc.strOf v := by
  unfold cleanHeaders at h
  unfold hubHeaders
  split at h
  · exact mem_of_cleanHeadersFrom loc h
  · rw [Except.ok.injEq] at h
    simp [← h]

/-- What `check_path` lets through. -/
theorem checkPath_ok {path out : Text} (h : checkPath loc path = .ok out) :
    out = path ∧ pathOk path ∧ '#' ∉ path ∧ ascii "." ∉ (unquote (routeOf path)).splitOn '/' ∧
      ascii ".." ∉ (unquote (routeOf path)).splitOn '/' ∧
      ∃ p ∈ pathPrefixes, p <+: routeOf path := by
  rw [checkPath] at h
  dsimp only at h
  split_ifs at h with hform hdots hleads
  rw [Except.ok.injEq] at h
  simp only [Bool.or_eq_true, Bool.not_eq_true', not_or, Bool.not_eq_false, List.contains_iff_mem]
    at hform
  simp only [Bool.or_eq_true, not_or, List.any_eq_true, not_exists, not_and,
    decide_eq_true_eq] at hdots
  simp only [Bool.not_eq_true', Bool.not_eq_false, List.any_eq_true, List.isPrefixOf_iff_prefix]
    at hleads
  exact ⟨h.symm, hform.1, hform.2, fun hm => (hdots.1.1 _ hm).1 rfl,
    fun hm => (hdots.1.1 _ hm).2 rfl, hleads⟩

/-- What a request that is let through meets. -/
structure Meets (args : Obj) (monitor : Bool) (c : Checked) : Prop where
  port : intArg args "port" = some (c.port : ℤ)
  method : c.method = loc.upper (loc.strOf ((Wire.get args "method").getD .null))
  get_or_post : c.method = ascii "GET" ∨ c.method = ascii "POST"
  path : checkPath loc (loc.strOf ((Wire.get args "path").getD .null)) = .ok c.path
  inference : monitor → c.method = ascii "POST" → routeOf c.path ∈ inferencePosts
  headers : cleanHeaders loc (Wire.get args "headers") = .ok c.headers
  bodyLen : (intArg args "body_len").getD 0 = (c.bodyLen : ℤ)
  max : c.bodyLen ≤ 2 ^ 30
  no_body : c.method = ascii "GET" → c.bodyLen = 0

theorem meets_of_checkRequest {args : Obj} {ports : Bool → List ℕ} {monitor : Bool} {c : Checked}
    (h : checkRequest loc args ports monitor = .ok c) : Meets loc args monitor c := by
  unfold checkRequest at h
  simp only [bind, Except.bind, pure, Except.pure, throw, throwThe, MonadExceptOf.throw] at h
  cases hpath : checkPath loc (loc.strOf ((Wire.get args "path").getD .null)) with
  | error e =>
    rw [hpath] at h
    dsimp only at h
    split_ifs at h
  | ok path =>
    cases hheaders : cleanHeaders loc (Wire.get args "headers") with
    | error e =>
      rw [hpath, hheaders] at h
      dsimp only at h
      split_ifs at h
    | ok headers =>
      rw [hpath, hheaders] at h
      dsimp only at h
      split_ifs at h with hport hports hmethod hinf hlen hget
      rw [Except.ok.injEq] at h
      subst h
      simp only [Bool.not_eq_true', Bool.not_eq_false, Bool.and_eq_true, decide_eq_true_eq]
        at hport hlen
      have hport' : intArg args "port" = some ((intArg args "port").getD 0) := by
        cases hp : intArg args "port" with
        | none =>
          rw [hp] at hport
          exact absurd hport.1 (by decide)
        | some i => rfl
      exact {
        port := by rw [Int.toNat_of_nonneg (by omega), ← hport']
        method := rfl
        get_or_post := by tauto
        path := hpath
        inference := fun hm hpost => by tauto
        headers := hheaders
        bodyLen := (Int.toNat_of_nonneg hlen.1).symm
        max := by
          have hmax : maxBody = 1073741824 := rfl
          dsimp only
          omega
        no_body := fun hg => by
          have hzero : (intArg args "body_len").getD 0 = 0 := by tauto
          rw [hzero]
          rfl }

/-! ## The bytes that are sent -/

/-- What is uploaded : the reads up to one that fails or is empty. -/
def uploaded : Upload → Bytes
  | [] => []
  | .error _ :: _ => []
  | .ok chunk :: upload => if chunk = [] then [] else chunk ++ uploaded upload

/-- The loop sends what is uploaded, up to the length of the body. -/
theorem sendBody_bytes (n : ℕ) : ∀ (upload : Upload) (sent : ℕ),
    (sendBody n sent upload).1 = (uploaded upload).take (n - sent)
  | [], sent => by simp [sendBody, uploaded]
  | .error e :: upload, sent => by
    rw [sendBody]
    split_ifs <;> simp [uploaded]
  | .ok chunk :: upload, sent => by
    rw [sendBody, uploaded]
    by_cases hsent : n ≤ sent
    · rw [if_pos hsent, Nat.sub_eq_zero_of_le hsent, List.take_zero]
    · rw [if_neg hsent]
      by_cases hchunk : chunk = []
      · simp [hchunk]
      · dsimp only
        rw [if_neg hchunk, if_neg hchunk, List.length_take, List.take_append]
        by_cases hmore : min (n - sent) chunk.length < chunk.length
        · have hle : n - sent - chunk.length = 0 := by omega
          rw [if_pos hmore, hle, List.take_zero, List.append_nil]
        · have hle : min (n - sent) chunk.length = chunk.length := by omega
          rw [if_neg hmore, sendBody_bytes n upload, hle, Nat.sub_add_eq]

/-- What an exchange sends. -/
theorem exchangeRequest_bytes (c : Checked) (upload : Upload) : (exchangeRequest c upload).1 =
    if c.headers.any fun h => h.2.any fun ch => 0xff < ch.toNat then []
    else requestHead c.method c.path (allHeaders c) ++ (uploaded upload).take c.bodyLen := by
  unfold exchangeRequest
  by_cases hwide : c.headers.any fun h => h.2.any fun ch => 0xff < ch.toNat
  · rw [if_pos hwide, if_pos hwide]
  · rw [if_neg hwide, if_neg hwide]
    dsimp only
    rw [sendBody_bytes, Nat.sub_zero]

/-- The fields of a request, as bytes. -/
def fieldsOf (c : Checked) : List Field :=
  (allHeaders c).map fun h => (utf8 h.1, h.2.map latin1Byte)

theorem utf8_httpVersion : utf8 (ascii " HTTP/1.1\r\n") = 32 :: version ++ crlf := by
  decide

theorem utf8_colon : utf8 (ascii ": ") = [58, 32] := by
  decide

theorem utf8_crlf : utf8 (ascii "\r\n") = crlf := by
  decide

theorem utf8_cons (c : Char) (s : Text) : utf8 (c :: s) = String.utf8EncodeChar c ++ utf8 s :=
  List.flatMap_cons

/-- The head is written as one of a request. -/
theorem requestHead_eq (c : Checked) : requestHead c.method c.path (allHeaders c) =
    writeHead (utf8 c.method) (utf8 c.path) (fieldsOf c) := by
  have hspace : String.utf8EncodeChar ' ' = [32] := by decide
  rw [requestHead, writeHead, fieldsOf, List.flatMap_map, utf8_crlf, utf8_colon, utf8_append,
    utf8_append, utf8_cons, hspace, utf8_httpVersion]
  simp only [writeField, List.append_assoc, List.cons_append, List.nil_append]

theorem toNat_latin1Byte {c : Char} (h : c.toNat ≤ 0xff) : (latin1Byte c).toNat = c.toNat := by
  rw [latin1Byte, if_pos h]
  exact UInt8.toNat_ofNat_of_lt (show c.toNat < 256 by omega)

theorem latin1Byte_ne {c d : Char} (hc : c.toNat ≤ 0xff) (hd : d.toNat ≤ 0xff) (h : c ≠ d) :
    latin1Byte c ≠ latin1Byte d := fun heq => by
  have hnat := congrArg UInt8.toNat heq
  rw [toNat_latin1Byte hc, toNat_latin1Byte hd] at hnat
  exact h (Char.toNat_inj.1 hnat)

/-- A text of digits and dots and colons. -/
def plain (c : Char) : Bool :=
  c.isDigit || c = '.' || c = ':'

theorem plain_ascii {c : Char} (h : plain c) : isAscii c := by
  rw [plain, Bool.or_eq_true, Bool.or_eq_true, decide_eq_true_eq, decide_eq_true_eq] at h
  rcases h with (h | rfl) | rfl
  · exact tokenChar_ascii (by simp [tokenChar, Char.isAlphanum, h])
  · decide
  · decide

theorem plain_byte {c : Char} (h : plain c) :
    Grammar.strict.value (latin1Byte c) ∧ Grammar.tolerant.value (latin1Byte c) ∧
      ows (latin1Byte c) = false := by
  have hall : ∀ n : Fin 128, plain (Char.ofNat n) →
      Grammar.strict.value (latin1Byte (Char.ofNat n)) ∧
      Grammar.tolerant.value (latin1Byte (Char.ofNat n)) ∧
      ows (latin1Byte (Char.ofNat n)) = false := by decide
  exact ascii_forall (fun c => plain c → Grammar.strict.value (latin1Byte c) ∧
    Grammar.tolerant.value (latin1Byte c) ∧ ows (latin1Byte c) = false) hall (plain_ascii h) h

theorem decimal_plain (n : ℕ) : ∀ c ∈ decimal n, plain c := by
  intro c hc
  have := Nat.isDigit_of_mem_toDigits (by omega) (by omega) hc
  simp [plain, this]

theorem address_plain (port : ℕ) : ∀ c ∈ ascii "127.0.0.1:" ++ decimal port, plain c := by
  have hip : (ascii "127.0.0.1:").all plain := by decide
  intro c hc
  rcases List.mem_append.1 hc with hc | hc
  · exact List.all_eq_true.1 hip c hc
  · exact decimal_plain port c hc

theorem trimOws_eq {s : Bytes} (h : ∀ b ∈ s, ows b = false) : trimOws s = s := by
  have hdrop : s.dropWhile ows = s := by
    cases s with
    | nil => rfl
    | cons b s => exact List.dropWhile_cons_of_neg (by simp [h b List.mem_cons_self])
  rw [trimOws, hdrop]
  exact List.rdropWhile_eq_self_iff.2 fun hne => by simp [h _ (List.getLast_mem hne)]

theorem trimOws_plain {s : Text} (h : ∀ c ∈ s, plain c) :
    trimOws (s.map latin1Byte) = utf8 s := by
  rw [trimOws_eq, utf8_of_ascii (List.all_eq_true.2 fun c hc => plain_ascii (h c hc))]
  intro b hb
  obtain ⟨c, hc, rfl⟩ := List.mem_map.1 hb
  exact (plain_byte (h c hc)).2.2

/-- The length that is written is read. -/
theorem parseDec_decimal (n : ℕ) : parseDec (utf8 (decimal n)) = some n := by
  have hdigit : ∀ c ∈ decimal n, c.isDigit := fun c hc =>
    Nat.isDigit_of_mem_toDigits (by omega) (by omega) hc
  have hascii : ∀ c ∈ decimal n, isAscii c := fun c hc => plain_ascii (decimal_plain n c hc)
  have hne : decimal n ≠ [] := Nat.toDigits_ne_nil
  rw [utf8_of_ascii (List.all_eq_true.2 hascii), parseDec, if_pos]
  · rw [List.foldl_map, Option.some_inj]
    calc (decimal n).foldl (fun m c => 10 * m + ((latin1Byte c).toNat - 48)) 0
        = (decimal n).foldl (fun m c => 10 * m + (c.toNat - '0'.toNat)) 0 := by
          refine List.foldl_ext _ _ _ fun m c hc => ?_
          have := of_decide_eq_true (hascii c hc)
          rw [toNat_latin1Byte (by omega)]
          rfl
      _ = n := Nat.ofDigitChars_ten_toDigits
  · refine ⟨by simpa using hne, List.all_eq_true.2 fun b hb => ?_⟩
    obtain ⟨c, hc, rfl⟩ := List.mem_map.1 hb
    have hall : ∀ n : Fin 128, (Char.ofNat n).isDigit →
        (48 ≤ latin1Byte (Char.ofNat n) && latin1Byte (Char.ofNat n) ≤ 57) := by decide
    exact ascii_forall (fun c => c.isDigit → (48 ≤ latin1Byte c && latin1Byte c ≤ 57)) hall
      (hascii c hc) (hdigit c hc)

/-! ## The fields -/

theorem ascii_of_isToken {s : Text} (h : isToken s) : s.all isAscii :=
  List.all_eq_true.2 fun c hc => tokenChar_ascii ((isToken_iff.1 h).2.2 c hc)

/-- A header that is passed on is a field, where the grammar takes its value. -/
theorem field_ok {g : Grammar} {named : List Text} {h : Text × Text} (hp : Passed loc named h)
    (hval : ∀ c ∈ h.2, g.value (latin1Byte c)) :
    Field.Ok g (utf8 h.1, h.2.map latin1Byte) where
  ne_nil := by
    rw [utf8_of_ascii (ascii_of_isToken hp.token), Ne, List.map_eq_nil_iff]
    intro hnil
    have := (isToken_iff.1 hp.token).1
    simp [hnil] at this
  name b hb := by
    rw [utf8_of_ascii (ascii_of_isToken hp.token)] at hb
    obtain ⟨c, hc, rfl⟩ := List.mem_map.1 hb
    exact tchar_of_tokenChar ((isToken_iff.1 hp.token).2.2 c hc)
  value b hb := by
    obtain ⟨c, hc, rfl⟩ := List.mem_map.1 hb
    exact hval c hc

theorem tolerant_of_passed {named : List Text} {h : Text × Text} (hp : Passed loc named h)
    (hval : ∀ c ∈ h.2, c.toNat ≤ 0xff) :
    ∀ c ∈ h.2, Grammar.tolerant.value (latin1Byte c) := by
  intro c hc
  obtain ⟨hr, hn, hz⟩ := hp.line c hc
  have hc' := hval c hc
  have h13 : latin1Byte c ≠ latin1Byte '\r' := latin1Byte_ne hc' (by decide) hr
  have h10 : latin1Byte c ≠ latin1Byte '\n' := latin1Byte_ne hc' (by decide) hn
  have h0 : latin1Byte c ≠ latin1Byte '\x00' := latin1Byte_ne hc' (by decide) hz
  simp only [Grammar.tolerant, Bool.and_eq_true, bne_iff_ne]
  exact ⟨⟨h13, h10⟩, h0⟩

/-- The fields of a request, as they are read. -/
def sentFields (c : Checked) : List Field :=
  (fieldsOf c).map fun f => (f.1, trimOws f.2)

/-- A field, as it is read. -/
def readField (h : Text × Text) : Field :=
  (utf8 h.1, trimOws (h.2.map latin1Byte))

theorem sentFields_eq (c : Checked) : sentFields c =
    (utf8 (ascii "Host"), utf8 (ascii "127.0.0.1:" ++ decimal c.port)) ::
      (c.headers.map readField ++
        if c.method = ascii "POST" then
          [(utf8 (ascii "Content-Length"), utf8 (decimal c.bodyLen))] else []) := by
  rw [sentFields, fieldsOf, allHeaders, List.map_map, List.cons_append, List.map_cons,
    List.map_append]
  have hhost := trimOws_plain (address_plain c.port)
  have hlen := trimOws_plain (decimal_plain c.bodyLen)
  congr 1
  · exact Prod.ext rfl hhost
  · congr 1
    split_ifs
    · exact congrArg (fun v => [(utf8 (ascii "Content-Length"), v)]) hlen
    · rfl

/-- The name of a header that is passed on. -/
theorem lowerName_passed {named : List Text} {h : Text × Text} (hp : Passed loc named h) :
    lowerName (readField h).1 = utf8 (loc.lower h.1) ∧ loc.lower h.1 ∉ hopByHop ∧
      loc.lower h.1 ∉ named := by
  have hkept := hp.kept
  rw [dropped, Bool.or_eq_false_iff] at hkept
  exact ⟨lowerName_utf8 loc (ascii_of_isToken hp.token), by simpa using hkept.1,
    by simpa using hkept.2⟩

theorem lowerName_host : lowerName (utf8 (ascii "Host")) = utf8 (ascii "host") := by
  decide

theorem lowerName_contentLength :
    lowerName (utf8 (ascii "Content-Length")) = utf8 (ascii "content-length") := by
  decide

theorem valuesOf_cons (name : Bytes) (f : Field) (fields : List Field) :
    valuesOf name (f :: fields) =
      (if lowerName f.1 = name then [f.2] else []) ++ valuesOf name fields := by
  rw [valuesOf, List.filter_cons]
  by_cases h : lowerName f.1 = name
  · simp [h, valuesOf]
  · simp [h, valuesOf]

theorem valuesOf_append (name : Bytes) (fields fields' : List Field) :
    valuesOf name (fields ++ fields') = valuesOf name fields ++ valuesOf name fields' := by
  rw [valuesOf, List.filter_append, List.map_append]
  rfl

/-- Of the names that the hub may not set, the request has the `Host` and the `Content-Length`
of the node. -/
theorem valuesOf_sentFields {named : List Text} {c : Checked}
    (hp : ∀ h ∈ c.headers, Passed loc named h) (name : Text) (hn : name ∈ hopByHop) :
    valuesOf (utf8 name) (sentFields c) =
      (if ascii "host" = name then [utf8 (ascii "127.0.0.1:" ++ decimal c.port)] else []) ++
        (if c.method = ascii "POST" ∧ ascii "content-length" = name then
          [utf8 (decimal c.bodyLen)] else []) := by
  have hmiddle : valuesOf (utf8 name) (c.headers.map readField) = [] := by
    rw [valuesOf, List.map_eq_nil_iff, List.filter_eq_nil_iff]
    intro f hf heq
    obtain ⟨h, hh, rfl⟩ := List.mem_map.1 hf
    obtain ⟨hname, hhop, -⟩ := lowerName_passed loc (hp h hh)
    rw [decide_eq_true_eq, hname] at heq
    exact hhop (utf8_injective heq ▸ hn)
  rw [sentFields_eq, valuesOf_cons, valuesOf_append, hmiddle, List.nil_append]
  dsimp only
  rw [lowerName_host]
  congr 1
  · simp only [utf8_injective.eq_iff]
  · by_cases hpost : c.method = ascii "POST"
    · rw [if_pos hpost, valuesOf_cons]
      dsimp only
      rw [lowerName_contentLength]
      simp only [utf8_injective.eq_iff, hpost, true_and]
      rw [valuesOf, List.filter_nil, List.map_nil, List.append_nil]
    · rw [if_neg hpost, if_neg fun h => hpost h.1]
      rfl

theorem framing_sentFields {args : Obj} {monitor : Bool} {c : Checked}
    (hc : Meets loc args monitor c) : framing (sentFields c) = some c.bodyLen := by
  have hp := passed_of_cleanHeaders loc hc.headers
  have hte : valuesOf transferEncoding (sentFields c) = [] := by
    have h := valuesOf_sentFields loc hp (ascii "transfer-encoding") (by decide)
    rw [if_neg (by decide), if_neg fun h => absurd h.2 (by decide)] at h
    exact h
  have hcl : valuesOf contentLength (sentFields c) =
      if c.method = ascii "POST" then [utf8 (decimal c.bodyLen)] else [] := by
    have h := valuesOf_sentFields loc hp (ascii "content-length") (by decide)
    rw [if_neg (by decide), List.nil_append] at h
    simp only [and_true] at h
    exact h
  rw [framing, if_neg (not_not.2 hte), hcl]
  rcases hc.get_or_post with hget | hpost
  · have hne : c.method ≠ ascii "POST" := by
      rw [hget]
      decide
    rw [if_neg hne, hc.no_body hget]
  · rw [if_pos hpost]
    exact parseDec_decimal c.bodyLen

theorem fields_ok {g : Grammar} {named : List Text} {c : Checked}
    (hplain : ∀ ch, plain ch → g.value (latin1Byte ch))
    (hp : ∀ h ∈ c.headers, Passed loc named h)
    (hval : ∀ h ∈ c.headers, ∀ ch ∈ h.2, g.value (latin1Byte ch)) :
    ∀ f ∈ fieldsOf c, Field.Ok g f := by
  have hown (name value : Text) (hname : utf8 name ≠ []) (hname' : (utf8 name).all tchar)
      (hv : ∀ ch ∈ value, plain ch) : Field.Ok g (utf8 name, value.map latin1Byte) := by
    refine ⟨hname, List.all_eq_true.1 hname', fun b hb => ?_⟩
    obtain ⟨ch, hch, rfl⟩ := List.mem_map.1 hb
    exact hplain ch (hv ch hch)
  intro f hf
  obtain ⟨h, hh, rfl⟩ := List.mem_map.1 hf
  rw [allHeaders, List.cons_append, List.mem_cons, List.mem_append] at hh
  rcases hh with rfl | hh | hh
  · exact hown (ascii "Host") _ (by decide) (by decide) (address_plain c.port)
  · exact field_ok loc (hp h hh) (hval h hh)
  · split_ifs at hh
    · obtain rfl := List.mem_singleton.1 hh
      exact hown (ascii "Content-Length") _ (by decide) (by decide) (decimal_plain c.bodyLen)
    · simp at hh

/-- The text of a request whose body is `body`. -/
def textOf (c : Checked) (body : Bytes) : Bytes :=
  requestHead c.method c.path (allHeaders c) ++ body

/-- The request that is read from it. -/
def readBack (c : Checked) (body : Bytes) : Http.Request :=
  ⟨utf8 c.method, utf8 c.path, sentFields c, body⟩

/-- What a method is. -/
theorem method_ok {args : Obj} {monitor : Bool} {c : Checked} (hc : Meets loc args monitor c) :
    utf8 c.method ≠ [] ∧ ∀ b ∈ utf8 c.method, tchar b := by
  rcases hc.get_or_post with h | h
  · rw [h]
    exact ⟨by decide, List.all_eq_true.1 (by decide)⟩
  · rw [h]
    exact ⟨by decide, List.all_eq_true.1 (by decide)⟩

/-- The text is read as the request, by a grammar that takes its target and its values. -/
theorem parseRequest_textOf {g : Grammar} (hg : g.Ok) {args : Obj} {monitor : Bool} {c : Checked}
    {body : Bytes} (hc : Meets loc args monitor c) (ht : g.target (utf8 c.path))
    (hf : ∀ f ∈ fieldsOf c, Field.Ok g f) (hbody : body.length = c.bodyLen) :
    parseRequest g (textOf c body) = some (readBack c body, []) := by
  have hframing := framing_sentFields loc hc
  rw [← hbody] at hframing
  rw [textOf, requestHead_eq]
  exact parseRequest_written hg (method_ok loc hc).1 (method_ok loc hc).2 ht hf hframing

/-! ## The path -/

theorem pathOk_iff {s : Text} : pathOk s ↔ s.head? = some '/' ∧ s.length ≤ 2048 ∧
    ∀ c ∈ s, 0x21 ≤ c.toNat ∧ c.toNat ≤ 0x7e := by
  cases s with
  | nil => simp [pathOk]
  | cons a s =>
    simp only [pathOk, List.head?_cons, List.tail_cons, Bool.and_eq_true, beq_iff_eq,
      Option.some_inj, decide_eq_true_eq, List.all_eq_true, List.forall_mem_cons, and_assoc]
    constructor
    · rintro ⟨rfl, h, hs⟩
      exact ⟨rfl, h, by decide, by decide, hs⟩
    · rintro ⟨rfl, h, -, -, hs⟩
      exact ⟨rfl, h, hs⟩

theorem ascii_of_pathOk {s : Text} (h : pathOk s) : s.all isAscii := by
  refine List.all_eq_true.2 fun c hc => decide_eq_true ?_
  have := ((pathOk_iff.1 h).2.2 c hc).2
  omega

theorem target_of_pathOk {s : Text} (h : pathOk s) : Grammar.tolerant.target (utf8 s) := by
  have hchars := (pathOk_iff.1 h).2.2
  rw [utf8_of_ascii (ascii_of_pathOk h)]
  simp only [Grammar.tolerant, Bool.and_eq_true, bne_iff_ne, Ne, List.map_eq_nil_iff,
    List.all_map, List.all_eq_true]
  constructor
  · rintro rfl
    exact absurd (pathOk_iff.1 h).1 (by decide)
  · intro c hc
    obtain ⟨hlo, hhi⟩ := hchars c hc
    have hnat := toNat_latin1Byte (c := c) (by omega)
    simp only [Function.comp_apply, visible, Bool.and_eq_true, decide_eq_true_eq,
      UInt8.le_iff_toNat_le, hnat]
    exact ⟨hlo, hhi⟩

/-- What is before the query, of a target. -/
def routeBytes (target : Bytes) : Bytes :=
  target.takeWhile (· != 63)

theorem takeWhile_latin1 : ∀ {s : Text}, s.all isAscii →
    (s.map latin1Byte).takeWhile (· != 63) = (s.takeWhile (· ≠ '?')).map latin1Byte
  | [], _ => rfl
  | c :: s, h => by
    obtain ⟨hc, hs⟩ := Bool.and_eq_true_iff.1 h
    have ih := takeWhile_latin1 (s := s) hs
    have hc' : c.toNat < 128 := of_decide_eq_true hc
    by_cases hq : c = '?'
    · subst hq
      rfl
    · have hne : latin1Byte c ≠ latin1Byte '?' := latin1Byte_ne (by omega) (by decide) hq
      have h63 : (latin1Byte c != 63) = true := bne_iff_ne.2 hne
      rw [List.map_cons, List.takeWhile_cons, if_pos h63, ih, List.takeWhile_cons,
        if_pos (decide_eq_true hq), List.map_cons]

theorem all_routeOf {p : Char → Bool} {s : Text} (h : s.all p) : (routeOf s).all p := by
  refine List.all_eq_true.2 fun c hc => List.all_eq_true.1 h c ?_
  exact (List.takeWhile_prefix _).subset hc

/-- The route of a path, as bytes. -/
theorem routeBytes_utf8 {s : Text} (h : s.all isAscii) :
    routeBytes (utf8 s) = utf8 (routeOf s) := by
  rw [utf8_of_ascii h, routeBytes, takeWhile_latin1 h, utf8_of_ascii (all_routeOf h), routeOf]

theorem percent_not_mem {s : Text} (h : s.all isAscii) (hs : '%' ∉ s) : 37 ∉ utf8 s := by
  rw [utf8_of_ascii h]
  intro hmem
  obtain ⟨c, hc, heq⟩ := List.mem_map.1 hmem
  have hc' : c.toNat < 128 := of_decide_eq_true (List.all_eq_true.1 h c hc)
  have hne : c ≠ '%' := fun hp => hs (hp ▸ hc)
  exact latin1Byte_ne (by omega) (by decide) hne heq

/-- `unquote` reads the escapes of any ASCII text. -/
theorem unquote_eq {s : Text} (h : s.all isAscii) :
    unquote s = utf8Lossy (percentDecode (utf8 s)) := by
  rw [unquote]
  split_ifs with hp
  · rfl
  · rw [percentDecode_eq (percent_not_mem h hp), utf8, utf8Lossy_text]

/-! ## The options of `Connection` -/

/-- White space of HTTP. -/
def owsChar (c : Char) : Bool :=
  c = ' ' || c = '\t'

def trimText (s : Text) : Text :=
  (s.dropWhile owsChar).rdropWhile owsChar

/-- The options that the hub's `Connection` headers list, as HTTP reads them, in lower case. -/
def connectionOptions (args : Obj) : List Text :=
  ((hubHeaders args).filter fun h => h.1.map Char.toLower = ascii "connection").flatMap fun h =>
    ((loc.strOf h.2).splitOn ',').map fun o => (trimText o).map Char.toLower

theorem ascii_of_toLower {c : Char} (h : isAscii c.toLower) : isAscii c := by
  rw [isAscii, decide_eq_true_eq] at h ⊢
  by_cases hc : 'A' ≤ c ∧ c ≤ 'Z'
  · have hle : c.toNat ≤ 90 := hc.2
    omega
  · rwa [Char.toLower_eq_of_not_isUpper] at h
    rw [Char.isUpper, decide_eq_true_eq]
    exact hc

theorem lower_of_map {s : Text} (h : (s.map Char.toLower).all isAscii) :
    loc.lower s = s.map Char.toLower := by
  rw [List.all_map, List.all_eq_true] at h
  exact if_pos (List.all_eq_true.2 fun c hc => ascii_of_toLower (h c hc))

/-- Trimming more than what was trimmed already takes nothing off that does not start or end
with what is trimmed. -/
theorem trim_eq {α : Type*} {p q : α → Bool} (hqp : ∀ c, q c → p c) {s t : List α}
    (ht : (s.dropWhile q).rdropWhile q = t) (hp : ∀ c ∈ t, p c = false) :
    (s.dropWhile p).rdropWhile p = t := by
  have hs : s = s.takeWhile q ++ (t ++ (s.dropWhile q).rtakeWhile q) := by
    rw [← ht, List.rdropWhile_append_rtakeWhile, List.takeWhile_append_dropWhile]
  have hfront : ∀ c ∈ s.takeWhile q, p c := fun c hc => hqp c (List.mem_takeWhile_imp hc)
  have hback : ∀ c ∈ (s.dropWhile q).rtakeWhile q, p c := fun c hc =>
    hqp c (List.mem_rtakeWhile_imp hc)
  rw [hs, List.dropWhile_append_of_pos hfront]
  cases t with
  | nil =>
    rw [List.nil_append, List.dropWhile_eq_nil_iff.2 hback, List.rdropWhile_nil]
  | cons c t =>
    rw [List.cons_append, List.dropWhile_cons_of_neg (by simp [hp c List.mem_cons_self]),
      ← List.cons_append, List.rdropWhile, List.reverse_append,
      List.dropWhile_append_of_pos fun d hd => hback d (List.mem_reverse.1 hd)]
    have hkeep : (c :: t).reverse.dropWhile p = (c :: t).reverse := by
      rw [List.dropWhile_eq_self_iff]
      intro hlen
      rw [Bool.not_eq_true]
      exact hp _ (List.mem_reverse.1 (List.getElem_mem hlen))
    rw [hkeep, List.reverse_reverse]

theorem isSpace_of_owsChar {c : Char} (h : owsChar c) : loc.isSpace c := by
  rw [owsChar, Bool.or_eq_true, decide_eq_true_eq, decide_eq_true_eq] at h
  rcases h with rfl | rfl
  · rfl
  · rfl

theorem not_isSpace_of_tokenChar {c : Char} (h : tokenChar c.toLower) :
    loc.isSpace c = false := by
  have hc := ascii_of_toLower (tokenChar_ascii h)
  have hall : ∀ n : Fin 128, tokenChar (Char.ofNat n).toLower →
      ((9 ≤ (Char.ofNat n).toNat && (Char.ofNat n).toNat ≤ 13) ||
        (28 ≤ (Char.ofNat n).toNat && (Char.ofNat n).toNat ≤ 32)) = false := by decide
  rw [Locale.isSpace, if_pos hc]
  exact ascii_forall (fun c => tokenChar c.toLower →
    ((9 ≤ c.toNat && c.toNat ≤ 13) || (28 ≤ c.toNat && c.toNat ≤ 32)) = false) hall hc h

theorem tokenChar_lower {s : Text} (h : isToken s) : ∀ c ∈ loc.lower s, tokenChar c := by
  have hall : ∀ n : Fin 128, tokenChar (Char.ofNat n) → tokenChar (Char.ofNat n).toLower := by
    decide
  rw [Locale.lower, if_pos (ascii_of_isToken h)]
  intro c hc
  obtain ⟨d, hd, rfl⟩ := List.mem_map.1 hc
  have htok := (isToken_iff.1 h).2.2 d hd
  exact ascii_forall (fun c => tokenChar c → tokenChar c.toLower) hall (tokenChar_ascii htok) htok

/-- An option that is a name is one that `clean_headers` finds. -/
theorem named_of_option {args : Obj} {n : Text} (hn : ∀ c ∈ n, tokenChar c)
    (h : n ∈ connectionOptions loc args) : n ∈ connectionNamed loc (hubHeaders args) := by
  rw [connectionOptions, List.mem_flatMap] at h
  obtain ⟨header, hheader, h⟩ := h
  obtain ⟨o, ho, rfl⟩ := List.mem_map.1 h
  rw [List.mem_filter, decide_eq_true_eq] at hheader
  have hname : loc.lower header.1 = ascii "connection" := by
    rw [lower_of_map loc (by rw [hheader.2]; decide), hheader.2]
  have hchars : ∀ c ∈ trimText o, tokenChar c.toLower := fun c hc =>
    hn _ (List.mem_map_of_mem hc)
  have hascii : ((trimText o).map Char.toLower).all isAscii :=
    List.all_eq_true.2 fun c hc => tokenChar_ascii (hn c hc)
  rw [connectionNamed, List.mem_flatMap]
  refine ⟨header, List.mem_filter.2 ⟨hheader.1, decide_eq_true hname⟩,
    List.mem_map.2 ⟨o, ho, ?_⟩⟩
  have hstrip : loc.strip o = trimText o :=
    trim_eq (fun c hc => isSpace_of_owsChar loc hc) rfl fun c hc =>
      not_isSpace_of_tokenChar loc (hchars c hc)
  rw [hstrip, lower_of_map loc hascii]

/-! ## A forwarded request -/

/-- The route of a target, its escapes read once. -/
def decodedRoute (target : Bytes) : Bytes :=
  percentDecode (routeBytes target)

/-- A request is the one that was checked. -/
structure Forwards (args : Obj) (ports : Bool → List ℕ) (monitor : Bool) (upload : Upload)
    (m : Http.Request) : Prop where
  checked : ∃ c, checkRequest loc args ports monitor = .ok c ∧ m.method = utf8 c.method ∧
    m.target = utf8 c.path ∧ m.body.length = c.bodyLen
  method : m.method = utf8 (loc.upper (loc.strOf ((Wire.get args "method").getD .null)))
  get_or_post : m.method = utf8 (ascii "GET") ∨ m.method = utf8 (ascii "POST")
  target : m.target = utf8 (loc.strOf ((Wire.get args "path").getD .null))
  host : ∃ port : ℕ, intArg args "port" = some (port : ℤ) ∧
    valuesOf (utf8 (ascii "host")) m.fields = [utf8 (ascii "127.0.0.1:" ++ decimal port)]
  post_length : m.method = utf8 (ascii "POST") →
    valuesOf (utf8 (ascii "content-length")) m.fields = [utf8 (decimal m.body.length)]
  get_length : m.method = utf8 (ascii "GET") →
    valuesOf (utf8 (ascii "content-length")) m.fields = [] ∧ m.body = []
  hop_by_hop : ∀ n ∈ hopByHop, n ≠ ascii "host" → n ≠ ascii "content-length" →
    valuesOf (utf8 n) m.fields = []
  connection : ∀ n ∈ connectionOptions loc args, n ≠ ascii "host" → n ≠ ascii "content-length" →
    valuesOf (utf8 n) m.fields = []
  body_len : (intArg args "body_len").getD 0 = (m.body.length : ℤ)
  body : (uploaded upload).take m.body.length <+: m.body
  segments : [46] ∉ (decodedRoute m.target).splitOn 47 ∧
    [46, 46] ∉ (decodedRoute m.target).splitOn 47
  allowed : ∃ p ∈ pathPrefixes, utf8 p <+: routeBytes m.target ∧
    utf8 p <+: decodedRoute m.target
  inference : monitor → m.method = utf8 (ascii "POST") →
    decodedRoute m.target ∈ inferencePosts.map utf8

/-- What is sent starts one request of a grammar, the one that was checked. -/
def SendsOne (g : Grammar) (args : Obj) (ports : Bool → List ℕ) (monitor : Bool)
    (upload : Upload) (sent : Bytes) : Prop :=
  ∃ text m, sent <+: text ∧ parseRequest g text = some (m, []) ∧
    Forwards loc args ports monitor upload m

/-- No other field has a name that the hub's `Connection` lists. -/
theorem option_not_sent {args : Obj} {monitor : Bool} {c : Checked}
    (hc : Meets loc args monitor c) {n : Text} (hn : n ∈ connectionOptions loc args)
    (hhost : n ≠ ascii "host") (hlen : n ≠ ascii "content-length") :
    valuesOf (utf8 n) (sentFields c) = [] := by
  have hp := passed_of_cleanHeaders loc hc.headers
  rw [sentFields_eq, valuesOf, List.map_eq_nil_iff, List.filter_eq_nil_iff]
  intro f hf heq
  rw [decide_eq_true_eq] at heq
  rw [List.mem_cons, List.mem_append] at hf
  rcases hf with rfl | hf | hf
  · rw [lowerName_host] at heq
    exact hhost (utf8_injective heq).symm
  · obtain ⟨h, hh, rfl⟩ := List.mem_map.1 hf
    obtain ⟨hname, -, hnot⟩ := lowerName_passed loc (hp h hh)
    obtain rfl := utf8_injective (hname.symm.trans heq)
    exact hnot (named_of_option loc (tokenChar_lower loc (hp h hh).token) hn)
  · split_ifs at hf
    · obtain rfl := List.mem_singleton.1 hf
      rw [lowerName_contentLength] at heq
      exact hlen (utf8_injective heq).symm
    · simp at hf

/-- The decoded route has no segment that goes up. -/
theorem segments_of_checkPath {path out : Text} (h : checkPath loc path = .ok out) :
    [46] ∉ (decodedRoute (utf8 out)).splitOn 47 ∧
      [46, 46] ∉ (decodedRoute (utf8 out)).splitOn 47 := by
  obtain ⟨rfl, hok, -, hdot, hdots, -⟩ := checkPath_ok loc h
  have hascii := ascii_of_pathOk hok
  rw [decodedRoute, routeBytes_utf8 hascii]
  rw [unquote_eq (all_routeOf hascii)] at hdot hdots
  refine ⟨fun hmem => hdot ?_, fun hmem => hdots ?_⟩
  · exact segment_of_bytes (List.forall_mem_singleton.2 (by decide)) (by decide) hmem
  · refine segment_of_bytes ?_ (by decide) hmem
    exact List.forall_mem_cons.2 ⟨by decide, List.forall_mem_singleton.2 (by decide)⟩

/-- The decoded route starts as the route does. -/
theorem allowed_of_checkPath {path out : Text} (h : checkPath loc path = .ok out) :
    ∃ p ∈ pathPrefixes, utf8 p <+: routeBytes (utf8 out) ∧
      utf8 p <+: decodedRoute (utf8 out) := by
  obtain ⟨rfl, hok, -, -, -, p, hp, t, ht⟩ := checkPath_ok loc h
  have hascii := ascii_of_pathOk hok
  have hall := all_routeOf hascii
  have hplain : pathPrefixes.all fun p => p.all isAscii && !p.contains '%' := by decide
  have hpp := List.all_eq_true.1 hplain p hp
  rw [Bool.and_eq_true, Bool.not_eq_true'] at hpp
  have hpercent : 37 ∉ utf8 p := percent_not_mem hpp.1 (by simpa using hpp.2)
  rw [decodedRoute, routeBytes_utf8 hascii, ← ht, utf8_append]
  refine ⟨p, hp, List.prefix_append _ _, ?_⟩
  rw [percentDecode_append hpercent]
  exact List.prefix_append _ _

/-- In monitor mode, the decoded route of a POST is one of an inference. -/
theorem inference_of_route {path : Text} (hok : pathOk path) (h : routeOf path ∈ inferencePosts) :
    decodedRoute (utf8 path) ∈ inferencePosts.map utf8 := by
  have hplain : inferencePosts.all fun p => !p.contains '%' := by decide
  have hp := List.all_eq_true.1 hplain _ h
  have hascii := ascii_of_pathOk hok
  rw [decodedRoute, routeBytes_utf8 hascii,
    percentDecode_eq (percent_not_mem (all_routeOf hascii) (by simpa using hp))]
  exact List.mem_map_of_mem h

theorem forwards_readBack {args : Obj} {ports : Bool → List ℕ} {monitor : Bool} {upload : Upload}
    {c : Checked} {body : Bytes} (h : checkRequest loc args ports monitor = .ok c)
    (hbody : body.length = c.bodyLen) (hup : (uploaded upload).take c.bodyLen <+: body) :
    Forwards loc args ports monitor upload (readBack c body) := by
  have hc := meets_of_checkRequest loc h
  have hp := passed_of_cleanHeaders loc hc.headers
  have hvalues := valuesOf_sentFields loc hp
  exact {
    checked := ⟨c, h, rfl, rfl, hbody⟩
    method := congrArg utf8 hc.method
    get_or_post := hc.get_or_post.imp (congrArg utf8) (congrArg utf8)
    target := congrArg utf8 (checkPath_ok loc hc.path).1
    host := ⟨c.port, hc.port, by
      rw [readBack, hvalues _ (by decide), if_pos rfl, if_neg fun h => absurd h.2 (by decide),
        List.append_nil]⟩
    post_length := fun hpost => by
      have hpost' := utf8_injective hpost
      dsimp only [readBack]
      rw [hvalues _ (by decide), if_neg (by decide), if_pos ⟨hpost', rfl⟩, List.nil_append, hbody]
    get_length := fun hget => by
      have hget' := utf8_injective hget
      have hne : c.method ≠ ascii "POST" := by
        rw [hget']
        decide
      dsimp only [readBack]
      rw [hvalues _ (by decide), if_neg (by decide), if_neg fun h => hne h.1]
      exact ⟨rfl, List.eq_nil_of_length_eq_zero (hbody.trans (hc.no_body hget'))⟩
    hop_by_hop := fun n hn hhost hlen => by
      dsimp only [readBack]
      rw [hvalues n hn, if_neg (Ne.symm hhost), if_neg fun h => hlen h.2.symm, List.nil_append]
    connection := fun n hn hhost hlen => option_not_sent loc hc hn hhost hlen
    body_len := hc.bodyLen.trans (congrArg _ hbody.symm)
    body := by
      dsimp only [readBack]
      rwa [hbody]
    segments := segments_of_checkPath loc hc.path
    allowed := allowed_of_checkPath loc hc.path
    inference := fun hm hpost => by
      obtain ⟨heq, hok, -⟩ := checkPath_ok loc hc.path
      exact inference_of_route (heq ▸ hok) (hc.inference hm (utf8_injective hpost)) }

/-- Whatever was sent starts a request, and it is the one that was checked; where the path is in
origin form and no value has a control character, a request of the grammar itself. -/
theorem forwarded_is_checked {args : Obj} {ports : Bool → List ℕ} {monitor : Bool}
    {upload : Upload} {sent : Bytes}
    (h : sent <+: (request loc args ports monitor upload).1) :
    sent = [] ∨ (SendsOne loc .tolerant args ports monitor upload sent ∧
      (originForm (utf8 (loc.strOf ((Wire.get args "path").getD .null))) →
        (∀ header ∈ hubHeaders args, ∀ ch ∈ loc.strOf header.2,
          Grammar.strict.value (latin1Byte ch)) →
        SendsOne loc .strict args ports monitor upload sent)) := by
  unfold request at h
  cases hcheck : checkRequest loc args ports monitor with
  | error e =>
    rw [hcheck] at h
    exact .inl (List.prefix_nil.1 h)
  | ok c =>
    rw [hcheck] at h
    dsimp only at h
    rw [exchangeRequest_bytes] at h
    by_cases hwide : c.headers.any fun h => h.2.any fun ch => 0xff < ch.toNat
    · rw [if_pos hwide] at h
      exact .inl (List.prefix_nil.1 h)
    · rw [if_neg hwide] at h
      have hc := meets_of_checkRequest loc hcheck
      have hp := passed_of_cleanHeaders loc hc.headers
      have hval : ∀ h ∈ c.headers, ∀ ch ∈ h.2, ch.toNat ≤ 0xff := by
        simpa using hwide
      -- what was not uploaded of the body may be any bytes
      let body := (uploaded upload).take c.bodyLen ++
        List.replicate (c.bodyLen - ((uploaded upload).take c.bodyLen).length) 0
      have hbody : body.length = c.bodyLen := by
        rw [List.length_append, List.length_replicate]
        have := List.length_take_le c.bodyLen (uploaded upload)
        omega
      have hsent : sent <+: textOf c body := by
        refine h.trans ?_
        rw [textOf, ← List.append_assoc]
        exact List.prefix_append _ _
      have hforwards : Forwards loc args ports monitor upload (readBack c body) :=
        forwards_readBack loc hcheck hbody (List.prefix_append _ _)
      obtain ⟨heq, hok, -⟩ := checkPath_ok loc hc.path
      refine .inr ⟨⟨_, _, hsent, ?_, hforwards⟩, fun horigin hstrict => ⟨_, _, hsent, ?_, hforwards⟩⟩
      · refine parseRequest_textOf loc Grammar.ok_tolerant hc (target_of_pathOk (heq ▸ hok)) ?_
          hbody
        exact fields_ok loc (fun ch h => (plain_byte h).2.1) hp fun h hh =>
          tolerant_of_passed loc (hp h hh) (hval h hh)
      · refine parseRequest_textOf loc Grammar.ok_strict hc (heq ▸ horigin) ?_ hbody
        refine fields_ok loc (fun ch h => (plain_byte h).1) hp fun h hh => ?_
        obtain ⟨v, hv, hv'⟩ := mem_of_cleanHeaders loc hc.headers h hh
        rw [hv']
        exact hstrict _ hv

/-- A locale in which nothing but ASCII is known. -/
def asciiOnly : Locale :=
  ⟨id, id, fun _ => false, id, fun _ => []⟩

/-- A request of the hub to port 8000. -/
def hubRequest (method path : Text) (headers : Obj) (bodyLen : ℤ) : Obj :=
  [("port", .num (.int 8000)), ("method", .str method), ("path", .str path),
    ("headers", .obj headers), ("body_len", .num (.int bodyLen))]

/-- A completion, with a header that is not passed on. -/
def completion : Obj :=
  hubRequest "post" "/v1/completions?n=%2e"
    [("Connection", .str "x, X-Drop"), ("x-drop", .str "1"), ("X-Note", .str "a b")] 4

/-- It is forwarded, and so is half of its body. -/
theorem completion_forwarded : ∃ sent : Bytes, sent ≠ [] ∧
    SendsOne asciiOnly .strict completion (fun _ => [8000]) true [.ok [123, 125]] sent := by
  have hne : (request asciiOnly completion (fun _ => [8000]) true [.ok [123, 125]]).1 ≠ [] := by
    decide
  have hvalues : (hubHeaders completion).all fun header =>
      (asciiOnly.strOf header.2).all fun ch => Grammar.strict.value (latin1Byte ch) := by decide
  refine ⟨_, hne, ?_⟩
  rcases forwarded_is_checked asciiOnly List.prefix_rfl with h | h
  · exact absurd h hne
  · exact h.2 (by decide) fun header hh ch hch =>
      List.all_eq_true.1 (List.all_eq_true.1 hvalues header hh) ch hch

theorem not_sendsOne {g : Grammar} {args : Obj} {ports : Bool → List ℕ} {monitor : Bool}
    {upload : Upload} {sent : Bytes} (h : ∀ rest, parseRequest g (sent ++ rest) = none) :
    ¬SendsOne loc g args ports monitor upload sent := by
  rintro ⟨text, m, ⟨rest, rfl⟩, hparse, -⟩
  rw [h rest] at hparse
  cases hparse

/-- A quote in the path, and a control character in a value, are passed on. -/
theorem not_of_the_grammar :
    ((request asciiOnly (hubRequest "GET" "/v1/\"" [] 0) (fun _ => [8000]) false []).1 ≠ [] ∧
      ¬SendsOne asciiOnly .strict (hubRequest "GET" "/v1/\"" [] 0) (fun _ => [8000]) false []
        (request asciiOnly (hubRequest "GET" "/v1/\"" [] 0) (fun _ => [8000]) false []).1) ∧
    ((request asciiOnly (hubRequest "GET" "/v1/models" [("X-Note", .str "\x01")] 0)
        (fun _ => [8000]) false []).1 ≠ [] ∧
      ¬SendsOne asciiOnly .strict (hubRequest "GET" "/v1/models" [("X-Note", .str "\x01")] 0)
        (fun _ => [8000]) false []
        (request asciiOnly (hubRequest "GET" "/v1/models" [("X-Note", .str "\x01")] 0)
          (fun _ => [8000]) false []).1) := by
  refine ⟨⟨by decide, not_sendsOne _ fun rest => ?_⟩, ⟨by decide, not_sendsOne _ fun rest => ?_⟩⟩
  · rfl
  · rfl

end HttpProxy

end EngineConsole
