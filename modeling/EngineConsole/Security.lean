import EngineConsole.Router

/-!
# Who may do what

The rules of the hub's security middleware (`api/security.rs`) and of its role dependencies
(`api/deps.rs`), on a request as `app.rs` hands it to them : the path percent-decoded, of
headers with one name the last, header values as Latin-1. `str::to_lowercase`, the hash of a
key and the database are fields of `Hub`; only Latin-1 text is ever trimmed here.
-/

set_option linter.unusedSectionVars false

namespace EngineConsole.Web

/-! ## Reading a request -/

/-- The value of a hex digit. -/
def hexValue (b : UInt8) : Option UInt8 :=
  if 48 ≤ b && b ≤ 57 then some (b - 48)
  else if 65 ≤ b && b ≤ 70 then some (b - 55)
  else if 97 ≤ b && b ≤ 102 then some (b - 87)
  else none

/-- `percent_decode` : a `%` that no two hex digits follow stays. -/
def percentDecode : List UInt8 → List UInt8
  | 37 :: h :: l :: rest =>
    match hexValue h, hexValue l with
    | some h, some l => (h * 16 + l) :: percentDecode rest
    | _, _ => 37 :: percentDecode (h :: l :: rest)
  | b :: rest => b :: percentDecode rest
  | [] => []

/-- A byte that continues a character. -/
def isCont (b : UInt8) : Bool :=
  128 ≤ b && b ≤ 191

/-- The second byte of a character of three bytes. -/
def second3 (b₀ b₁ : UInt8) : Bool :=
  if b₀ = 224 then 160 ≤ b₁ && b₁ ≤ 191
  else if b₀ = 237 then 128 ≤ b₁ && b₁ ≤ 159
  else isCont b₁

/-- The second byte of a character of four bytes. -/
def second4 (b₀ b₁ : UInt8) : Bool :=
  if b₀ = 240 then 144 ≤ b₁ && b₁ ≤ 191
  else if b₀ = 244 then 128 ≤ b₁ && b₁ ≤ 143
  else isCont b₁

/-- U+FFFD -/
def replacement : Char := Char.ofNat 0xFFFD

/-- The low six bits of a byte. -/
def low6 (b : UInt8) : ℕ :=
  b.toNat % 64

/-- `from_utf8_lossy` : each longest piece of a character that is cut short is replaced. -/
def utf8Lossy : List UInt8 → Text
  | [] => []
  | b₀ :: rest =>
    if b₀ < 128 then Char.ofNat b₀.toNat :: utf8Lossy rest
    else if 194 ≤ b₀ && b₀ ≤ 223 then
      match rest with
      | b₁ :: rest =>
        if isCont b₁ then Char.ofNat (b₀.toNat % 32 * 64 + low6 b₁) :: utf8Lossy rest
        else replacement :: utf8Lossy (b₁ :: rest)
      | [] => [replacement]
    else if 224 ≤ b₀ && b₀ ≤ 239 then
      match rest with
      | b₁ :: b₂ :: rest =>
        if !second3 b₀ b₁ then replacement :: utf8Lossy (b₁ :: b₂ :: rest)
        else if !isCont b₂ then replacement :: utf8Lossy (b₂ :: rest)
        else Char.ofNat ((b₀.toNat % 16 * 64 + low6 b₁) * 64 + low6 b₂) :: utf8Lossy rest
      | [b₁] => if second3 b₀ b₁ then [replacement] else replacement :: utf8Lossy [b₁]
      | [] => [replacement]
    else if 240 ≤ b₀ && b₀ ≤ 244 then
      match rest with
      | b₁ :: b₂ :: b₃ :: rest =>
        if !second4 b₀ b₁ then replacement :: utf8Lossy (b₁ :: b₂ :: b₃ :: rest)
        else if !isCont b₂ then replacement :: utf8Lossy (b₂ :: b₃ :: rest)
        else if !isCont b₃ then replacement :: utf8Lossy (b₃ :: rest)
        else
          Char.ofNat (((b₀.toNat % 8 * 64 + low6 b₁) * 64 + low6 b₂) * 64 + low6 b₃) ::
            utf8Lossy rest
      | [b₁, b₂] =>
        if !second4 b₀ b₁ then replacement :: utf8Lossy [b₁, b₂]
        else if isCont b₂ then [replacement]
        else replacement :: utf8Lossy [b₂]
      | [b₁] => if second4 b₀ b₁ then [replacement] else replacement :: utf8Lossy [b₁]
      | [] => [replacement]
    else replacement :: utf8Lossy rest
termination_by structural bytes => bytes

/-- `decode_path` -/
def decodePath (raw : List UInt8) : Text :=
  utf8Lossy (percentDecode raw)

/-- `latin1` -/
def latin1 (bytes : List UInt8) : Text :=
  bytes.map fun b => Char.ofNat b.toNat

/-- Headers by their names in lower case. -/
abbrev Headers := List (Text × Text)

/-- Of headers with one name the last counts. -/
def Headers.get (headers : Headers) (name : String) : Option Text :=
  (headers.find? fun h => h.1 = ascii name).map Prod.snd

/-- `contains_key` -/
def Headers.has (headers : Headers) (name : String) : Bool :=
  (headers.get name).isSome

/-! ## The hub -/

/-- The settings the rules read. -/
structure Settings where
  host : Text
  port : ℕ
  allowedHosts : List Text
  bodyCapBytes : ℕ
  chatBodyCapBytes : ℕ
  importBodyCapBytes : ℕ
  trustLoopback : Bool

/-- A row of `api_keys`. -/
structure ApiKey where
  id : String
  name : String
  role : String
  hash : String
  revoked : Bool

/-- `Principal` -/
structure Principal where
  name : String
  role : String
  keyId : Option String
  deriving DecidableEq

/-- `Principal::public` -/
def Principal.public : Principal := ⟨"public", "public", none⟩

/-- A running hub. -/
structure Hub where
  cfg : Settings
  /-- the frontend's directory exists -/
  frontend : Bool
  /-- the rows of `api_keys`, unless the database fails -/
  keys : Option (List ApiKey)
  /-- the use of this key is to be recorded, and the database fails then -/
  touchFails : ApiKey → Bool
  /-- `key_hash` -/
  keyHash : Text → String
  /-- `str::to_lowercase` -/
  lower : Text → Text

/-! ## The rules -/

/-- `LOOPBACK` -/
def loopback : List String := ["127.0.0.1", "::1", "localhost"]

/-- `SAFE` -/
def safeMethods : List String := ["GET", "HEAD", "OPTIONS"]

/-- `MUTATING` -/
def mutating : List String := ["POST", "PUT", "PATCH", "DELETE"]

/-- `OPEN_PATHS` -/
def openPaths : List Text := ["/api/v1/health"]

/-- `CHAT_PATH` -/
def chatPath : Text := "/api/v1/chat/completions"

/-- `IMPORT_PATH` -/
def importPath : Text := "/api/v1/profiles/import"

/-- `IMPORT_TYPES` -/
def importTypes : List Text :=
  ["application/json", "application/yaml", "application/x-yaml",
    "text/yaml", "text/x-yaml"]

/-- `VIEWER_ALLOWED` -/
def viewerAllowed : Regex Char :=
  .cat (.lit "/api/v1/")
    (.alt (.lit "chat/completions")
      (.alt (.lit "fit")
        (.alt (.lit "conversations")
          (.alt (.lit "arena/matches")
            (.cat (.lit "arena/matches/")
              (.cat (.cat (.cls notSlash) (.many notSlash)) (.lit "/vote")))))))

/-- `viewer_may` -/
def viewerMay (method : String) (path : Text) : Bool :=
  method = "POST" && viewerAllowed.isMatch path

/-- `guarded` -/
def guarded (path : Text) : Bool :=
  ((ascii "/api/").isPrefixOf path || path = "/metrics") && !openPaths.contains path

/-- A number in decimal. -/
def decimal (n : ℕ) : Text :=
  Nat.toDigits 10 n

/-- `allowed_hosts` -/
def Hub.allowedHosts (hub : Hub) : List Text :=
  let port := ':' :: decimal hub.cfg.port
  let names : List Text := ["127.0.0.1", "localhost", "[::1]", hub.cfg.host]
  (names.map fun h => hub.lower (h ++ port)) ++ hub.cfg.allowedHosts.map hub.lower

/-- `cap` -/
def cap (cfg : Settings) (path : Text) : ℕ :=
  if path = chatPath then cfg.chatBodyCapBytes
  else if path = importPath then cfg.importBodyCapBytes
  else cfg.bodyCapBytes

/-- `split_once` -/
def splitOnce (c : Char) (text : Text) : Option (Text × Text) :=
  match text.dropWhile (· ≠ c) with
  | _ :: rest => some (text.takeWhile (· ≠ c), rest)
  | [] => none

/-- `urlsplit_netloc` -/
def urlsplitNetloc (url : Text) : Text :=
  let rest :=
    match splitOnce ':' url with
    | some (c :: scheme, rest) =>
      if c.isAlpha && (c :: scheme).all (fun c => c.isAlphanum || (ascii "+-.").contains c) then rest
      else url
    | _ => url
  match rest with
  | '/' :: '/' :: r => r.takeWhile fun c => !(ascii "/?#").contains c
  | _ => []

/-- White space of Latin-1. -/
def isSpace (c : Char) : Bool :=
  9 ≤ c.toNat && c.toNat ≤ 13 || c = ' ' || c.toNat = 0x85 || c.toNat = 0xA0

/-- `trim`, of Latin-1 text. -/
def trim (text : Text) : Text :=
  ((text.dropWhile isSpace).reverse.dropWhile isSpace).reverse

/-- `Deny` : a refusal before authentication. -/
structure Deny where
  status : ℕ
  code : String
  detail : String

/-- The `Origin` of a request that is not safe, if any, must name the host. -/
def crossOrigin (hub : Hub) (host : Text) (headers : Headers) : Bool :=
  match headers.get "origin" with
  | some origin => origin = "null" || hub.lower (urlsplitNetloc origin) ≠ host
  | none => false

/-- A request that is not safe must show that no form could have sent it. -/
def csrfShown (headers : Headers) : Bool :=
  headers.has "authorization" || headers.get "x-engine-console" = some ['1']

/-- The content type of a profile import. -/
def importType (hub : Hub) (headers : Headers) : Bool :=
  let ct := (headers.get "content-type").getD []
  importTypes.contains (hub.lower (trim (ct.takeWhile (· ≠ ';'))))

/-- The value of a text of digits. -/
def parseDigits (digits : Text) : ℕ :=
  digits.foldl (fun n c => n * 10 + (c.toNat - 48)) 0

/-- The announced length of the body, a `u128`, is over the cap. -/
def tooLarge (cfg : Settings) (path : Text) (headers : Headers) : Bool :=
  match headers.get "content-length" with
  | some cl =>
    !cl.isEmpty && cl.all Char.isDigit && parseDigits cl < 2 ^ 128 && cap cfg path < parseDigits cl
  | none => false

/-- The host a request names. -/
def Hub.hostOf (hub : Hub) (headers : Headers) : Text :=
  ((headers.get "host").map hub.lower).getD []

/-- `precheck` -/
def precheck (hub : Hub) (method : String) (path : Text) (headers : Headers) : Option Deny :=
  let host := hub.hostOf headers
  if !hub.allowedHosts.contains host then
    some ⟨421, "misdirected_request", "unrecognised Host header"⟩
  else if safeMethods.contains method then none
  else if crossOrigin hub host headers then
    some ⟨403, "cross_origin", "cross-origin requests are not allowed"⟩
  else if !csrfShown headers then
    some ⟨403, "csrf_header_required", "send the X-Engine-Console: 1 header on non-GET requests"⟩
  else if path = importPath && !importType hub headers then
    some ⟨415, "unsupported_media_type", "profile import needs a JSON or YAML content-type"⟩
  else if tooLarge hub.cfg path headers then
    some ⟨413, "payload_too_large", "request body too large"⟩
  else none

/-- The principal of a row. -/
def ApiKey.principal (k : ApiKey) : Principal :=
  ⟨k.name, k.role, some k.id⟩

/-- `authenticate`, where an error of the database counts as no principal. -/
def authenticate (hub : Hub) (secret : Text) : Option Principal :=
  match hub.keys with
  | none => none
  | some keys =>
    match keys.find? fun k => k.hash = hub.keyHash secret && !k.revoked with
    | none => none
    | some k => if hub.touchFails k then none else some k.principal

/-- The secret of an `Authorization` header. -/
def bearer (hub : Hub) (auth : Text) : Option Text :=
  let (scheme, tok) := (splitOnce ' ' auth).getD (auth, [])
  if hub.lower scheme = "bearer" && !(trim tok).isEmpty then some (trim tok) else none

/-- `principal` -/
def principal (hub : Hub) (clientHost : String) (headers : Headers) : Option Principal :=
  let auth := (headers.get "authorization").getD []
  if !auth.isEmpty then
    match bearer hub auth with
    | some tok => authenticate hub tok
    | none => none
  else if hub.cfg.trustLoopback && loopback.contains clientHost &&
      !headers.has "x-forwarded-for" then
    some ⟨"loopback", "admin", none⟩
  else none

/-! ## Roles -/

/-- `enforce_roles_for`; the text of the refusal, if any. -/
def enforceRolesFor (method : String) (path : Text) (p : Principal) : Option String :=
  if safeMethods.contains method then none
  else if p.role = "admin" || p.role = "viewer" && viewerMay method path then none
  else some "admin role required for this action"

/-- `require_admin_for` -/
def requireAdminFor (p : Principal) : Option String :=
  if p.role = "admin" then none else some "admin role required"

/-- `check_access` -/
def checkAccess (access : Access) (method : String) (path : Text) (p : Principal) :
    Option String :=
  match access with
  | .open => none
  | .caller => enforceRolesFor method path p
  | .admin => (enforceRolesFor method path p).or (requireAdminFor p)

end EngineConsole.Web
