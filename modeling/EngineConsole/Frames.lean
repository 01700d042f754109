import EngineConsole.Proto
import EngineConsole.JsonText

/-!
# Frames and their bytes

A frame is four bytes of length, a byte for its kind, and its body (ec-proto, `lib.rs`). The
length counts the kind and the body. The encoders and the decoder each have limits of their
own : on the size of a JSON body, the payload of a DATA frame, the stream id.

On an encoded frame the header gives back the body's length (`parseHeader_encode`), and the
body gives back the frame but for one limit that the encoders do not have : the JSON reader
gives up at `recursionLimit` (`decodeBody_encode`).
-/

set_option linter.unusedSectionVars false

namespace EngineConsole

variable {S N : Type*}

/-- `KIND_JSON` -/
def kindJson : UInt8 := 1

/-- `KIND_DATA` -/
def kindData : UInt8 := 2

/-- The depth at which serde_json gives up reading. -/
def recursionLimit : ℕ := 128

/-- serde_json and `from_utf8`, as far as they are not fixed by the format : how strings and
numbers are spelled, and the texts of their errors. -/
structure Serde (S N : Type*) extends Json.Scalars S N where
  /-- The error of a body that is not UTF-8. -/
  utf8Error : List UInt8 → String
  /-- The error of a text that does not parse. -/
  textError : List Char → String

/-- `ProtoError` : the peer broke the protocol. -/
inductive ProtoError where
  | invalid (message : String)
  | truncated (message : String)

/-- `Frame`; the fields of an object are in their order. -/
inductive Frame (S N : Type*) where
  | json (fields : List (S × Json S N))
  | data (stream : ℕ) (payload : List UInt8)

/-- `u32::to_be_bytes` -/
def beBytes (n : ℕ) : List UInt8 :=
  [UInt8.ofNat (n / 2 ^ 24), UInt8.ofNat (n / 2 ^ 16), UInt8.ofNat (n / 2 ^ 8), UInt8.ofNat n]

/-- `u32::from_be_bytes` -/
def ofBeBytes (b₀ b₁ b₂ b₃ : UInt8) : ℕ :=
  b₀.toNat * 2 ^ 24 + b₁.toNat * 2 ^ 16 + b₂.toNat * 2 ^ 8 + b₃.toNat

/-- `u32_len` -/
def u32Len (n : ℕ) : ℕ :=
  if n < 2 ^ 32 then n else 2 ^ 32 - 1

/-- The UTF-8 bytes of a text. -/
def utf8 (text : List Char) : List UInt8 :=
  text.flatMap String.utf8EncodeChar

/-- `from_utf8` -/
def fromUtf8 (body : List UInt8) : Option (List Char) :=
  body.toByteArray.utf8Decode?.map Array.toList

/-! ## Encoding -/

/-- `encode_json` -/
def encodeJson (P : Serde S N) (fields : List (S × Json S N)) : Except ProtoError (List UInt8) :=
  let body := utf8 (Json.write P.toScalars (.obj fields))
  let size := body.length
  if maxJson < size then
    .error (.invalid s!"message of {size} bytes is over MAX_JSON ({maxJson})")
  else .ok (beBytes (u32Len (size + 1)) ++ kindJson :: body)

/-- `encode_data` -/
def encodeData (stream : ℤ) (payload : List UInt8) : Except ProtoError (List UInt8) :=
  let size := payload.length
  if !(1 ≤ stream && stream ≤ maxId) then .error (.invalid "stream id out of range")
  else if maxData < size then
    .error (.invalid s!"data payload of {size} bytes is over MAX_DATA ({maxData})")
  else .ok (beBytes (u32Len (size + 5)) ++ kindData :: (beBytes stream.toNat ++ payload))

/-- The encoder for the kind of a frame. -/
def Frame.encode (P : Serde S N) : Frame S N → Except ProtoError (List UInt8)
  | .json fields => encodeJson P fields
  | .data stream payload => encodeData stream payload

/-! ## Decoding -/

/-- `parse_header` : the kind and the length of the body. -/
def parseHeader (b₀ b₁ b₂ b₃ kind : UInt8) : Except ProtoError (UInt8 × ℕ) :=
  let length : ℤ := ofBeBytes b₀ b₁ b₂ b₃
  let body := length - 1
  if kind = kindJson then
    if 2 ≤ body && body ≤ maxJson then .ok (kind, body.toNat)
    else .error (.invalid s!"frame length {length} out of range for kind {kind}")
  else if kind = kindData then
    if 4 ≤ body && body ≤ 4 + maxData then .ok (kind, body.toNat)
    else .error (.invalid s!"frame length {length} out of range for kind {kind}")
  else .error (.invalid s!"unknown frame kind {kind}")

variable [DecidableEq S]

/-- The text of the error `decode_json` gives for a text that does not parse. -/
def notJson (error : String) : String :=
  let shown := takeChars 120 error
  s!"not JSON: {shown}"

/-- `decode_json` -/
def decodeJson (P : Serde S N) (body : List UInt8) :
    Except ProtoError (List (S × Json S N)) :=
  match fromUtf8 body with
  | none => .error (.invalid (notJson (P.utf8Error body)))
  | some text =>
    match Json.parse P.toScalars recursionLimit text with
    | none => .error (.invalid (notJson (P.textError text)))
    | some (.obj fields) => .ok fields
    | some _ => .error (.invalid "message must be a JSON object")

/-- `decode_body` -/
def decodeBody (P : Serde S N) (kind : UInt8) (body : List UInt8) :
    Except ProtoError (Frame S N) :=
  if kind = kindJson then (decodeJson P body).map .json
  else
    match body with
    | b₀ :: b₁ :: b₂ :: b₃ :: payload =>
      let stream := ofBeBytes b₀ b₁ b₂ b₃
      if !validId stream then
        .error (.invalid "data frame with an out-of-range stream id")
      else .ok (.data stream payload)
    | _ => .error (.invalid "data frame without a stream id")

/-! ## Decoding what was encoded -/

theorem length_beBytes (n : ℕ) : (beBytes n).length = 4 :=
  rfl

theorem ofBeBytes_beBytes {n : ℕ} (h : n < 2 ^ 32) :
    ofBeBytes (UInt8.ofNat (n / 2 ^ 24)) (UInt8.ofNat (n / 2 ^ 16)) (UInt8.ofNat (n / 2 ^ 8))
      (UInt8.ofNat n) = n := by
  simp only [ofBeBytes, UInt8.toNat_ofNat']
  omega

@[simp] theorem fromUtf8_utf8 (text : List Char) : fromUtf8 (utf8 text) = some text := by
  have h : (utf8 text).toByteArray = text.utf8Encode := rfl
  rw [fromUtf8, h, List.utf8Decode?_utf8Encode]
  simp

theorem utf8_append (a b : List Char) : utf8 (a ++ b) = utf8 a ++ utf8 b := by
  simp [utf8]

/-- A frame as it is : the keys of an object do not repeat. -/
def Frame.WF : Frame S N → Prop
  | .json fields => (Json.obj fields).WF
  | .data _ _ => True

/-- The nesting of a frame's JSON is one the reader takes. -/
def Frame.Shallow : Frame S N → Prop
  | .json fields => Json.depth (.obj fields) < recursionLimit
  | .data _ _ => True

instance : ∀ f : Frame S N, Decidable f.Shallow
  | .json fields => inferInstanceAs (Decidable (Json.depth (.obj fields) < recursionLimit))
  | .data _ _ => inferInstanceAs (Decidable True)

variable {P : Serde S N} {f : Frame S N} {bytes : List UInt8}

/-- The two braces of an object. -/
theorem two_le_body (fields : List (S × Json S N)) :
    2 ≤ (utf8 (Json.write P.toScalars (.obj fields))).length := by
  rw [Json.write, List.cons_append, ← List.singleton_append, utf8_append, utf8_append]
  have h₁ : (utf8 ['{']).length = 1 := by decide
  have h₂ : (utf8 ['}']).length = 1 := by decide
  simp only [List.length_append]
  omega

/-- An encoded frame : a header that the reader takes for the length of the body, and a body
that decodes to the frame if it is shallow, and to an error if it is not. -/
structure Encoded (P : Serde S N) (f : Frame S N) (bytes : List UInt8) : Prop where
  layout : ∃ b₀ b₁ b₂ b₃ kind body, bytes = b₀ :: b₁ :: b₂ :: b₃ :: kind :: body ∧
    parseHeader b₀ b₁ b₂ b₃ kind = .ok (kind, body.length) ∧ 0 < body.length ∧
    (f.Shallow → decodeBody P kind body = .ok f) ∧
    (¬f.Shallow → ∃ message, decodeBody P kind body = .error (.invalid message))

theorem parseHeader_json {n : ℕ} (h₂ : 2 ≤ n) (hmax : n ≤ maxJson) :
    parseHeader (UInt8.ofNat ((n + 1) / 2 ^ 24)) (UInt8.ofNat ((n + 1) / 2 ^ 16))
      (UInt8.ofNat ((n + 1) / 2 ^ 8)) (UInt8.ofNat (n + 1)) kindJson = .ok (kindJson, n) := by
  have hlt : n + 1 < 2 ^ 32 := by
    simp only [maxJson] at hmax
    omega
  unfold parseHeader
  rw [ofBeBytes_beBytes hlt, if_pos rfl]
  have hbody : ((n + 1 : ℕ) : ℤ) - 1 = (n : ℤ) := by omega
  rw [hbody, Int.toNat_natCast, if_pos]
  simp only [Bool.and_eq_true, decide_eq_true_eq]
  omega

theorem parseHeader_data {n : ℕ} (hmax : n ≤ maxData) :
    parseHeader (UInt8.ofNat ((n + 5) / 2 ^ 24)) (UInt8.ofNat ((n + 5) / 2 ^ 16))
      (UInt8.ofNat ((n + 5) / 2 ^ 8)) (UInt8.ofNat (n + 5)) kindData = .ok (kindData, n + 4) := by
  have hlt : n + 5 < 2 ^ 32 := by
    simp only [maxData] at hmax
    omega
  have hkind : kindData ≠ kindJson := by decide
  unfold parseHeader
  rw [ofBeBytes_beBytes hlt, if_neg hkind, if_pos rfl]
  have hbody : ((n + 5 : ℕ) : ℤ) - 1 = ((n + 4 : ℕ) : ℤ) := by omega
  rw [hbody, Int.toNat_natCast, if_pos]
  simp only [Bool.and_eq_true, decide_eq_true_eq]
  omega

theorem encoded_json (hP : P.toScalars.Lawful) {fields : List (S × Json S N)}
    (hwf : (Frame.json fields).WF) (h : encodeJson P fields = .ok bytes) :
    Encoded P (.json fields) bytes := by
  unfold encodeJson at h
  dsimp only at h
  split_ifs at h with hmax
  have htwo := two_le_body (P := P) fields
  have hmax := Nat.le_of_not_lt hmax
  have hparse := Json.parse_write hP hwf (show 0 < recursionLimit by decide)
  have hlen : u32Len ((utf8 (Json.write P.toScalars (.obj fields))).length + 1) =
      (utf8 (Json.write P.toScalars (.obj fields))).length + 1 := by
    refine if_pos ?_
    simp only [maxJson] at hmax
    omega
  rw [hlen] at h
  obtain rfl := Except.ok.inj h
  refine ⟨_, _, _, _, _, _, rfl, parseHeader_json htwo hmax, by omega, fun hs => ?_, fun hs => ?_⟩
  · unfold decodeBody
    rw [if_pos rfl, decodeJson, fromUtf8_utf8]
    simp only [hparse, if_pos (show Json.depth (.obj fields) < recursionLimit from hs)]
    rfl
  · refine ⟨notJson (P.textError (Json.write P.toScalars (.obj fields))), ?_⟩
    unfold decodeBody
    rw [if_pos rfl, decodeJson, fromUtf8_utf8]
    simp only [hparse, if_neg (show ¬Json.depth (.obj fields) < recursionLimit from hs)]
    rfl

theorem encoded_data {stream : ℕ} {payload : List UInt8}
    (h : encodeData stream payload = .ok bytes) : Encoded P (.data stream payload) bytes := by
  unfold encodeData at h
  dsimp only at h
  split_ifs at h with hid hmax
  have hid : 1 ≤ stream ∧ stream ≤ maxId := by
    simp only [Bool.not_eq_true', Bool.not_eq_false, Bool.and_eq_true, decide_eq_true_eq] at hid
    omega
  have hmax := Nat.le_of_not_lt hmax
  have hlen : u32Len (payload.length + 5) = payload.length + 5 := by
    refine if_pos ?_
    simp only [maxData] at hmax
    omega
  rw [hlen, Int.toNat_natCast] at h
  obtain rfl := Except.ok.inj h
  refine ⟨_, _, _, _, _, _, rfl, ?_, ?_, fun _ => ?_, fun hs => absurd trivial hs⟩
  · rw [List.length_append, length_beBytes, Nat.add_comm 4]
    exact parseHeader_data hmax
  · simp only [List.length_append, length_beBytes]
    omega
  · have hkind : kindData ≠ kindJson := by decide
    have hlt : stream < 2 ^ 32 := by
      have := hid.2
      simp only [maxId] at this
      omega
    have hvalid : validId stream = true := by
      simpa only [validId, Bool.and_eq_true, decide_eq_true_eq] using hid
    unfold decodeBody
    rw [if_neg hkind]
    simp only [beBytes, List.cons_append, List.nil_append, ofBeBytes_beBytes hlt, hvalid]
    rfl

/-- Every frame an encoder takes is laid out for the reader. -/
theorem Frame.encoded (hP : P.toScalars.Lawful) (hwf : f.WF) (h : f.encode P = .ok bytes) :
    Encoded P f bytes := by
  cases f with
  | json fields => exact encoded_json hP hwf h
  | data stream payload => exact encoded_data h

end EngineConsole
