import Mathlib

/-!
# Constants of the wire protocol

The limits of ec-proto (`lib.rs`) that both ends of a link share, and a cut of messages.
-/

namespace EngineConsole

/-- `MAX_JSON` : bytes of one JSON frame's body. -/
def maxJson : ℕ := 1024 * 1024

/-- `MAX_DATA` : bytes of one DATA frame's payload. -/
def maxData : ℕ := 1024 * 1024

/-- `WINDOW` : the credit of a stream in each direction. -/
def window : ℤ := 8 * 1024 * 1024

/-- `MAX_ID` : the largest request and stream id, `2^31 - 1`. -/
def maxId : ℕ := 2147483647

/-- `MAX_INFLIGHT` : requests in flight on one link. -/
def maxInflight : ℕ := 64

/-- `message.chars().take(n)` -/
def takeChars (n : ℕ) (s : String) : String :=
  String.ofList (s.toList.take n)

/-- `valid_id_i64` -/
def validId (v : ℕ) : Bool :=
  1 ≤ v && v ≤ maxId

end EngineConsole
