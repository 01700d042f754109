import EngineConsole.Frames

/-!
# Reading a stream of frames

A stream is what successive calls of `read` find (`Source`) : bytes, of which a call takes
no more than it has room for, an interruption, or a failure. `readFrame` is the reader of
both ends : the blocking one (`read_frame_sync`) reads on after an interruption, the async
one (`read_frame_async`) returns it.

However the bytes are split over the reads, what a reader returns depends on them only
(`readExact_spec`). Encoded frames read one after the other come back, in order, up to
where the bytes are cut : a cut between frames is a clean end, a cut inside one is
`truncated` (`readFrames_cut`). The one frame that does not come back is JSON nested deeper
than the reader goes (`readsBack_iff_shallow`).
-/

set_option linter.unusedSectionVars false

namespace EngineConsole

variable {S N : Type*}

/-! ## Sources -/

/-- What a call of `read` finds. -/
inductive Read where
  | bytes (chunk : List UInt8)
  | interrupted
  | failed (error : String)

/-- What successive calls of `read` find; afterwards, the end of the stream. -/
abbrev Source := List Read

/-- `ReadError` -/
inductive ReadError where
  | proto (e : ProtoError)
  | io (error : String)

/-- `read_exact_sync` (with `retry`) and the read loops of `read_frame_async` (without) : up
to `n` bytes, fewer at the end of the stream. A call that has room for less than there is
leaves the rest to the next. -/
def readExact (retry : Bool) : ℕ → Source → Except ReadError (List UInt8 × Source)
  | 0, src => .ok ([], src)
  | _ + 1, [] => .ok ([], [])
  | n + 1, .interrupted :: src =>
    if retry then readExact retry (n + 1) src else .error (.io "interrupted")
  | _ + 1, .failed error :: _ => .error (.io error)
  | _ + 1, .bytes [] :: src => .ok ([], src)
  | n + 1, .bytes (b :: chunk) :: src =>
    if chunk.length ≤ n then
      (readExact retry (n - chunk.length) src).map fun r => (b :: chunk ++ r.1, r.2)
    else .ok (b :: chunk.take n, .bytes (chunk.drop n) :: src)

/-- The bytes of a source, in order. -/
def Source.content : Source → List UInt8
  | [] => []
  | .bytes chunk :: src => chunk ++ Source.content src
  | _ :: src => Source.content src

/-- The source does not fail before its end, and a reader that does not retry is not
interrupted. -/
def Source.Flows (retry : Bool) (src : Source) : Prop :=
  ∀ r ∈ src, match r with
    | .bytes chunk => chunk ≠ []
    | .interrupted => retry = true
    | .failed _ => False

theorem Source.Flows.tail {retry : Bool} {r : Read} {src : Source}
    (h : Source.Flows retry (r :: src)) : Source.Flows retry src :=
  fun r' hr' => h r' (List.mem_cons_of_mem r hr')

/-- A read takes the next `n` bytes, however they are split. -/
theorem readExact_spec {retry : Bool} : ∀ (src : Source) (n : ℕ), src.Flows retry →
    ∃ rest, readExact retry n src = .ok (src.content.take n, rest) ∧
      rest.content = src.content.drop n ∧ rest.Flows retry
  | src, 0, h => ⟨src, by simp [readExact], by simp, h⟩
  | [], n + 1, h => ⟨[], rfl, rfl, h⟩
  | .interrupted :: src, n + 1, h => by
    have hretry : retry = true := h _ List.mem_cons_self
    obtain ⟨rest, hread, hcontent, hflows⟩ := readExact_spec src (n + 1) h.tail
    refine ⟨rest, ?_, hcontent, hflows⟩
    rw [readExact, if_pos hretry]
    exact hread
  | .failed error :: src, n + 1, h => (h _ List.mem_cons_self).elim
  | .bytes [] :: src, n + 1, h => absurd rfl (h _ List.mem_cons_self)
  | .bytes (b :: chunk) :: src, n + 1, h => by
    by_cases hn : chunk.length ≤ n
    · obtain ⟨rest, hread, hcontent, hflows⟩ := readExact_spec src (n - chunk.length) h.tail
      refine ⟨rest, ?_, ?_, hflows⟩
      · rw [readExact, if_pos hn, hread]
        simp [Except.map, Source.content, List.take_append, List.take_of_length_le hn]
      · rw [hcontent]
        simp [Source.content, List.drop_append, List.drop_of_length_le hn]
    · refine ⟨.bytes (chunk.drop n) :: src, ?_, ?_, ?_⟩
      · rw [readExact, if_neg hn]
        simp [Source.content, List.take_append, Nat.sub_eq_zero_of_le (Nat.le_of_not_le hn)]
      · simp [Source.content, List.drop_append, Nat.sub_eq_zero_of_le (Nat.le_of_not_le hn)]
      · intro r hr
        rcases List.mem_cons.1 hr with rfl | hr
        · simp only [ne_eq, List.drop_eq_nil_iff]
          omega
        · exact h r (List.mem_cons_of_mem _ hr)

/-! ## The readers -/

variable [DecidableEq S]

/-- One frame : `none` is a clean end between frames. -/
def readFrame (P : Serde S N) (retry : Bool) (src : Source) :
    Except ReadError (Option (Frame S N × ℕ) × Source) :=
  match readExact retry 5 src with
  | .error e => .error e
  | .ok ([], src) => .ok (none, src)
  | .ok ([b₀, b₁, b₂, b₃, kind], src) =>
    match parseHeader b₀ b₁ b₂ b₃ kind with
    | .error e => .error (.proto e)
    | .ok (kind, n) =>
      match readExact retry n src with
      | .error e => .error e
      | .ok (body, src) =>
        if body.length < n then .error (.proto (.truncated "stream ended inside a frame"))
        else
          match decodeBody P kind body with
          | .error e => .error (.proto e)
          | .ok frame => .ok (some (frame, 5 + n), src)
  | .ok (_, _) => .error (.proto (.truncated "stream ended inside a frame header"))

/-- `read_frame_sized_sync` -/
def readFrameSync (P : Serde S N) (src : Source) :
    Except ReadError (Option (Frame S N × ℕ) × Source) :=
  readFrame P true src

/-- `read_frame_async` -/
def readFrameAsync (P : Serde S N) (src : Source) :
    Except ReadError (Option (Frame S N × ℕ) × Source) :=
  readFrame P false src

/-- How a stream of frames ends; `more` where the reading was stopped before its end. -/
inductive End where
  | clean
  | failed (e : ReadError)
  | more

/-- Frames read one after the other, at most `fuel` calls. -/
def readFrames (read : Source → Except ReadError (Option (Frame S N × ℕ) × Source)) :
    ℕ → Source → List (Frame S N) × End
  | 0, _ => ([], .more)
  | fuel + 1, src =>
    match read src with
    | .error e => ([], .failed e)
    | .ok (none, _) => ([], .clean)
    | .ok (some (frame, _), src) =>
      let r := readFrames read fuel src
      (frame :: r.1, r.2)

/-! ## One frame -/

variable {P : Serde S N} {retry : Bool} {f : Frame S N} {bytes rest : List UInt8} {src : Source}

/-- The error text for a stream that ends `k` bytes into a frame. -/
def cutText (k : ℕ) : String :=
  if k < 5 then "stream ended inside a frame header" else "stream ended inside a frame"

theorem readFrame_end (hflows : src.Flows retry) (hsrc : src.content = []) :
    ∃ src', readFrame P retry src = .ok (none, src') := by
  obtain ⟨src', hread, -, -⟩ := readExact_spec src 5 hflows
  refine ⟨src', ?_⟩
  rw [hsrc, List.take_nil] at hread
  simp only [readFrame, hread]

/-- With a frame's bytes there, its header and its body are read and what follows is left. -/
theorem readFrame_whole (h : Encoded P f bytes) (hflows : src.Flows retry)
    (hsrc : src.content = bytes ++ rest) :
    ∃ src', src'.content = rest ∧ src'.Flows retry ∧
      (f.Shallow → readFrame P retry src = .ok (some (f, bytes.length), src')) ∧
      (¬f.Shallow → ∃ message, readFrame P retry src = .error (.proto (.invalid message))) := by
  obtain ⟨b₀, b₁, b₂, b₃, kind, body, rfl, hheader, -, hshallow, hdeep⟩ := h.layout
  obtain ⟨src₁, hread₁, hcontent₁, hflows₁⟩ := readExact_spec src 5 hflows
  obtain ⟨src₂, hread₂, hcontent₂, hflows₂⟩ := readExact_spec src₁ body.length hflows₁
  rw [hsrc] at hread₁ hcontent₁
  simp only [List.cons_append, List.take_succ_cons, List.take_zero, List.drop_succ_cons,
    List.drop_zero] at hread₁ hcontent₁
  rw [hcontent₁, List.take_left'] at hread₂
  swap; · rfl
  rw [hcontent₁, List.drop_left'] at hcontent₂
  swap; · rfl
  refine ⟨src₂, hcontent₂, hflows₂, fun hs => ?_, fun hs => ?_⟩
  · simp only [readFrame, hread₁, hheader, hread₂, Nat.lt_irrefl, if_false, hshallow hs,
      List.length_cons, Nat.add_comm 5]
  · obtain ⟨message, hmessage⟩ := hdeep hs
    exact ⟨message, by simp only [readFrame, hread₁, hheader, hread₂, Nat.lt_irrefl, if_false,
      hmessage]⟩

/-- A stream that ends inside a frame. -/
theorem readFrame_cut (h : Encoded P f bytes) (hflows : src.Flows retry) {k : ℕ} (hk : 0 < k)
    (hlt : k < bytes.length) (hsrc : src.content = bytes.take k) :
    readFrame P retry src = .error (.proto (.truncated (cutText k))) := by
  obtain ⟨b₀, b₁, b₂, b₃, kind, body, rfl, hheader, -⟩ := h.layout
  obtain ⟨src₁, hread₁, hcontent₁, hflows₁⟩ := readExact_spec src 5 hflows
  rw [hsrc, List.take_take] at hread₁
  rw [hsrc] at hcontent₁
  by_cases h5 : k < 5
  · -- the header is not whole : one to four bytes of it are read
    rw [cutText, if_pos h5]
    obtain rfl | rfl | rfl | rfl : k = 1 ∨ k = 2 ∨ k = 3 ∨ k = 4 := by omega
    all_goals simp only [readFrame, hread₁, Nat.min_eq_right, Nat.reduceLeDiff,
      List.take_succ_cons, List.take_zero]
  · rw [cutText, if_neg h5]
    obtain ⟨j, rfl⟩ : ∃ j, k = j + 5 := ⟨k - 5, by omega⟩
    obtain ⟨src₂, hread₂, -, -⟩ := readExact_spec src₁ body.length hflows₁
    rw [Nat.min_eq_left (by omega)] at hread₁
    simp only [List.take_succ_cons, List.take_zero, List.drop_succ_cons, List.drop_zero]
      at hread₁ hcontent₁
    simp only [List.length_cons] at hlt
    rw [hcontent₁, List.take_take, Nat.min_eq_right (by omega)] at hread₂
    have hshort : (body.take j).length < body.length := by
      rw [List.length_take]
      omega
    simp only [readFrame, hread₁, hheader, hread₂, if_pos hshort]

/-! ## A stream of frames -/

/-- The bytes of a frame on the wire. -/
def Frame.wire (P : Serde S N) (f : Frame S N) : List UInt8 :=
  match f.encode P with
  | .ok bytes => bytes
  | .error _ => []

/-- The bytes of frames one after the other. -/
def wireAll (P : Serde S N) (fs : List (Frame S N)) : List UInt8 :=
  fs.flatMap (Frame.wire P)

/-- A frame an encoder takes. -/
structure Frame.Sendable (P : Serde S N) (f : Frame S N) : Prop where
  wf : f.WF
  encodes : ∃ bytes, f.encode P = .ok bytes

theorem Frame.Sendable.encoded (hP : P.toScalars.Lawful) (h : f.Sendable P) :
    Encoded P f (f.wire P) := by
  obtain ⟨bytes, hbytes⟩ := h.encodes
  have hwire : f.wire P = bytes := by simp only [Frame.wire, hbytes]
  exact hwire ▸ Frame.encoded hP h.wf hbytes

theorem Encoded.length_pos (h : Encoded P f bytes) : 0 < bytes.length := by
  obtain ⟨_, _, _, _, _, _, rfl, -⟩ := h.layout
  exact Nat.succ_pos _

/-- What is left of frames cut after `k` bytes : those that are whole, and how it ends. -/
def cutAt (P : Serde S N) : List (Frame S N) → ℕ → List (Frame S N) × End
  | [], _ => ([], .clean)
  | f :: fs, k =>
    if k = 0 then ([], .clean)
    else if k < (f.wire P).length then ([], .failed (.proto (.truncated (cutText k))))
    else
      let r := cutAt P fs (k - (f.wire P).length)
      (f :: r.1, r.2)

/-- The frames can be read back : whole, and as far as they go when they are cut. -/
structure ReadsBack (P : Serde S N) (retry : Bool) (fs : List (Frame S N)) : Prop where
  whole : ∀ (src : Source) (fuel : ℕ), src.Flows retry → src.content = wireAll P fs →
    fs.length < fuel → readFrames (readFrame P retry) fuel src = (fs, .clean)
  cut : ∀ (k : ℕ) (src : Source) (fuel : ℕ), src.Flows retry →
    src.content = (wireAll P fs).take k → fs.length < fuel →
    readFrames (readFrame P retry) fuel src = cutAt P fs k

/-- Shallow frames are read up to the cut. -/
theorem readFrames_cut (hP : P.toScalars.Lawful) : ∀ (fs : List (Frame S N)),
    (∀ f ∈ fs, f.Sendable P ∧ f.Shallow) → ∀ (k : ℕ) (src : Source) (fuel : ℕ),
      src.Flows retry → src.content = (wireAll P fs).take k → fs.length < fuel →
      readFrames (readFrame P retry) fuel src = cutAt P fs k
  | [], _, k, src, fuel + 1, hflows, hsrc, _ => by
    obtain ⟨src', hread⟩ := readFrame_end (P := P) hflows (by simpa [wireAll] using hsrc)
    simp only [readFrames, hread, cutAt]
  | f :: fs, hfs, k, src, fuel + 1, hflows, hsrc, hfuel => by
    have henc := (hfs f List.mem_cons_self).1.encoded hP
    have hcons : wireAll P (f :: fs) = f.wire P ++ wireAll P fs := rfl
    rw [hcons, List.take_append] at hsrc
    by_cases hk : k = 0
    · subst hk
      obtain ⟨src', hread⟩ := readFrame_end (P := P) hflows (by simpa using hsrc)
      simp only [readFrames, hread, cutAt, if_true]
    by_cases hlt : k < (f.wire P).length
    · rw [Nat.sub_eq_zero_of_le (Nat.le_of_lt hlt), List.take_zero, List.append_nil] at hsrc
      have hread := readFrame_cut henc hflows (Nat.pos_of_ne_zero hk) hlt hsrc
      simp only [readFrames, hread, cutAt, if_neg hk, if_pos hlt]
    · rw [List.take_of_length_le (Nat.le_of_not_lt hlt)] at hsrc
      obtain ⟨src', hcontent, hflows', hread, -⟩ := readFrame_whole henc hflows hsrc
      have hrest := readFrames_cut hP fs (fun g hg => hfs g (List.mem_cons_of_mem f hg))
        (k - (f.wire P).length) src' fuel hflows' hcontent (Nat.lt_of_succ_lt_succ hfuel)
      simp only [readFrames, hread (hfs f List.mem_cons_self).2, hrest, cutAt, if_neg hk,
        if_neg hlt]

/-- Cut after their last byte, all frames are whole. -/
theorem cutAt_length (hP : P.toScalars.Lawful) : ∀ (fs : List (Frame S N)),
    (∀ f ∈ fs, f.Sendable P) → cutAt P fs (wireAll P fs).length = (fs, .clean)
  | [], _ => rfl
  | f :: fs, hfs => by
    have hpos := ((hfs f List.mem_cons_self).encoded hP).length_pos
    have hlen : (wireAll P (f :: fs)).length = (f.wire P).length + (wireAll P fs).length :=
      List.length_append
    have hrest := cutAt_length hP fs fun g hg => hfs g (List.mem_cons_of_mem f hg)
    rw [hlen, cutAt, if_neg (by omega), if_neg (by omega), Nat.add_sub_cancel_left]
    simp only [hrest]

/-- The readers stop with an error at the first frame that is nested too deep. -/
theorem readFrames_deep (hP : P.toScalars.Lawful) {pre post : List (Frame S N)}
    (hfs : ∀ g ∈ pre ++ f :: post, g.Sendable P) (hpre : ∀ g ∈ pre, g.Shallow)
    (hdeep : ¬f.Shallow) : ∀ (src : Source) (fuel : ℕ), src.Flows retry →
      src.content = wireAll P (pre ++ f :: post) → pre.length < fuel →
      ∃ message, readFrames (readFrame P retry) fuel src =
        (pre, .failed (.proto (.invalid message))) := by
  induction pre with
  | nil =>
    intro src fuel hflows hsrc hfuel
    obtain ⟨fuel, rfl⟩ : ∃ n, fuel = n + 1 := ⟨fuel - 1, by simp at hfuel; omega⟩
    have henc := (hfs f List.mem_cons_self).encoded hP
    obtain ⟨src', -, -, -, hread⟩ := readFrame_whole henc hflows hsrc
    obtain ⟨message, hmessage⟩ := hread hdeep
    exact ⟨message, by simp only [readFrames, hmessage]⟩
  | cons g pre ih =>
    intro src fuel hflows hsrc hfuel
    obtain ⟨fuel, rfl⟩ : ∃ n, fuel = n + 1 := ⟨fuel - 1, by simp at hfuel; omega⟩
    have henc := (hfs g List.mem_cons_self).encoded hP
    obtain ⟨src', hcontent, hflows', hread, -⟩ := readFrame_whole henc hflows hsrc
    obtain ⟨message, hmessage⟩ := ih (fun h hh => hfs h (List.mem_cons_of_mem g hh))
      (fun h hh => hpre h (List.mem_cons_of_mem g hh)) src' fuel hflows' hcontent
      (Nat.lt_of_succ_lt_succ hfuel)
    exact ⟨message, by simp only [readFrames, hread (hpre g List.mem_cons_self), hmessage]⟩

/-- The source that holds some bytes and gives them in one piece. -/
def Source.ofBytes : List UInt8 → Source
  | [] => []
  | b :: bytes => [.bytes (b :: bytes)]

theorem Source.content_ofBytes (bytes : List UInt8) : (Source.ofBytes bytes).content = bytes := by
  cases bytes <;> simp [Source.ofBytes, Source.content]

theorem Source.flows_ofBytes (bytes : List UInt8) : (Source.ofBytes bytes).Flows retry := by
  cases bytes <;> simp [Source.ofBytes, Source.Flows]

/-- A frame that is nested too deep, and the shallow ones before it. -/
theorem exists_first_deep : ∀ {fs : List (Frame S N)}, (¬∀ f ∈ fs, f.Shallow) →
    ∃ pre f post, fs = pre ++ f :: post ∧ (∀ g ∈ pre, g.Shallow) ∧ ¬f.Shallow
  | [], h => (h (by simp)).elim
  | f :: fs, h => by
    by_cases hf : f.Shallow
    · have hrest : ¬∀ g ∈ fs, g.Shallow := fun hall => h fun g hg => by
        rcases List.mem_cons.1 hg with rfl | hg
        · exact hf
        · exact hall g hg
      obtain ⟨pre, g, post, rfl, hpre, hg⟩ := exists_first_deep hrest
      refine ⟨f :: pre, g, post, rfl, fun h hh => ?_, hg⟩
      rcases List.mem_cons.1 hh with rfl | hh
      · exact hf
      · exact hpre h hh
    · exact ⟨[], f, fs, rfl, by simp, hf⟩

theorem readsBack_of_shallow (hP : P.toScalars.Lawful) {fs : List (Frame S N)}
    (hfs : ∀ f ∈ fs, f.Sendable P) (hshallow : ∀ f ∈ fs, f.Shallow) (retry : Bool) :
    ReadsBack P retry fs where
  whole src fuel hflows hsrc hfuel := by
    rw [← cutAt_length hP fs hfs]
    exact readFrames_cut hP fs (fun f hf => ⟨hfs f hf, hshallow f hf⟩) _ src fuel hflows
      (by rw [hsrc, List.take_length]) hfuel
  cut k src fuel hflows hsrc hfuel :=
    readFrames_cut hP fs (fun f hf => ⟨hfs f hf, hshallow f hf⟩) k src fuel hflows hsrc hfuel

theorem not_readsBack_of_deep (hP : P.toScalars.Lawful) {fs : List (Frame S N)}
    (hfs : ∀ f ∈ fs, f.Sendable P) (hdeep : ¬∀ f ∈ fs, f.Shallow) (retry : Bool) :
    ¬ReadsBack P retry fs := by
  intro h
  obtain ⟨pre, f, post, rfl, hpre, hf⟩ := exists_first_deep hdeep
  have hlen : pre.length < (pre ++ f :: post).length + 1 := by
    rw [List.length_append]
    omega
  have hwhole := h.whole _ _ (Source.flows_ofBytes _) (Source.content_ofBytes _)
    (Nat.lt_succ_self _)
  obtain ⟨message, hmessage⟩ := readFrames_deep hP hfs hpre hf _ _
    (Source.flows_ofBytes _) (Source.content_ofBytes _) hlen
  rw [hmessage] at hwhole
  cases (Prod.mk.inj hwhole).2

/-- Frames that the encoders take are read back by both readers, over any split of their
bytes and up to any cut, if and only if none is JSON nested too deep for the reader. -/
theorem readsBack_iff_shallow (hP : P.toScalars.Lawful) {fs : List (Frame S N)}
    (hfs : ∀ f ∈ fs, f.Sendable P) :
    (∀ retry, ReadsBack P retry fs) ↔ ∀ f ∈ fs, f.Shallow := by
  refine ⟨fun h => ?_, fun h => readsBack_of_shallow hP hfs h⟩
  by_contra hdeep
  exact not_readsBack_of_deep hP hfs hdeep true (h true)

/-! ## Plain strings and digits -/

/-- The characters JSON strings hold as they are. -/
def plainChar (c : Char) : Bool :=
  ' ' ≤ c && c ≠ '"' && c ≠ '\\'

/-- A string that is spelled without escapes. -/
abbrev Plain := { text : List Char // text.all plainChar = true }

/-- The spelling of plain strings and of single digits. -/
def plainSerde : Serde Plain (Fin 10) where
  writeStr s := '"' :: (s.1 ++ ['"'])
  writeNum n := [Nat.digitChar n]
  readStr
    | '"' :: text =>
      let s := text.takeWhile plainChar
      match text.dropWhile plainChar with
      | '"' :: rest => some (⟨s, List.all_takeWhile⟩, rest)
      | _ => none
    | _ => none
  readNum
    | c :: rest =>
      if h : c.isDigit && c.toNat - 48 < 10 then
        some (⟨c.toNat - 48, by simp at h; exact h.2⟩, rest)
      else none
    | [] => none
  utf8Error _ := "invalid utf-8 sequence"
  textError _ := "recursion limit exceeded"

theorem plainSerde_lawful : plainSerde.toScalars.Lawful where
  str_quote s := ⟨_, rfl⟩
  num_start n := ⟨_, _, rfl, by revert n; decide⟩
  read_str s rest := by
    have hall : ∀ c ∈ s.1, plainChar c = true := List.all_eq_true.1 s.2
    have hquote : plainChar '"' = false := by decide
    have htake : (s.1 ++ '"' :: rest).takeWhile plainChar = s.1 := by
      rw [List.takeWhile_append_of_pos hall, List.takeWhile_cons, hquote]
      simp
    have hdrop : (s.1 ++ '"' :: rest).dropWhile plainChar = '"' :: rest := by
      rw [List.dropWhile_append_of_pos hall, List.dropWhile_cons, hquote]
      simp
    simp only [plainSerde, List.cons_append, List.append_assoc, List.nil_append, htake, hdrop]
  read_num n rest _ := by
    have h : (Nat.digitChar n).isDigit = true ∧ (Nat.digitChar n).toNat - 48 = n := by
      revert n
      decide
    have hlt : (Nat.digitChar n).toNat - 48 < 10 := Nat.lt_of_le_of_lt (Nat.le_of_eq h.2) n.2
    simp only [plainSerde, List.cons_append, List.nil_append, h.1, hlt, decide_true,
      Bool.and_self, dif_pos]
    simp only [h.2]

/-- Arrays in arrays, `n` of them. -/
def nested : ℕ → Json Plain (Fin 10)
  | 0 => .null
  | n + 1 => .arr [nested n]

/-- An object that holds 127 nested arrays. -/
def deepFrame : Frame Plain (Fin 10) :=
  .json [(⟨['a'], by decide⟩, nested 127)]

/-- A message and a payload. -/
def plainFrames : List (Frame Plain (Fin 10)) :=
  [.json [(⟨['t'], by decide⟩, .str ⟨['r', 'e', 's'], by decide⟩),
    (⟨['i', 'd'], by decide⟩, .num 7)], .data 7 [0, 255]]

theorem depth_nested (n : ℕ) : (nested n).depth = n := by
  induction n with
  | zero => rfl
  | succ n ih => simp [nested, Json.depth, Json.depthElems, ih]

theorem wf_nested (n : ℕ) : (nested n).WF := by
  induction n with
  | zero => trivial
  | succ n ih => exact ⟨ih, trivial⟩

theorem sendable_json {fields : List (S × Json S N)} (hwf : (Frame.json fields).WF)
    (hsize : (utf8 (Json.write P.toScalars (.obj fields))).length ≤ maxJson) :
    (Frame.json fields).Sendable P :=
  ⟨hwf, _, if_neg (Nat.not_lt.2 hsize)⟩

theorem deepFrame_sendable : deepFrame.Sendable plainSerde :=
  sendable_json ⟨by simp, wf_nested 127, trivial⟩ (by decide +kernel)

/-- `readsBack_iff_shallow` for a message and a payload. -/
theorem readsBack_plain :
    ReadsBack plainSerde true plainFrames ∧ ReadsBack plainSerde false plainFrames := by
  suffices hsend : ∀ f ∈ plainFrames, f.Sendable plainSerde by
    have hreads := (readsBack_iff_shallow plainSerde_lawful hsend).2 (by decide)
    exact ⟨hreads true, hreads false⟩
  intro f hf
  simp only [plainFrames, List.mem_cons, List.not_mem_nil, or_false] at hf
  rcases hf with rfl | rfl
  · exact sendable_json ⟨by decide, trivial, trivial, trivial⟩ (by decide +kernel)
  · exact ⟨trivial, _, rfl⟩

/-- An object with 127 nested arrays is encoded, and no reader takes it. -/
theorem deep_not_readsBack :
    deepFrame.Sendable plainSerde ∧ ∀ retry, ¬ReadsBack plainSerde retry [deepFrame] := by
  have hdeep : ¬deepFrame.Shallow := by
    simp [deepFrame, Frame.Shallow, Json.depth, Json.depthFields, depth_nested, recursionLimit]
  refine ⟨deepFrame_sendable, fun retry => ?_⟩
  refine not_readsBack_of_deep plainSerde_lawful (fun f hf => ?_) (fun h => ?_) retry
  · exact List.mem_singleton.1 hf ▸ deepFrame_sendable
  · exact hdeep (h _ List.mem_cons_self)

end EngineConsole
