import EngineConsole.DecodedPaths
import EngineConsole.HttpRelay
import EngineConsole.IterationStats

/-!
# The answer to a probe

What `probe_with` of the launcher (`desktop.rs`) makes of the bytes that a listener sends. A sum
that leaves the machine word and a slice outside of its buffer are panics (`none`).

`dechunk` takes its sizes from the text. A body is some complete chunks (`Piece`) and what follows
them; the walk through it is undefined just where a line that follows complete chunks has a size
that leaves the machine word with the place of its data (`Overflows`).
-/

set_option linter.unusedSectionVars false

namespace EngineConsole.ProbeAnswer

open Web Http
open Relay (digitVal digitsValue)
open IterationStats (isWhitespace)

/-! ## The code -/

/-- A buffer : at most `isize::MAX` bytes. -/
abbrev Slice := {b : Bytes // b.length < 2 ^ 63}

/-- A checked sum of machine words. -/
def add (i j : ℕ) : Option ℕ :=
  if i + j < 2 ^ 64 then some (i + j) else none

/-- `b[i..j]` -/
def slice (b : Slice) (i j : ℕ) : Option Slice :=
  if i ≤ j ∧ j ≤ b.1.length then
    some ⟨(b.1.take j).drop i, lt_of_le_of_lt (by simp) b.2⟩
  else none

/-- `windows(n).position` -/
def windowAt (w : Bytes) : Bytes → Option ℕ
  | [] => if w = [] then some 0 else none
  | b :: s => if w.isPrefixOf (b :: s) then some 0 else (windowAt w s).map (· + 1)

/-- `to_digit(16)` -/
def toDigit (c : Char) : Option ℕ :=
  if c.isDigit then some (c.toNat - 48)
  else if 'a' ≤ c ∧ c ≤ 'f' then some (c.toNat - 87)
  else if 'A' ≤ c ∧ c ≤ 'F' then some (c.toNat - 55)
  else none

/-- `from_str_radix(_, 16)` of `usize`. -/
def fromStrRadix (t : List Char) : Option ℕ :=
  let digits := if t.head? = some '+' then t.tail else t
  if digits = [] then none
  else
    (digits.mapM toDigit).bind fun ds =>
      let n := ds.foldl (fun n d => 16 * n + d) 0
      if n < 2 ^ 64 then some n else none

/-- The size that a line says, or 0. -/
def chunkSize (line : Bytes) : ℕ :=
  (fromStrRadix (((utf8Lossy line).dropWhile isWhitespace).rdropWhile isWhitespace)).getD 0

/-- How a round of `dechunk` ends. -/
inductive Round where
  | done (out : Bytes)
  | more (i : ℕ) (out : Bytes)

/-- A round of `dechunk`. -/
def round (b : Slice) (i : ℕ) (out : Bytes) : Option Round := do
  let rest ← slice b i b.1.length
  match windowAt crlf rest.1 with
  | none => some (.done out)
  | some nl =>
    let line ← slice b i (← add i nl)
    let size := chunkSize line.1
    let i ← add i (← add nl 2)
    if size = 0 then some (.done out)
    else if b.1.length < (← add i size) then some (.done out)
    else
      let data ← slice b i (← add i size)
      let i ← add i (← add size 2)
      if b.1.length ≤ i then some (.done (out ++ data.1)) else some (.more i (out ++ data.1))

/-! ## Windows -/

section Windows

variable {w s t x : Bytes} {n : ℕ}

theorem windowAt_front (h : w <+: s) : windowAt w s = some 0 := by
  cases s with
  | nil => rw [windowAt, if_pos (List.prefix_nil.1 h)]
  | cons b s => rw [windowAt, if_pos (List.isPrefixOf_iff_prefix.2 h)]

theorem windowAt_cons {b : UInt8} (h : ¬w <+: b :: s) :
    windowAt w (b :: s) = (windowAt w s).map (· + 1) := by
  rw [windowAt, if_neg fun hp => h (List.isPrefixOf_iff_prefix.1 hp)]

/-- What is before a window, and what follows it. -/
theorem windowAt_split : ∀ {s : Bytes} {n : ℕ}, windowAt w s = some n →
    ∃ x t, s = x ++ w ++ t ∧ x.length = n
  | [], n, h => by
    rw [windowAt] at h
    split_ifs at h with hw
    obtain rfl := Option.some.inj h
    exact ⟨[], [], by rw [hw]; rfl, rfl⟩
  | b :: s, n, h => by
    by_cases hp : w <+: b :: s
    · rw [windowAt_front hp] at h
      obtain rfl := Option.some.inj h
      obtain ⟨t, ht⟩ := hp
      exact ⟨[], t, ht.symm, rfl⟩
    · rw [windowAt_cons hp] at h
      obtain ⟨m, hm, rfl⟩ := Option.map_eq_some_iff.1 h
      obtain ⟨x, t, rfl, rfl⟩ := windowAt_split hm
      exact ⟨b :: x, t, rfl, rfl⟩

/-- The first window is found whatever follows it. -/
theorem windowAt_append_iff (t : Bytes) : ∀ x : Bytes,
    windowAt w (x ++ w ++ t) = some x.length ↔ windowAt w (x ++ w) = some x.length
  | [] => by
    rw [List.nil_append, windowAt_front (List.prefix_append w t), windowAt_front w.prefix_rfl]
  | b :: x => by
    have hiff : w <+: b :: (x ++ w ++ t) ↔ w <+: b :: (x ++ w) := by
      refine ⟨fun h => List.prefix_of_prefix_length_le h (List.prefix_append _ t) ?_,
        fun h => h.trans (List.prefix_append _ t)⟩
      rw [List.length_cons, List.length_append]
      omega
    rw [List.cons_append, List.cons_append, List.length_cons]
    by_cases hp : w <+: b :: (x ++ w)
    · rw [windowAt_front hp, windowAt_front (hiff.2 hp)]
    · rw [windowAt_cons hp, windowAt_cons (mt hiff.1 hp)]
      have hsucc (o : Option ℕ) : o.map (· + 1) = some (x.length + 1) ↔ o = some x.length := by
        cases o <;> simp
      rw [hsucc, hsucc, windowAt_append_iff t x]

end Windows

/-! ## A round -/

/-- The first CR LF ends the line. -/
def Line (line : Bytes) : Prop :=
  windowAt crlf (line ++ crlf) = some line.length

section Rounds

variable {b : Slice} {p s t line out : Bytes} {i j : ℕ}

theorem add_eq (h : i + j < 2 ^ 64) : add i j = some (i + j) :=
  if_pos h

theorem slice_eq (hb : b.1 = p ++ s ++ t) (hi : i = p.length) (hj : j = p.length + s.length) :
    ∃ hs, slice b i j = some ⟨s, hs⟩ := by
  have hlen := congrArg List.length hb
  rw [List.length_append, List.length_append] at hlen
  refine ⟨by have := b.2; omega, ?_⟩
  rw [slice, if_pos (by omega)]
  refine congrArg some (Subtype.ext ?_)
  change (b.1.take j).drop i = s
  rw [hb, hi, hj, ← List.length_append, List.take_left, List.drop_left]

theorem round_none (hb : b.1 = p ++ s) (hs : windowAt crlf s = none) :
    round b p.length out = some (.done out) := by
  obtain ⟨_, hrest⟩ := slice_eq (t := []) (j := b.1.length) (hb.trans (List.append_nil _).symm) rfl
    (by rw [hb, List.length_append])
  rw [round, hrest, Option.bind_eq_bind, Option.bind_some]
  dsimp only
  rw [hs]

/-- A round at a line. -/
theorem round_line (hb : b.1 = p ++ (line ++ crlf ++ t)) (hline : Line line) :
    round b p.length out =
      if chunkSize line = 0 then some (.done out)
      else if 2 ^ 64 ≤ p.length + (line.length + 2) + chunkSize line then none
      else if t.length < chunkSize line then some (.done out)
      else if t.length ≤ chunkSize line + 2 then some (.done (out ++ t.take (chunkSize line)))
      else some (.more (p.length + (line.length + 2) + (chunkSize line + 2))
        (out ++ t.take (chunkSize line))) := by
  have hlen := congrArg List.length hb
  have hbound := b.2
  have hcrlf : crlf.length = 2 := rfl
  simp only [List.length_append, hcrlf] at hlen
  obtain ⟨_, hrest⟩ := slice_eq (t := []) (j := b.1.length) (hb.trans (List.append_nil _).symm) rfl
    (by rw [hb, List.length_append])
  obtain ⟨_, hfirst⟩ := slice_eq (b := b) (p := p) (s := line) (t := crlf ++ t)
    (by rw [hb]; simp) rfl rfl
  rw [round, hrest, Option.bind_eq_bind, Option.bind_some]
  dsimp only
  rw [(windowAt_append_iff t line).2 hline]
  dsimp only
  rw [add_eq (by omega), Option.bind_eq_bind, Option.bind_some, hfirst, Option.bind_some,
    add_eq (i := line.length) (by omega), Option.bind_some, add_eq (by omega), Option.bind_some]
  dsimp only
  split_ifs with hzero hover hshort hend
  · rfl
  · rw [add, if_neg (by omega), Option.bind_none]
  · rw [add_eq (by omega), Option.bind_some, if_pos (by omega)]
  all_goals
    obtain ⟨_, hdata⟩ := slice_eq (b := b) (p := p ++ line ++ crlf) (s := t.take (chunkSize line))
      (t := t.drop (chunkSize line)) (i := p.length + (line.length + 2))
      (j := p.length + (line.length + 2) + chunkSize line)
      (by rw [hb]; simp) (by simp [hcrlf]) (by simp [hcrlf]; omega)
    rw [add_eq (by omega), Option.bind_some, if_neg (by omega), Option.bind_some, hdata,
      Option.bind_some, add_eq (by omega), Option.bind_some, add_eq (by omega), Option.bind_some]
  · rw [if_pos (by omega)]
  · rw [if_neg (by omega)]

/-- What follows a place has no CR LF, or a line. -/
theorem line_cases (s : Bytes) : windowAt crlf s = none ∨
    ∃ line t, s = line ++ crlf ++ t ∧ Line line := by
  cases h : windowAt crlf s with
  | none => exact .inl rfl
  | some n =>
    obtain ⟨line, t, rfl, rfl⟩ := windowAt_split h
    exact .inr ⟨line, t, rfl, (windowAt_append_iff t line).1 h⟩

/-- A round that goes on is at a later place of the buffer. -/
theorem round_more {o : Bytes} (h : round b i out = some (.more j o)) : i < j ∧ j < b.1.length := by
  by_cases hi : i ≤ b.1.length
  · obtain ⟨p, s, hb, rfl⟩ : ∃ p s, b.1 = p ++ s ∧ i = p.length :=
      ⟨b.1.take i, b.1.drop i, (List.take_append_drop i b.1).symm, by simp [hi]⟩
    rcases line_cases s with hs | ⟨line, t, rfl, hline⟩
    · rw [round_none hb hs] at h
      cases h
    · have hlen := congrArg List.length hb
      have hcrlf : crlf.length = 2 := rfl
      simp only [List.length_append, hcrlf] at hlen
      rw [round_line hb hline] at h
      split_ifs at h
      all_goals simp only [Option.some.injEq, Round.more.injEq, reduceCtorEq] at h
      omega
  · rw [round, slice, if_neg (by omega)] at h
    cases h

end Rounds

/-! ## The walk -/

/-- The loop of `dechunk`. -/
def dechunkFrom (b : Slice) (i : ℕ) (out : Bytes) : Option Bytes :=
  match _h : round b i out with
  | none => none
  | some (.done out) => some out
  | some (.more j out) => dechunkFrom b j out
termination_by b.1.length - i
decreasing_by
  have := round_more _h
  omega

def dechunk (b : Slice) : Option Bytes :=
  dechunkFrom b 0 []

/-- A line, data and what ends the data. -/
structure Piece where
  line : Bytes
  data : Bytes
  tail : Bytes

def Piece.bytes (c : Piece) : Bytes :=
  c.line ++ crlf ++ (c.data ++ c.tail)

/-- The line says the size of the data, and two bytes end it. -/
structure Piece.Complete (c : Piece) : Prop where
  line : Line c.line
  size : chunkSize c.line = c.data.length
  ne_nil : c.data ≠ []
  tail : c.tail.length = 2

/-- A line after complete chunks has a size that leaves the machine word. -/
def Overflows (b : Bytes) : Prop :=
  ∃ (cs : List Piece) (line t : Bytes), (∀ c ∈ cs, c.Complete) ∧
    b = cs.flatMap Piece.bytes ++ (line ++ crlf ++ t) ∧ Line line ∧
    2 ^ 64 ≤ (cs.flatMap Piece.bytes).length + (line.length + 2) + chunkSize line

section Walk

variable {b : Slice} {p s t line out : Bytes} {i j : ℕ} {c : Piece}

theorem dechunkFrom_none (h : round b i out = none) : dechunkFrom b i out = none := by
  rw [dechunkFrom]
  split
  · rfl
  · rename_i h'
    cases h.symm.trans h'
  · rename_i h'
    cases h.symm.trans h'

theorem dechunkFrom_done {o : Bytes} (h : round b i out = some (.done o)) :
    dechunkFrom b i out = some o := by
  rw [dechunkFrom]
  split
  · rename_i h'
    cases h.symm.trans h'
  · rename_i h'
    cases h.symm.trans h'
    rfl
  · rename_i h'
    cases h.symm.trans h'

theorem dechunkFrom_more {o : Bytes} (h : round b i out = some (.more j o)) :
    dechunkFrom b i out = dechunkFrom b j o := by
  rw [dechunkFrom]
  split
  · rename_i h'
    cases h.symm.trans h'
  · rename_i h'
    cases h.symm.trans h'
  · rename_i h'
    cases h.symm.trans h'
    rfl

/-- A complete chunk that something follows. -/
theorem round_piece (hb : b.1 = p ++ (c.bytes ++ s)) (hc : c.Complete) (hs : s ≠ []) :
    round b p.length out = some (.more (p ++ c.bytes).length (out ++ c.data)) := by
  have hb' : b.1 = p ++ (c.line ++ crlf ++ (c.data ++ c.tail ++ s)) := by
    rw [hb, Piece.bytes, List.append_assoc (c.line ++ crlf)]
  have hlen := congrArg List.length hb'
  have hbound := b.2
  have hcrlf : crlf.length = 2 := rfl
  have hdata := List.length_pos_iff.2 hc.ne_nil
  have hpos := List.length_pos_iff.2 hs
  have htail := hc.tail
  simp only [List.length_append, hcrlf] at hlen
  have htake : (c.data ++ c.tail ++ s).take c.data.length = c.data := by
    rw [List.append_assoc, List.take_left]
  rw [round_line hb' hc.line, hc.size, htake, if_neg (by omega), if_neg (by omega),
    if_neg (by simp), if_neg (by simp; omega)]
  simp only [Piece.bytes, List.length_append, hcrlf, htail]
  rw [Nat.add_assoc]

/-- The walk through complete chunks. -/
theorem dechunkFrom_pieces {cs : List Piece} (hcs : ∀ c ∈ cs, c.Complete) (hs : s ≠ []) :
    ∀ {p out : Bytes}, b.1 = p ++ (cs.flatMap Piece.bytes ++ s) → dechunkFrom b p.length out =
      dechunkFrom b (p ++ cs.flatMap Piece.bytes).length (out ++ cs.flatMap Piece.data) := by
  induction cs with
  | nil =>
    intro p out _
    rw [List.flatMap_nil, List.append_nil, List.flatMap_nil, List.append_nil]
  | cons c cs ih =>
    intro p out hb
    obtain ⟨hc, hrest⟩ := List.forall_mem_cons.1 hcs
    rw [List.flatMap_cons, List.append_assoc] at hb
    rw [dechunkFrom_more (round_piece hb hc (List.append_ne_nil_of_right_ne_nil _ hs)),
      ih hrest (hb.trans (List.append_assoc _ _ _).symm), List.flatMap_cons, List.flatMap_cons,
      List.append_assoc, List.append_assoc]

/-- Where the walk has no result. -/
theorem dechunkFrom_eq_none (hb : b.1 = p ++ s) (h : dechunkFrom b p.length out = none) :
    ∃ (cs : List Piece) (line t : Bytes), (∀ c ∈ cs, c.Complete) ∧
      s = cs.flatMap Piece.bytes ++ (line ++ crlf ++ t) ∧ Line line ∧
      2 ^ 64 ≤ (p ++ cs.flatMap Piece.bytes).length + (line.length + 2) + chunkSize line := by
  induction hn : s.length using Nat.strong_induction_on generalizing p s out with
  | _ n ih =>
    rcases line_cases s with hs | ⟨line, t, rfl, hline⟩
    · rw [dechunkFrom_done (round_none hb hs)] at h
      cases h
    have hround : round b p.length out = _ := round_line hb hline
    split_ifs at hround with hzero hover hshort hend
    · rw [dechunkFrom_done hround] at h
      cases h
    · exact ⟨[], line, t, nofun, rfl, hline, by simpa using hover⟩
    · rw [dechunkFrom_done hround] at h
      cases h
    · rw [dechunkFrom_done hround] at h
      cases h
    · -- the line, its data and two bytes are a complete chunk
      obtain ⟨data, tail, r, rfl, hdata, htail⟩ : ∃ data tail r, t = data ++ tail ++ r ∧
          data.length = chunkSize line ∧ tail.length = 2 := by
        refine ⟨t.take (chunkSize line), (t.drop (chunkSize line)).take 2,
          (t.drop (chunkSize line)).drop 2, ?_, ?_, ?_⟩
        · rw [List.append_assoc, List.take_append_drop, List.take_append_drop]
        · rw [List.length_take]
          omega
        · rw [List.length_take, List.length_drop]
          omega
      have hc : (Piece.mk line data tail).Complete :=
        ⟨hline, hdata.symm, fun hd : data = [] => hzero (by rw [← hdata, hd]; rfl), htail⟩
      have hs : line ++ crlf ++ (data ++ tail ++ r) = (Piece.mk line data tail).bytes ++ r := by
        rw [Piece.bytes, List.append_assoc (line ++ crlf)]
      have hr : r ≠ [] := by
        rintro rfl
        simp only [List.length_append, List.length_nil] at hend
        omega
      rw [hs] at hb
      rw [dechunkFrom_more (round_piece hb hc hr)] at h
      obtain ⟨cs, line', t', hcs, hrest, hline', hover'⟩ := ih r.length (by
          rw [← hn, hs, List.length_append]
          have : 0 < (Piece.mk line data tail).bytes.length := by
            simp only [Piece.bytes, List.length_append]
            omega
          omega) (hb.trans (List.append_assoc _ _ _).symm) h rfl
      refine ⟨⟨line, data, tail⟩ :: cs, line', t', List.forall_mem_cons.2 ⟨hc, hcs⟩, ?_, hline', ?_⟩
      · rw [hs, hrest, List.flatMap_cons]
        exact (List.append_assoc _ _ _).symm
      · rwa [List.flatMap_cons, ← List.append_assoc]

/-- `dechunk` panics just where a size leaves the machine word. -/
theorem dechunk_eq_none_iff : dechunk b = none ↔ Overflows b.1 := by
  refine ⟨fun h => ?_, ?_⟩
  · obtain ⟨cs, line, t, hcs, hb, hline, hover⟩ := dechunkFrom_eq_none (p := []) rfl h
    exact ⟨cs, line, t, hcs, hb, hline, hover⟩
  · rintro ⟨cs, line, t, hcs, hb, hline, hover⟩
    have hne : line ++ crlf ++ t ≠ [] := by simp [crlf]
    rw [dechunk, ← List.length_nil (α := UInt8), dechunkFrom_pieces hcs hne hb, List.nil_append]
    refine dechunkFrom_none ?_
    rw [round_line hb hline, if_neg, if_pos hover]
    have hlen := congrArg List.length hb
    have hbound := b.2
    have hcrlf : crlf.length = 2 := rfl
    simp only [List.length_append, hcrlf] at hlen
    omega

end Walk

/-! ## The chunked coding -/

/-- The size and the data of a chunk. -/
structure Sized where
  size : Bytes
  data : Bytes

def Sized.bytes (c : Sized) : Bytes :=
  c.size ++ crlf ++ (c.data ++ crlf)

/-- A size in hexadecimal digits of either case. -/
structure SizeText (size : Bytes) (n : ℕ) : Prop where
  ne_nil : size ≠ []
  digits : ∀ b ∈ size, hexDigit b
  value : digitsValue 16 size = n

/-- A body in chunks, the size 0, and a trailer. -/
structure Coded where
  chunks : List Sized
  zero : Bytes
  trailer : Bytes

structure Coded.Ok (w : Coded) : Prop where
  sizes : ∀ c ∈ w.chunks, SizeText c.size c.data.length ∧ c.data ≠ []
  zero : SizeText w.zero 0

def Coded.bytes (w : Coded) : Bytes :=
  w.chunks.flatMap Sized.bytes ++ (w.zero ++ crlf ++ w.trailer)

def Coded.body (w : Coded) : Bytes :=
  w.chunks.flatMap Sized.data

section Sizes

variable {size : Bytes} {n : ℕ}

set_option maxRecDepth 8000 in
theorem hexDigit_char : ∀ b < 256, hexDigit (UInt8.ofNat b) →
    UInt8.ofNat b < 128 ∧ UInt8.ofNat b ≠ 13 ∧ Char.ofNat b ≠ '+' ∧
      isWhitespace (Char.ofNat b) = false ∧
      toDigit (Char.ofNat b) = some (digitVal (UInt8.ofNat b)) := by
  decide

theorem hexDigit_byte {b : UInt8} (h : hexDigit b) : b < 128 ∧ b ≠ 13 ∧ Char.ofNat b.toNat ≠ '+' ∧
    isWhitespace (Char.ofNat b.toNat) = false ∧
      toDigit (Char.ofNat b.toNat) = some (digitVal b) := by
  have hb := hexDigit_char b.toNat b.toNat_lt
  rw [UInt8.ofNat_toNat] at hb
  exact hb h

/-- The text of digits. -/
theorem utf8Lossy_digits : ∀ {size : Bytes}, (∀ b ∈ size, hexDigit b) →
    utf8Lossy size = size.map fun b => Char.ofNat b.toNat
  | [], _ => by
    rw [utf8Lossy_def]
    rfl
  | b :: size, h => by
    obtain ⟨hb, hrest⟩ := List.forall_mem_cons.1 h
    rw [utf8Lossy_ascii (hexDigit_byte hb).1, utf8Lossy_digits hrest, List.map_cons]

theorem mapM_toDigit : ∀ {size : Bytes}, (∀ b ∈ size, hexDigit b) →
    (size.map fun b => Char.ofNat b.toNat).mapM toDigit = some (size.map digitVal)
  | [], _ => rfl
  | b :: size, h => by
    obtain ⟨hb, hrest⟩ := List.forall_mem_cons.1 h
    rw [List.map_cons, List.mapM_cons, (hexDigit_byte hb).2.2.2.2, mapM_toDigit hrest]
    rfl

/-- A size is read from its digits. -/
theorem chunkSize_eq (h : SizeText size n) (hn : n < 2 ^ 64) : chunkSize size = n := by
  have hspace : ∀ c ∈ size.map fun b => Char.ofNat b.toNat, ¬isWhitespace c = true := by
    intro c hc
    obtain ⟨b, hb, rfl⟩ := List.mem_map.1 hc
    rw [(hexDigit_byte (h.digits b hb)).2.2.2.1]
    exact Bool.false_ne_true
  have hsign : (size.map fun b => Char.ofNat b.toNat).head? ≠ some '+' := by
    intro hhead
    obtain ⟨b, hb, hc⟩ := List.mem_map.1 (List.mem_of_mem_head? hhead)
    exact (hexDigit_byte (h.digits b hb)).2.2.1 hc
  have hdrop : (size.map fun b => Char.ofNat b.toNat).dropWhile isWhitespace =
      size.map fun b => Char.ofNat b.toNat := by
    rw [List.dropWhile_eq_self_iff]
    exact fun hpos => hspace _ (List.getElem_mem hpos)
  have htrim : (size.map fun b => Char.ofNat b.toNat).rdropWhile isWhitespace =
      size.map fun b => Char.ofNat b.toNat := by
    rw [List.rdropWhile_eq_self_iff]
    exact fun hne => hspace _ (List.getLast_mem hne)
  have hvalue : (size.map digitVal).foldl (fun n d => 16 * n + d) 0 = n := by
    rw [List.foldl_map]
    exact h.value
  rw [chunkSize, utf8Lossy_digits h.digits, hdrop, htrim, fromStrRadix]
  dsimp only
  rw [if_neg hsign, if_neg (by simpa using h.ne_nil), mapM_toDigit h.digits, Option.bind_some,
    hvalue, if_pos hn, Option.getD_some]

/-- Without a CR, a text and CR LF are a line. -/
theorem windowAt_crlf : ∀ {line : Bytes}, 13 ∉ line → Line line
  | [], _ => rfl
  | b :: line, h => by
    obtain ⟨hb, hrest⟩ := not_or.1 (mt List.mem_cons.2 h)
    have hp : ¬crlf <+: b :: (line ++ crlf) := fun hp => hb (List.cons_prefix_cons.1 hp).1
    have ih : windowAt crlf (line ++ crlf) = some line.length := windowAt_crlf hrest
    rw [Line, List.cons_append, windowAt_cons hp, ih, List.length_cons]
    rfl

theorem SizeText.line (h : SizeText size n) : Line size :=
  windowAt_crlf fun h13 => (hexDigit_byte (h.digits 13 h13)).2.1 rfl

end Sizes

/-- A chunk as a piece. -/
def Sized.piece (c : Sized) : Piece :=
  ⟨c.size, c.data, crlf⟩

/-- A body in chunks is read. -/
theorem dechunk_coded {b : Slice} {w : Coded} (hw : w.Ok) (hb : w.bytes = b.1) :
    dechunk b = some w.body := by
  have hbytes : (w.chunks.map Sized.piece).flatMap Piece.bytes = w.chunks.flatMap Sized.bytes :=
    List.flatMap_map _ _ _
  have hdata : (w.chunks.map Sized.piece).flatMap Piece.data = w.body :=
    List.flatMap_map _ _ _
  have hpieces : ∀ c ∈ w.chunks.map Sized.piece, c.Complete := by
    intro c hc
    obtain ⟨c, hmem, rfl⟩ := List.mem_map.1 hc
    obtain ⟨hsize, hne⟩ := hw.sizes c hmem
    have hle : c.data.length ≤ (w.chunks.flatMap Sized.bytes).length := by
      obtain ⟨before, after, hchunks⟩ := List.append_of_mem hmem
      rw [hchunks, List.flatMap_append, List.flatMap_cons]
      simp only [Sized.bytes, List.length_append]
      omega
    have hlen := congrArg List.length hb
    have hbound := b.2
    simp only [Coded.bytes, List.length_append] at hlen
    exact ⟨hsize.line, chunkSize_eq hsize (by change c.data.length < 2 ^ 64; omega), hne, rfl⟩
  have hzero : w.zero ++ crlf ++ w.trailer ≠ [] := by simp [crlf]
  have hb' : b.1 = (w.chunks.map Sized.piece).flatMap Piece.bytes ++
      (w.zero ++ crlf ++ w.trailer) := by
    rw [hbytes, ← hb, Coded.bytes]
  rw [dechunk, ← List.length_nil (α := UInt8), dechunkFrom_pieces hpieces hzero hb',
    List.nil_append, List.nil_append, hdata]
  refine dechunkFrom_done ?_
  rw [round_line hb' hw.zero.line, chunkSize_eq hw.zero (by decide), if_pos rfl]

/-! ## The probe -/

/-- `Check` -/
inductive Check where
  | console | otherUser | foreign | down
  deriving DecidableEq

/-- What a read of the socket gives : bytes, which may come after the deadline; a stall, which may
have taken the whole budget; or an error. -/
inductive Read where
  | data (bytes : Bytes) (late : Bool)
  | stall (spent : Bool)
  | failed

/-- `PROBE_MAX_BYTES` -/
def probeMaxBytes : ℕ := 64 * 1024

/-- `HEALTH_KEYS` -/
def healthKeys : List String :=
  ["status", "version", "engines", "docker_context", "egress_mode"]

/-- The loop of reads; the stream ends with the list. -/
def readAll : List Read → Slice → Except Check Slice
  | [], raw => .ok raw
  | .data bytes late :: reads, raw =>
    if bytes = [] then .ok raw
    else if h : probeMaxBytes + 16 * 1024 < (raw.1 ++ bytes).length ∨ late = true then
      .error .foreign
    else readAll reads ⟨raw.1 ++ bytes, by rw [probeMaxBytes] at h; omega⟩
  | .stall spent :: reads, raw => if spent then .error .down else readAll reads raw
  | .failed :: _, _ => .error .down

/-- The end of a head. -/
def headEnd : Bytes :=
  crlf ++ crlf

section Probe

variable (lower : List Char → List Char) (keys : Bytes → Option (List String))

/-- A head that says that the body is chunked. -/
def chunked (head : Bytes) : Bool :=
  decide ("transfer-encoding: chunked".toList <:+: lower (utf8Lossy head))

/-- What the launcher makes of a body : an object of JSON with the keys is the console's. -/
def checkBody (body : Bytes) : Check :=
  if probeMaxBytes < body.length then .foreign
  else
    match keys body with
    | some ks => if healthKeys.all ks.contains then .console else .foreign
    | none => .foreign

/-- What the launcher makes of the bytes it read. -/
def answer (raw : Slice) : Option Check :=
  match windowAt headEnd raw.1 with
  | none => some .down
  | some split => do
    let head ← slice raw 0 split
    let rest ← slice raw (← add split 4) raw.1.length
    let body ← if chunked lower head.1 then dechunk rest else some rest.1
    some (checkBody keys body)

/-- `probe_with`, from the reads of the answer on. -/
def probe (reads : List Read) : Option Check :=
  match readAll reads ⟨[], by decide⟩ with
  | .error c => some c
  | .ok raw => answer lower keys raw

/-- Where the launcher panics on the bytes it read. -/
theorem answer_eq_none_iff {raw : Slice} : answer lower keys raw = none ↔
    ∃ head body, raw.1 = head ++ headEnd ++ body ∧
      windowAt headEnd (head ++ headEnd) = some head.length ∧ chunked lower head = true ∧
      Overflows body := by
  have hend : headEnd.length = 4 := rfl
  -- what the launcher does with a head and a body
  have hsplit : ∀ head body, raw.1 = head ++ headEnd ++ body →
      windowAt headEnd (head ++ headEnd) = some head.length →
      (answer lower keys raw = none ↔ chunked lower head = true ∧ Overflows body) := by
    intro head body hraw hfirst
    have hlen := congrArg List.length hraw
    have hbound := raw.2
    simp only [List.length_append, hend] at hlen
    obtain ⟨_, hhead⟩ := slice_eq (p := []) (s := head) (t := headEnd ++ body) (i := 0)
      (by rw [hraw]; simp) rfl (Nat.zero_add _).symm
    obtain ⟨_, hrest⟩ := slice_eq (p := head ++ headEnd) (s := body) (t := []) (j := raw.1.length)
      (by rw [hraw, List.append_nil]) rfl (by rw [hraw, List.length_append])
    rw [List.length_append, hend] at hrest
    rw [answer, hraw, (windowAt_append_iff body head).2 hfirst, ← hraw]
    dsimp only
    rw [hhead, Option.bind_eq_bind, Option.bind_some, add_eq (by omega)]
    simp only [Option.bind_eq_bind, Option.bind_some, hrest]
    cases hchunked : chunked lower head with
    | false =>
      rw [if_neg Bool.false_ne_true]
      exact iff_of_false nofun fun h => nomatch h.1
    | true =>
      have hbody := dechunk_eq_none_iff (b := ⟨body, ‹_›⟩)
      rw [if_pos rfl, Option.bind_eq_none_iff, ← hbody]
      refine ⟨fun h => ⟨rfl, Option.eq_none_iff_forall_ne_some.2 fun out hout => ?_⟩, fun h => ?_⟩
      · cases h out hout
      · rw [h.2]
        nofun
  refine ⟨fun h => ?_, fun ⟨head, body, hraw, hfirst, h⟩ => (hsplit head body hraw hfirst).2 h⟩
  cases hwin : windowAt headEnd raw.1 with
  | none =>
    rw [answer, hwin] at h
    cases h
  | some n =>
    obtain ⟨head, body, hraw, rfl⟩ := windowAt_split hwin
    rw [hraw] at hwin
    have hfirst := (windowAt_append_iff body head).1 hwin
    exact ⟨head, body, hraw, hfirst, (hsplit head body hraw hfirst).1 h⟩

theorem probe_eq_none_iff {reads : List Read} : probe lower keys reads = none ↔
    ∃ raw, readAll reads ⟨[], by decide⟩ = .ok raw ∧ answer lower keys raw = none := by
  rw [probe]
  cases h : readAll reads ⟨[], by decide⟩ with
  | error c => exact iff_of_false nofun fun ⟨raw, hraw, _⟩ => nomatch hraw
  | ok raw => exact ⟨fun ha => ⟨raw, rfl, ha⟩, fun ⟨raw', hraw, ha⟩ => by
      obtain rfl := Except.ok.inj hraw
      exact ha⟩

end Probe

/-- The walk through a body has a result, which is the content where the body is in chunks. -/
def Survives (b : Slice) : Prop :=
  dechunk b ≠ none ∧ ∀ w : Coded, w.Ok → w.bytes = b.1 → dechunk b = some w.body

/-- A head, and a size near the end of the machine word. -/
def longHead : Bytes :=
  Relay.word "HTTP/1.1 200 OK\r\nTransfer-Encoding: chunked"

def longSize : Bytes :=
  Relay.word "ffffffffffffffff"

theorem longHead_chunked : windowAt headEnd (longHead ++ headEnd) = some longHead.length ∧
    chunked (List.map Char.toLower) longHead = true := by
  decide +kernel

theorem longSize_overflows : Overflows (longSize ++ crlf) := by
  refine ⟨[], longSize, [], nofun, rfl, ?_, ?_⟩
  · unfold Line
    decide +kernel
  · decide +kernel

/-- The launcher panics on a whole answer with such a size. -/
theorem probe_panics : probe (List.map Char.toLower) (fun _ => none)
    [.data (longHead ++ headEnd ++ (longSize ++ crlf)) false] = none := by
  have hshort : ¬(probeMaxBytes + 16 * 1024 < (longHead ++ headEnd ++ (longSize ++ crlf)).length ∨
      false = true) := by
    decide +kernel
  refine (probe_eq_none_iff _ _).2
    ⟨⟨longHead ++ headEnd ++ (longSize ++ crlf), by decide +kernel⟩, ?_, ?_⟩
  · rw [readAll, if_neg (by decide +kernel)]
    exact dif_neg hshort
  · exact (answer_eq_none_iff _ _).2 ⟨longHead, longSize ++ crlf, rfl, longHead_chunked.1,
      longHead_chunked.2, longSize_overflows⟩

/-- The walk through a body survives, and reads a body in chunks, just where no size leaves the
machine word; so does the probe. -/
theorem survives_iff (lower : List Char → List Char) (keys : Bytes → Option (List String)) :
    (∀ b : Slice, Survives b ↔ ¬Overflows b.1) ∧
      ∀ reads, probe lower keys reads ≠ none ↔
        ∀ raw, readAll reads ⟨[], by decide⟩ = .ok raw →
          ∀ head body, raw.1 = head ++ headEnd ++ body →
            windowAt headEnd (head ++ headEnd) = some head.length → chunked lower head = true →
              ¬Overflows body := by
  refine ⟨fun b => ⟨fun h => mt dechunk_eq_none_iff.2 h.1, fun h =>
    ⟨mt dechunk_eq_none_iff.1 h, fun w hw hb => dechunk_coded hw hb⟩⟩, fun reads => ?_⟩
  rw [Ne, probe_eq_none_iff]
  refine ⟨fun h raw hraw head body hsplit hfirst hchunked hover => ?_, fun h ⟨raw, hraw, ha⟩ => ?_⟩
  · exact h ⟨raw, hraw, (answer_eq_none_iff lower keys).2
      ⟨head, body, hsplit, hfirst, hchunked, hover⟩⟩
  · obtain ⟨head, body, hsplit, hfirst, hchunked, hover⟩ := (answer_eq_none_iff lower keys).1 ha
    exact h raw hraw head body hsplit hfirst hchunked hover

end EngineConsole.ProbeAnswer
