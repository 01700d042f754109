import EngineConsole.BudgetReader
import EngineConsole.DecodedPaths
import EngineConsole.Frames

/-!
# GGUF headers

The header reader of the node (`gguf.rs`) : it takes the general facts, a few sizes and the number
of parameters from a header, within a budget of bytes.

A header that is written out is read back as it is, up to the limits on what is kept, a header that
is cut short is never taken for a complete one, and no bytes whatever make the reader consume more
than its budget (`header_reads`).
-/

set_option linter.unusedSectionVars false

namespace EngineConsole

namespace Gguf

open Web (Text ascii utf8Lossy)
open Budget

/-! ## Little-endian numbers -/

/-- `from_le_bytes` -/
def ofLe : List UInt8 → ℕ
  | [] => 0
  | b :: bs => b.toNat + 256 * ofLe bs

/-- `from_le_bytes` of a signed type. -/
def ofLeSigned (bs : List UInt8) : ℤ :=
  if 2 * ofLe bs < 256 ^ bs.length then ofLe bs else ofLe bs - 256 ^ bs.length

/-! ## The reader -/

/-- `MAGIC` -/
def magic : List UInt8 := [71, 71, 85, 70]

/-- `MAX_KV`, `MAX_TENSORS`, `MAX_DIMS`, `MAX_KEY`, `MAX_KEEP_STR` and `MAX_DEPTH` -/
def maxKv : ℕ := 1000000
def maxTensors : ℕ := 1000000
def maxDims : ℕ := 8
def maxKey : ℕ := 65535
def maxKeepStr : ℕ := 4096
def maxDepth : ℕ := 3

/-- The types of values. -/
inductive Ty where
  | u8 | i8 | u16 | i16 | u32 | i32 | f32 | bool | str | arr | u64 | i64 | f64
  deriving DecidableEq

/-- `U8` and so on. -/
def Ty.code : Ty → ℕ
  | .u8 => 0 | .i8 => 1 | .u16 => 2 | .i16 => 3 | .u32 => 4 | .i32 => 5 | .f32 => 6 | .bool => 7
  | .str => 8 | .arr => 9 | .u64 => 10 | .i64 => 11 | .f64 => 12

/-- The type with a code. -/
def tyOf (code : ℕ) : Option Ty :=
  [Ty.u8, .i8, .u16, .i16, .u32, .i32, .f32, .bool, .str, .arr, .u64, .i64, .f64][code]?

/-- `fixed_size` -/
def Ty.fixedSize : Ty → Option ℕ
  | .u8 | .i8 | .bool => some 1
  | .u16 | .i16 => some 2
  | .u32 | .i32 | .f32 => some 4
  | .u64 | .i64 | .f64 => some 8
  | .str | .arr => none

/-- `Kv` : a value that was read; `none` for a long string or an array. -/
inductive Kv where
  | int (i : ℤ)
  | float
  | bool (b : Bool)
  | str (s : Text)
  | none
  deriving DecidableEq

/-- The values that are kept, by their keys. -/
abbrev Found := Text → Option Kv

/-- `Reader::u32` -/
def u32 : Reader Found ℕ := do
  let b ← take 4
  pure (ofLe b)

/-- `Reader::u64` -/
def u64 : Reader Found ℕ := do
  let b ← take 8
  pure (ofLe b)

/-- `Reader::len` : a count or length. -/
def len (wide : Bool) : Reader Found ℕ :=
  if wide then u64 else u32

/-- What `Reader::fixed` makes of the bytes. -/
def Ty.value (t : Ty) (b : List UInt8) : Kv :=
  match t with
  | .u8 | .u16 | .u32 | .u64 => .int (ofLe b)
  | .i8 | .i16 | .i32 | .i64 => .int (ofLeSigned b)
  | .bool => .bool (ofLe b != 0)
  | _ => .float

/-- `Reader::fixed` -/
def fixed (t : Ty) (size : ℕ) : Reader Found Kv := do
  let b ← take size
  pure (t.value b)

/-- `Reader::read_str` -/
def readStr (wide : Bool) (keep : ℕ) : Reader Found (Option Text) := do
  let n ← len wide
  if keep < n then do
    skip n
    pure none
  else do
    let b ← take n
    pure (some (utf8Lossy b))

/-- The elements of an array, in `Reader::skip_value`, with what skips one of them. -/
def skipElems (skipOne : ℕ → Reader Found Unit) (etype count : ℕ) : Reader Found Unit :=
  match tyOf etype with
  | none => stop
  | some e =>
    match e.fixedSize with
    | some size => if count * size < 2 ^ 64 then skip (count * size) else stop
    | none => do
      -- every element costs at least 4 bytes
      let n ← left
      if n / 4 < count then stop
      else iterate (fun _ => skipOne etype) count ()

/-- `Reader::skip_value`, where arrays may be `room` deep. -/
def skipValue (wide : Bool) (room vtype : ℕ) : Reader Found Unit :=
  match tyOf vtype with
  | none => stop
  | some t =>
    match t.fixedSize with
    | some n => skip n
    | none =>
      if t = .str then do
        let n ← len wide
        skip n
      else
        match room with
        | 0 => stop
        | room + 1 => do
          let etype ← u32
          let count ← len wide
          skipElems (fun etype => skipValue wide room etype) etype count

/-- `Reader::read_value` -/
def readValue (vtype : ℕ) (wide : Bool) : Reader Found Kv :=
  match tyOf vtype with
  | none => stop
  | some t =>
    match t.fixedSize with
    | some size => fixed t size
    | none =>
      if t = .str then do
        let s ← readStr wide maxKeepStr
        pure (s.elim .none .str)
      else do
        skipValue wide maxDepth vtype
        pure .none

/-- `ARCH_KEYS` -/
def archKeys : List Text :=
  [ascii "context_length", ascii "block_count", ascii "embedding_length",
    ascii "attention.head_count", ascii "attention.head_count_kv", ascii "expert_count",
    ascii "expert_used_count"]

/-- `GENERAL_KEYS` -/
def generalKeys : List Text :=
  [ascii "general.architecture", ascii "general.name", ascii "general.file_type",
    ascii "general.size_label", ascii "general.basename", ascii "split.count", ascii "split.no"]

/-- The keys whose values are kept. -/
def wanted (key : Text) : Bool :=
  generalKeys.contains key || archKeys.any fun s => ('.' :: s).isSuffixOf key

/-- A key and its value, in `read_body`. -/
def readKv (wide : Bool) : Reader Found Unit := do
  let klen ← len wide
  if maxKey < klen then stop
  else do
    let b ← take klen
    let key := utf8Lossy b
    let vtype ← u32
    if wanted key then do
      let v ← readValue vtype wide
      keep fun kv => Function.update kv key (some v)
    else skipValue wide maxDepth vtype

/-- `u128::MAX` -/
def maxU128 : ℕ := 2 ^ 128 - 1

/-- `saturating_mul` and `saturating_add` -/
def satMul (a b : ℕ) : ℕ := min (a * b) maxU128
def satAdd (a b : ℕ) : ℕ := min (a + b) maxU128

/-- A tensor, in `read_body` : the total with its elements. -/
def readTensor (wide : Bool) (total : ℕ) : Reader Found ℕ := do
  let _ ← readStr wide 0
  let nDims ← u32
  if maxDims < nDims then stop
  else do
    let count ← iterate (fun count => do
      let d ← u64
      pure (satMul count d)) nDims 1
    skip (4 + 8)
    pure (satAdd total count)

/-- `2 ** 53` -/
def maxExact : ℕ := 2 ^ 53

/-- `read_body` : the tensors and the parameters, when it gets to its end. -/
def readBody (wide tensors : Bool) : Reader Found (Option (ℕ × Option ℕ)) := do
  let nTensors ← len wide
  let nKv ← len wide
  if maxKv < nKv || maxTensors < nTensors then stop
  else do
    iterate (fun _ => readKv wide) nKv ()
    if tensors then do
      let total ← iterate (readTensor wide) nTensors 0
      pure (some (nTensors, if total ≤ maxExact then some total else none))
    else pure none

/-! ## The facts -/

/-- `file_type_name` -/
def fileTypeName (ft : ℤ) : Option Text :=
  ([(0, ascii "F32"), (1, ascii "F16"), (2, ascii "Q4_0"), (3, ascii "Q4_1"), (7, ascii "Q8_0"),
    (8, ascii "Q5_0"), (9, ascii "Q5_1"), (10, ascii "Q2_K"), (11, ascii "Q3_K_S"),
    (12, ascii "Q3_K_M"), (13, ascii "Q3_K_L"), (14, ascii "Q4_K_S"), (15, ascii "Q4_K_M"),
    (16, ascii "Q5_K_S"), (17, ascii "Q5_K_M"), (18, ascii "Q6_K"), (19, ascii "IQ2_XXS"),
    (20, ascii "IQ2_XS"), (21, ascii "Q2_K_S"), (22, ascii "IQ3_XS"), (23, ascii "IQ3_XXS"),
    (24, ascii "IQ1_S"), (25, ascii "IQ4_NL"), (26, ascii "IQ3_S"), (27, ascii "IQ3_M"),
    (28, ascii "IQ2_S"), (29, ascii "IQ2_M"), (30, ascii "IQ4_XS"), (31, ascii "IQ1_M"),
    (32, ascii "BF16"), (36, ascii "TQ1_0"), (37, ascii "TQ2_0"), (38, ascii "MXFP4_MOE")].find?
      fun e => e.1 == ft).map Prod.snd

/-- `int_value` : an integer that JSON can hold. -/
def intValue (i : ℤ) : Option ℤ :=
  if -2 ^ 63 ≤ i && i < 2 ^ 64 then some i else none

/-- `s_of` -/
def sOf : Option Kv → Option Text
  | some (.str s) => some (s.take 256)
  | _ => none

/-- `i_of` -/
def iOf : Option Kv → Option ℤ
  | some (.int i) => if 0 ≤ i && i ≤ maxExact then intValue i else none
  | _ => none

/-- `file_type` and `quant` -/
def fileTypeOf : Option Kv → Option ℤ
  | some (.int i) => intValue i
  | _ => none

def quantOf : Option Kv → Option Text
  | some (.int i) => fileTypeName i
  | some (.bool b) => fileTypeName b.toInt
  | _ => none

/-- What is said of a header, `none` for `null`. -/
structure Facts where
  arch : Option Text
  name : Option Text
  sizeLabel : Option Text
  basename : Option Text
  fileType : Option ℤ
  quant : Option Text
  splitCount : Option ℤ
  context : Option ℤ
  blockCount : Option ℤ
  embeddingLength : Option ℤ
  headCount : Option ℤ
  headCountKv : Option ℤ
  expertCount : Option ℤ
  expertUsedCount : Option ℤ
  deriving DecidableEq

/-- The architecture that was kept. -/
def archOf (kv : Found) : Option Text :=
  match kv (ascii "general.architecture") with
  | some (.str s) => some s
  | _ => none

/-- A size of the architecture. -/
def sizeOfArch (kv : Found) (suffix : Text) : Option ℤ :=
  (archOf kv).bind fun a => iOf (kv (a ++ '.' :: suffix))

/-- The facts of `read_header`. -/
def factsOf (kv : Found) : Facts where
  arch := archOf kv
  name := sOf (kv (ascii "general.name"))
  sizeLabel := sOf (kv (ascii "general.size_label"))
  basename := sOf (kv (ascii "general.basename"))
  fileType := fileTypeOf (kv (ascii "general.file_type"))
  quant := quantOf (kv (ascii "general.file_type"))
  splitCount := iOf (kv (ascii "split.count"))
  context := sizeOfArch kv (ascii "context_length")
  blockCount := sizeOfArch kv (ascii "block_count")
  embeddingLength := sizeOfArch kv (ascii "embedding_length")
  headCount := sizeOfArch kv (ascii "attention.head_count")
  headCountKv := sizeOfArch kv (ascii "attention.head_count_kv")
  expertCount := sizeOfArch kv (ascii "expert_count")
  expertUsedCount := sizeOfArch kv (ascii "expert_used_count")

/-- What `read_header` returns : the facts are left out for a version that it does not know, the
tensors and the parameters unless it has read them. -/
structure Header where
  version : ℕ
  complete : Bool
  tensors : Option (ℕ × Option ℕ)
  facts : Option Facts
  deriving DecidableEq

/-- The version, after the magic. -/
def readVersion : Reader Found ℕ := do
  let b ← take 4
  if b ≠ magic then stop else u32

/-- `read_header`, and the reader at its end. -/
def readHeader (bytes : List UInt8) (budget : ℕ) (tensors : Bool) :
    Option Header × State Found :=
  match readVersion.run ⟨bytes, budget, fun _ => none⟩ with
  | (none, s) => (none, s)
  | (some version, s) =>
    if 1 ≤ version && version ≤ 3 then
      let r := (readBody (2 ≤ version) tensors).run s
      -- the last thing of a body that is read to its end is to say that it is complete
      (some ⟨version, r.1.isSome, r.1.join, some (factsOf r.2.found)⟩, r.2)
    else (some ⟨version, false, none, none⟩, s)

/-! ## Headers and their bytes -/

/-- `to_le_bytes` -/
def le : ℕ → ℕ → List UInt8
  | 0, _ => []
  | w + 1, n => UInt8.ofNat (n % 256) :: le w (n / 256)

/-- A value of a header. -/
inductive GValue where
  | int (t : Ty) (i : ℤ)
  | float (t : Ty) (raw : List UInt8)
  | bool (b : Bool)
  | str (s : Text)
  | arr (t : Ty) (elems : List GValue)

/-- The type of a value. -/
def GValue.ty : GValue → Ty
  | .int t _ => t
  | .float t _ => t
  | .bool _ => .bool
  | .str _ => .str
  | .arr _ _ => .arr

/-- The width of a count or length. -/
def lenWidth (wide : Bool) : ℕ :=
  if wide then 8 else 4

/-- A string. -/
def strBytes (wide : Bool) (s : Text) : List UInt8 :=
  le (lenWidth wide) (utf8 s).length ++ utf8 s

mutual

/-- A value, without its type. -/
def GValue.bytes (wide : Bool) : GValue → List UInt8
  | .int t i => le (t.fixedSize.getD 0) (i % 256 ^ t.fixedSize.getD 0).toNat
  | .float _ raw => raw
  | .bool b => [if b then 1 else 0]
  | .str s => strBytes wide s
  | .arr t elems => le 4 t.code ++ (le (lenWidth wide) elems.length ++ elemsBytes wide elems)

def elemsBytes (wide : Bool) : List GValue → List UInt8
  | [] => []
  | v :: vs => v.bytes wide ++ elemsBytes wide vs

end

/-- An integer that a type can hold. -/
def Ty.Holds (i : ℤ) : Ty → Prop
  | .u8 => 0 ≤ i ∧ i < 2 ^ 8
  | .i8 => -2 ^ 7 ≤ i ∧ i < 2 ^ 7
  | .u16 => 0 ≤ i ∧ i < 2 ^ 16
  | .i16 => -2 ^ 15 ≤ i ∧ i < 2 ^ 15
  | .u32 => 0 ≤ i ∧ i < 2 ^ 32
  | .i32 => -2 ^ 31 ≤ i ∧ i < 2 ^ 31
  | .u64 => 0 ≤ i ∧ i < 2 ^ 64
  | .i64 => -2 ^ 63 ≤ i ∧ i < 2 ^ 63
  | _ => False

mutual

/-- A value of the format, its arrays at most `room` deep. -/
def GValue.Ok (wide : Bool) : ℕ → GValue → Prop
  | _, .int t i => t.Holds i
  | _, .float t raw => (t = .f32 ∧ raw.length = 4) ∨ (t = .f64 ∧ raw.length = 8)
  | _, .bool _ => True
  | _, .str s => (utf8 s).length < 256 ^ lenWidth wide
  | 0, .arr _ _ => False
  | room + 1, .arr t elems => elems.length < 256 ^ lenWidth wide ∧ ElemsOk wide room t elems

/-- The elements of an array, which are all of its type. -/
def ElemsOk (wide : Bool) : ℕ → Ty → List GValue → Prop
  | _, _, [] => True
  | room, t, v :: vs => v.ty = t ∧ v.Ok wide room ∧ ElemsOk wide room t vs

end

/-- A tensor of a header. -/
structure Tensor where
  name : Text
  dims : List ℕ
  ty : ℕ
  offset : ℕ

/-- The bytes of a tensor. -/
def Tensor.bytes (wide : Bool) (t : Tensor) : List UInt8 :=
  strBytes wide t.name ++ (le 4 t.dims.length ++ (t.dims.flatMap (le 8) ++
    (le 4 t.ty ++ le 8 t.offset)))

/-- A tensor of the format, within the caps. -/
structure Tensor.Ok (wide : Bool) (t : Tensor) : Prop where
  name : (utf8 t.name).length < 256 ^ lenWidth wide
  count : t.dims.length ≤ maxDims
  dims : ∀ d ∈ t.dims, d < 2 ^ 64

/-- A header : its version, its keys with their values and its tensors, in their order. -/
structure GHeader where
  version : ℕ
  kvs : List (Text × GValue)
  tensors : List Tensor

/-- A count is of eight bytes from version 2 on. -/
def GHeader.wide (h : GHeader) : Bool :=
  2 ≤ h.version

/-- The bytes of a key and its value. -/
def kvBytes (wide : Bool) (e : Text × GValue) : List UInt8 :=
  strBytes wide e.1 ++ (le 4 e.2.ty.code ++ e.2.bytes wide)

/-- The bytes of a header, with its tensors or without. -/
def GHeader.bytes (h : GHeader) (tensors : Bool) : List UInt8 :=
  magic ++ le 4 h.version ++ (le (lenWidth h.wide) h.tensors.length ++
    (le (lenWidth h.wide) h.kvs.length ++ (h.kvs.flatMap (kvBytes h.wide) ++
      if tensors then h.tensors.flatMap (Tensor.bytes h.wide) else [])))

/-- A header of the format, within the caps. -/
structure GHeader.Ok (h : GHeader) : Prop where
  version : 1 ≤ h.version ∧ h.version ≤ 3
  kvCount : h.kvs.length ≤ maxKv
  keys : ∀ e ∈ h.kvs, (utf8 e.1).length ≤ maxKey
  values : ∀ e ∈ h.kvs, e.2.Ok h.wide maxDepth
  tensorCount : h.tensors.length ≤ maxTensors
  tensors : ∀ t ∈ h.tensors, t.Ok h.wide

/-! ## What a header says -/

namespace GHeader

variable (h : GHeader)

/-- The value of the last occurrence of a key. -/
def last (key : Text) : Option GValue :=
  (h.kvs.reverse.find? fun e => e.1 = key).map Prod.snd

/-- A string that is not too long to be kept. -/
def text (key : Text) : Option Text :=
  match h.last key with
  | some (.str s) => if (utf8 s).length ≤ maxKeepStr then some s else none
  | _ => none

/-- An integer that a double holds exactly. -/
def number (key : Text) : Option ℤ :=
  match h.last key with
  | some (.int _ i) => if 0 ≤ i ∧ i ≤ maxExact then some i else none
  | _ => none

def architecture : Option Text :=
  h.text (ascii "general.architecture")

/-- A size of the architecture. -/
def size (suffix : Text) : Option ℤ :=
  h.architecture.bind fun a => h.number (a ++ '.' :: suffix)

def fileType : Option ℤ :=
  match h.last (ascii "general.file_type") with
  | some (.int _ i) => some i
  | _ => none

def quant : Option Text :=
  match h.last (ascii "general.file_type") with
  | some (.int _ i) => fileTypeName i
  | some (.bool b) => fileTypeName b.toInt
  | _ => none

/-- The elements of all tensors, if a double holds them exactly. -/
def params : Option ℕ :=
  let total := (h.tensors.map fun t => t.dims.prod).sum
  if total ≤ maxExact then some total else none

/-- What is said of a header that is read to its end. -/
def facts : Facts where
  arch := h.architecture
  name := (h.text (ascii "general.name")).map (List.take 256)
  sizeLabel := (h.text (ascii "general.size_label")).map (List.take 256)
  basename := (h.text (ascii "general.basename")).map (List.take 256)
  fileType := h.fileType
  quant := h.quant
  splitCount := h.number (ascii "split.count")
  context := h.size (ascii "context_length")
  blockCount := h.size (ascii "block_count")
  embeddingLength := h.size (ascii "embedding_length")
  headCount := h.size (ascii "attention.head_count")
  headCountKv := h.size (ascii "attention.head_count_kv")
  expertCount := h.size (ascii "expert_count")
  expertUsedCount := h.size (ascii "expert_used_count")

end GHeader

/-! ## Numbers are read back -/

theorem length_le (w n : ℕ) : (le w n).length = w := by
  induction w generalizing n with
  | zero => rfl
  | succ w ih => rw [le, List.length_cons, ih]

theorem ofLe_le (w n : ℕ) : ofLe (le w n) = n % 256 ^ w := by
  induction w generalizing n with
  | zero => rw [le, ofLe, pow_zero, Nat.mod_one]
  | succ w ih =>
    rw [le, ofLe, ih, Web.toNat_byte (Nat.mod_lt n (by decide)), pow_succ', Nat.mod_mul]

theorem ofLe_le_of_lt {w n : ℕ} (h : n < 256 ^ w) : ofLe (le w n) = n := by
  rw [ofLe_le, Nat.mod_eq_of_lt h]

/-- Two's complement is undone. -/
theorem ofLeSigned_le {w : ℕ} {i : ℤ} (hlo : -256 ^ w ≤ 2 * i) (hhi : 2 * i < 256 ^ w) :
    ofLeSigned (le w (i % 256 ^ w).toNat) = i := by
  have hpos : (0 : ℤ) < 256 ^ w := by positivity
  have hmod : 0 ≤ i % 256 ^ w := Int.emod_nonneg i hpos.ne'
  have hlt : i % 256 ^ w < 256 ^ w := Int.emod_lt_of_pos i hpos
  have hn : ((i % 256 ^ w).toNat : ℤ) = i % 256 ^ w := Int.toNat_of_nonneg hmod
  have hnlt : (i % 256 ^ w).toNat < 256 ^ w := by
    zify
    rwa [hn]
  rw [ofLeSigned, ofLe_le_of_lt hnlt, length_le]
  rcases lt_or_ge i 0 with hneg | hnonneg
  · have hval : i % 256 ^ w = i + 256 ^ w := by
      rw [← Int.add_emod_right]
      exact Int.emod_eq_of_lt (by omega) (by omega)
    rw [if_neg (by zify; rw [hn, hval]; omega), hn, hval]
    omega
  · have hval : i % 256 ^ w = i := Int.emod_eq_of_lt hnonneg (by omega)
    rw [if_pos (by zify; rw [hn, hval]; exact hhi), hn, hval]

/-! ## Values are read back -/

variable {wide : Bool} {room n : ℕ}

theorem parses_u32 (h : n < 2 ^ 32) : Parses u32 (le 4 n) n id := by
  have hread := (Parses.take (φ := Found) (length_le 4 n)).map ofLe
  rwa [ofLe_le_of_lt h] at hread

theorem parses_u64 (h : n < 2 ^ 64) : Parses u64 (le 8 n) n id := by
  have hread := (Parses.take (φ := Found) (length_le 8 n)).map ofLe
  rwa [ofLe_le_of_lt h] at hread

theorem parses_len (h : n < 256 ^ lenWidth wide) :
    Parses (len wide) (le (lenWidth wide) n) n id := by
  cases wide with
  | false => exact parses_u32 h
  | true => exact parses_u64 h

theorem parses_skipStr {s : Text} (h : (utf8 s).length < 256 ^ lenWidth wide) :
    Parses (do let n ← len wide; skip n) (strBytes wide s) () id :=
  (parses_len h).bind (.skip rfl)

theorem parses_readStr {s : Text} (h : (utf8 s).length < 256 ^ lenWidth wide) (keep : ℕ) :
    Parses (readStr wide keep) (strBytes wide s)
      (if keep < (utf8 s).length then none else some s) id := by
  have hrest : Parses (if keep < (utf8 s).length then do
      skip (utf8 s).length
      pure none
    else do
      let b ← take (utf8 s).length
      pure (some (utf8Lossy b))) (utf8 s)
      (if keep < (utf8 s).length then none else some s) (id : Found → Found) := by
    by_cases hlong : keep < (utf8 s).length
    · rw [if_pos hlong, if_pos hlong]
      exact (Parses.skip rfl).map fun _ => none
    · rw [if_neg hlong, if_neg hlong]
      have hread := (Parses.take (φ := Found) (n := (utf8 s).length) rfl).map fun b =>
        some (utf8Lossy b)
      rwa [show utf8Lossy (utf8 s) = s from Web.utf8Lossy_text s] at hread
  exact (parses_len h).bind hrest

theorem tyOf_code (t : Ty) : tyOf t.code = some t := by
  cases t <;> rfl

theorem code_lt (t : Ty) : t.code < 2 ^ 32 := by
  cases t <;> decide

theorem Ty.Holds.fixed {t : Ty} {i : ℤ} (h : t.Holds i) : ∃ n, t.fixedSize = some n := by
  cases t with
  | f32 | f64 | bool | str | arr => exact h.elim
  | _ => exact ⟨_, rfl⟩

/-- A value of a type of fixed size has that size. -/
theorem GValue.Ok.length_bytes {v : GValue} (h : v.Ok wide room) (hn : v.ty.fixedSize = some n) :
    (v.bytes wide).length = n := by
  cases v with
  | int t i =>
    rw [GValue.bytes, length_le]
    exact congrArg (Option.getD · 0) hn
  | float t raw =>
    rw [GValue.Ok] at h
    rcases h with ⟨rfl, hraw⟩ | ⟨rfl, hraw⟩
    · exact hraw.trans (Option.some.inj hn)
    · exact hraw.trans (Option.some.inj hn)
  | bool b => exact Option.some.inj hn
  | str s => cases hn
  | arr t elems => cases hn

theorem four_le_lenWidth (wide : Bool) : 4 ≤ lenWidth wide := by
  cases wide <;> decide

/-- A string or an array has at least four bytes. -/
theorem four_le_length_bytes {v : GValue} (h : v.Ok wide room) (hn : v.ty.fixedSize = none) :
    4 ≤ (v.bytes wide).length := by
  have hwidth := four_le_lenWidth wide
  cases v with
  | int t i =>
    rw [GValue.Ok] at h
    obtain ⟨n, hfixed⟩ := h.fixed
    cases hn.symm.trans hfixed
  | float t raw =>
    rw [GValue.Ok] at h
    rcases h with ⟨rfl, -⟩ | ⟨rfl, -⟩ <;> cases hn
  | bool b => cases hn
  | str s =>
    rw [GValue.bytes, strBytes, List.length_append, length_le]
    omega
  | arr t elems =>
    rw [GValue.bytes, List.length_append, length_le]
    omega

theorem elemsBytes_eq (wide : Bool) : ∀ vs, elemsBytes wide vs = vs.flatMap (GValue.bytes wide)
  | [] => rfl
  | v :: vs => by rw [elemsBytes, elemsBytes_eq wide vs, List.flatMap_cons]

theorem length_le_elemsBytes (wide : Bool) {v : GValue} {vs : List GValue} (hv : v ∈ vs) :
    (v.bytes wide).length ≤ (elemsBytes wide vs).length := by
  rw [elemsBytes_eq, List.length_flatMap]
  exact List.single_le_sum (fun _ _ => Nat.zero_le _) _ (List.mem_map_of_mem hv)

/-- The elements of an array, one by one. -/
theorem elemsOk_iff {t : Ty} : ∀ {vs : List GValue},
    ElemsOk wide room t vs ↔ ∀ v ∈ vs, v.ty = t ∧ v.Ok wide room
  | [] => by simp [ElemsOk]
  | v :: vs => by rw [ElemsOk, elemsOk_iff]; simp [and_assoc]

theorem length_elemsBytes {t : Ty} (hn : t.fixedSize = some n) : ∀ {vs : List GValue},
    (∀ v ∈ vs, v.ty = t ∧ v.Ok wide room) → (elemsBytes wide vs).length = vs.length * n
  | [], _ => by rw [elemsBytes, List.length_nil, List.length_nil, Nat.zero_mul]
  | v :: vs, h => by
    obtain ⟨hty, hok⟩ := h v (List.mem_cons_self ..)
    rw [elemsBytes, List.length_append, hok.length_bytes (hty ▸ hn),
      length_elemsBytes hn fun v hv => h v (List.mem_cons_of_mem _ hv), List.length_cons,
      Nat.succ_mul, Nat.add_comm]

theorem four_le_length_elemsBytes {t : Ty} (hn : t.fixedSize = none) : ∀ {vs : List GValue},
    (∀ v ∈ vs, v.ty = t ∧ v.Ok wide room) → vs.length * 4 ≤ (elemsBytes wide vs).length
  | [], _ => Nat.zero_le _
  | v :: vs, h => by
    obtain ⟨hty, hok⟩ := h v (List.mem_cons_self ..)
    have hone := four_le_length_bytes hok (hty ▸ hn)
    have hrest := four_le_length_elemsBytes hn fun v hv => h v (List.mem_cons_of_mem _ hv)
    rw [elemsBytes, List.length_append, List.length_cons]
    omega

/-- A value is of a fixed size, a string, or an array that is not too deep. -/
theorem GValue.Ok.shape {v : GValue} (h : v.Ok wide room) :
    (∃ n, v.ty.fixedSize = some n) ∨
    (∃ s, v = .str s ∧ (utf8 s).length < 256 ^ lenWidth wide) ∨
    ∃ room' t elems, room = room' + 1 ∧ v = .arr t elems ∧
      elems.length < 256 ^ lenWidth wide ∧ ∀ v ∈ elems, v.ty = t ∧ v.Ok wide room' := by
  cases v with
  | int t i =>
    rw [GValue.Ok] at h
    exact .inl h.fixed
  | float t raw =>
    rw [GValue.Ok] at h
    rcases h with ⟨rfl, -⟩ | ⟨rfl, -⟩
    · exact .inl ⟨4, rfl⟩
    · exact .inl ⟨8, rfl⟩
  | bool b => exact .inl ⟨1, rfl⟩
  | str s =>
    rw [GValue.Ok] at h
    exact .inr (.inl ⟨s, rfl, h⟩)
  | arr t elems =>
    cases room with
    | zero =>
      rw [GValue.Ok] at h
      exact h.elim
    | succ room =>
      rw [GValue.Ok] at h
      exact .inr (.inr ⟨room, t, elems, rfl, rfl, h.1, elemsOk_iff.1 h.2⟩)

theorem skipValue_fixed {t : Ty} (hn : t.fixedSize = some n) :
    skipValue wide room t.code = skip n := by
  rw [skipValue.eq_def, tyOf_code]
  dsimp only
  rw [hn]

theorem skipValue_str :
    skipValue wide room Ty.str.code = (do let n ← len wide; skip n) := by
  rw [skipValue.eq_def, tyOf_code]
  rfl

theorem skipValue_arr :
    skipValue wide (room + 1) Ty.arr.code =
      (do let etype ← u32; let count ← len wide; skipElems (skipValue wide room) etype count) := by
  rw [skipValue.eq_def, tyOf_code]
  rfl

/-- The elements of an array are skipped if each of them is. -/
theorem parses_skipElems {t : Ty} {vs : List GValue} (hok : ∀ v ∈ vs, v.ty = t ∧ v.Ok wide room)
    (hlen : (elemsBytes wide vs).length < 2 ^ 64)
    (ih : ∀ v ∈ vs, Parses (skipValue wide room t.code) (v.bytes wide) () id) :
    Parses (skipElems (skipValue wide room) t.code vs.length) (elemsBytes wide vs) () id := by
  rw [skipElems, tyOf_code]
  dsimp only
  cases hn : t.fixedSize with
  | some n =>
    dsimp only
    rw [← length_elemsBytes hn hok, if_pos hlen]
    exact .skip rfl
  | none =>
    refine .left fun n hle => ?_
    have hfour := four_le_length_elemsBytes hn hok
    rw [if_neg (by omega), elemsBytes_eq]
    have hread := Parses.iterate (f := fun _ => skipValue wide room t.code)
      (g := fun _ _ => ()) (p := fun p _ => p) (x := ()) fun v hv _ => ih v hv
    have hfix : (fun p : Found => vs.foldl (fun p _ => p) p) = id :=
      funext fun p => List.foldl_fixed vs
    rwa [hfix] at hread

/-- Every value is skipped to its end. -/
theorem parses_skip {v : GValue} (hok : v.Ok wide room) (hlen : (v.bytes wide).length < 2 ^ 64) :
    Parses (skipValue wide room v.ty.code) (v.bytes wide) () id := by
  induction room generalizing v with
  | zero =>
    rcases hok.shape with ⟨n, hn⟩ | ⟨s, rfl, hs⟩ | ⟨room', -, -, hroom, -⟩
    · rw [skipValue_fixed hn]
      exact .skip (hok.length_bytes hn)
    · rw [GValue.ty, skipValue_str, GValue.bytes]
      exact parses_skipStr hs
    · cases hroom
  | succ room ih =>
    rcases hok.shape with ⟨n, hn⟩ | ⟨s, rfl, hs⟩ | ⟨room', t, elems, hroom, rfl, hcount, helems⟩
    · rw [skipValue_fixed hn]
      exact .skip (hok.length_bytes hn)
    · rw [GValue.ty, skipValue_str, GValue.bytes]
      exact parses_skipStr hs
    · obtain rfl : room = room' := Nat.succ.inj hroom
      rw [GValue.bytes, List.length_append, List.length_append] at hlen
      rw [GValue.ty, skipValue_arr, GValue.bytes]
      refine (parses_u32 (code_lt t)).bind ((parses_len hcount).bind
        (parses_skipElems helems (by omega) fun v hv => ?_))
      obtain ⟨hty, hv'⟩ := helems v hv
      have hone := length_le_elemsBytes wide hv
      rw [← hty]
      exact ih hv' (by omega)

/-- What is kept of a value. -/
def GValue.kept : GValue → Kv
  | .int _ i => .int i
  | .float _ _ => .float
  | .bool b => .bool b
  | .str s => if maxKeepStr < (utf8 s).length then .none else .str s
  | .arr _ _ => .none

/-- An unsigned number, in the bytes of its type. -/
theorem ofLe_unsigned {w : ℕ} {i : ℤ} (hlo : 0 ≤ i) (hhi : i < 256 ^ w) :
    (ofLe (le w (i % 256 ^ w).toNat) : ℤ) = i := by
  rw [Int.emod_eq_of_lt hlo hhi, ofLe_le_of_lt (by zify; rwa [Int.toNat_of_nonneg hlo]),
    Int.toNat_of_nonneg hlo]

theorem value_int {t : Ty} {i : ℤ} (h : t.Holds i) (hn : t.fixedSize = some n) :
    t.value (le n (i % 256 ^ n).toNat) = .int i := by
  cases t with
  | u8 | u16 | u32 | u64 =>
    obtain rfl := Option.some.inj hn
    obtain ⟨hlo, hhi⟩ := h
    exact congrArg Kv.int (ofLe_unsigned hlo (by omega))
  | i8 | i16 | i32 | i64 =>
    obtain rfl := Option.some.inj hn
    obtain ⟨hlo, hhi⟩ := h
    exact congrArg Kv.int (ofLeSigned_le (by omega) (by omega))
  | f32 | f64 | bool | str | arr => exact h.elim

/-- The value of a type of fixed size. -/
theorem value_bytes {v : GValue} (hok : v.Ok wide room) (hn : v.ty.fixedSize = some n) :
    v.ty.value (v.bytes wide) = v.kept := by
  cases v with
  | int t i =>
    rw [GValue.Ok] at hok
    rw [GValue.bytes, show t.fixedSize = some n from hn]
    exact value_int hok hn
  | float t raw =>
    rw [GValue.Ok] at hok
    rcases hok with ⟨rfl, -⟩ | ⟨rfl, -⟩ <;> rfl
  | bool b => cases b <;> rfl
  | str s => cases hn
  | arr t elems => cases hn

/-- Every value is read to its end. -/
theorem parses_value {v : GValue} (hok : v.Ok wide maxDepth)
    (hlen : (v.bytes wide).length < 2 ^ 64) :
    Parses (readValue v.ty.code wide) (v.bytes wide) v.kept id := by
  rw [readValue, tyOf_code]
  dsimp only
  rcases hok.shape with ⟨n, hn⟩ | ⟨s, rfl, hs⟩ | ⟨room', t, elems, hroom, rfl, hcount, helems⟩
  · rw [hn, ← value_bytes hok hn]
    exact (Parses.take (hok.length_bytes hn)).map v.ty.value
  · have hread := (parses_readStr hs maxKeepStr).map fun s => s.elim Kv.none Kv.str
    have hkept : (if maxKeepStr < (utf8 s).length then none else some s).elim Kv.none Kv.str =
        (GValue.str s).kept := by
      rw [GValue.kept]
      split_ifs <;> rfl
    rwa [hkept] at hread
  · exact (parses_skip hok hlen).map fun _ => Kv.none

/-- What is kept after a key and its value. -/
def keepKv (found : Found) (e : Text × GValue) : Found :=
  if wanted e.1 then Function.update found e.1 (some e.2.kept) else found

theorem parses_kv {e : Text × GValue} (hkey : (utf8 e.1).length ≤ maxKey)
    (hok : e.2.Ok wide maxDepth) (hlen : (e.2.bytes wide).length < 2 ^ 64) :
    Parses (readKv wide) (kvBytes wide e) () fun found => keepKv found e := by
  have hwidth : (utf8 e.1).length < 256 ^ lenWidth wide := by
    have hpow : 256 ^ 4 ≤ 256 ^ lenWidth wide :=
      Nat.pow_le_pow_right (by decide) (four_le_lenWidth wide)
    have hmax : maxKey < 256 ^ 4 := by decide
    omega
  rw [kvBytes, strBytes, List.append_assoc]
  refine (parses_len hwidth).after ?_
  rw [if_neg (by omega)]
  refine (Parses.take rfl).after ?_
  rw [show utf8Lossy (utf8 e.1) = e.1 from Web.utf8Lossy_text e.1]
  refine (parses_u32 (code_lt e.2.ty)).after ?_
  by_cases hwanted : wanted e.1
  · rw [if_pos hwanted]
    have hread := (parses_value hok hlen).bind
      (k := fun v => keep fun kv => Function.update kv e.1 (some v)) (.keep _)
    rw [List.append_nil] at hread
    have hkeep : (fun found => keepKv found e) =
        fun kv : Found => Function.update kv e.1 (some e.2.kept) :=
      funext fun found => if_pos hwanted
    rwa [hkeep]
  · rw [if_neg hwanted]
    have hkeep : (fun found => keepKv found e) = (id : Found → Found) :=
      funext fun found => if_neg hwanted
    rw [hkeep]
    exact parses_skip hok hlen

theorem satMul_min (n d : ℕ) : satMul (min n maxU128) d = min (n * d) maxU128 := by
  rw [satMul]
  rcases le_total n maxU128 with hle | hge
  · rw [min_eq_left hle]
  · rw [min_eq_right hge]
    rcases Nat.eq_zero_or_pos d with rfl | hd
    · rfl
    · rw [min_eq_right (Nat.le_mul_of_pos_right _ hd),
        min_eq_right (hge.trans (Nat.le_mul_of_pos_right _ hd))]

/-- The product of dimensions, up to `u128::MAX`. -/
theorem foldl_satMul (ds : List ℕ) (n : ℕ) :
    ds.foldl satMul (min n maxU128) = min (n * ds.prod) maxU128 := by
  induction ds generalizing n with
  | nil => rw [List.foldl_nil, List.prod_nil, Nat.mul_one]
  | cons d ds ih => rw [List.foldl_cons, satMul_min, ih, List.prod_cons, Nat.mul_assoc]

/-- The elements of a tensor. -/
def Tensor.count (t : Tensor) : ℕ :=
  t.dims.foldl satMul 1

theorem Tensor.count_eq (t : Tensor) : t.count = min t.dims.prod maxU128 := by
  rw [Tensor.count, show 1 = min 1 maxU128 from rfl, foldl_satMul, Nat.one_mul]

/-- The total of the elements, up to `u128::MAX`. -/
theorem foldl_satAdd (ts : List Tensor) (n : ℕ) :
    ts.foldl (fun total t => satAdd total t.count) (min n maxU128) =
      min (n + (ts.map fun t => t.dims.prod).sum) maxU128 := by
  induction ts generalizing n with
  | nil => rw [List.foldl_nil, List.map_nil, List.sum_nil, Nat.add_zero]
  | cons t ts ih =>
    have hone : satAdd (min n maxU128) t.count = min (n + t.dims.prod) maxU128 := by
      rw [satAdd, t.count_eq]
      omega
    rw [List.foldl_cons, hone, ih, List.map_cons, List.sum_cons, Nat.add_assoc]

theorem parses_tensor {t : Tensor} (hok : t.Ok wide) (total : ℕ) :
    Parses (readTensor wide total) (t.bytes wide) (satAdd total t.count) id := by
  have hcount := hok.count
  rw [Tensor.bytes]
  refine (parses_readStr hok.name 0).after ((parses_u32 ?_).after ?_)
  · rw [maxDims] at hcount
    omega
  rw [if_neg (by omega)]
  have hdims : Parses (iterate (fun count => do
      let d ← u64
      pure (satMul count d)) t.dims.length 1) (t.dims.flatMap (le 8)) t.count
      (id : Found → Found) := by
    have hread := Parses.iterate (f := fun count => u64 >>= fun d => pure (satMul count d))
      (g := satMul) (p := fun (p : Found) _ => p) (x := 1) fun d hd count =>
        (parses_u64 (hok.dims d hd)).map (satMul count)
    have hfix : (fun p : Found => t.dims.foldl (fun p _ => p) p) = id :=
      funext fun p => List.foldl_fixed t.dims
    rwa [hfix] at hread
  refine hdims.after ((Parses.skip ?_).map fun _ => satAdd total t.count)
  rw [List.length_append, length_le, length_le]

/-- No value is longer than the header. -/
theorem GHeader.length_value {h : GHeader} {e : Text × GValue} (he : e ∈ h.kvs) (tensors : Bool) :
    (e.2.bytes h.wide).length ≤ (h.bytes tensors).length := by
  have hkv : (kvBytes h.wide e).length ≤ (h.kvs.flatMap (kvBytes h.wide)).length := by
    rw [List.length_flatMap]
    exact List.single_le_sum (fun _ _ => Nat.zero_le _) _ (List.mem_map_of_mem he)
  have hvalue : (e.2.bytes h.wide).length ≤ (kvBytes h.wide e).length := by
    rw [kvBytes, List.length_append, List.length_append]
    omega
  rw [GHeader.bytes]
  simp only [List.length_append]
  omega

/-- The parameters are the total of the elements, which saturates beyond what a double holds. -/
theorem params_eq (h : GHeader) :
    (if h.tensors.foldl (fun total t => satAdd total t.count) 0 ≤ maxExact then
      some (h.tensors.foldl (fun total t => satAdd total t.count) 0) else none) = h.params := by
  have hfold := foldl_satAdd h.tensors 0
  rw [Nat.zero_add, Nat.zero_min] at hfold
  rw [hfold, GHeader.params]
  have hmax : maxExact < maxU128 := by decide
  rcases le_or_gt (h.tensors.map fun t => t.dims.prod).sum maxU128 with hle | hgt
  · rw [min_eq_left hle]
  · rw [min_eq_right hgt.le, if_neg (by omega), if_neg (by omega)]

theorem parses_kvs {h : GHeader} (hok : h.Ok) (tensors : Bool)
    (hlen : (h.bytes tensors).length < 2 ^ 64) :
    Parses (iterate (fun _ => readKv h.wide) h.kvs.length ()) (h.kvs.flatMap (kvBytes h.wide)) ()
      fun found => h.kvs.foldl keepKv found :=
  Parses.iterate (f := fun _ => readKv h.wide) (g := fun _ _ => ()) (p := keepKv) (x := ())
    fun e he _ => parses_kv (hok.keys e he) (hok.values e he)
      ((GHeader.length_value he tensors).trans_lt hlen)

theorem parses_tensors {h : GHeader} (hok : h.Ok) :
    Parses (iterate (readTensor h.wide) h.tensors.length 0)
      (h.tensors.flatMap (Tensor.bytes h.wide))
      (h.tensors.foldl (fun total t => satAdd total t.count) 0) (id : Found → Found) := by
  have hread := Parses.iterate (f := readTensor h.wide)
    (g := fun total t => satAdd total t.count) (p := fun (p : Found) _ => p) (x := 0)
    fun t ht total => parses_tensor (hok.tensors t ht) total
  have hfix : (fun p : Found => h.tensors.foldl (fun p _ => p) p) = id :=
    funext fun p => List.foldl_fixed h.tensors
  rwa [hfix] at hread

/-- A body is read to its end. -/
theorem parses_body {h : GHeader} (hok : h.Ok) (tensors : Bool)
    (hlen : (h.bytes tensors).length < 2 ^ 64) :
    Parses (readBody h.wide tensors)
      (le (lenWidth h.wide) h.tensors.length ++
        (le (lenWidth h.wide) h.kvs.length ++ (h.kvs.flatMap (kvBytes h.wide) ++
          if tensors then h.tensors.flatMap (Tensor.bytes h.wide) else [])))
      (if tensors then some (h.tensors.length, h.params) else none)
      (fun found => h.kvs.foldl keepKv found) := by
  have hkvCount := hok.kvCount
  have htensorCount := hok.tensorCount
  have hpow : 256 ^ 4 ≤ 256 ^ lenWidth h.wide :=
    Nat.pow_le_pow_right (by decide) (four_le_lenWidth h.wide)
  have hmaxKv : maxKv < 256 ^ 4 := by decide
  have hmaxTensors : maxTensors < 256 ^ 4 := by decide
  refine (parses_len (by omega)).after ((parses_len (by omega)).after ?_)
  rw [if_neg (by simp only [Bool.or_eq_true, decide_eq_true_eq]; omega)]
  refine (parses_kvs hok tensors hlen).bind (?_ : Parses _ _ _ id)
  cases tensors with
  | false => exact .pure none
  | true =>
    rw [if_pos rfl, if_pos rfl, if_pos rfl, ← params_eq]
    exact (parses_tensors hok).map fun total =>
      some (h.tensors.length, if total ≤ maxExact then some total else none)

/-! ## The facts are those of the header -/

/-- The last value of a key that is wanted is kept. -/
theorem foldl_keepKv {key : Text} (hwanted : wanted key = true) (kvs : List (Text × GValue)) :
    kvs.foldl keepKv (fun _ => none) key =
      ((kvs.reverse.find? fun e => e.1 = key).map Prod.snd).map GValue.kept := by
  induction kvs using List.reverseRecOn with
  | nil => rfl
  | append_singleton kvs e ih =>
    rw [List.foldl_append, List.foldl_cons, List.foldl_nil, keepKv, List.reverse_append,
      List.reverse_singleton, List.singleton_append, List.find?_cons]
    by_cases hkey : e.1 = key
    · rw [hkey, if_pos hwanted, Function.update_self, decide_eq_true rfl]
      rfl
    · rw [decide_eq_false hkey]
      dsimp only
      split_ifs
      · rw [Function.update_of_ne (Ne.symm hkey), ih]
      · exact ih

/-- What is kept of a header. -/
def GHeader.found (h : GHeader) : Found :=
  h.kvs.foldl keepKv fun _ => none

variable {h : GHeader} {key : Text}

theorem GHeader.found_eq (hwanted : wanted key = true) :
    h.found key = (h.last key).map GValue.kept :=
  foldl_keepKv hwanted h.kvs

theorem sOf_found (hwanted : wanted key = true) :
    sOf (h.found key) = (h.text key).map (List.take 256) := by
  rw [h.found_eq hwanted, GHeader.text]
  rcases h.last key with _ | v
  · rfl
  cases v with
  | str s =>
    rw [Option.map_some, GValue.kept]
    dsimp only
    by_cases hlong : (utf8 s).length ≤ maxKeepStr
    · rw [if_neg (by omega), if_pos hlong]
      rfl
    · rw [if_pos (by omega), if_neg hlong]
      rfl
  | int | float | bool | arr => rfl

theorem archOf_found : archOf h.found = h.architecture := by
  rw [archOf, h.found_eq (by decide), GHeader.architecture, GHeader.text]
  rcases h.last (ascii "general.architecture") with _ | v
  · rfl
  cases v with
  | str s =>
    rw [Option.map_some, GValue.kept]
    dsimp only
    by_cases hlong : (utf8 s).length ≤ maxKeepStr
    · rw [if_neg (by omega), if_pos hlong]
    · rw [if_pos (by omega), if_neg hlong]
  | int | float | bool | arr => rfl

theorem intValue_eq {i : ℤ} (hlo : -2 ^ 63 ≤ i) (hhi : i < 2 ^ 64) : intValue i = some i := by
  rw [intValue, if_pos (by simp only [Bool.and_eq_true, decide_eq_true_eq]; omega)]

theorem iOf_found (hwanted : wanted key = true) : iOf (h.found key) = h.number key := by
  rw [h.found_eq hwanted, GHeader.number]
  rcases h.last key with _ | v
  · rfl
  cases v with
  | int t i =>
    rw [Option.map_some, GValue.kept, iOf]
    dsimp only
    by_cases hexact : 0 ≤ i ∧ i ≤ maxExact
    · have hmax : maxExact = 2 ^ 53 := rfl
      rw [if_pos (by simpa using hexact), if_pos hexact, intValue_eq (by omega) (by omega)]
    · rw [if_neg (by simpa using hexact), if_neg hexact]
  | str s =>
    rw [Option.map_some, GValue.kept]
    split_ifs <;> rfl
  | float | bool | arr => rfl

theorem wanted_size {suffix : Text} (hsuffix : suffix ∈ archKeys) (a : Text) :
    wanted (a ++ '.' :: suffix) = true := by
  rw [wanted, Bool.or_eq_true]
  exact .inr (List.any_eq_true.2 ⟨suffix, hsuffix, by simp⟩)

theorem sizeOfArch_found {suffix : Text} (hsuffix : suffix ∈ archKeys) :
    sizeOfArch h.found suffix = h.size suffix := by
  rw [sizeOfArch, archOf_found, GHeader.size]
  exact congrArg _ (funext fun a => iOf_found (wanted_size hsuffix a))

theorem Ty.Holds.bounds {t : Ty} {i : ℤ} (h : t.Holds i) : -2 ^ 63 ≤ i ∧ i < 2 ^ 64 := by
  cases t with
  | u8 | i8 | u16 | i16 | u32 | i32 | u64 | i64 =>
    obtain ⟨hlo, hhi⟩ := h
    omega
  | f32 | f64 | bool | str | arr => exact h.elim

theorem GHeader.Ok.last (hok : h.Ok) {v : GValue} (hlast : h.last key = some v) :
    v.Ok h.wide maxDepth := by
  rw [GHeader.last] at hlast
  obtain ⟨e, hfind, rfl⟩ := Option.map_eq_some_iff.1 hlast
  exact hok.values e (List.mem_reverse.1 (List.mem_of_find?_eq_some hfind))

theorem fileTypeOf_found (hok : h.Ok) :
    fileTypeOf (h.found (ascii "general.file_type")) = h.fileType := by
  rw [h.found_eq (by decide), GHeader.fileType]
  rcases hlast : h.last (ascii "general.file_type") with _ | v
  · rfl
  cases v with
  | int t i =>
    have hint := hok.last hlast
    rw [GValue.Ok] at hint
    obtain ⟨hlo, hhi⟩ := hint.bounds
    exact intValue_eq hlo hhi
  | str s =>
    rw [Option.map_some, GValue.kept]
    split_ifs <;> rfl
  | float | bool | arr => rfl

theorem quantOf_found : quantOf (h.found (ascii "general.file_type")) = h.quant := by
  rw [h.found_eq (by decide), GHeader.quant]
  rcases h.last (ascii "general.file_type") with _ | v
  · rfl
  cases v with
  | str s =>
    rw [Option.map_some, GValue.kept]
    split_ifs <;> rfl
  | int | float | bool | arr => rfl

theorem factsOf_found (hok : h.Ok) : factsOf h.found = h.facts := by
  rw [factsOf, GHeader.facts, archOf_found, sOf_found (by decide), sOf_found (by decide),
    sOf_found (by decide), fileTypeOf_found hok, quantOf_found, iOf_found (by decide),
    sizeOfArch_found (by decide), sizeOfArch_found (by decide), sizeOfArch_found (by decide),
    sizeOfArch_found (by decide), sizeOfArch_found (by decide), sizeOfArch_found (by decide),
    sizeOfArch_found (by decide)]

/-! ## No reader consumes more than its budget -/

theorem frugal_u32 : Frugal u32 := (Frugal.take 4).bind fun _ => .pure _

theorem frugal_u64 : Frugal u64 := (Frugal.take 8).bind fun _ => .pure _

theorem frugal_len (wide : Bool) : Frugal (len wide) := .ite frugal_u64 frugal_u32

theorem frugal_readStr (wide : Bool) (keep : ℕ) : Frugal (readStr wide keep) :=
  (frugal_len wide).bind fun n => .ite ((Frugal.skip n).bind fun _ => .pure _)
    ((Frugal.take n).bind fun _ => .pure _)

theorem frugal_skipElems {skipOne : ℕ → Reader Found Unit} (h : ∀ etype, Frugal (skipOne etype))
    (etype count : ℕ) : Frugal (skipElems skipOne etype count) := by
  rw [skipElems]
  rcases tyOf etype with _ | e
  · exact .stop
  dsimp only
  rcases e.fixedSize with _ | size
  · exact Frugal.left.bind fun n => .ite .stop (.iterate (fun _ => h etype) count ())
  · exact .ite (.skip _) .stop

theorem frugal_skipValue (wide : Bool) (room vtype : ℕ) : Frugal (skipValue wide room vtype) := by
  induction room generalizing vtype with
  | zero =>
    rw [skipValue.eq_def]
    rcases tyOf vtype with _ | t
    · exact .stop
    dsimp only
    rcases t.fixedSize with _ | n
    · exact .ite ((frugal_len wide).bind .skip) .stop
    · exact .skip n
  | succ room ih =>
    rw [skipValue.eq_def]
    rcases tyOf vtype with _ | t
    · exact .stop
    dsimp only
    rcases t.fixedSize with _ | n
    · exact .ite ((frugal_len wide).bind .skip)
        (frugal_u32.bind fun etype => (frugal_len wide).bind fun count =>
          frugal_skipElems ih etype count)
    · exact .skip n

theorem frugal_readValue (vtype : ℕ) (wide : Bool) : Frugal (readValue vtype wide) := by
  rw [readValue]
  rcases tyOf vtype with _ | t
  · exact .stop
  dsimp only
  rcases t.fixedSize with _ | size
  · exact .ite ((frugal_readStr wide _).bind fun _ => .pure _)
      ((frugal_skipValue wide _ _).bind fun _ => .pure _)
  · exact (Frugal.take size).bind fun _ => .pure _

theorem frugal_readKv (wide : Bool) : Frugal (readKv wide) :=
  (frugal_len wide).bind fun klen => .ite .stop <| (Frugal.take klen).bind fun _ =>
    frugal_u32.bind fun vtype => .ite
      ((frugal_readValue vtype wide).bind fun _ => .keep _) (frugal_skipValue wide _ vtype)

theorem frugal_readTensor (wide : Bool) (total : ℕ) : Frugal (readTensor wide total) :=
  (frugal_readStr wide 0).bind fun _ => frugal_u32.bind fun nDims => .ite .stop <|
    (Frugal.iterate (fun _ => frugal_u64.bind fun _ => .pure _) nDims 1).bind fun _ =>
      (Frugal.skip _).bind fun _ => .pure _

theorem frugal_readBody (wide tensors : Bool) : Frugal (readBody wide tensors) :=
  (frugal_len wide).bind fun nTensors => (frugal_len wide).bind fun nKv => .ite .stop <|
    (Frugal.iterate (fun _ => frugal_readKv wide) nKv ()).bind fun _ => .ite
      ((Frugal.iterate (frugal_readTensor wide) nTensors 0).bind fun _ => .pure _) (.pure _)

theorem frugal_readVersion : Frugal readVersion :=
  (Frugal.take 4).bind fun _ => .ite .stop frugal_u32

/-- A header is read within the budget. -/
theorem readHeader_within (bytes : List UInt8) (budget : ℕ) (tensors : Bool) :
    ∃ used, bytes = used ++ (readHeader bytes budget tensors).2.rest ∧ used.length ≤ budget := by
  obtain ⟨used, hused, hle, hcount⟩ := frugal_readVersion ⟨bytes, budget, fun _ => none⟩
  rw [readHeader]
  rcases hversion : readVersion.run ⟨bytes, budget, fun _ => none⟩ with ⟨_ | version, s⟩
  · rw [hversion] at hused
    exact ⟨used, hused, hle⟩
  rw [hversion] at hused hcount
  dsimp only at hused ⊢
  split_ifs
  · obtain ⟨used', hused', hle', -⟩ := frugal_readBody (2 ≤ version) tensors s
    have hsum : used.length + s.left = budget := hcount rfl
    refine ⟨used ++ used', ?_, ?_⟩
    · rw [hused, List.append_assoc, ← hused']
    · rw [List.length_append]
      omega
  · exact ⟨used, hused, hle⟩

/-! ## Headers are read back -/

theorem parses_version {n : ℕ} (hn : n < 2 ^ 32) : Parses readVersion (magic ++ le 4 n) n id := by
  refine (Parses.take (show magic.length = 4 from rfl)).after ?_
  rw [if_neg (by simp)]
  exact parses_u32 hn

/-- The bytes after the version. -/
def GHeader.body (h : GHeader) (tensors : Bool) : List UInt8 :=
  le (lenWidth h.wide) h.tensors.length ++ (le (lenWidth h.wide) h.kvs.length ++
    (h.kvs.flatMap (kvBytes h.wide) ++
      if tensors then h.tensors.flatMap (Tensor.bytes h.wide) else []))

theorem GHeader.bytes_eq (h : GHeader) (tensors : Bool) :
    h.bytes tensors = (magic ++ le 4 h.version) ++ h.body tensors := rfl

variable {budget : ℕ} {tensors : Bool}

/-- After the version, what matters is the body. -/
theorem readHeader_body (hok : h.Ok) (hle : (h.bytes tensors).length ≤ budget)
    (rest : List UInt8) :
    readHeader (magic ++ le 4 h.version ++ rest) budget tensors =
      (let r := (readBody h.wide tensors).run ⟨rest, budget - (magic ++ le 4 h.version).length,
        fun _ => none⟩
      (some ⟨h.version, r.1.isSome, r.1.join, some (factsOf r.2.found)⟩, r.2)) := by
  obtain ⟨hlow, hhigh⟩ := hok.version
  have hversion := parses_version (n := h.version) (by omega)
  rw [h.bytes_eq, List.length_append] at hle
  rw [readHeader, hversion.whole rest budget _ (by omega)]
  dsimp only
  rw [if_pos (by simp [hlow, hhigh])]
  rfl

theorem readHeader_whole (hok : h.Ok) (hle : (h.bytes tensors).length ≤ budget)
    (hbudget : budget < 2 ^ 64) (rest : List UInt8) :
    (readHeader (h.bytes tensors ++ rest) budget tensors).1 =
      some ⟨h.version, true, if tensors then some (h.tensors.length, h.params) else none,
        some h.facts⟩ := by
  have hbody := parses_body hok tensors (hle.trans_lt hbudget)
  rw [h.bytes_eq, List.append_assoc, readHeader_body hok hle]
  rw [h.bytes_eq, List.length_append] at hle
  have hrun := hbody.whole rest (budget - (magic ++ le 4 h.version).length) (fun _ => none)
    (by rw [← GHeader.body]; omega)
  rw [← GHeader.body] at hrun
  rw [hrun, ← factsOf_found hok]
  cases tensors <;> rfl

/-- A header that is cut short is not taken for a whole one. -/
theorem readHeader_cut (hok : h.Ok) (hle : (h.bytes tensors).length ≤ budget)
    (hbudget : budget < 2 ^ 64) {before more : List UInt8} {b : UInt8}
    (hsplit : h.bytes tensors = before ++ b :: more) {r : Header}
    (hr : (readHeader before budget tensors).1 = some r) : r.complete = false := by
  have hbody := parses_body hok tensors (hle.trans_lt hbudget)
  rw [← GHeader.body] at hbody
  have hroom : (h.body tensors).length ≤ budget - (magic ++ le 4 h.version).length := by
    rw [h.bytes_eq, List.length_append] at hle
    omega
  -- the cut is in the body
  have hin : ∀ mid, before = magic ++ le 4 h.version ++ mid → h.body tensors = mid ++ b :: more →
      r.complete = false := fun mid hbefore hmid => by
    have hnone := hbody.cut mid b more _ (fun _ => none) hmid hroom
    rw [hbefore, readHeader_body hok hle] at hr
    dsimp only at hr
    rw [hnone] at hr
    exact (congrArg Header.complete (Option.some.inj hr)).symm
  rw [h.bytes_eq] at hsplit
  rcases List.append_eq_append_iff.1 hsplit with ⟨mid, hbefore, hmid⟩ | ⟨mid, hfirst, hmid⟩
  · exact hin mid hbefore hmid
  cases mid with
  | nil => exact hin [] (by simpa using hfirst.symm) (by simpa using hmid.symm)
  | cons y mid =>
    -- the cut is in the version
    obtain ⟨hlow, hhigh⟩ := hok.version
    have hversion := parses_version (n := h.version) (by omega)
    have hnone := hversion.cut before y mid budget (fun _ => none) hfirst
      (by rw [h.bytes_eq, List.length_append] at hle; omega)
    rw [readHeader] at hr
    rcases hrun : readVersion.run ⟨before, budget, fun _ => none⟩ with ⟨_ | version, s⟩
    · rw [hrun] at hr
      cases hr
    · rw [hrun] at hnone
      cases hnone

/-- A header of the format is read back : its numbers up to what a double holds, its strings up to
what is kept. Cut short, it is not taken for a whole one, and no bytes make the reader consume more
than its budget. -/
theorem header_reads :
    (∀ (h : GHeader) (tensors : Bool) (budget : ℕ), h.Ok → (h.bytes tensors).length ≤ budget →
      budget < 2 ^ 64 →
      (∀ rest, (readHeader (h.bytes tensors ++ rest) budget tensors).1 =
        some ⟨h.version, true, if tensors then some (h.tensors.length, h.params) else none,
          some h.facts⟩) ∧
      ∀ before b more, h.bytes tensors = before ++ b :: more →
        ∀ r, (readHeader before budget tensors).1 = some r → r.complete = false) ∧
    ∀ (bytes : List UInt8) (budget : ℕ) (tensors : Bool),
      ∃ used, bytes = used ++ (readHeader bytes budget tensors).2.rest ∧ used.length ≤ budget :=
  ⟨fun _ _ _ hok hle hbudget => ⟨readHeader_whole hok hle hbudget, fun _ _ _ hsplit _ hr =>
    readHeader_cut hok hle hbudget hsplit hr⟩, readHeader_within⟩

/-- A header whose context is more than a double holds. -/
def hugeContext : GHeader where
  version := 3
  kvs := [(ascii "general.architecture", .str (ascii "a")),
    (ascii "a.context_length", .int .u64 (2 ^ 53 + 1))]
  tensors := []

theorem hugeContext_ok : hugeContext.Ok where
  version := by decide
  kvCount := by decide
  keys := by decide
  values e he := by
    simp only [hugeContext, List.mem_cons, List.not_mem_nil, or_false] at he
    rcases he with rfl | rfl
    · rw [GValue.Ok]
      decide
    · rw [GValue.Ok]
      exact ⟨by decide, by decide⟩
  tensorCount := by decide
  tensors t ht := by cases ht

/-- A header of one key, read with bytes after it and without its last byte. -/
theorem hugeContext_reads :
    (readHeader (hugeContext.bytes true ++ [0]) 1024 true).1 =
      some ⟨3, true, some (0, some 0), some hugeContext.facts⟩ ∧
    ∀ r, (readHeader (hugeContext.bytes true).dropLast 1024 true).1 = some r →
      r.complete = false :=
  have hreads := header_reads.1 hugeContext true 1024 hugeContext_ok (by decide) (by decide)
  ⟨hreads.1 [0], hreads.2 _ 0 [] (by decide)⟩

/-- The context of such a header is left out. -/
theorem hugeContext_left_out :
    hugeContext.Ok ∧ (hugeContext.bytes true).length ≤ 1024 ∧
    hugeContext.last (ascii "general.architecture") = some (.str (ascii "a")) ∧
    hugeContext.last (ascii "a.context_length") = some (.int .u64 (2 ^ 53 + 1)) ∧
    ∃ r facts, (readHeader (hugeContext.bytes true) 1024 true).1 = some r ∧ r.complete = true ∧
      r.facts = some facts ∧ facts.context = none := by
  have hle : (hugeContext.bytes true).length ≤ 1024 := by decide
  have hread := readHeader_whole hugeContext_ok hle (by decide) []
  rw [List.append_nil] at hread
  exact ⟨hugeContext_ok, hle, rfl, rfl, _, _, hread, rfl, rfl, rfl⟩

end Gguf

end EngineConsole
