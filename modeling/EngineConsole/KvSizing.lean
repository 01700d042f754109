import EngineConsole.Labels
import EngineConsole.Cleaning

/-!
# The size of the KV cache

How the fit estimator sizes the KV cache of a model (`services/fit.rs`) : `layer_split` tells the
layers with a sliding window from the others, `kv_model` builds a `Kv`, which gives the bytes for
a context and the largest context that fits a pool. Arithmetic is exact here : a float is a
rational number, and an integer is not cut to 64 bits.

`bytes_for` grows with the context and the sequences, and `max_ctx` is its inverse, except for two
kinds of model : one whose window is negative, and one all of whose layers have a window, where
the pool is what they take when they are full (`sizing_iff`).
-/

set_option linter.unusedSectionVars false

namespace EngineConsole

namespace Fit

open Web Wire

/-! ## Models -/

/-- The fields of `ModelInfo` that the sizing reads. -/
structure ModelInfo where
  hiddenSize : Option ℤ
  numLayers : Option ℤ
  numAttentionHeads : Option ℤ
  numKvHeads : Option ℤ
  headDim : Option ℤ
  slidingWindow : Option ℤ
  kvLoraRank : Option ℤ
  rawConfig : Obj

/-- `cfg_of` -/
def cfgOf (model : ModelInfo) : Obj :=
  match get model.rawConfig "text_config" with
  | some (.obj inner) => inner
  | _ => model.rawConfig

/-- A problem : what Python raises. -/
abbrev Problem := Text

/-- `bad` -/
def bad : Problem := "unexpected server error"

/-- `div` -/
def div (a b : ℚ) : Except Problem ℚ :=
  if b = 0 then .error bad else .ok (a / b)

/-- `trunc` -/
def trunc (x : ℚ) : ℤ :=
  if 0 ≤ x then ⌊x⌋ else ⌈x⌉

/-- `floordiv` -/
def floordiv (a b : ℤ) : Option ℤ :=
  if b = 0 then none
  else
    let q := a.tdiv b
    if a.tmod b ≠ 0 ∧ (decide (a < 0) ≠ decide (b < 0)) then some (q - 1) else some q

/-- `as_int` -/
def asInt : Value → Option ℤ
  | .num (.int i) => if -2 ^ 63 ≤ i ∧ i < 2 ^ 63 then some i else none
  | _ => none

/-- `py_int_value` -/
def pyIntValue (uni : Char → Bool) : Value → Except Problem ℤ
  | .bool b => .ok (if b then 1 else 0)
  | .num (.int i) => .ok i
  | .num (.float x) => .ok (trunc x)
  | .str s =>
    match Lifecycle.pyInt uni s with
    | some i => .ok i
    | none => .error bad
  | _ => .error bad

/-! ## Layers -/

/-- The layers without a window and with one, the window, and a note. -/
structure Split where
  full : ℤ
  sliding : ℤ
  window : Option ℤ
  note : Option Text

/-- A layer of this type has a window. -/
def isSliding : Value → Bool
  | .str s => s == ascii "sliding_attention"
  | _ => false

/-- `sliding_window_pattern`, where it counts. -/
def pattern (cfg : Obj) : Option ℤ :=
  ((get cfg "sliding_window_pattern").bind asInt).filter fun p => 1 < p

/-- `layer_types`, where there is one for each layer. -/
def layerTypes (cfg : Obj) (layers : ℤ) : Option (List Value) :=
  match get cfg "layer_types" with
  | some (.arr types) => if (types.length : ℤ) = layers then some types else none
  | _ => none

/-- `use_sliding_window` is `false`. -/
def unused (cfg : Obj) : Bool :=
  match get cfg "use_sliding_window" with
  | some (.bool b) => !b
  | _ => false

/-- `layer_split` -/
def layerSplit (model : ModelInfo) : Split :=
  let layers := model.numLayers.getD 0
  let window := model.slidingWindow
  let cfg := cfgOf model
  if window.all (· = 0) ∨ unused cfg ∨ layers ≤ 0 then ⟨layers, 0, none, none⟩
  else
    match layerTypes cfg layers with
    | some types =>
      let nSl : ℤ := types.countP isSliding
      ⟨layers - nSl, nSl, window, none⟩
    | none =>
      match pattern cfg with
      | some p =>
        let nFull := (floordiv layers p).getD 0
        ⟨nFull, layers - nFull, window, none⟩
      | none =>
        ⟨0, layers, window,
          some "sliding_window set without a layer pattern: assumed every layer is windowed"⟩

/-! ## Sizes -/

/-- `Kv` -/
structure Kv where
  perLayer : ℚ
  nFull : ℤ
  nSl : ℤ
  window : Option ℤ

/-- The window, where there is one. -/
def Kv.realWindow (kv : Kv) : Option ℤ :=
  kv.window.filter fun w => w ≠ 0

/-- The tokens that the layers keep, together. -/
def Kv.tokens (kv : Kv) (ctx : ℤ) : ℤ :=
  let effSl :=
    match kv.realWindow with
    | some w => min ctx w
    | none => ctx
  kv.nFull * ctx + kv.nSl * effSl

/-- `bytes_for` -/
def Kv.bytesFor (kv : Kv) (ctx seqs : ℤ) : ℚ :=
  kv.perLayer * kv.tokens ctx * seqs

/-- `int(a / b)` -/
def intDiv (a b : ℚ) : Except Problem ℤ :=
  (div a b).map trunc

/-- `max_ctx` -/
def Kv.maxCtx (kv : Kv) (pool : ℚ) (seqs : ℤ) : Except Problem (Option ℤ) :=
  if pool ≤ 0 then .ok (some 0)
  else
    match div pool (kv.perLayer * seqs) with
    | .error e => .error e
    | .ok t =>
      match kv.realWindow.filter fun _ => kv.nSl ≠ 0 with
      | none => if kv.nFull ≠ 0 then (intDiv t kv.nFull).map some else .ok none
      | some w =>
        let all := kv.nFull + kv.nSl
        if t ≤ all * w then (intDiv t all).map some
        else if kv.nFull ≠ 0 then (intDiv (t - kv.nSl * w) kv.nFull).map some
        else .ok none

/-- `DEFAULT_QK_ROPE` -/
def defaultQkRope : ℤ := 64

/-- What `kv_model` returns : the sizing, the notes, and whether confidence is lowered. -/
abbrev Built := Option Kv × List Text × Bool

/-- The sizing of a model with grouped heads. -/
def kvOfHeads (model : ModelInfo) (split : Split) (notes : List Text) (tp : ℤ) (kvBytes : ℚ) :
    Built :=
  let heads := model.numAttentionHeads.filter (· ≠ 0)
  let missing : Built :=
    (none, notes ++ [ascii "attention head counts missing: KV cache cannot be computed"], true)
  let withHeads (kvHeads : ℤ) (notes : List Text) (lowered : Bool) : Built :=
    let headDim := (model.headDim.filter (· ≠ 0)).or
      ((model.hiddenSize.filter (· ≠ 0)).bind fun hs => heads.bind fun h => floordiv hs h)
    match headDim.filter (· ≠ 0) with
    | none => (none, notes ++ [ascii "head_dim unknown: KV cache cannot be computed"], true)
    | some d =>
      let perGpuHeads : ℤ := max ⌈(kvHeads : ℚ) / (max tp 1 : ℤ)⌉ 1
      let notes := if kvHeads < tp then
        notes ++ [ascii "tp=" ++ Lifecycle.intText tp ++ ascii " exceeds " ++
          Lifecycle.intText kvHeads ++ ascii " KV heads: KV heads are replicated across ranks"]
        else notes
      (some ⟨2 * perGpuHeads * d * kvBytes, split.full, split.sliding, split.window⟩, notes,
        lowered)
  match model.numKvHeads with
  | some k => withHeads k notes false
  | none =>
    match heads with
    | none => missing
    | some h => withHeads h
        (notes ++ [ascii "num_key_value_heads missing: assumed MHA (upper bound on KV size)"]) true

/-- `kv_model` -/
def kvModel (uni : Char → Bool) (model : ModelInfo) (tp : ℤ) (kvBytes : ℚ) :
    Except Problem Built :=
  match model.numLayers.filter (· ≠ 0) with
  | none =>
    .ok (none, ["num_layers missing from config: KV cache cannot be computed"], true)
  | some _ =>
    let split := layerSplit model
    let notes := split.note.toList
    match model.kvLoraRank.filter (· ≠ 0) with
    | some rank =>
      let rope : Except Problem ℤ := match get (cfgOf model) "qk_rope_head_dim" with
        | none => .ok defaultQkRope
        | some v => pyIntValue uni v
      rope.map fun rope =>
        (some ⟨(rank + rope) * kvBytes, split.full, split.sliding, split.window⟩,
          notes ++ [ascii "MLA latent KV cache is replicated on every TP rank"], false)
    | none => .ok (kvOfHeads model split notes tp kvBytes)

/-! ## What is sized -/

/-- A number that is given is positive. -/
def Positive (x : Option ℤ) : Prop :=
  ∀ n, x = some n → 0 < n

/-- A model with a layer, and positive head counts and dimensions. -/
structure Sized (uni : Char → Bool) (model : ModelInfo) : Prop where
  layers : ∃ n, model.numLayers = some n ∧ 0 < n
  heads : Positive model.numAttentionHeads
  kvHeads : Positive model.numKvHeads
  headDim : Positive model.headDim
  hidden : Positive model.hiddenSize
  rank : Positive model.kvLoraRank
  rope : ∀ v d, get (cfgOf model) "qk_rope_head_dim" = some v → pyIntValue uni v = .ok d → 0 < d

/-- Bytes are not negative, and grow with the context and the sequences. -/
def Kv.Grows (kv : Kv) : Prop :=
  (∀ ctx seqs, 0 ≤ ctx → 0 ≤ seqs → 0 ≤ kv.bytesFor ctx seqs) ∧
    (∀ ctx ctx' seqs, 0 ≤ ctx → ctx ≤ ctx' → 0 ≤ seqs →
      kv.bytesFor ctx seqs ≤ kv.bytesFor ctx' seqs) ∧
    ∀ ctx seqs seqs', 0 ≤ ctx → 0 ≤ seqs → seqs ≤ seqs' →
      kv.bytesFor ctx seqs ≤ kv.bytesFor ctx seqs'

/-- The contexts that fit. -/
def Kv.fitting (kv : Kv) (pool : ℚ) (seqs : ℤ) : Set ℤ :=
  {ctx | 0 ≤ ctx ∧ kv.bytesFor ctx seqs ≤ pool}

/-- `max_ctx` gives the largest context that fits, and none just when there is no largest. -/
def Kv.Inverse (kv : Kv) (pool : ℚ) (seqs : ℤ) : Prop :=
  (∀ ctx, kv.maxCtx pool seqs = .ok (some ctx) ↔ IsGreatest (kv.fitting pool seqs) ctx) ∧
    (kv.maxCtx pool seqs = .ok none ↔ ¬∃ ctx, IsGreatest (kv.fitting pool seqs) ctx)

/-- A window is positive, and where all layers have it the pool is not what they take when they
are full. -/
def Kv.Regular (kv : Kv) (pool : ℚ) (seqs : ℤ) : Prop :=
  ∀ w, kv.window = some w → kv.nSl ≠ 0 →
    0 < w ∧ (kv.nFull = 0 → pool ≠ kv.perLayer * seqs * (kv.nSl * w))

/-- What `kv_model` builds. -/
structure Kv.WellFormed (kv : Kv) : Prop where
  perLayer : 0 < kv.perLayer
  nFull : 0 ≤ kv.nFull
  nSl : 0 ≤ kv.nSl
  layers : 0 < kv.nFull + kv.nSl
  window : kv.nSl ≠ 0 → ∃ w, kv.window = some w ∧ w ≠ 0

/-! ## The layers of a model -/

theorem floordiv_pos {a b : ℤ} (ha : 0 ≤ a) (hb : 0 < b) : floordiv a b = some (a / b) := by
  have hsign : ¬(a.tmod b ≠ 0 ∧ decide (a < 0) ≠ decide (b < 0)) := by
    rintro ⟨-, h⟩
    simp [ha.not_gt, hb.le.not_gt] at h
  rw [floordiv, if_neg hb.ne']
  dsimp only
  rw [if_neg hsign, Int.tdiv_eq_ediv_of_nonneg ha]

/-- The layers are split in two, and those with a window have one. -/
theorem layerSplit_spec {model : ModelInfo} {n : ℤ} (hn : model.numLayers = some n) (hpos : 0 < n) :
    let split := layerSplit model
    0 ≤ split.full ∧ 0 ≤ split.sliding ∧ split.full + split.sliding = n ∧
      (split.sliding ≠ 0 → ∃ w, split.window = some w ∧ w ≠ 0) := by
  have hlayers : model.numLayers.getD 0 = n := by rw [hn, Option.getD_some]
  have hwin (h : ¬(model.slidingWindow.all (· = 0) ∨ unused (cfgOf model) ∨ n ≤ 0)) :
      ∃ w, model.slidingWindow = some w ∧ w ≠ 0 := by
    rw [not_or] at h
    cases hw : model.slidingWindow with
    | none => simp [hw] at h
    | some w => exact ⟨w, rfl, by simpa [hw] using h.1⟩
  dsimp only
  unfold layerSplit
  dsimp only
  rw [hlayers]
  by_cases hoff : model.slidingWindow.all (· = 0) ∨ unused (cfgOf model) ∨ n ≤ 0
  · rw [if_pos hoff]
    exact ⟨hpos.le, le_rfl, add_zero n, fun h => absurd rfl h⟩
  · rw [if_neg hoff]
    cases htypes : layerTypes (cfgOf model) n with
    | some types =>
      have hlen : (types.length : ℤ) = n := by
        unfold layerTypes at htypes
        split at htypes
        · split_ifs at htypes with hlen
          rwa [← Option.some.inj htypes]
        · cases htypes
      have hcount := List.countP_le_length (p := isSliding) (l := types)
      dsimp only
      exact ⟨by omega, by omega, by omega, fun _ => hwin hoff⟩
    | none =>
      dsimp only
      cases hp : pattern (cfgOf model) with
      | none => exact ⟨le_rfl, hpos.le, zero_add n, fun _ => hwin hoff⟩
      | some p =>
        have hp1 : 1 < p := by simpa using (Option.filter_eq_some_iff.1 hp).2
        dsimp only
        rw [floordiv_pos hpos.le (by omega), Option.getD_some]
        have hnonneg : 0 ≤ n / p := Int.ediv_nonneg hpos.le (by omega)
        have hle : n / p ≤ n := Int.ediv_le_self p hpos.le
        exact ⟨hnonneg, by omega, by omega, fun _ => hwin hoff⟩

theorem positive_filter {x : Option ℤ} (h : Positive x) {n : ℤ}
    (hn : x.filter (· ≠ 0) = some n) : 0 < n :=
  h n (Option.filter_eq_some_iff.1 hn).1

/-- A sizing by heads takes the layers as they are split, and some bytes for each. -/
theorem kvOfHeads_spec {uni : Char → Bool} {model : ModelInfo} (h : Sized uni model)
    {split : Split} {notes : List Text} {tp : ℤ} {kvBytes : ℚ} (hb : 0 < kvBytes) {kv : Kv}
    {rest : List Text × Bool} (hk : kvOfHeads model split notes tp kvBytes = (some kv, rest)) :
    0 < kv.perLayer ∧ kv.nFull = split.full ∧ kv.nSl = split.sliding ∧
      kv.window = split.window := by
  have hheads {n : ℤ} (hn : model.numAttentionHeads.filter (· ≠ 0) = some n) : 0 < n :=
    positive_filter h.heads hn
  -- the dimension of a head, given or computed, is not negative
  have hdim {d : ℤ} (hd : ((model.headDim.filter (· ≠ 0)).or
      ((model.hiddenSize.filter (· ≠ 0)).bind fun hs =>
        (model.numAttentionHeads.filter (· ≠ 0)).bind fun h => floordiv hs h)).filter (· ≠ 0) =
      some d) : 0 < d := by
    obtain ⟨hd, hne⟩ := Option.filter_eq_some_iff.1 hd
    rw [decide_eq_true_eq] at hne
    rcases Option.or_eq_some_iff.1 hd with hd | ⟨-, hd⟩
    · exact positive_filter h.headDim hd
    · obtain ⟨hs, hhs, hd⟩ := Option.bind_eq_some_iff.1 hd
      obtain ⟨n, hn, hd⟩ := Option.bind_eq_some_iff.1 hd
      have hhs' := positive_filter h.hidden hhs
      have hn' := hheads hn
      rw [floordiv_pos hhs'.le hn', Option.some_inj] at hd
      have := Int.ediv_nonneg hhs'.le hn'.le
      omega
  have hbytes (k d : ℤ) (hd : 0 < d) :
      0 < (2 : ℚ) * (max ⌈(k : ℚ) / (max tp 1 : ℤ)⌉ 1 : ℤ) * d * kvBytes := by
    have hone : (0 : ℚ) < (max ⌈(k : ℚ) / (max tp 1 : ℤ)⌉ 1 : ℤ) :=
      Int.cast_pos.2 (lt_of_lt_of_le one_pos (le_max_right _ _))
    have hd' : (0 : ℚ) < d := Int.cast_pos.2 hd
    positivity
  unfold kvOfHeads at hk
  dsimp only at hk
  split at hk
  · split at hk
    · cases hk
    · rename_i d hd
      obtain rfl := Option.some.inj (Prod.mk.inj hk).1
      exact ⟨hbytes _ d (hdim hd), rfl, rfl, rfl⟩
  · split at hk
    · cases hk
    · split at hk
      · cases hk
      · rename_i d hd
        obtain rfl := Option.some.inj (Prod.mk.inj hk).1
        exact ⟨hbytes _ d (hdim hd), rfl, rfl, rfl⟩

/-- What `kv_model` builds is well formed. -/
theorem wellFormed_of_kvModel {uni : Char → Bool} {model : ModelInfo} (h : Sized uni model)
    {tp : ℤ} {kvBytes : ℚ} (hb : 0 < kvBytes) {kv : Kv} {rest : List Text × Bool}
    (hk : kvModel uni model tp kvBytes = .ok (some kv, rest)) : kv.WellFormed := by
  obtain ⟨n, hn, hpos⟩ := h.layers
  have hsplit := layerSplit_spec hn hpos
  dsimp only at hsplit
  suffices hkv : 0 < kv.perLayer ∧ kv.nFull = (layerSplit model).full ∧
      kv.nSl = (layerSplit model).sliding ∧ kv.window = (layerSplit model).window by
    obtain ⟨hper, hfull, hsl, hw⟩ := hkv
    rw [← hfull, ← hsl, ← hw] at hsplit
    obtain ⟨h₁, h₂, h₃, h₄⟩ := hsplit
    exact ⟨hper, h₁, h₂, by omega, h₄⟩
  unfold kvModel at hk
  split at hk
  · cases hk
  · dsimp only at hk
    split at hk
    · rename_i rank hrank
      have hrank' := positive_filter h.rank hrank
      split at hk
      · obtain rfl := Option.some.inj (Prod.mk.inj (Except.ok.inj hk)).1
        refine ⟨?_, rfl, rfl, rfl⟩
        have : (0 : ℚ) < rank := Int.cast_pos.2 hrank'
        have hrope : (0 : ℚ) < defaultQkRope := Int.cast_pos.2 (by decide)
        dsimp only
        positivity
      · rename_i v hv
        cases hd : pyIntValue uni v with
        | error e =>
          rw [hd] at hk
          cases hk
        | ok d =>
          rw [hd] at hk
          obtain rfl := Option.some.inj (Prod.mk.inj (Except.ok.inj hk)).1
          refine ⟨?_, rfl, rfl, rfl⟩
          have : (0 : ℚ) < rank := Int.cast_pos.2 hrank'
          have hrope : (0 : ℚ) < d := Int.cast_pos.2 (h.rope v d hv hd)
          dsimp only
          positivity
    · exact kvOfHeads_spec h hb (Except.ok.inj hk)

/-! ## The bytes of a context -/

variable {kv : Kv}

theorem tokens_window {w : ℤ} (hw : kv.window = some w) (h0 : w ≠ 0) (ctx : ℤ) :
    kv.tokens ctx = kv.nFull * ctx + kv.nSl * min ctx w := by
  have : kv.realWindow = some w := by simp [Kv.realWindow, hw, h0]
  rw [Kv.tokens, this]

theorem tokens_full (h : kv.nSl = 0) (ctx : ℤ) : kv.tokens ctx = kv.nFull * ctx := by
  simp [Kv.tokens, h]

/-- Tokens grow with the context. -/
theorem tokens_mono (hk : kv.WellFormed) {ctx ctx' : ℤ} (h : ctx ≤ ctx') :
    kv.tokens ctx ≤ kv.tokens ctx' := by
  have hfull : kv.nFull * ctx ≤ kv.nFull * ctx' := mul_le_mul_of_nonneg_left h hk.nFull
  by_cases hsl : kv.nSl = 0
  · rwa [tokens_full hsl, tokens_full hsl]
  · obtain ⟨w, hwin, h0⟩ := hk.window hsl
    have hmin : kv.nSl * min ctx w ≤ kv.nSl * min ctx' w :=
      mul_le_mul_of_nonneg_left (min_le_min_right w h) hk.nSl
    rw [tokens_window hwin h0, tokens_window hwin h0]
    exact add_le_add hfull hmin

theorem tokens_zero (hk : kv.WellFormed) (hw : ∀ w, kv.window = some w → kv.nSl ≠ 0 → 0 < w) :
    kv.tokens 0 = 0 := by
  by_cases hsl : kv.nSl = 0
  · rw [tokens_full hsl, mul_zero]
  · obtain ⟨w, hwin, h0⟩ := hk.window hsl
    rw [tokens_window hwin h0, min_eq_left (hw w hwin hsl).le, mul_zero, mul_zero, add_zero]

/-- Bytes grow just when no window is negative. -/
theorem grows_iff (hk : kv.WellFormed) :
    kv.Grows ↔ ∀ w, kv.window = some w → kv.nSl ≠ 0 → 0 < w := by
  constructor
  · intro h w hw hsl
    by_contra hneg
    obtain ⟨w', hwin, h0⟩ := hk.window hsl
    obtain rfl : w = w' := Option.some.inj (hw.symm.trans hwin)
    have hpos := h.1 0 1 le_rfl zero_le_one
    have hlt : kv.tokens 0 < 0 := by
      rw [tokens_window hw h0, mul_zero, zero_add, min_eq_right (by omega)]
      have hnsl := hk.nSl
      exact mul_neg_of_pos_of_neg (by omega) (by omega)
    have hlt' : ((kv.tokens 0 : ℤ) : ℚ) < 0 := Int.cast_lt_zero.2 hlt
    have hbytes : kv.bytesFor 0 1 < 0 := by
      rw [Kv.bytesFor, Int.cast_one, mul_one]
      exact mul_neg_of_pos_of_neg hk.perLayer hlt'
    exact hbytes.not_ge hpos
  · intro hw
    have htok {ctx : ℤ} (hctx : 0 ≤ ctx) : (0 : ℚ) ≤ kv.tokens ctx := by
      have := tokens_mono hk hctx
      rw [tokens_zero hk hw] at this
      exact Int.cast_nonneg this
    have hper := hk.perLayer.le
    refine ⟨fun ctx seqs hctx hseqs => ?_, fun ctx ctx' seqs _ hle hseqs => ?_,
      fun ctx seqs seqs' hctx _ hle => ?_⟩
    · have hs : (0 : ℚ) ≤ seqs := Int.cast_nonneg hseqs
      exact mul_nonneg (mul_nonneg hper (htok hctx)) hs
    · have hs : (0 : ℚ) ≤ seqs := Int.cast_nonneg hseqs
      have ht : (kv.tokens ctx : ℚ) ≤ kv.tokens ctx' := Int.cast_le.2 (tokens_mono hk hle)
      exact mul_le_mul_of_nonneg_right (mul_le_mul_of_nonneg_left ht hper) hs
    · exact mul_le_mul_of_nonneg_left (Int.cast_le.2 hle) (mul_nonneg hper (htok hctx))

/-! ## The largest context -/

section

variable {pool : ℚ} {seqs : ℤ}

/-- Tokens for each byte of the pool. -/
theorem bytesFor_le_iff (hk : kv.WellFormed) (hs : 1 ≤ seqs) {ctx : ℤ} :
    kv.bytesFor ctx seqs ≤ pool ↔ (kv.tokens ctx : ℚ) ≤ pool / (kv.perLayer * seqs) := by
  have hs' : (0 : ℚ) < seqs := Int.cast_pos.2 (by omega)
  rw [le_div_iff₀ (mul_pos hk.perLayer hs'), Kv.bytesFor]
  have : kv.perLayer * kv.tokens ctx * seqs = kv.tokens ctx * (kv.perLayer * seqs) := by ring
  rw [this]

theorem isGreatest_fitting (hk : kv.WellFormed) (hs : 1 ≤ seqs) {m : ℤ} (h0 : 0 ≤ m)
    (hle : (kv.tokens m : ℚ) ≤ pool / (kv.perLayer * seqs))
    (hlt : pool / (kv.perLayer * seqs) < kv.tokens (m + 1)) :
    IsGreatest (kv.fitting pool seqs) m := by
  refine ⟨⟨h0, (bytesFor_le_iff hk hs).2 hle⟩, fun ctx hctx => ?_⟩
  by_contra hmore
  have hmono : (kv.tokens (m + 1) : ℚ) ≤ kv.tokens ctx :=
    Int.cast_le.2 (tokens_mono hk (by omega))
  exact ((bytesFor_le_iff hk hs).1 hctx.2).not_gt (hlt.trans_le hmono)

theorem no_greatest (hk : kv.WellFormed) (hs : 1 ≤ seqs)
    (h : ∀ ctx, (kv.tokens ctx : ℚ) ≤ pool / (kv.perLayer * seqs)) :
    ¬∃ m, IsGreatest (kv.fitting pool seqs) m := by
  rintro ⟨m, hm, hmax⟩
  have hnext : m + 1 ∈ kv.fitting pool seqs :=
    ⟨add_nonneg hm.1 zero_le_one, (bytesFor_le_iff hk hs).2 (h (m + 1))⟩
  have := hmax hnext
  omega

theorem inverse_of_some {m : ℤ} (h : kv.maxCtx pool seqs = .ok (some m))
    (hm : IsGreatest (kv.fitting pool seqs) m) : kv.Inverse pool seqs := by
  refine ⟨fun ctx => ?_, ?_⟩
  · rw [h, Except.ok.injEq, Option.some_inj]
    exact ⟨fun heq => heq ▸ hm, fun hctx => hm.unique hctx⟩
  · rw [h]
    exact iff_of_false (fun heq => by cases heq) (not_not.2 ⟨m, hm⟩)

theorem inverse_of_none (h : kv.maxCtx pool seqs = .ok none)
    (hno : ¬∃ m, IsGreatest (kv.fitting pool seqs) m) : kv.Inverse pool seqs := by
  refine ⟨fun ctx => ?_, iff_of_true h hno⟩
  rw [h]
  exact iff_of_false (fun heq => by cases heq) fun hctx => hno ⟨ctx, hctx⟩

theorem intDiv_eq {a b : ℚ} (hb : b ≠ 0) : intDiv a b = .ok (trunc (a / b)) := by
  rw [intDiv, div, if_neg hb]
  rfl

theorem div_eq {a b : ℚ} (hb : b ≠ 0) : div a b = .ok (a / b) := by
  rw [div, if_neg hb]

/-- The whole part of a share. -/
theorem trunc_div {t : ℚ} {n : ℤ} (ht : 0 ≤ t) (hn : 0 < n) :
    0 ≤ trunc (t / n) ∧ (n : ℚ) * trunc (t / n) ≤ t ∧ t < n * (trunc (t / n) + 1) := by
  have hn' : (0 : ℚ) < n := Int.cast_pos.2 hn
  have hdiv : 0 ≤ t / n := div_nonneg ht hn'.le
  rw [trunc, if_pos hdiv]
  refine ⟨Int.floor_nonneg.2 hdiv, ?_, ?_⟩
  · have := Int.floor_le (t / n)
    rwa [le_div_iff₀ hn', mul_comm] at this
  · have := Int.lt_floor_add_one (t / n)
    rwa [div_lt_iff₀ hn', mul_comm] at this

/-- A sizing all of whose layers count. -/
theorem maxCtx_full (hk : kv.WellFormed) (hs : 1 ≤ seqs) (hp : 0 < pool) (hsl : kv.nSl = 0) :
    kv.maxCtx pool seqs = .ok (some (trunc (pool / (kv.perLayer * seqs) / kv.nFull))) := by
  have hs' : (seqs : ℚ) ≠ 0 := Int.cast_ne_zero.2 (by omega)
  have hfull : kv.nFull ≠ 0 := by
    have := hk.layers
    omega
  have hnone : kv.realWindow.filter (fun _ => kv.nSl ≠ 0) = none := by simp [hsl]
  rw [Kv.maxCtx, if_neg hp.not_ge, div_eq (mul_ne_zero hk.perLayer.ne' hs')]
  dsimp only
  rw [hnone]
  dsimp only
  rw [if_pos hfull, intDiv_eq (Int.cast_ne_zero.2 hfull)]
  rfl

/-- A sizing with layers of a window. -/
theorem maxCtx_window (hk : kv.WellFormed) (hs : 1 ≤ seqs) (hp : 0 < pool) {w : ℤ}
    (hw : kv.window = some w) (h0 : w ≠ 0) (hsl : kv.nSl ≠ 0) : kv.maxCtx pool seqs =
      if pool / (kv.perLayer * seqs) ≤ (kv.nFull + kv.nSl : ℤ) * w then
        .ok (some (trunc (pool / (kv.perLayer * seqs) / (kv.nFull + kv.nSl : ℤ))))
      else if kv.nFull ≠ 0 then
        .ok (some (trunc ((pool / (kv.perLayer * seqs) - kv.nSl * w) / kv.nFull)))
      else .ok none := by
  have hs' : (seqs : ℚ) ≠ 0 := Int.cast_ne_zero.2 (by omega)
  have hall : ((kv.nFull + kv.nSl : ℤ) : ℚ) ≠ 0 := Int.cast_ne_zero.2 hk.layers.ne'
  have hsome : kv.realWindow.filter (fun _ => kv.nSl ≠ 0) = some w := by
    simp [Kv.realWindow, hw, h0, hsl]
  rw [Kv.maxCtx, if_neg hp.not_ge, div_eq (mul_ne_zero hk.perLayer.ne' hs')]
  dsimp only
  rw [hsome]
  dsimp only
  rw [intDiv_eq hall]
  by_cases hfull : kv.nFull = 0
  · rw [if_neg (not_not.2 hfull), if_neg (not_not.2 hfull)]
    rfl
  · rw [intDiv_eq (Int.cast_ne_zero.2 hfull)]
    rfl

theorem inverse_full (hk : kv.WellFormed) (hs : 1 ≤ seqs) (hp : 0 < pool) (hsl : kv.nSl = 0) :
    kv.Inverse pool seqs := by
  have hs' : (0 : ℚ) < seqs := Int.cast_pos.2 (by omega)
  have ht : 0 ≤ pool / (kv.perLayer * seqs) := div_nonneg hp.le (mul_pos hk.perLayer hs').le
  have hfull : 0 < kv.nFull := by
    have := hk.layers
    omega
  obtain ⟨h0, hle, hlt⟩ := trunc_div ht hfull
  refine inverse_of_some (maxCtx_full hk hs hp hsl)
    (isGreatest_fitting hk hs h0 ?_ ?_)
  · rw [tokens_full hsl, Int.cast_mul]
    exact hle
  · rw [tokens_full hsl, Int.cast_mul, Int.cast_add, Int.cast_one]
    exact hlt

/-- With a positive window, `max_ctx` is the inverse except at one pool. -/
theorem inverse_window (hk : kv.WellFormed) (hs : 1 ≤ seqs) (hp : 0 < pool) {w : ℤ}
    (hw : kv.window = some w) (hpos : 0 < w) (hsl : kv.nSl ≠ 0)
    (hapart : kv.nFull = 0 → pool ≠ kv.perLayer * seqs * (kv.nSl * w)) :
    kv.Inverse pool seqs := by
  have hs' : (0 : ℚ) < seqs := Int.cast_pos.2 (by omega)
  have hscale : 0 < kv.perLayer * seqs := mul_pos hk.perLayer hs'
  have htok (ctx : ℤ) : (kv.tokens ctx : ℚ) = kv.nFull * ctx + kv.nSl * (min ctx w : ℤ) := by
    rw [tokens_window hw hpos.ne', Int.cast_add, Int.cast_mul, Int.cast_mul]
  have hnsl : 0 < kv.nSl := by
    have := hk.nSl
    omega
  have hnsl' : (0 : ℚ) < kv.nSl := Int.cast_pos.2 hnsl
  have hnfull' : (0 : ℚ) ≤ kv.nFull := Int.cast_nonneg hk.nFull
  have hw' : (0 : ℚ) < w := Int.cast_pos.2 hpos
  have hmax := maxCtx_window hk hs hp hw hpos.ne' hsl
  obtain ⟨t, ht⟩ : ∃ t, t = pool / (kv.perLayer * seqs) := ⟨_, rfl⟩
  have ht0 : 0 < t := ht ▸ div_pos hp hscale
  rw [← ht] at hmax
  have hgreatest {m : ℤ} (h0 : 0 ≤ m) (hle : (kv.tokens m : ℚ) ≤ t)
      (hlt : t < kv.tokens (m + 1)) : IsGreatest (kv.fitting pool seqs) m := by
    rw [ht] at hle hlt
    exact isGreatest_fitting hk hs h0 hle hlt
  split_ifs at hmax with hknee hfull
  · -- up to the knee, all layers count every token
    obtain ⟨h0, hle, hlt⟩ := trunc_div ht0.le hk.layers
    obtain ⟨m, hm⟩ : ∃ m, m = trunc (t / (kv.nFull + kv.nSl : ℤ)) := ⟨_, rfl⟩
    rw [← hm] at h0 hle hlt hmax
    have hall : (0 : ℚ) < (kv.nFull + kv.nSl : ℤ) := Int.cast_pos.2 hk.layers
    have hmw : m ≤ w := by
      have : ((kv.nFull + kv.nSl : ℤ) : ℚ) * m ≤ (kv.nFull + kv.nSl : ℤ) * w := hle.trans hknee
      exact Int.cast_le.1 (le_of_mul_le_mul_left this hall)
    refine inverse_of_some hmax (hgreatest h0 ?_ ?_)
    · rw [htok, min_eq_left hmw]
      push_cast at hle
      linarith
    · rw [htok]
      rcases eq_or_lt_of_le hmw with heq | hlt'
      · -- at the knee itself, a layer without a window is needed
        rw [heq, min_eq_right (by omega)]
        have hne : kv.nFull ≠ 0 ∨ t ≠ (kv.nFull + kv.nSl : ℤ) * w := by
          by_cases hz : kv.nFull = 0
          · right
            intro heqt
            apply hapart hz
            rw [hz, zero_add, ht, div_eq_iff hscale.ne'] at heqt
            rw [heqt]
            ring
          · exact .inl hz
        rw [heq] at hle
        push_cast at hle hlt hknee hne ⊢
        rcases hne with hz | hne
        · have hfull1 : (1 : ℚ) ≤ kv.nFull := by
            have := hk.nFull
            exact_mod_cast (by omega : (1 : ℤ) ≤ kv.nFull)
          linarith
        · have := lt_of_le_of_ne hknee hne
          linarith
      · rw [min_eq_left (by omega)]
        push_cast at hlt ⊢
        linarith
  · -- past the knee, the layers with a window are full
    have hfull' : 0 < kv.nFull := by
      have := hk.nFull
      omega
    have hrest : 0 ≤ t - kv.nSl * w := by
      rw [not_le] at hknee
      push_cast at hknee
      have := mul_nonneg hnfull' hw'.le
      linarith
    obtain ⟨h0, hle, hlt⟩ := trunc_div hrest hfull'
    obtain ⟨m, hm⟩ : ∃ m, m = trunc ((t - kv.nSl * w) / kv.nFull) := ⟨_, rfl⟩
    rw [← hm] at h0 hle hlt hmax
    have hwm : w ≤ m := by
      have hf : (0 : ℚ) < kv.nFull := Int.cast_pos.2 hfull'
      have : (kv.nFull : ℚ) * w < kv.nFull * (m + 1) := by
        rw [not_le] at hknee
        push_cast at hknee
        linarith
      have := lt_of_mul_lt_mul_left this hf.le
      have : w < m + 1 := by exact_mod_cast this
      omega
    refine inverse_of_some hmax (hgreatest h0 ?_ ?_)
    · rw [htok, min_eq_right hwm]
      linarith
    · rw [htok, min_eq_right (by omega)]
      push_cast
      linarith
  · -- every context takes what is taken when all windows are full
    refine inverse_of_none hmax (no_greatest hk hs fun ctx => ?_)
    rw [not_not] at hfull
    rw [← ht, htok, hfull, Int.cast_zero, zero_mul, zero_add]
    rw [not_le, hfull, zero_add] at hknee
    have : ((min ctx w : ℤ) : ℚ) ≤ w := Int.cast_le.2 (min_le_right ctx w)
    exact (mul_le_mul_of_nonneg_left this hnsl'.le).trans hknee.le

/-- At that pool it is not : there is no largest context, and `max_ctx` gives the window. -/
theorem not_inverse (hk : kv.WellFormed) (hs : 1 ≤ seqs) (hp : 0 < pool) {w : ℤ}
    (hw : kv.window = some w) (hpos : 0 < w) (hsl : kv.nSl ≠ 0) (hfull : kv.nFull = 0)
    (hpool : pool = kv.perLayer * seqs * (kv.nSl * w)) : ¬kv.Inverse pool seqs := by
  intro h
  have hs' : (0 : ℚ) < seqs := Int.cast_pos.2 (by omega)
  have hscale : kv.perLayer * seqs ≠ 0 := (mul_pos hk.perLayer hs').ne'
  have ht : pool / (kv.perLayer * seqs) = kv.nSl * w := by
    rw [hpool, mul_div_cancel_left₀ _ hscale]
  have hmax := maxCtx_window hk hs hp hw hpos.ne' hsl
  rw [ht, hfull, zero_add, if_pos le_rfl] at hmax
  refine no_greatest hk hs (fun ctx => ?_) ⟨_, (h.1 _).1 hmax⟩
  have hmin : min ctx w ≤ w := min_le_right ctx w
  have hle : kv.nSl * min ctx w ≤ kv.nSl * w := mul_le_mul_of_nonneg_left hmin hk.nSl
  rw [ht, tokens_window hw hpos.ne', hfull, zero_mul, zero_add]
  exact_mod_cast hle

end

/-! ## The sizing of a model -/

/-- The sizing that is built grows and `max_ctx` is its inverse just when no window is negative
and the pool is not what a model of windows alone takes at most. -/
theorem sizing_iff {uni : Char → Bool} {model : ModelInfo} (h : Sized uni model) {tp : ℤ}
    {kvBytes : ℚ} (hb : 0 < kvBytes) {kv : Kv} {rest : List Text × Bool}
    (hk : kvModel uni model tp kvBytes = .ok (some kv, rest)) {pool : ℚ} (hp : 0 < pool) {seqs : ℤ}
    (hs : 1 ≤ seqs) : kv.Grows ∧ kv.Inverse pool seqs ↔ kv.Regular pool seqs := by
  have hwf := wellFormed_of_kvModel h hb hk
  rw [grows_iff hwf]
  constructor
  · rintro ⟨hpos, hinv⟩ w hw hsl
    refine ⟨hpos w hw hsl, fun hfull hpool => ?_⟩
    exact not_inverse hwf hs hp hw (hpos w hw hsl) hsl hfull hpool hinv
  · intro hreg
    refine ⟨fun w hw hsl => (hreg w hw hsl).1, ?_⟩
    by_cases hsl : kv.nSl = 0
    · exact inverse_full hwf hs hp hsl
    · obtain ⟨w, hw, -⟩ := hwf.window hsl
      obtain ⟨hpos, hapart⟩ := hreg w hw hsl
      exact inverse_window hwf hs hp hw hpos hsl hapart

/-- A model of two layers with one window, of 4 heads. -/
def windowed (w : ℤ) : ModelInfo :=
  ⟨some 64, some 2, some 4, some 2, some 16, some w, none, []⟩

theorem sized_windowed (w : ℤ) : Sized (fun _ => false) (windowed w) where
  layers := ⟨2, rfl, by decide⟩
  heads n hn := by
    obtain rfl := Option.some.inj hn
    decide
  kvHeads n hn := by
    obtain rfl := Option.some.inj hn
    decide
  headDim n hn := by
    obtain rfl := Option.some.inj hn
    decide
  hidden n hn := by
    obtain rfl := Option.some.inj hn
    decide
  rank n hn := by cases hn
  rope v d hv := by cases hv

/-- What is built for it, for values of two bytes. -/
theorem kvModel_windowed {w : ℤ} (hw : w = 8 ∨ w = -1) : ∃ rest,
    kvModel (fun _ => false) (windowed w) 1 2 = .ok (some ⟨128, 0, 2, some w⟩, rest) := by
  have hbytes : (2 : ℚ) * (max ⌈((2 : ℤ) : ℚ) / (max 1 1 : ℤ)⌉ 1 : ℤ) * (16 : ℤ) * 2 = 128 := by
    norm_num
  rw [← hbytes]
  rcases hw with rfl | rfl
  · exact ⟨_, rfl⟩
  · exact ⟨_, rfl⟩

/-- A pool of 1000 bytes. -/
theorem windowed_sizing : ∃ kv rest,
    kvModel (fun _ => false) (windowed 8) 1 2 = .ok (some kv, rest) ∧ kv.Grows ∧
      kv.Inverse 1000 1 := by
  obtain ⟨rest, hk⟩ := kvModel_windowed (.inl rfl)
  refine ⟨_, rest, hk, ?_⟩
  refine (sizing_iff (sized_windowed 8) two_pos hk (by norm_num) le_rfl).2 fun w hw _ => ?_
  obtain rfl := Option.some.inj hw
  exact ⟨by decide, fun _ => by norm_num⟩

/-- A pool of just the two windows has no largest context, and a negative window takes less than
nothing. -/
theorem windowed_not_sizing :
    (∃ kv rest, kvModel (fun _ => false) (windowed 8) 1 2 = .ok (some kv, rest) ∧
      kv.maxCtx 2048 1 = .ok (some 8) ∧ ¬kv.Inverse 2048 1) ∧
    ∃ kv rest, kvModel (fun _ => false) (windowed (-1)) 1 2 = .ok (some kv, rest) ∧
      kv.bytesFor 0 1 = -256 ∧ ¬kv.Grows := by
  obtain ⟨rest, hk⟩ := kvModel_windowed (.inl rfl)
  obtain ⟨rest', hk'⟩ := kvModel_windowed (.inr rfl)
  have hwf := wellFormed_of_kvModel (sized_windowed 8) two_pos hk
  have hwf' := wellFormed_of_kvModel (sized_windowed (-1)) two_pos hk'
  refine ⟨⟨_, rest, hk, ?_, ?_⟩, ⟨_, rest', hk', ?_, fun h => ?_⟩⟩
  · rw [maxCtx_window hwf le_rfl (by norm_num) rfl (by decide) (by decide)]
    norm_num [trunc]
  · exact not_inverse hwf le_rfl (by norm_num) rfl (by decide) (by decide) rfl (by norm_num)
  · rw [Kv.bytesFor, tokens_window rfl (by decide)]
    norm_num
  · exact absurd ((grows_iff hwf').1 h (-1) rfl (by decide)) (by decide)

end Fit

end EngineConsole
