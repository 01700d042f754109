import EngineConsole.Cleaning
import EngineConsole.Security

/-!
# What a request names

Some arguments of a request name what the node acts on : a path, a link and its target, a
container, an image, a command line (`strictFields`). A request where cleaning would cut one of
them is refused (`overlongArgs`), so that the node never acts on another thing than was named.

Of the arguments that a request names, wherever they are (`named`), the node then has what was
sent or nothing, but for a command line : what is no text among its items is dropped by
cleaning, and not looked at before. `named_whole` is when.
-/

set_option linter.unusedSectionVars false

namespace EngineConsole

namespace Wire

open Web

/-! ## The shapes of arguments -/

def maxFileContent : ℕ := 128 * 1024

/-- `run_mount`. -/
def runMount : Spec :=
  .obj [("root", .str 32), ("rel", .str 1024), ("dest", .str 512), ("ro", .bool)]

/-- `run_volume`. -/
def runVolume : Spec :=
  .obj [("name", .str 64), ("dest", .str 512)]

/-- `run_spec`. -/
def runSpec : Spec :=
  .obj [
    ("name", .str 64),
    ("instance", .str 64),
    ("image", .str 256),
    ("argv", .list (.str 4096) 512),
    ("container_port", .int),
    ("gpu_uuids", .list (.str 96) 16),
    ("network_alias", .str 64),
    ("labels", .map (.str 256) 32),
    ("env", .map (.str 4096) 128),
    ("secret_env", .map (.str 4096) 16),
    ("mounts", .list runMount 16),
    ("volumes", .list runVolume 8),
    ("shm_size", .str 16),
    ("ipc_host", .bool),
    ("files", .map (.str maxFileContent) 4),
    ("ulimits", .map (.str 32) 4)]

/-- `ARGS`. -/
def argsTable : List (Text × Spec) := [
  ("node.info", .obj []),
  ("metrics.configure",
    .obj [("interval_s", .num), ("families", .map (.list (.str 64) 32) 16)]),
  ("docker.render", .obj [("spec", runSpec)]),
  ("docker.run", .obj [("spec", runSpec)]),
  ("docker.stop",
    .obj [("name", .str 128), ("timeout_s", .int), ("role", .str 16), ("instance", .str 64)]),
  ("docker.start", .obj [("name", .str 128), ("role", .str 16), ("instance", .str 64)]),
  ("docker.rm", .obj [("name", .str 128), ("role", .str 16), ("instance", .str 64)]),
  ("docker.inspect", .obj [("name", .str 128)]),
  ("docker.logs", .obj [("name", .str 128), ("tail", .int)]),
  ("docker.logs_follow", .obj [("name", .str 128), ("tail", .int)]),
  ("docker.image_present", .obj [("image", .str 256)]),
  ("docker.images", .obj []),
  ("docker.pull", .obj [("image", .str 256)]),
  ("docker.external", .obj [("name", .str 128), ("action", .str 16)]),
  ("net.ensure_internal", .obj []),
  ("gateway.start",
    .obj [("name", .str 128), ("instance", .str 64), ("host_port", .int),
      ("engine_host", .str 64), ("engine_port", .int)]),
  ("http.request",
    .obj [("port", .int), ("method", .str 8), ("path", .str 2048),
      ("headers", .map (.str 4096) 32), ("body_len", .int), ("timeout_s", .num)]),
  ("fs.stat", .obj [("root", .str 32), ("paths", .list (.str 1024) 256)]),
  ("fs.write",
    .obj [("root", .str 32), ("rel", .str 1024), ("size", .int), ("sha256", .str 64),
      ("offset", .int)]),
  ("fs.read",
    .obj [("root", .str 32), ("rel", .str 1024), ("offset", .int), ("length", .int)]),
  ("fs.symlink", .obj [("root", .str 32), ("link", .str 1024), ("target", .str 1024)]),
  ("fs.put_small",
    .obj [("root", .str 32), ("rel", .str 1024), ("content_b64", .str (128 * 1024))]),
  ("fs.delete", .obj [("root", .str 32), ("rel", .str 1024)]),
  ("models.scan", .obj [("roots", .list (.str 32) 32), ("force", .bool)]),
  ("models.list", .obj [("cursor", .int), ("limit", .int)]),
  ("models.config", .obj [("root", .str 32), ("rel", .str 1024)]),
  ("scripts.run", .obj [("name", .str 32), ("action", .str 32), ("arg", .str 64)])]

/-- `args`. -/
def args (op : Text) : Option Spec :=
  (Keyed.find Prod.fst op argsTable).map Prod.snd

/-! ## The arguments of a request -/

/-- `n` in hexadecimal, of at least `w` digits. -/
def hexText (w n : ℕ) : Text :=
  (Nat.toDigits 16 n).leftpad w '0'

/-- `is_py_unprintable`. -/
def isPyUnprintable (n : ℕ) : Bool :=
  (0x80 ≤ n && n ≤ 0xa0) || n = 0xad || (0x2000 ≤ n && n ≤ 0x200f) ||
    (0x2028 ≤ n && n ≤ 0x202f) || (0x205f ≤ n && n ≤ 0x206f) || n = 0x3000 || n = 0xfeff ||
    (0xfff9 ≤ n && n ≤ 0xfffb) || (0xd800 ≤ n && n ≤ 0xdfff)

/-- One character of `py_repr`. -/
def pyEscape (quote c : Char) : Text :=
  if c = '\\' then "\\\\"
  else if c = '\n' then "\\n"
  else if c = '\r' then "\\r"
  else if c = '\t' then "\\t"
  else if c = quote then ['\\', c]
  else if c.toNat < 0x20 || c.toNat = 0x7f then "\\x" ++ hexText 2 c.toNat
  else if isPyUnprintable c.toNat then
    if c.toNat ≤ 0xff then "\\x" ++ hexText 2 c.toNat
    else if c.toNat ≤ 0xffff then "\\u" ++ hexText 4 c.toNat
    else "\\U" ++ hexText 8 c.toNat
  else [c]

/-- `py_repr`. -/
def pyRepr (s : Text) : Text :=
  let quote := if '\'' ∈ s ∧ '"' ∉ s then '"' else '\''
  quote :: s.flatMap (pyEscape quote) ++ [quote]

/-- What is no object counts as one without fields. -/
def asObject : Value → Value
  | .obj m => .obj m
  | _ => .obj []

/-- `clean_args` : the arguments of a request by the shape of its operation. -/
def cleanArgs (op : Text) (v : Value) : Except Text Obj :=
  match args op with
  | none => .error ("unknown op " ++ pyRepr op)
  | some spec => .ok (cleanObj spec (asObject v))

/-- `STRICT_FIELDS`. -/
def strictFields : List Text :=
  ["rel", "link", "target", "name", "image", "argv"]

/-- `strict` : why a text, or a list of texts, would not be kept. -/
def strict : Spec → Value → Text → Option Text
  | .str n, .str s, loc =>
    if '\x00' ∈ s then some (loc ++ " contains a NUL character")
    else if n < s.length then some (loc ++ " is longer than " ++ decimal n ++ " characters")
    else none
  | .list sub cap, .arr vs, loc =>
    if cap < vs.length then some (loc ++ " has more than " ++ decimal cap ++ " items")
    else vs.zipIdx.findSome? fun x => strict sub x.1 (loc ++ '[' :: decimal x.2 ++ [']'])
  | _, _, _ => none

mutual

/-- `overlong_in`. -/
def overlongIn : Spec → Value → Text → Option Text
  | .obj fields, .obj m, loc => overlongFields fields m loc
  | .list sub cap, .arr vs, loc =>
    (vs.take cap).zipIdx.findSome? fun x =>
      overlongIn sub x.1 (loc ++ '[' :: decimal x.2 ++ [']'])
  | _, _, _ => none

/-- The fields of an object, in the order of its shape. -/
def overlongFields : List (Text × Spec) → Obj → Text → Option Text
  | [], _, _ => none
  | (k, sub) :: fields, m, loc =>
    let here := if loc = [] then k else loc ++ '.' :: k
    let why := (get m k).bind fun x =>
      if k ∈ strictFields then strict sub x here else overlongIn sub x here
    why.or (overlongFields fields m loc)

end

/-- `overlong_args`. -/
def overlongArgs (op : Text) (v : Value) : Option Text :=
  (args op).bind fun spec =>
    (overlongIn spec v []).map fun why =>
      op ++ ": " ++ why ++ "; the node refuses it rather than cut it short"

/-! ## What is named -/

mutual

/-- The strict values of an argument, along its objects and the items that cleaning keeps, each
with its shape. -/
def named : Spec → Value → List (Spec × Value)
  | .obj fields, .obj m => namedFields fields m
  | .list sub cap, .arr vs => ((vs.take cap).filter (takes sub)).flatMap fun v => named sub v
  | _, _ => []

/-- The strict values of the fields of an object. -/
def namedFields : List (Text × Spec) → Obj → List (Spec × Value)
  | [], _ => []
  | (k, sub) :: fields, m =>
    (if k ∈ strictFields then [(sub, field m k)] else named sub (field m k)) ++
      namedFields fields m

end

/-- The shapes that a strict value may have : a text, or a list of texts. -/
def strictShape : Spec → Bool
  | .str _ => true
  | .list (.str _) _ => true
  | _ => false

mutual

/-- A shape whose objects do not repeat a field, and whose strict fields are texts or lists of
texts. -/
def firm : Spec → Bool
  | .obj fields => decide (fields.map Prod.fst).Nodup && firmFields fields
  | .list sub _ => firm sub
  | _ => true

/-- `firm` of each field. -/
def firmFields : List (Text × Spec) → Bool
  | [] => true
  | (k, sub) :: fields =>
    (if k ∈ strictFields then strictShape sub else firm sub) && firmFields fields

end

/-- Each operation has an object for its arguments, and a firm one. -/
theorem firm_args {op : Text} {spec : Spec} (h : args op = some spec) :
    firm spec ∧ ∃ fields, spec = .obj fields := by
  have hall : ∀ e ∈ argsTable, firm e.2 ∧ ∃ fields, e.2 = .obj fields := by
    simp only [argsTable, List.forall_mem_cons, List.not_mem_nil, false_imp_iff, implies_true,
      and_true, Spec.obj.injEq, exists_eq']
    decide
  obtain ⟨e, he, rfl⟩ := Option.map_eq_some_iff.1 h
  exact hall e (Keyed.mem_of_find he)

theorem takes_clean {spec : Spec} {v : Value} (h : takes spec v) : takes spec (clean spec v) := by
  cases spec with
  | int =>
    rcases v with _ | _ | (i | _) | _ | _ | _
    case num.int =>
      have hi : intOk i := h
      rwa [clean, if_pos hi]
    all_goals exact absurd h (by simp [takes])
  | num =>
    rcases v with _ | _ | (i | x) | _ | _ | _
    case num.int =>
      have hi : intOk i ∧ |(i : ℚ)| ≤ maxNum := of_decide_eq_true h
      rwa [clean, if_pos hi]
    case num.float =>
      have hx : |x| ≤ maxNum := of_decide_eq_true h
      rwa [clean, if_pos hx]
    all_goals exact absurd h (by simp [takes])
  | json =>
    rcases v with _ | _ | (i | x) | s | vs | fs
    case num.int =>
      have hi : intOk i := by
        by_contra hi
        exact absurd h (by simp [takes, cleanLeaf, hi, isNull])
      simp [clean, takes, cleanJson, cleanLeaf, isNull, hi, jsonMaxNodes, jsonMaxDepth]
    case null => exact absurd h (by simp [takes, isNull])
    all_goals simp [clean, takes, cleanJson, cleanLeaf, isNull, jsonMaxNodes, jsonMaxDepth]
  | bool => rcases v with _ | _ | _ | _ | _ | _ <;> first | rfl | exact absurd h (by simp [takes])
  | str n => rcases v with _ | _ | _ | _ | _ | _ <;> first | rfl | exact absurd h (by simp [takes])
  | list sub cap =>
    rcases v with _ | _ | _ | _ | _ | _ <;> first | rfl | exact absurd h (by simp [takes])
  | map sub cap =>
    rcases v with _ | _ | _ | _ | _ | _ <;> first | rfl | exact absurd h (by simp [takes])
  | obj fields =>
    rcases v with _ | _ | _ | _ | _ | _ <;> first | rfl | exact absurd h (by simp [takes])

/-- A cleaned list has the items that its shape takes. -/
theorem clean_list (sub : Spec) (cap : ℕ) (vs : List Value) :
    clean (.list sub cap) (.arr vs) =
      .arr (((vs.take cap).filter (takes sub)).map (clean sub)) := by
  rw [clean, List.filter_map]
  congr 3
  funext v
  simp [isNull_clean]

theorem namedFields_clean {m out : Obj} : ∀ fields : List (Text × Spec),
    (∀ k ∈ fields, field out k.1 = clean k.2 (field m k.1)) →
    (∀ k ∈ fields, ∀ v, firm k.2 →
      named k.2 (clean k.2 v) = (named k.2 v).map fun e => (e.1, clean e.1 e.2)) →
    firmFields fields →
    namedFields fields out = (namedFields fields m).map fun e => (e.1, clean e.1 e.2)
  | [], _, _, _ => rfl
  | (k, sub) :: fields, hout, ih, hf => by
    rw [firmFields, Bool.and_eq_true] at hf
    have hk : field out k = clean sub (field m k) := hout (k, sub) List.mem_cons_self
    have hrest := namedFields_clean fields (fun k hk => hout k (List.mem_cons_of_mem _ hk))
      (fun k hk => ih k (List.mem_cons_of_mem _ hk)) hf.2
    rw [namedFields, namedFields, List.map_append, hrest, hk]
    congr 1
    split_ifs with hs
    · rfl
    · rw [if_neg hs] at hf
      exact ih (k, sub) List.mem_cons_self _ hf.1

/-- What is named in the cleaned arguments is what was named, each cleaned by its shape. -/
theorem named_clean (spec : Spec) : ∀ v, firm spec →
    named spec (clean spec v) = (named spec v).map fun e => (e.1, clean e.1 e.2) := by
  induction spec using Spec.induct with
  | int => exact fun v _ => rfl
  | num => exact fun v _ => rfl
  | bool => exact fun v _ => rfl
  | json => exact fun v _ => rfl
  | str n => exact fun v _ => rfl
  | map sub cap ih => exact fun v _ => rfl
  | list sub cap ih =>
    intro v hf
    cases v with
    | arr vs =>
      rw [clean_list]
      generalize hes : (vs.take cap).filter (takes sub) = es
      have htakes : ∀ v ∈ es, takes sub v := fun v hv => (List.mem_filter.1 (hes ▸ hv)).2
      have hl : (es.map (clean sub)).length ≤ cap := by
        rw [List.length_map, ← hes]
        exact (List.length_filter_le _ _).trans (List.length_take_le cap vs)
      have hall : (es.map (clean sub)).filter (takes sub) = es.map (clean sub) := by
        refine List.filter_eq_self.2 fun w hw => ?_
        obtain ⟨v, hv, rfl⟩ := List.mem_map.1 hw
        exact takes_clean (htakes v hv)
      rw [named, named, List.take_of_length_le hl, hall, hes, List.flatMap_map, List.map_flatMap]
      exact List.flatMap_congr fun v _ => ih v hf
    | null => rfl
    | bool _ => rfl
    | num _ => rfl
    | str _ => rfl
    | obj _ => rfl
  | obj fields ih =>
    intro v hf
    rw [firm, Bool.and_eq_true] at hf
    cases v with
    | obj m =>
      have hshape : shape fields = fields := Keyed.collect_of_nodup (of_decide_eq_true hf.1)
      rw [clean_obj, named, named]
      refine namedFields_clean fields (fun k hk => ?_) ih hf.2
      exact field_clean (hshape.symm ▸ hk) m
    | null => rfl
    | bool _ => rfl
    | num _ => rfl
    | str _ => rfl
    | arr _ => rfl

/-! ## What the node has of it -/

/-- Each item of a list has the shape of its items. -/
def whole : Spec → Value → Bool
  | .list sub _, .arr vs => vs.all (takes sub)
  | _, _ => true

theorem findSome_zipIdx {α β : Type*} {f : α × ℕ → Option β} {l : List α}
    (h : l.zipIdx.findSome? f = none) {x : α} (hx : x ∈ l) : ∃ i, f (x, i) = none := by
  obtain ⟨i, hi⟩ := List.mem_iff_getElem?.1 hx
  exact ⟨i, List.findSome?_eq_none_iff.1 h _ (List.mk_mem_zipIdx_iff_getElem?.2 hi)⟩

theorem strict_null (spec : Spec) (loc : Text) : strict spec .null loc = none := by
  cases spec <;> rfl

/-- A text that is not refused is kept. -/
theorem clean_str {n : ℕ} {s loc : Text} (h : strict (.str n) (.str s) loc = none) :
    clean (.str n) (.str s) = .str s := by
  rw [strict] at h
  split_ifs at h with h0 hl
  exact congrArg Json.str (capStr_eq_self (not_lt.1 hl) h0)

/-- What is not refused is kept or dropped, unless it is a list with items that are no texts. -/
theorem kept_iff_whole {spec : Spec} {v : Value} {loc : Text} (hs : strictShape spec)
    (h : strict spec v loc = none) :
    clean spec v = .null ∨ clean spec v = v ↔ whole spec v := by
  cases spec with
  | str n =>
    refine iff_of_true ?_ rfl
    cases v with
    | str s => exact .inr (clean_str h)
    | null => exact .inl rfl
    | bool _ => exact .inl rfl
    | num _ => exact .inl rfl
    | arr _ => exact .inl rfl
    | obj _ => exact .inl rfl
  | list sub cap =>
    cases v with
    | arr vs =>
      cases sub with
      | str n =>
        rw [strict] at h
        split_ifs at h with hl
        have hkept : ∀ v ∈ vs, takes (.str n) v → clean (.str n) v = v := by
          intro v hv ht
          obtain ⟨i, hi⟩ := findSome_zipIdx h hv
          cases v with
          | str s => exact clean_str hi
          | null => rfl
          | bool _ => exact absurd ht (by simp [takes])
          | num _ => exact absurd ht (by simp [takes])
          | arr _ => exact absurd ht (by simp [takes])
          | obj _ => exact absurd ht (by simp [takes])
        rw [clean_list, List.take_of_length_le (not_lt.1 hl), whole, List.all_eq_true,
          or_iff_right (by simp)]
        have hmap : (vs.filter (takes (.str n))).map (clean (.str n)) =
            vs.filter (takes (.str n)) := by
          refine (List.map_congr_left fun v hv => ?_).trans (List.map_id _)
          exact hkept v (List.mem_filter.1 hv).1 (List.mem_filter.1 hv).2
        rw [hmap, Json.arr.injEq, List.filter_eq_self]
      | _ => exact absurd hs (by simp [strictShape])
    | null => exact iff_of_true (.inl rfl) rfl
    | bool _ => exact iff_of_true (.inl rfl) rfl
    | num _ => exact iff_of_true (.inl rfl) rfl
    | str _ => exact iff_of_true (.inl rfl) rfl
    | obj _ => exact iff_of_true (.inl rfl) rfl
  | _ => exact absurd hs (by simp [strictShape])

theorem strict_of_overlongFields {m : Obj} {loc : Text} : ∀ fields : List (Text × Spec),
    (∀ k ∈ fields, ∀ v loc, firm k.2 → overlongIn k.2 v loc = none →
      ∀ e ∈ named k.2 v, strictShape e.1 ∧ ∃ loc', strict e.1 e.2 loc' = none) →
    firmFields fields → overlongFields fields m loc = none →
    ∀ e ∈ namedFields fields m, strictShape e.1 ∧ ∃ loc', strict e.1 e.2 loc' = none
  | [], _, _, _, _, he => absurd he List.not_mem_nil
  | (k, sub) :: fields, ih, hf, h, e, he => by
    rw [firmFields, Bool.and_eq_true] at hf
    rw [overlongFields, Option.or_eq_none_iff] at h
    rw [namedFields, List.mem_append] at he
    rcases he with he | he
    · split_ifs at he with hs
      · obtain rfl := List.mem_singleton.1 he
        rw [if_pos hs] at hf
        refine ⟨hf.1, ?_⟩
        cases hx : get m k with
        | none => exact ⟨[], by simp [field, hx, strict_null]⟩
        | some x =>
          have h' := h.1
          rw [hx, Option.bind_some, if_pos hs] at h'
          exact ⟨_, by simpa [field, hx] using h'⟩
      · rw [if_neg hs] at hf
        cases hx : get m k with
        | none =>
          rw [field, hx, Option.getD_none] at he
          have hnil : named sub .null = [] := by cases sub <;> rfl
          exact absurd he (by simp [hnil])
        | some x =>
          have h' := h.1
          rw [hx, Option.bind_some, if_neg hs] at h'
          rw [field, hx, Option.getD_some] at he
          exact ih (k, sub) List.mem_cons_self x _ hf.1 h' e he
    · exact strict_of_overlongFields fields (fun k hk => ih k (List.mem_cons_of_mem _ hk)) hf.2
        h.2 e he

/-- Where nothing is refused, no strict value is. -/
theorem strict_of_overlong (spec : Spec) : ∀ v loc, firm spec → overlongIn spec v loc = none →
    ∀ e ∈ named spec v, strictShape e.1 ∧ ∃ loc', strict e.1 e.2 loc' = none := by
  induction spec using Spec.induct with
  | int => exact fun v _ _ _ e he => absurd he List.not_mem_nil
  | num => exact fun v _ _ _ e he => absurd he List.not_mem_nil
  | bool => exact fun v _ _ _ e he => absurd he List.not_mem_nil
  | json => exact fun v _ _ _ e he => absurd he List.not_mem_nil
  | str n => exact fun v _ _ _ e he => absurd he List.not_mem_nil
  | map sub cap ih => exact fun v _ _ _ e he => absurd he List.not_mem_nil
  | list sub cap ih =>
    intro v loc hf h e he
    cases v with
    | arr vs =>
      rw [overlongIn] at h
      obtain ⟨x, hx, he⟩ := List.mem_flatMap.1 he
      obtain ⟨i, hi⟩ := findSome_zipIdx h (List.mem_filter.1 hx).1
      exact ih x _ hf hi e he
    | null => exact absurd he List.not_mem_nil
    | bool _ => exact absurd he List.not_mem_nil
    | num _ => exact absurd he List.not_mem_nil
    | str _ => exact absurd he List.not_mem_nil
    | obj _ => exact absurd he List.not_mem_nil
  | obj fields ih =>
    intro v loc hf h e he
    rw [firm, Bool.and_eq_true] at hf
    cases v with
    | obj m => exact strict_of_overlongFields fields ih hf.2 h e he
    | null => exact absurd he List.not_mem_nil
    | bool _ => exact absurd he List.not_mem_nil
    | num _ => exact absurd he List.not_mem_nil
    | str _ => exact absurd he List.not_mem_nil
    | arr _ => exact absurd he List.not_mem_nil

/-- What `op` names in its arguments. -/
def namedArgs (op : Text) (v : Value) : List (Spec × Value) :=
  (args op).elim [] fun spec => named spec (asObject v)

/-- What is named has been kept as it was sent, or there is nothing in its place. -/
def Kept (sent kept : List (Spec × Value)) : Prop :=
  List.Forall₂ (fun x y => y.2 = .null ∨ y.2 = x.2) sent kept

theorem kept_clean_iff {spec : Spec} {v : Value} (hf : firm spec)
    (h : overlongIn spec v [] = none) :
    Kept (named spec v) (named spec (clean spec v)) ↔
      ∀ e ∈ named spec v, whole e.1 e.2 := by
  have hkept : Kept (named spec v) (named spec (clean spec v)) ↔
      ∀ e ∈ named spec v, clean e.1 e.2 = .null ∨ clean e.1 e.2 = e.2 := by
    rw [named_clean spec v hf, Kept, List.forall₂_map_right_iff, List.forall₂_same]
  rw [hkept]
  refine forall₂_congr fun e he => ?_
  obtain ⟨hs, loc, hloc⟩ := strict_of_overlong spec v [] hf h e he
  exact kept_iff_whole hs hloc

theorem overlongFields_nil (loc : Text) : ∀ fields : List (Text × Spec),
    overlongFields fields [] loc = none
  | [] => rfl
  | (k, sub) :: fields => by
    rw [overlongFields, overlongFields_nil loc fields]
    rfl

/-- The arguments of an operation, and those that are cleaned in their place. -/
theorem clean_of_cleanArgs {op : Text} {v : Value} {out : Obj} (h : overlongArgs op v = none)
    (hc : cleanArgs op v = .ok out) :
    ∃ spec, args op = some spec ∧ firm spec ∧ overlongIn spec (asObject v) [] = none ∧
      clean spec (asObject v) = .obj out := by
  rw [cleanArgs] at hc
  cases hs : args op with
  | none =>
    rw [hs] at hc
    exact absurd hc (by simp)
  | some spec =>
    rw [hs] at hc
    rw [overlongArgs, hs, Option.bind_some, Option.map_eq_none_iff] at h
    obtain ⟨hf, fields, rfl⟩ := firm_args hs
    refine ⟨_, rfl, hf, ?_, ?_⟩
    · cases v with
      | obj m => exact h
      | null => exact overlongFields_nil [] fields
      | bool _ => exact overlongFields_nil [] fields
      | num _ => exact overlongFields_nil [] fields
      | str _ => exact overlongFields_nil [] fields
      | arr _ => exact overlongFields_nil [] fields
    · obtain ⟨m, hm⟩ : ∃ m, asObject v = .obj m := by
        cases v <;> exact ⟨_, rfl⟩
      obtain rfl := Except.ok.inj hc
      rw [hm, cleanObj, clean]

/-- The node has what was named or nothing just when the lists that are named hold only what
their shape takes. -/
theorem named_whole {op : Text} {v : Value} {out : Obj} (h : overlongArgs op v = none)
    (hc : cleanArgs op v = .ok out) :
    Kept (namedArgs op v) (namedArgs op (.obj out)) ↔
      ∀ e ∈ namedArgs op v, whole e.1 e.2 := by
  obtain ⟨spec, hs, hf, hov, hclean⟩ := clean_of_cleanArgs h hc
  rw [namedArgs, namedArgs, hs]
  have hout : asObject (.obj out) = clean spec (asObject v) := hclean.symm
  rw [Option.elim_some, Option.elim_some, hout]
  exact kept_clean_iff hf hov

/-- The arguments of a run that gives only a command line. -/
def runArgs (argv : List Value) : Value :=
  .obj [("spec", .obj [("argv", .arr argv)])]

/-- A command line of texts. -/
theorem serve_whole : ∃ out,
    cleanArgs "docker.run" (runArgs [.str (ascii "serve"), .str (ascii "-q")]) = .ok out ∧
      Kept (namedArgs "docker.run" (runArgs [.str (ascii "serve"), .str (ascii "-q")]))
        (namedArgs "docker.run" (.obj out)) :=
  ⟨_, rfl, (named_whole (by decide) rfl).2 (by decide)⟩

/-- A number in a command line is dropped, and the command line without it is run. -/
theorem argv_shortened :
    ¬ ∀ op v out, overlongArgs op v = none → cleanArgs op v = .ok out →
      Kept (namedArgs op v) (namedArgs op (.obj out)) := by
  intro h
  have hk := h "docker.run" (runArgs [.str (ascii "serve"), .num (.int 5), .str (ascii "-q")]) _
    (by decide) rfl
  have hw : ∀ e ∈ named (.obj [("spec", runSpec)])
      (runArgs [.str (ascii "serve"), .num (.int 5), .str (ascii "-q")]), whole e.1 e.2 :=
    (kept_clean_iff (by decide) (by decide)).1 hk
  exact absurd hw (by decide)

end Wire

end EngineConsole
