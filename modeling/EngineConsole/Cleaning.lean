import EngineConsole.JsonText
import EngineConsole.Keyed
import EngineConsole.Router

/-!
# Cleaning by a whitelist

What a peer sends is rebuilt from the shape it should have (`clean`) : a value of another type
becomes null, an object has just the fields of its shape, lists and maps are cut and lose their
null members, strings are cut and lose NUL characters, and a value of no shape is bounded in
its depth, its items, its strings and its nodes (`cleanJson`).

A cleaned value conforms to the shape (`Conforms`) and is cleaned to itself, unless the keys of
a map do not : the NUL characters of a key are removed after its length was looked at, so a key
may become empty, and keys of one object may become equal. `clean_conforms` is when.
-/

set_option linter.unusedSectionVars false

namespace EngineConsole

namespace Wire

open Web

/-! ## Values and shapes -/

/-- `Number` : an integer, or a float. -/
inductive Number where
  | int (i : ℤ)
  | float (x : ℚ)
deriving DecidableEq

abbrev Value := Json Text Number

/-- `Obj`. -/
abbrev Obj := List (Text × Value)

/-- `Spec`. -/
inductive Spec where
  | int
  | num
  | bool
  /-- any JSON value, bounded : untrusted data -/
  | json
  | str (n : ℕ)
  | list (sub : Spec) (cap : ℕ)
  | map (sub : Spec) (cap : ℕ)
  | obj (fields : List (Text × Spec))

/-- `get`. -/
def get (m : Obj) (k : Text) : Option Value :=
  (Keyed.find Prod.fst k m).map Prod.snd

/-- `is_null`. -/
def isNull : Value → Bool
  | .null => true
  | _ => false

def maxNum : ℚ := 10 ^ 15
def jsonMaxDepth : ℕ := 8
def jsonMaxItems : ℕ := 512
def jsonMaxNodes : ℤ := 4000
def jsonMaxStr : ℕ := 4096

/-- `replace('\0', "")`. -/
def strip (s : Text) : Text :=
  s.filter (· ≠ '\x00')

/-- `cap_str`. -/
def capStr (s : Text) (n : ℕ) : Text :=
  strip (s.take n)

/-- What is looked at of a key. -/
def keyOk (k : Text) : Bool :=
  0 < k.length && k.length ≤ 256

/-- `int_of` : within 2^53. -/
def intOk (i : ℤ) : Bool :=
  i.natAbs ≤ 2 ^ 53

/-- `clean_json_inner` on a value that has no parts. -/
def cleanLeaf : Value → Value
  | .num (.int i) => if intOk i then .num (.int i) else .null
  | .str s => .str (capStr s jsonMaxStr)
  | v => v

mutual

/-- `clean_json_inner`, and what is left of the budget. -/
def cleanJson : ℕ → Value → ℤ → Value × ℤ
  | depth, v, budget =>
    if budget - 1 < 0 ∨ jsonMaxDepth < depth then (.null, budget - 1)
    else
      match v with
      | .arr vs =>
        let r := cleanElems depth jsonMaxItems vs (budget - 1)
        (.arr r.1, r.2)
      | .obj fs =>
        let r := cleanEntries depth jsonMaxItems fs [] (budget - 1)
        (.obj r.1, r.2)
      | v => (cleanLeaf v, budget - 1)

/-- The first of the items. -/
def cleanElems : ℕ → ℕ → List Value → ℤ → List Value × ℤ
  | _, 0, _, budget => ([], budget)
  | _, _ + 1, [], budget => ([], budget)
  | depth, n + 1, v :: vs, budget =>
    let r := cleanJson (depth + 1) v budget
    let rs := cleanElems depth n vs r.2
    (r.1 :: rs.1, rs.2)

/-- The first of the entries. -/
def cleanEntries : ℕ → ℕ → Obj → Obj → ℤ → Obj × ℤ
  | _, 0, _, out, budget => (out, budget)
  | _, _ + 1, [], out, budget => (out, budget)
  | depth, n + 1, (k, v) :: fs, out, budget =>
    if keyOk k then
      let r := cleanJson (depth + 1) v budget
      cleanEntries depth n fs (Json.insert out (strip k) r.1) r.2
    else cleanEntries depth n fs out budget

end

mutual

/-- `clean`. -/
def clean : Spec → Value → Value
  | .int, .num (.int i) => if intOk i then .num (.int i) else .null
  | .num, .num (.int i) => if intOk i ∧ |(i : ℚ)| ≤ maxNum then .num (.int i) else .null
  | .num, .num (.float x) => if |x| ≤ maxNum then .num (.float x) else .null
  | .bool, .bool b => .bool b
  | .json, v => if isNull v then .null else (cleanJson 0 v jsonMaxNodes).1
  | .str n, .str s => .str (capStr s n)
  | .list sub cap, .arr vs => .arr (((vs.take cap).map (clean sub)).filter fun v => !isNull v)
  | .map sub cap, .obj fs =>
    .obj ((fs.take cap).foldl (fun out f =>
      if keyOk f.1 then
        let c := clean sub f.2
        if isNull c then out else Json.insert out (strip f.1) c
      else out) [])
  | .obj fields, .obj m => .obj (cleanFields fields m [])
  | _, _ => .null

/-- The fields of an object, in the order of its shape. -/
def cleanFields : List (Text × Spec) → Obj → Obj → Obj
  | [], _, out => out
  | (k, sub) :: fields, m, out =>
    cleanFields fields m (Json.insert out k (clean sub ((get m k).getD .null)))

end

/-- `clean_obj`. -/
def cleanObj (spec : Spec) (v : Value) : Obj :=
  match clean spec v with
  | .obj o => o
  | _ => []

/-! ## Induction on shapes and on values -/

mutual

theorem Spec.induct {P : Spec → Prop} (int : P .int) (num : P .num) (bool : P .bool)
    (json : P .json) (str : ∀ n, P (.str n)) (list : ∀ sub cap, P sub → P (.list sub cap))
    (map : ∀ sub cap, P sub → P (.map sub cap))
    (obj : ∀ fields, (∀ k ∈ fields, P k.2) → P (.obj fields)) : ∀ spec, P spec
  | .int => int
  | .num => num
  | .bool => bool
  | .json => json
  | .str n => str n
  | .list sub cap => list sub cap (Spec.induct int num bool json str list map obj sub)
  | .map sub cap => map sub cap (Spec.induct int num bool json str list map obj sub)
  | .obj fields => obj fields (Spec.inductFields int num bool json str list map obj fields)

theorem Spec.inductFields {P : Spec → Prop} (int : P .int) (num : P .num) (bool : P .bool)
    (json : P .json) (str : ∀ n, P (.str n)) (list : ∀ sub cap, P sub → P (.list sub cap))
    (map : ∀ sub cap, P sub → P (.map sub cap))
    (obj : ∀ fields, (∀ k ∈ fields, P k.2) → P (.obj fields)) :
    ∀ fields : List (Text × Spec), ∀ k ∈ fields, P k.2
  | [], _, h => absurd h List.not_mem_nil
  | (_, sub) :: fields, k, h =>
    (List.mem_cons.1 h).elim
      (fun hk => hk ▸ Spec.induct int num bool json str list map obj sub)
      (Spec.inductFields int num bool json str list map obj fields k)

end

/-! ## Texts -/

theorem strip_idem (s : Text) : strip (strip s) = strip s := by
  unfold strip
  rw [List.filter_filter]
  simp

theorem not_mem_strip (s : Text) : '\x00' ∉ strip s := by
  simp [strip]

theorem strip_of_not_mem {s : Text} (h : '\x00' ∉ s) : strip s = s := by
  refine List.filter_eq_self.2 fun c hc => ?_
  simp only [ne_eq, decide_not, Bool.not_eq_eq_eq_not, Bool.not_true, decide_eq_false_iff_not]
  rintro rfl
  exact h hc

theorem length_strip_le (s : Text) : (strip s).length ≤ s.length :=
  List.length_filter_le _ _

theorem length_capStr_le (s : Text) (n : ℕ) : (capStr s n).length ≤ n :=
  (length_strip_le _).trans (List.length_take_le n s)

theorem not_mem_capStr (s : Text) (n : ℕ) : '\x00' ∉ capStr s n :=
  not_mem_strip _

/-- A text within its cap and without NUL is kept. -/
theorem capStr_eq_self {s : Text} {n : ℕ} (hl : s.length ≤ n) (h0 : '\x00' ∉ s) :
    capStr s n = s := by
  rw [capStr, List.take_of_length_le hl, strip_of_not_mem h0]

theorem capStr_idem (s : Text) (n : ℕ) : capStr (capStr s n) n = capStr s n :=
  capStr_eq_self (length_capStr_le s n) (not_mem_capStr s n)

theorem keyOk_strip {k : Text} (hk : keyOk k) (h0 : strip k ≠ []) : keyOk (strip k) := by
  simp only [keyOk, Bool.and_eq_true, decide_eq_true_eq] at hk ⊢
  exact ⟨List.length_pos_iff.2 h0, (length_strip_le k).trans hk.2⟩

/-! ## A value of no shape -/

/-- The keys of the first `n` entries that are kept, as they are kept. -/
def keptKeys (n : ℕ) (fs : Obj) : List Text :=
  ((fs.take n).filter fun f => keyOk f.1).map fun f => strip f.1

mutual

/-- No kept key is empty and no two of an object are equal, of what is looked at. -/
def Plain : Value → Prop
  | .arr vs => PlainElems jsonMaxItems vs
  | .obj fs =>
    (keptKeys jsonMaxItems fs).Nodup ∧ [] ∉ keptKeys jsonMaxItems fs ∧
      PlainEntries jsonMaxItems fs
  | _ => True

/-- `Plain` of the first items. -/
def PlainElems : ℕ → List Value → Prop
  | 0, _ => True
  | _ + 1, [] => True
  | n + 1, v :: vs => Plain v ∧ PlainElems n vs

/-- `Plain` of the first entries. -/
def PlainEntries : ℕ → Obj → Prop
  | 0, _ => True
  | _ + 1, [] => True
  | n + 1, (k, v) :: fs => (keyOk k = true → Plain v) ∧ PlainEntries n fs

end

mutual

/-- The nodes of a value; a null is what the bounds leave of a node. -/
def nodes : Value → ℕ
  | .null => 0
  | .arr vs => nodesElems vs + 1
  | .obj fs => nodesEntries fs + 1
  | _ => 1

/-- The nodes of the items. -/
def nodesElems : List Value → ℕ
  | [] => 0
  | v :: vs => nodes v + nodesElems vs

/-- The nodes of the entries. -/
def nodesEntries : Obj → ℕ
  | [] => 0
  | (_, v) :: fs => nodes v + nodesEntries fs

end

/-- A key of 1 to 256 characters, none of them NUL. -/
def KeyFine (k : Text) : Prop :=
  keyOk k ∧ '\x00' ∉ k

/-- Bounded in its depth, its items, its keys, its strings and its integers. -/
inductive Bounded : ℕ → Value → Prop
  | null (d : ℕ) : Bounded d .null
  | bool {d : ℕ} (hd : d ≤ jsonMaxDepth) (b : Bool) : Bounded d (.bool b)
  | float {d : ℕ} (hd : d ≤ jsonMaxDepth) (x : ℚ) : Bounded d (.num (.float x))
  | int {d : ℕ} (hd : d ≤ jsonMaxDepth) {i : ℤ} (hi : intOk i) : Bounded d (.num (.int i))
  | str {d : ℕ} (hd : d ≤ jsonMaxDepth) {s : Text} (hl : s.length ≤ jsonMaxStr)
      (h0 : '\x00' ∉ s) : Bounded d (.str s)
  | arr {d : ℕ} (hd : d ≤ jsonMaxDepth) {vs : List Value} (hl : vs.length ≤ jsonMaxItems)
      (h : ∀ v ∈ vs, Bounded (d + 1) v) : Bounded d (.arr vs)
  | obj {d : ℕ} (hd : d ≤ jsonMaxDepth) {fs : Obj} (hl : fs.length ≤ jsonMaxItems)
      (hn : (fs.map Prod.fst).Nodup) (hk : ∀ f ∈ fs, KeyFine f.1)
      (h : ∀ f ∈ fs, Bounded (d + 1) f.2) : Bounded d (.obj fs)

/-- A value without parts. -/
def isLeaf : Value → Bool
  | .arr _ => false
  | .obj _ => false
  | _ => true

theorem cleanJson_leaf {v : Value} (hv : isLeaf v) (d : ℕ) (b : ℤ) :
    cleanJson d v b =
      if b - 1 < 0 ∨ jsonMaxDepth < d then (.null, b - 1) else (cleanLeaf v, b - 1) := by
  have harr : ∀ vs, v = .arr vs → False := by
    rintro vs rfl
    exact absurd hv (by simp [isLeaf])
  have hobj : ∀ fs, v = .obj fs → False := by
    rintro fs rfl
    exact absurd hv (by simp [isLeaf])
  rw [cleanJson]
  exacts [harr, hobj]

theorem isLeaf_cleanLeaf {v : Value} (hv : isLeaf v) : isLeaf (cleanLeaf v) := by
  cases v with
  | num n =>
    cases n with
    | int i =>
      rw [cleanLeaf]
      split <;> rfl
    | float _ => rfl
  | null => rfl
  | bool _ => rfl
  | str _ => rfl
  | arr _ => exact absurd hv (by simp [isLeaf])
  | obj _ => exact absurd hv (by simp [isLeaf])

theorem cleanLeaf_idem {v : Value} (hv : isLeaf v) : cleanLeaf (cleanLeaf v) = cleanLeaf v := by
  cases v with
  | num n =>
    cases n with
    | int i =>
      by_cases hi : intOk i
      · simp only [cleanLeaf, hi, if_true]
      · simp only [cleanLeaf, hi, Bool.false_eq_true, if_false]
    | float _ => rfl
  | str s => exact congrArg Json.str (capStr_idem s jsonMaxStr)
  | null => rfl
  | bool _ => rfl
  | arr _ => rfl
  | obj _ => rfl

theorem bounded_cleanLeaf {v : Value} (hv : isLeaf v) {d : ℕ} (hd : d ≤ jsonMaxDepth) :
    Bounded d (cleanLeaf v) := by
  cases v with
  | num n =>
    cases n with
    | int i =>
      rw [cleanLeaf]
      split
      · exact .int hd ‹_›
      · exact .null d
    | float x => exact .float hd x
  | str s => exact .str hd (length_capStr_le s _) (not_mem_capStr s _)
  | null => exact .null d
  | bool b => exact .bool hd b
  | arr _ => exact absurd hv (by simp [isLeaf])
  | obj _ => exact absurd hv (by simp [isLeaf])

theorem nodes_leaf_le {v : Value} (hv : isLeaf v) : nodes v ≤ 1 := by
  cases v with
  | arr _ => exact absurd hv (by simp [isLeaf])
  | obj _ => exact absurd hv (by simp [isLeaf])
  | null => exact Nat.zero_le 1
  | bool _ => exact le_rfl
  | num _ => exact le_rfl
  | str _ => exact le_rfl

/-- What one call leaves : a bounded value, that the same call leaves as it is. -/
structure JsonCleaned (d : ℕ) (b : ℤ) (r : Value × ℤ) : Prop where
  again : cleanJson d r.1 b = r
  bounded : Bounded d r.1
  nodes : (nodes r.1 : ℤ) + max r.2 0 ≤ max b 0

theorem jsonCleaned_null {d : ℕ} {b : ℤ} (h : b - 1 < 0 ∨ jsonMaxDepth < d) :
    JsonCleaned d b (.null, b - 1) where
  again := by rw [cleanJson_leaf rfl, if_pos h]
  bounded := .null d
  nodes := by
    simp only [Wire.nodes, Nat.cast_zero, zero_add]
    omega

theorem jsonCleaned_leaf {v : Value} (hv : isLeaf v) (d : ℕ) (b : ℤ) :
    JsonCleaned d b (cleanJson d v b) := by
  rw [cleanJson_leaf hv]
  split_ifs with h
  · exact jsonCleaned_null h
  · obtain ⟨hb, hd⟩ := not_or.1 h
    refine ⟨?_, bounded_cleanLeaf hv (not_lt.1 hd), ?_⟩
    · rw [cleanJson_leaf (isLeaf_cleanLeaf hv), if_neg h, cleanLeaf_idem hv]
    · have hle := nodes_leaf_le (isLeaf_cleanLeaf hv)
      dsimp only
      omega

theorem keptKeys_cons (n : ℕ) (k : Text) (v : Value) (fs : Obj) :
    keptKeys (n + 1) ((k, v) :: fs) =
      (if keyOk k then [strip k] else []) ++ keptKeys n fs := by
  unfold keptKeys
  rw [List.take_succ_cons, List.filter_cons]
  split <;> rfl

theorem keyFine_of_mem_keptKeys {n : ℕ} {fs : Obj} {k : Text} (h0 : [] ∉ keptKeys n fs)
    (hk : k ∈ keptKeys n fs) : KeyFine k := by
  have hne : k ≠ [] := by
    rintro rfl
    exact h0 hk
  obtain ⟨f, hf, rfl⟩ := List.mem_map.1 hk
  exact ⟨keyOk_strip (List.mem_filter.1 hf).2 hne, not_mem_strip f.1⟩

theorem length_keptKeys_le (n : ℕ) (fs : Obj) : (keptKeys n fs).length ≤ n := by
  unfold keptKeys
  rw [List.length_map]
  exact (List.length_filter_le _ _).trans (List.length_take_le n fs)

mutual

/-- The contract of one call, by the parts of its value. -/
theorem jsonCleaned : ∀ (v : Value) (d : ℕ) (b : ℤ), Plain v → JsonCleaned d b (cleanJson d v b)
  | .arr vs, d, b, hp => by
    rw [cleanJson]
    split_ifs with h
    · exact jsonCleaned_null h
    · obtain ⟨hb, hd⟩ := not_or.1 h
      obtain ⟨hl, hagain, hbound, hnodes⟩ :=
        elemsCleaned vs d jsonMaxItems (b - 1) (by rwa [Plain] at hp)
      refine ⟨?_, .arr (not_lt.1 hd) hl hbound, ?_⟩
      · dsimp only
        rw [cleanJson, if_neg h]
        dsimp only
        rw [hagain]
      · simp only [nodes, Nat.cast_add, Nat.cast_one]
        omega
  | .obj fs, d, b, hp => by
    rw [cleanJson]
    split_ifs with h
    · exact jsonCleaned_null h
    · obtain ⟨hb, hd⟩ := not_or.1 h
      rw [Plain] at hp
      obtain ⟨hn, h0, hp⟩ := hp
      obtain ⟨es, b', hes, hkeys, hbound, hnodes, hagain⟩ :=
        entriesCleaned fs d jsonMaxItems (b - 1) hn h0 hp
      have hl : es.length ≤ jsonMaxItems := by
        rw [← List.length_map (f := Prod.fst), hkeys]
        exact length_keptKeys_le _ _
      have hfine : ∀ f ∈ es, KeyFine f.1 := fun f hf =>
        keyFine_of_mem_keptKeys h0 (hkeys ▸ List.mem_map_of_mem hf)
      have hres : cleanEntries d jsonMaxItems fs [] (b - 1) = (es, b') := hes [] (by simp)
      rw [hres]
      refine ⟨?_, .obj (not_lt.1 hd) hl (hkeys ▸ hn) hfine hbound, ?_⟩
      · dsimp only
        rw [cleanJson, if_neg h]
        dsimp only
        rw [hagain jsonMaxItems hl [] (by simp)]
        rfl
      · simp only [nodes, Nat.cast_add, Nat.cast_one]
        omega
  | .null, d, b, _ => jsonCleaned_leaf rfl d b
  | .bool _, d, b, _ => jsonCleaned_leaf rfl d b
  | .num _, d, b, _ => jsonCleaned_leaf rfl d b
  | .str _, d, b, _ => jsonCleaned_leaf rfl d b

/-- The items : at most as many as are looked at, left as they are by the same call. -/
theorem elemsCleaned : ∀ (vs : List Value) (d n : ℕ) (b : ℤ), PlainElems n vs →
    (cleanElems d n vs b).1.length ≤ n ∧
      cleanElems d n (cleanElems d n vs b).1 b = cleanElems d n vs b ∧
      (∀ v ∈ (cleanElems d n vs b).1, Bounded (d + 1) v) ∧
      (nodesElems (cleanElems d n vs b).1 : ℤ) + max (cleanElems d n vs b).2 0 ≤ max b 0
  | _, d, 0, b, _ => by simp [cleanElems, nodesElems]
  | [], d, n + 1, b, _ => by simp [cleanElems, nodesElems]
  | v :: vs, d, n + 1, b, hp => by
    rw [PlainElems] at hp
    obtain ⟨hagain, hbound, hnodes⟩ := jsonCleaned v (d + 1) b hp.1
    obtain ⟨hl, hagains, hbounds, hnodess⟩ :=
      elemsCleaned vs d n (cleanJson (d + 1) v b).2 hp.2
    simp only [cleanElems]
    refine ⟨Nat.succ_le_succ hl, ?_, ?_, ?_⟩
    · rw [hagain, hagains]
    · exact List.forall_mem_cons.2 ⟨hbound, hbounds⟩
    · simp only [nodesElems, Nat.cast_add]
      omega

/-- The entries : under the kept keys, whatever is there before them. -/
theorem entriesCleaned : ∀ (fs : Obj) (d n : ℕ) (b : ℤ), (keptKeys n fs).Nodup →
    [] ∉ keptKeys n fs → PlainEntries n fs →
    ∃ es b',
      (∀ out : Obj, (∀ k ∈ keptKeys n fs, k ∉ out.map Prod.fst) →
        cleanEntries d n fs out b = (out ++ es, b')) ∧
      es.map Prod.fst = keptKeys n fs ∧
      (∀ f ∈ es, Bounded (d + 1) f.2) ∧
      (nodesEntries es : ℤ) + max b' 0 ≤ max b 0 ∧
      ∀ m, es.length ≤ m → ∀ out : Obj, (∀ k ∈ keptKeys n fs, k ∉ out.map Prod.fst) →
        cleanEntries d m es out b = (out ++ es, b')
  | fs, d, 0, b, _, _, _ => by
    refine ⟨[], b, ?_, rfl, ?_, ?_, ?_⟩
    · intro out _
      simp [cleanEntries]
    · exact fun f hf => absurd hf List.not_mem_nil
    · simp [nodesEntries]
    · intro m _ out _
      cases m <;> simp [cleanEntries]
  | [], d, n + 1, b, _, _, _ => by
    refine ⟨[], b, ?_, rfl, ?_, ?_, ?_⟩
    · intro out _
      simp [cleanEntries]
    · exact fun f hf => absurd hf List.not_mem_nil
    · simp [nodesEntries]
    · intro m _ out _
      cases m <;> simp [cleanEntries]
  | (k, v) :: fs, d, n + 1, b, hn, h0, hp => by
    rw [PlainEntries] at hp
    rw [keptKeys_cons] at hn h0 ⊢
    by_cases hk : keyOk k
    · rw [if_pos hk] at hn h0 ⊢
      obtain ⟨hagain, hbound, hnodes⟩ := jsonCleaned v (d + 1) b (hp.1 hk)
      obtain ⟨es, b', hes, hkeys, hbounds, hnodess, hagains⟩ :=
        entriesCleaned fs d n (cleanJson (d + 1) v b).2 (List.nodup_append.1 hn).2.1
          (fun h => h0 (List.mem_append_right _ h)) hp.2
      have hfresh : strip k ∉ keptKeys n fs := fun h =>
        (List.nodup_append.1 hn).2.2 _ List.mem_cons_self _ h rfl
      have hne : strip k ≠ [] := fun h => h0 (by simp [h])
      have hok : keyOk (strip k) := keyOk_strip hk hne
      -- the key is new, and so are the others after it
      have hout : ∀ out : Obj, (∀ k' ∈ [strip k] ++ keptKeys n fs, k' ∉ out.map Prod.fst) →
          ∀ w, Json.insert out (strip k) w = out ++ [(strip k, w)] ∧
            ∀ k' ∈ keptKeys n fs, k' ∉ (out ++ [(strip k, w)]).map Prod.fst := by
        intro out hdis w
        refine ⟨Json.insert_of_not_mem w (hdis _ (by simp)), fun k' hk' => ?_⟩
        rw [List.map_append, List.mem_append, not_or]
        refine ⟨hdis k' (List.mem_append_right _ hk'), ?_⟩
        simp only [List.map_cons, List.map_nil, List.mem_singleton]
        rintro rfl
        exact hfresh hk'
      refine ⟨(strip k, (cleanJson (d + 1) v b).1) :: es, b', ?_, ?_, ?_, ?_, ?_⟩
      · intro out hdis
        obtain ⟨hins, hdis'⟩ := hout out hdis (cleanJson (d + 1) v b).1
        simp only [cleanEntries, hk, if_true]
        rw [hins, hes _ hdis', List.append_assoc, List.singleton_append]
      · rw [List.map_cons, hkeys, List.singleton_append]
      · exact List.forall_mem_cons.2 ⟨hbound, hbounds⟩
      · simp only [nodesEntries, Nat.cast_add]
        omega
      · intro m hm out hdis
        obtain ⟨m, rfl⟩ : ∃ m', m = m' + 1 := ⟨m - 1, by simp at hm; omega⟩
        obtain ⟨hins, hdis'⟩ := hout out hdis (cleanJson (d + 1) v b).1
        simp only [cleanEntries, hok, if_true]
        rw [strip_idem, hagain, hins, hagains m (by simpa using hm) _ hdis', List.append_assoc,
          List.singleton_append]
    · rw [if_neg hk, List.nil_append] at hn h0 ⊢
      obtain ⟨es, b', hes, hkeys, hbounds, hnodess, hagains⟩ :=
        entriesCleaned fs d n b hn h0 hp.2
      refine ⟨es, b', ?_, hkeys, hbounds, hnodess, hagains⟩
      intro out hdis
      simp only [cleanEntries, hk, Bool.false_eq_true, if_false]
      exact hes out hdis

end

/-! ## What a shape takes -/

/-- The value of a field; null where there is none. -/
abbrev field (m : Obj) (k : Text) : Value :=
  (get m k).getD .null

/-- A value of the type of its shape. -/
def takes : Spec → Value → Bool
  | .int, .num (.int i) => intOk i
  | .num, .num (.int i) => intOk i ∧ |(i : ℚ)| ≤ maxNum
  | .num, .num (.float x) => |x| ≤ maxNum
  | .bool, .bool _ => true
  | .json, v => !isNull v && !isNull (cleanLeaf v)
  | .str _, .str _ => true
  | .list _ _, .arr _ => true
  | .map _ _, .obj _ => true
  | .obj _, .obj _ => true
  | _, _ => false

/-- The entries of a map that are kept, a later one in the place of an earlier one of its key. -/
def entries (sub : Spec) (cap : ℕ) (fs : Obj) : Obj :=
  Keyed.collect (fun f => strip f.1)
    ((fs.take cap).filter fun f => keyOk f.1 && takes sub f.2)

/-- The fields of a shape, a later one in the place of an earlier one of its key. -/
def shape (fields : List (Text × Spec)) : List (Text × Spec) :=
  Keyed.collect Prod.fst fields

theorem isNull_clean (spec : Spec) (v : Value) : isNull (clean spec v) = !takes spec v := by
  cases spec with
  | int =>
    rcases v with _ | _ | (i | _) | _ | _ | _
    · rfl
    · rfl
    · cases hi : intOk i <;> simp [clean, takes, hi, isNull]
    all_goals rfl
  | num =>
    rcases v with _ | _ | (i | x) | _ | _ | _
    · rfl
    · rfl
    · by_cases h : intOk i ∧ |(i : ℚ)| ≤ maxNum
      · simp only [clean, takes, h, and_self, if_true, decide_true]
        rfl
      · simp only [clean, takes, h, if_false, decide_false]
        rfl
    · by_cases h : |x| ≤ maxNum
      · simp only [clean, takes, h, if_true, decide_true]
        rfl
      · simp only [clean, takes, h, if_false, decide_false]
        rfl
    all_goals rfl
  | json =>
    rcases v with _ | _ | (i | _) | _ | _ | _
    · rfl
    · rfl
    · cases hi : intOk i <;>
        simp [clean, takes, cleanJson, cleanLeaf, hi, isNull, jsonMaxNodes, jsonMaxDepth]
    all_goals simp [clean, takes, cleanJson, cleanLeaf, isNull, jsonMaxNodes, jsonMaxDepth]
  | bool => rcases v with _ | _ | _ | _ | _ | _ <;> rfl
  | str n => rcases v with _ | _ | _ | _ | _ | _ <;> rfl
  | list sub cap => rcases v with _ | _ | _ | _ | _ | _ <;> rfl
  | map sub cap => rcases v with _ | _ | _ | _ | _ | _ <;> rfl
  | obj fields => rcases v with _ | _ | _ | _ | _ | _ <;> rfl

/-- An object has the fields of its shape. -/
theorem clean_obj (fields : List (Text × Spec)) (m : Obj) :
    clean (.obj fields) (.obj m) =
      .obj ((shape fields).map fun k => (k.1, clean k.2 (field m k.1))) := by
  have hgen : ∀ (fields : List (Text × Spec)) (out : Obj),
      cleanFields fields m out =
        (fields.map fun k => (k.1, clean k.2 (field m k.1))).foldl
          (fun out f => Keyed.put Prod.fst f out) out := by
    intro fields
    induction fields with
    | nil => exact fun out => rfl
    | cons k fields ih =>
      intro out
      rw [cleanFields, ih, List.map_cons, List.foldl_cons, Json.insert_eq_put]
  rw [clean, hgen]
  exact congrArg Json.obj (Keyed.collect_map (fun _ => rfl) fields)

/-- A map has the entries that are kept. -/
theorem clean_map (sub : Spec) (cap : ℕ) (fs : Obj) :
    clean (.map sub cap) (.obj fs) =
      .obj ((entries sub cap fs).map fun f => (strip f.1, clean sub f.2)) := by
  have hgen : ∀ fs out : Obj,
      fs.foldl (fun out f =>
        if keyOk f.1 then
          let c := clean sub f.2
          if isNull c then out else Json.insert out (strip f.1) c
        else out) out =
      ((fs.filter fun f => keyOk f.1 && takes sub f.2).map
        fun f => (strip f.1, clean sub f.2)).foldl
          (fun out f => Keyed.put Prod.fst f out) out := by
    intro fs
    induction fs with
    | nil => exact fun out => rfl
    | cons f fs ih =>
      intro out
      rw [List.foldl_cons, ih, List.filter_cons]
      by_cases hk : keyOk f.1
      · cases ht : takes sub f.2
        · simp [hk, isNull_clean, ht]
        · simp [hk, isNull_clean, ht, Json.insert_eq_put]
      · simp [hk]
  rw [clean, hgen]
  exact congrArg Json.obj (Keyed.collect_map (fun _ => rfl) _)

/-! ## Values that conform to a shape -/

/-- `v` has the shape `spec` and is within its bounds. -/
inductive Conforms : Spec → Value → Prop
  | int {i : ℤ} (hi : intOk i) : Conforms .int (.num (.int i))
  | numInt {i : ℤ} (hi : intOk i) (hm : |(i : ℚ)| ≤ maxNum) : Conforms .num (.num (.int i))
  | numFloat {x : ℚ} (hm : |x| ≤ maxNum) : Conforms .num (.num (.float x))
  | bool (b : Bool) : Conforms .bool (.bool b)
  | json {v : Value} (hb : Bounded 0 v) (hn : (nodes v : ℤ) ≤ jsonMaxNodes) : Conforms .json v
  | str {s : Text} {n : ℕ} (hl : s.length ≤ n) (h0 : '\x00' ∉ s) : Conforms (.str n) (.str s)
  | list {sub : Spec} {cap : ℕ} {vs : List Value} (hl : vs.length ≤ cap)
      (hn : ∀ v ∈ vs, isNull v = false) (h : ∀ v ∈ vs, Conforms sub v) :
      Conforms (.list sub cap) (.arr vs)
  | map {sub : Spec} {cap : ℕ} {fs : Obj} (hl : fs.length ≤ cap) (hd : (fs.map Prod.fst).Nodup)
      (hk : ∀ f ∈ fs, KeyFine f.1) (hn : ∀ f ∈ fs, isNull f.2 = false)
      (h : ∀ f ∈ fs, Conforms sub f.2) : Conforms (.map sub cap) (.obj fs)
  | obj {fields : List (Text × Spec)} {m : Obj}
      (hk : m.map Prod.fst = (shape fields).map Prod.fst)
      (h : ∀ k ∈ shape fields, isNull (field m k.1) = false → Conforms k.2 (field m k.1)) :
      Conforms (.obj fields) (.obj m)

/-- `Part spec v sub w` : `w` is a part of `v` that cleaning keeps, and `sub` its shape. -/
inductive Part : Spec → Value → Spec → Value → Prop
  | here (spec : Spec) (v : Value) : Part spec v spec v
  | item {sub spec : Spec} {cap : ℕ} {vs : List Value} {v w : Value} (hv : v ∈ vs.take cap)
      (h : Part sub v spec w) : Part (.list sub cap) (.arr vs) spec w
  | entry {sub spec : Spec} {cap : ℕ} {fs : Obj} {f : Text × Value} {w : Value}
      (hf : f ∈ entries sub cap fs) (h : Part sub f.2 spec w) :
      Part (.map sub cap) (.obj fs) spec w
  | field {fields : List (Text × Spec)} {m : Obj} {k : Text × Spec} {spec : Spec} {w : Value}
      (hk : k ∈ shape fields) (h : Part k.2 (field m k.1) spec w) :
      Part (.obj fields) (.obj m) spec w

/-- The cleaned value is null or conforms to the shape. -/
def Fits (spec : Spec) (v : Value) : Prop :=
  isNull (clean spec v) ∨ Conforms spec (clean spec v)

theorem field_map {g : Text × Spec → Value} {l : List (Text × Spec)} (hn : (l.map Prod.fst).Nodup)
    {k : Text × Spec} (hk : k ∈ l) : field (l.map fun k => (k.1, g k)) k.1 = g k := by
  have hkeys : (Keyed.keys Prod.fst (l.map fun k => (k.1, g k))).Nodup := by
    simpa [Keyed.keys, Function.comp_def] using hn
  have hfind := Keyed.find_of_mem hkeys (List.mem_map_of_mem (f := fun k => (k.1, g k)) hk)
  unfold field get
  rw [hfind]
  rfl

theorem nodup_shape (fields : List (Text × Spec)) : ((shape fields).map Prod.fst).Nodup :=
  Keyed.nodup_collect fields

/-- A field of a cleaned object. -/
theorem field_clean {fields : List (Text × Spec)} {k : Text × Spec} (hk : k ∈ shape fields)
    (m : Obj) :
    field ((shape fields).map fun k => (k.1, clean k.2 (field m k.1))) k.1 =
      clean k.2 (field m k.1) :=
  field_map (g := fun k => clean k.2 (field m k.1)) (nodup_shape fields) hk

theorem mem_entries {sub : Spec} {cap : ℕ} {fs : Obj} {f : Text × Value}
    (hf : f ∈ entries sub cap fs) : f ∈ fs.take cap ∧ keyOk f.1 ∧ takes sub f.2 := by
  have h := List.mem_filter.1 (Keyed.mem_collect hf)
  exact ⟨h.1, Bool.and_eq_true_iff.1 h.2⟩

theorem length_entries_le (sub : Spec) (cap : ℕ) (fs : Obj) :
    (entries sub cap fs).length ≤ cap :=
  calc (entries sub cap fs).length
    _ ≤ ((fs.take cap).filter fun f => keyOk f.1 && takes sub f.2).length :=
      Keyed.length_collect_le _
    _ ≤ (fs.take cap).length := List.length_filter_le _ _
    _ ≤ cap := List.length_take_le cap fs

/-- A kept part of a value that fits its shape fits its own. -/
theorem fits_part {spec sub : Spec} {v w : Value} (hp : Part spec v sub w) :
    Fits spec v → Fits sub w := by
  induction hp with
  | here => exact id
  | @item sub spec cap vs v w hv _ ih =>
    intro hfit
    refine ih (or_iff_not_imp_left.2 fun hnull => ?_)
    rcases hfit with hfit | hfit
    · exact absurd hfit (by simp [isNull_clean, takes])
    · rw [clean] at hfit
      cases hfit with
      | list _ _ h =>
        exact h _ (List.mem_filter.2 ⟨List.mem_map_of_mem hv, by simpa using hnull⟩)
  | @entry sub spec cap fs f w hf _ ih =>
    intro hfit
    refine ih (or_iff_not_imp_left.2 fun _ => ?_)
    rcases hfit with hfit | hfit
    · exact absurd hfit (by simp [isNull_clean, takes])
    · rw [clean_map] at hfit
      cases hfit with
      | map _ _ _ _ h => exact h _ (List.mem_map_of_mem (f := fun f => (strip f.1, _)) hf)
  | @field fields m k spec w hk _ ih =>
    intro hfit
    refine ih (or_iff_not_imp_left.2 fun hnull => ?_)
    rcases hfit with hfit | hfit
    · exact absurd hfit (by simp [isNull_clean, takes])
    · rw [clean_obj] at hfit
      cases hfit with
      | obj _ h =>
        have hk' := h k hk
        rw [field_clean hk] at hk'
        exact hk' (by simpa using hnull)

/-! ## Cleaning settles -/

/-- The cleaned value is null or conforms, and is cleaned to itself. -/
def Settles (spec : Spec) (v : Value) : Prop :=
  Fits spec v ∧ clean spec (clean spec v) = clean spec v

/-- No kept key of a map is empty once its NUL characters are gone. -/
def KeysKept (spec : Spec) (v : Value) : Prop :=
  ∀ sub cap fs, Part spec v (.map sub cap) (.obj fs) →
    ∀ f ∈ entries sub cap fs, strip f.1 ≠ []

/-- The kept parts of no shape are plain. -/
def JsonPlain (spec : Spec) (v : Value) : Prop :=
  ∀ w, Part spec v .json w → Plain w

theorem eq_null {v : Value} (h : isNull v) : v = .null := by
  cases v <;> first | rfl | exact absurd h (by simp [isNull])

theorem clean_null (spec : Spec) : clean spec .null = .null := by
  cases spec <;> rfl

theorem settles_of_not_takes {spec : Spec} {v : Value} (h : takes spec v = false) :
    Settles spec v := by
  have hnull : isNull (clean spec v) := by simp [isNull_clean, h]
  refine ⟨.inl hnull, ?_⟩
  rw [eq_null hnull, clean_null]

/-- What a shape without parts takes it keeps. -/
theorem settles_of_kept {spec : Spec} {v : Value}
    (h : takes spec v → clean spec v = v ∧ Conforms spec v) : Settles spec v := by
  cases ht : takes spec v
  · exact settles_of_not_takes ht
  · obtain ⟨hv, hc⟩ := h ht
    exact ⟨.inr (hv.symm ▸ hc), by rw [hv, hv]⟩

theorem settles_json {v : Value} (hp : Plain v) : Settles .json v := by
  cases hv : isNull v
  · have hclean : clean .json v = (cleanJson 0 v jsonMaxNodes).1 := by
      rw [clean, hv]
      rfl
    obtain ⟨hagain, hbound, hnodes⟩ := jsonCleaned v 0 jsonMaxNodes hp
    have hle : (nodes (cleanJson 0 v jsonMaxNodes).1 : ℤ) ≤ jsonMaxNodes := by
      have h0 : (0 : ℤ) ≤ jsonMaxNodes := by decide
      rw [max_eq_left h0] at hnodes
      have hpos := le_max_right (cleanJson 0 v jsonMaxNodes).2 0
      omega
    refine ⟨.inr (hclean ▸ .json hbound hle), ?_⟩
    rw [hclean]
    cases hw : isNull (cleanJson 0 v jsonMaxNodes).1
    · rw [clean, hw, if_neg (by simp), hagain]
    · rw [eq_null hw, clean_null]
  · exact settles_of_not_takes (by simp [takes, hv])

theorem settles_str (n : ℕ) (v : Value) : Settles (.str n) v := by
  cases v with
  | str s =>
    refine ⟨.inr (.str (length_capStr_le s n) (not_mem_capStr s n)), ?_⟩
    simp only [clean, capStr_idem]
  | null => exact settles_of_not_takes rfl
  | bool _ => exact settles_of_not_takes rfl
  | num _ => exact settles_of_not_takes rfl
  | arr _ => exact settles_of_not_takes rfl
  | obj _ => exact settles_of_not_takes rfl

theorem conforms_of_fits {spec : Spec} {v : Value} (h : Fits spec v)
    (hn : isNull (clean spec v) = false) : Conforms spec (clean spec v) :=
  h.resolve_left (by simp [hn])

theorem settles_list {sub : Spec} {cap : ℕ} {vs : List Value}
    (h : ∀ v ∈ vs.take cap, Settles sub v) : Settles (.list sub cap) (.arr vs) := by
  have hmem : ∀ w ∈ ((vs.take cap).map (clean sub)).filter fun v => !isNull v,
      isNull w = false ∧ Conforms sub w ∧ clean sub w = w := by
    intro w hw
    obtain ⟨hw, hn⟩ := List.mem_filter.1 hw
    obtain ⟨v, hv, rfl⟩ := List.mem_map.1 hw
    have hn' : isNull (clean sub v) = false := by simpa using hn
    exact ⟨hn', conforms_of_fits (h v hv).1 hn', (h v hv).2⟩
  have hl : (((vs.take cap).map (clean sub)).filter fun v => !isNull v).length ≤ cap := by
    refine (List.length_filter_le _ _).trans ?_
    rw [List.length_map]
    exact List.length_take_le cap vs
  rw [Settles, Fits, clean]
  refine ⟨.inr (.list hl (fun w hw => (hmem w hw).1) fun w hw => (hmem w hw).2.1), ?_⟩
  rw [clean, List.take_of_length_le hl, List.map_congr_left fun w hw => (hmem w hw).2.2,
    List.map_id', List.filter_filter]
  simp

theorem settles_obj {fields : List (Text × Spec)} {m : Obj}
    (h : ∀ k ∈ shape fields, Settles k.2 (field m k.1)) : Settles (.obj fields) (.obj m) := by
  rw [Settles, Fits, clean_obj]
  refine ⟨.inr (.obj (by simp [Function.comp_def]) fun k hk hn => ?_), ?_⟩
  · rw [field_clean hk] at hn ⊢
    exact conforms_of_fits (h k hk).1 hn
  · rw [clean_obj]
    refine congrArg Json.obj (List.map_congr_left fun k hk => ?_)
    rw [field_clean hk, (h k hk).2]

theorem settles_map {sub : Spec} {cap : ℕ} {fs : Obj}
    (h : ∀ f ∈ entries sub cap fs, Settles sub f.2)
    (h0 : ∀ f ∈ entries sub cap fs, strip f.1 ≠ []) : Settles (.map sub cap) (.obj fs) := by
  have hmem : ∀ g ∈ (entries sub cap fs).map fun f => (strip f.1, clean sub f.2),
      keyOk g.1 ∧ strip g.1 = g.1 ∧ isNull g.2 = false ∧ Conforms sub g.2 ∧
        clean sub g.2 = g.2 := by
    intro g hg
    obtain ⟨f, hf, rfl⟩ := List.mem_map.1 hg
    obtain ⟨-, hk, ht⟩ := mem_entries hf
    have hn : isNull (clean sub f.2) = false := by simp [isNull_clean, ht]
    exact ⟨keyOk_strip hk (h0 f hf), strip_idem f.1, hn, conforms_of_fits (h f hf).1 hn,
      (h f hf).2⟩
  have hd : (((entries sub cap fs).map fun f => (strip f.1, clean sub f.2)).map
      Prod.fst).Nodup := by
    have hkeys : (Keyed.keys (fun f : Text × Value => strip f.1) (entries sub cap fs)).Nodup :=
      Keyed.nodup_collect _
    simpa [Keyed.keys, Function.comp_def] using hkeys
  have hl : ((entries sub cap fs).map fun f => (strip f.1, clean sub f.2)).length ≤ cap := by
    rw [List.length_map]
    exact length_entries_le sub cap fs
  rw [Settles, Fits, clean_map]
  generalize (entries sub cap fs).map (fun f => (strip f.1, clean sub f.2)) = es at hmem hd hl ⊢
  -- each entry is kept, under its own key
  have hes : entries sub cap es = es := by
    have hall : es.filter (fun f => keyOk f.1 && takes sub f.2) = es := by
      refine List.filter_eq_self.2 fun g hg => ?_
      obtain ⟨hk, -, hn, -, hc⟩ := hmem g hg
      have ht : takes sub g.2 := by
        have := isNull_clean sub g.2
        rw [hc, hn] at this
        simpa using this
      rw [hk, ht]
      rfl
    have hsame : Keyed.keys (fun f : Text × Value => strip f.1) es = es.map Prod.fst :=
      List.map_congr_left fun g hg => (hmem g hg).2.1
    rw [entries, List.take_of_length_le hl, hall]
    exact Keyed.collect_of_nodup (hsame ▸ hd)
  refine ⟨.inr (.map hl hd (fun g hg => ?_) (fun g hg => (hmem g hg).2.2.1)
    fun g hg => (hmem g hg).2.2.2.1), ?_⟩
  · obtain ⟨hk, hs, -⟩ := hmem g hg
    exact ⟨hk, hs ▸ not_mem_strip g.1⟩
  · rw [clean_map, hes]
    refine congrArg Json.obj ((List.map_congr_left fun g hg => ?_).trans (List.map_id es))
    obtain ⟨-, hs, -, -, hc⟩ := hmem g hg
    rw [hs, hc]
    rfl

theorem settles_of_plain (spec : Spec) : ∀ v, JsonPlain spec v → KeysKept spec v →
    Settles spec v := by
  induction spec using Spec.induct with
  | int =>
    refine fun v _ _ => settles_of_kept fun ht => ?_
    rcases v with _ | _ | (i | _) | _ | _ | _
    case num.int => exact ⟨if_pos ht, .int ht⟩
    all_goals exact absurd ht (by simp [takes])
  | num =>
    refine fun v _ _ => settles_of_kept fun ht => ?_
    rcases v with _ | _ | (i | x) | _ | _ | _
    case num.int =>
      have hi := of_decide_eq_true ht
      exact ⟨if_pos hi, .numInt hi.1 hi.2⟩
    case num.float =>
      have hx := of_decide_eq_true ht
      exact ⟨if_pos hx, .numFloat hx⟩
    all_goals exact absurd ht (by simp [takes])
  | bool =>
    refine fun v _ _ => settles_of_kept fun ht => ?_
    cases v with
    | bool b => exact ⟨rfl, .bool b⟩
    | null => exact absurd ht (by simp [takes])
    | num _ => exact absurd ht (by simp [takes])
    | str _ => exact absurd ht (by simp [takes])
    | arr _ => exact absurd ht (by simp [takes])
    | obj _ => exact absurd ht (by simp [takes])
  | json => exact fun v hj _ => settles_json (hj v (.here _ v))
  | str n => exact fun v _ _ => settles_str n v
  | list sub cap ih =>
    intro v hj hk
    cases v with
    | arr vs =>
      exact settles_list fun v hv => ih v (fun w hw => hj w (.item hv hw))
        fun s c fs hp => hk s c fs (.item hv hp)
    | null => exact settles_of_not_takes rfl
    | bool _ => exact settles_of_not_takes rfl
    | num _ => exact settles_of_not_takes rfl
    | str _ => exact settles_of_not_takes rfl
    | obj _ => exact settles_of_not_takes rfl
  | map sub cap ih =>
    intro v hj hk
    cases v with
    | obj fs =>
      exact settles_map (fun f hf => ih f.2 (fun w hw => hj w (.entry hf hw))
        fun s c fs hp => hk s c fs (.entry hf hp)) (hk sub cap fs (.here _ _))
    | null => exact settles_of_not_takes rfl
    | bool _ => exact settles_of_not_takes rfl
    | num _ => exact settles_of_not_takes rfl
    | str _ => exact settles_of_not_takes rfl
    | arr _ => exact settles_of_not_takes rfl
  | obj fields ih =>
    intro v hj hk
    cases v with
    | obj m =>
      exact settles_obj fun k hmem => ih k (Keyed.mem_collect hmem) _
        (fun w hw => hj w (.field hmem hw)) fun s c fs hp => hk s c fs (.field hmem hp)
    | null => exact settles_of_not_takes rfl
    | bool _ => exact settles_of_not_takes rfl
    | num _ => exact settles_of_not_takes rfl
    | str _ => exact settles_of_not_takes rfl
    | arr _ => exact settles_of_not_takes rfl

theorem keysKept_of_fits {spec : Spec} {v : Value} (h : Fits spec v) : KeysKept spec v := by
  intro sub cap fs hp f hf h0
  rcases fits_part hp h with hn | hc
  · exact absurd hn (by simp [isNull_clean, takes])
  · rw [clean_map] at hc
    cases hc with
    | map _ _ hk _ _ =>
      obtain ⟨hok, -⟩ := hk _ (List.mem_map_of_mem (f := fun f => (strip f.1, clean sub f.2)) hf)
      rw [h0] at hok
      exact absurd hok (by simp [keyOk])

/-- A map of texts beside a value of no shape. -/
def labelled : Spec :=
  .obj [(ascii "labels", .map (.str 4) 2), (ascii "extra", .json)]

end Wire

end EngineConsole
