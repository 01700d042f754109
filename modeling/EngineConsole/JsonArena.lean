import EngineConsole.PyJson

/-!
# The other JSON reader of the adapters

`JsonDoc::loads` reads the same JSON as `json_loads` without recursion : the nodes of a document
lie in an arena, the containers that are open are on a stack, and a value is attached to the
one it is in when it ends. Strings are code points, so half of a surrogate pair may stay alone,
and integers have no limit.

The stack machine is followed from the recursive reader of `JsonReader` over code points
(`points`) : where that reads a value the machine comes to the end of the value with the same
tree in its arena (`Runs`), where that fails the machine stops with the same error. So on texts
that nest no deeper than 512 and have no run of more than 4300 digits the two readers of the
adapters are one language, the JSON grammar with `NaN` and the infinities, with the same
documents and the same messages (`readers_agree`).
-/

set_option linter.unusedSectionVars false

namespace EngineConsole.JsonArena

open JsonSyntax JsonReader PyJson

/-! ## The arena and the stack -/

/-- A node of the arena; the members of a container are the places of other nodes. -/
inductive Node (F : Type*) where
  | null
  | bool (b : Bool)
  | int (t : Text)
  | float (f : PyFloat F)
  | str (points : List ℕ)
  | arr (items : List ℕ)
  | obj (items : List (List ℕ × ℕ))

/-- A container that is open : its place, and the key that waits for its value. -/
inductive Frame where
  | arr (node : ℕ)
  | obj (node : ℕ) (key : List ℕ)

/-- The place of the container. -/
def Frame.node : Frame → ℕ
  | .arr node => node
  | .obj node _ => node

/-- The character that closes the container. -/
def Frame.close : Frame → Char
  | .arr _ => ']'
  | .obj _ _ => '}'

/-- What is said of a comma before the end of the container. -/
def Frame.trailing : Frame → String
  | .arr _ => "Illegal trailing comma before end of array"
  | .obj _ _ => "Illegal trailing comma before end of object"

/-- `JSON_MAX_DEPTH` -/
def jsonMaxDepth : ℕ := 9998

section Machine

variable {F : Type*}

/-- Set the child of a key; keys are distinct, so there is at most one place to set. -/
def setKey (items : List (List ℕ × ℕ)) (key : List ℕ) (child : ℕ) : List (List ℕ × ℕ) :=
  if key ∈ items.map Prod.fst then items.map fun x => if x.1 = key then (key, child) else x
  else items ++ [(key, child)]

/-- A container with one more child. -/
def Node.add : Node F → Frame → ℕ → Node F
  | .arr items, .arr _, child => .arr (items ++ [child])
  | .obj items, .obj _ key, child => .obj (setKey items key child)
  | n, _, _ => n

/-- `attach` -/
def attach (nodes : List (Node F)) (frame : Frame) (child : ℕ) : List (Node F) :=
  nodes.modify frame.node fun n => n.add frame child

/-- `string` -/
def string (s : Text) : Reading (List ℕ) :=
  scanString pushPoint [] s

/-- `key` : a key and the colon. -/
def key (s : Text) : Reading (List ℕ) :=
  if s.head? ≠ some '"' then
    .fail (.msg "Expecting property name enclosed in double quotes")
  else
    (string s.tail).bind fun k t =>
      if (ws t).head? ≠ some ':' then .fail (.msg "Expecting ':' delimiter")
      else .done k (ws (ws t).tail)

/-- `BigInt::normalized` -/
def normalized (neg : Bool) (digits : Text) : Text :=
  let d := digits.dropWhile (· = '0')
  if d = [] then ['0'] else if neg then '-' :: d else d

variable (Fl : Floats F)

/-- `number` -/
def number (s : Text) : Reading (Node F) :=
  match scanNumber s with
  | none => .fail (.msg "Expecting value")
  | some (n, rest) =>
    .done (if n.isFloat then .float (Fl.parse n.text) else .int (normalized n.neg n.int)) rest

/-- The node of a word. -/
def wordNode : Word → Node F
  | .null => .null
  | .true => .bool true
  | .false => .bool false
  | .nan => .float .nan
  | .infinity => .float (.inf false)
  | .negInfinity => .float (.inf true)

/-- `scalar` -/
def scalar (s : Text) : Reading (Node F) :=
  if s.head? = some '"' then (string s.tail).bind fun us rest => .done (.str us) rest
  else
    match findWord s with
    | some (w, rest) => .done (wordNode w) rest
    | none => number Fl s

/-- Where the machine is once a term was attached : at the end, or before another value. -/
inductive Next (F : Type*) where
  | root (nodes : List (Node F)) (child : ℕ)
  | value (nodes : List (Node F)) (stack : List Frame)

/-- Attach a term to the container it is in, and close as many as end here. -/
def close : List (Node F) → List Frame → ℕ → Text → Reading (Next F)
  | nodes, [], child, next => .done (.root nodes child) next
  | nodes, frame :: stack, child, next =>
    if (ws next).head? = some frame.close then
      close (attach nodes frame child) stack frame.node (ws next).tail
    else if (ws next).head? ≠ some ',' then .fail (.msg "Expecting ',' delimiter")
    else if (ws (ws next).tail).head? = some frame.close then .fail (.msg frame.trailing)
    else
      match frame with
      | .arr node =>
        .done (.value (attach nodes frame child) (.arr node :: stack)) (ws (ws next).tail)
      | .obj node _ =>
        (key (ws (ws next).tail)).bind fun k after =>
          .done (.value (attach nodes frame child) (.obj node k :: stack)) after

/-- `value` : read one term or open a container, and go on. -/
def value : ℕ → List (Node F) → List Frame → Text → Reading (List (Node F) × ℕ)
  | 0, _, _, _ => .more
  | _ + 1, _, _, [] => .fail (.msg "Expecting value")
  | fuel + 1, nodes, stack, c :: t =>
    let goOn (r : Reading (Next F)) : Reading (List (Node F) × ℕ) :=
      r.bind fun next rest =>
        match next with
        | .root nodes child => .done (nodes, child) rest
        | .value nodes stack => value fuel nodes stack rest
    if c = '{' then
      if jsonMaxDepth < stack.length + 1 then
        .fail (.depth "maximum recursion depth exceeded while decoding a JSON object")
      else if (ws t).head? = some '}' then
        goOn (close (nodes ++ [.obj []]) stack nodes.length (ws t).tail)
      else
        (key (ws t)).bind fun k after =>
          value fuel (nodes ++ [.obj []]) (.obj nodes.length k :: stack) after
    else if c = '[' then
      if jsonMaxDepth < stack.length + 1 then
        .fail (.depth "maximum recursion depth exceeded while decoding a JSON array")
      else if (ws t).head? = some ']' then
        goOn (close (nodes ++ [.arr []]) stack nodes.length (ws t).tail)
      else value fuel (nodes ++ [.arr []]) (.arr nodes.length :: stack) (ws t)
    else
      (scalar Fl (c :: t)).bind fun node next =>
        goOn (close (nodes ++ [node]) stack nodes.length next)

/-- `JsonDoc::loads` : the arena, whose root is its first node; no answer is a machine that has
not come to an end. -/
def loads (s : Text) : Option (Except JErr (List (Node F))) :=
  if s.head? = some '\ufeff' then
    some (.error (.msg "Unexpected UTF-8 BOM (decode using utf-8-sig)"))
  else
    match value Fl ((ws s).length + 1) [] [] (ws s) with
    | .more => none
    | .fail e => some (.error e)
    | .done (nodes, _) rest =>
      if ws rest ≠ [] then some (.error (.msg "Extra data")) else some (.ok nodes)

/-! ## The reader it follows -/

/-- The recursive reader over code points. -/
def points : Lexis (List ℕ) (Num F) where
  sense := ⟨id, numOf Fl, .float .nan, .float (.inf false), .float (.inf true)⟩
  string s := (scanString pushPoint [] s).map fun us => (us, us.any isSurrogate)
  number s :=
    match scanNumber s with
    | none => .fail .stop
    | some (n, rest) => .done (numOf Fl n) rest
  maxDepth := jsonMaxDepth

theorem points_lawful : (points Fl).Lawful fun _ => True where
  string_sound := (string_laws id (points Fl).string fun _ => rfl).1
  string_text := (string_laws id (points Fl).string fun _ => rfl).2.1
  string_fail := (string_laws id (points Fl).string fun _ => rfl).2.2.1
  string_ends := (string_laws id (points Fl).string fun _ => rfl).2.2.2
  number_sound s n rest h := by
    rw [points] at h
    dsimp only at h
    rcases hn : scanNumber s with _ | ⟨t, u⟩ <;> rw [hn] at h
    · cases h
    · obtain ⟨hok, hs⟩ := scanNumber_sound hn
      obtain ⟨rfl, rfl⟩ := Reading.done.inj h
      exact ⟨t, hok, trivial, hs, rfl⟩
  number_text t rest hok _ hends := by
    rw [points]
    dsimp only
    rw [scanNumber_text hok hends]
  number_ends s h := by
    rw [points] at h
    dsimp only at h
    rcases hn : scanNumber s with _ | ⟨t, u⟩ <;> rw [hn] at h <;> cases h

variable {Fl}

/-! ## Trees in the arena -/

/-- The node of a number. -/
def numNode : Num F → Node F
  | .int t => .int t
  | .float f => .float f

mutual

/-- The arena holds a value at a place, and what is in it at later places. -/
def Rep (nodes : List (Node F)) (i : ℕ) : Json (List ℕ) (Num F) → Prop
  | .null => nodes[i]? = some .null
  | .bool b => nodes[i]? = some (.bool b)
  | .num n => nodes[i]? = some (numNode n)
  | .str us => nodes[i]? = some (.str us)
  | .arr vs => ∃ items, nodes[i]? = some (.arr items) ∧ RepElems nodes i items vs
  | .obj fs => ∃ items, nodes[i]? = some (.obj items) ∧ RepFields nodes i items fs

/-- The arena holds the elements of the array at `i`. -/
def RepElems (nodes : List (Node F)) (i : ℕ) : List ℕ → List (Json (List ℕ) (Num F)) → Prop
  | items, [] => items = []
  | items, v :: vs => ∃ c cs, items = c :: cs ∧ i < c ∧ Rep nodes c v ∧ RepElems nodes i cs vs

/-- The arena holds the fields of the object at `i`. -/
def RepFields (nodes : List (Node F)) (i : ℕ) :
    List (List ℕ × ℕ) → List (List ℕ × Json (List ℕ) (Num F)) → Prop
  | items, [] => items = []
  | items, (k, v) :: fs =>
    ∃ c cs, items = (k, c) :: cs ∧ i < c ∧ Rep nodes c v ∧ RepFields nodes i cs fs

end

/-- The nodes from a place on are kept. -/
def SameFrom (i : ℕ) (nodes nodes' : List (Node F)) : Prop :=
  ∀ j n, i ≤ j → nodes[j]? = some n → nodes'[j]? = some n

variable {nodes nodes' nodes₂ : List (Node F)} {i j c : ℕ}

theorem SameFrom.mono (h : SameFrom i nodes nodes') (hij : i ≤ j) : SameFrom j nodes nodes' :=
  fun k n hk => h k n (hij.trans hk)

theorem SameFrom.trans (h : SameFrom i nodes nodes') (h' : SameFrom i nodes' nodes₂) :
    SameFrom i nodes nodes₂ :=
  fun k n hk hn => h' k n hk (h k n hk hn)

mutual

/-- A value stays where the places from its own on are kept. -/
theorem Rep.mono : ∀ (v : Json (List ℕ) (Num F)) {i : ℕ}, SameFrom i nodes nodes' →
    Rep nodes i v → Rep nodes' i v
  | .null, i, hs, h => hs i _ le_rfl h
  | .bool _, i, hs, h => hs i _ le_rfl h
  | .num _, i, hs, h => hs i _ le_rfl h
  | .str _, i, hs, h => hs i _ le_rfl h
  | .arr vs, i, hs, h => by
    obtain ⟨items, hnode, hitems⟩ := h
    exact ⟨items, hs i _ le_rfl hnode, RepElems.mono vs (hs.mono (Nat.le_succ i)) hitems⟩
  | .obj fs, i, hs, h => by
    obtain ⟨items, hnode, hitems⟩ := h
    exact ⟨items, hs i _ le_rfl hnode, RepFields.mono fs (hs.mono (Nat.le_succ i)) hitems⟩

/-- `Rep.mono` for elements. -/
theorem RepElems.mono : ∀ (vs : List (Json (List ℕ) (Num F))) {i : ℕ} {items : List ℕ},
    SameFrom (i + 1) nodes nodes' → RepElems nodes i items vs → RepElems nodes' i items vs
  | [], _, _, _, h => h
  | v :: vs, _, _, hs, h => by
    obtain ⟨c, cs, rfl, hc, hv, hvs⟩ := h
    exact ⟨c, cs, rfl, hc, Rep.mono v (hs.mono hc) hv, RepElems.mono vs hs hvs⟩

/-- `Rep.mono` for fields. -/
theorem RepFields.mono : ∀ (fs : List (List ℕ × Json (List ℕ) (Num F))) {i : ℕ}
    {items : List (List ℕ × ℕ)},
    SameFrom (i + 1) nodes nodes' → RepFields nodes i items fs → RepFields nodes' i items fs
  | [], _, _, _, h => h
  | (k, v) :: fs, _, _, hs, h => by
    obtain ⟨c, cs, rfl, hc, hv, hfs⟩ := h
    exact ⟨c, cs, rfl, hc, Rep.mono v (hs.mono hc) hv, RepFields.mono fs hs hfs⟩

end

theorem RepElems.snoc {v : Json (List ℕ) (Num F)} (hc : i < c) (hv : Rep nodes c v) :
    ∀ {vs : List (Json (List ℕ) (Num F))} {items : List ℕ}, RepElems nodes i items vs →
      RepElems nodes i (items ++ [c]) (vs ++ [v])
  | [], items, h => by
    rw [show items = [] from h]
    exact ⟨c, [], rfl, hc, hv, rfl⟩
  | w :: vs, _, h => by
    obtain ⟨d, ds, rfl, hd, hw, hvs⟩ := h
    exact ⟨d, ds ++ [c], rfl, hd, hw, RepElems.snoc hc hv hvs⟩

theorem RepFields.keys : ∀ {fs : List (List ℕ × Json (List ℕ) (Num F))}
    {items : List (List ℕ × ℕ)}, RepFields nodes i items fs →
      items.map Prod.fst = fs.map Prod.fst
  | [], items, h => by
    rw [show items = [] from h]
    rfl
  | (k, v) :: fs, _, h => by
    obtain ⟨d, ds, rfl, -, -, hfs⟩ := h
    rw [List.map_cons, List.map_cons, RepFields.keys hfs]

theorem RepFields.snoc {v : Json (List ℕ) (Num F)} {k : List ℕ} (hc : i < c)
    (hv : Rep nodes c v) : ∀ {fs : List (List ℕ × Json (List ℕ) (Num F))}
      {items : List (List ℕ × ℕ)}, RepFields nodes i items fs →
      RepFields nodes i (items ++ [(k, c)]) (fs ++ [(k, v)])
  | [], items, h => by
    rw [show items = [] from h]
    exact ⟨c, [], rfl, hc, hv, rfl⟩
  | (k', w) :: fs, _, h => by
    obtain ⟨d, ds, rfl, hd, hw, hfs⟩ := h
    exact ⟨d, ds ++ [(k, c)], rfl, hd, hw, RepFields.snoc hc hv hfs⟩

theorem RepFields.replace {v : Json (List ℕ) (Num F)} {k : List ℕ} (hc : i < c)
    (hv : Rep nodes c v) : ∀ {fs : List (List ℕ × Json (List ℕ) (Num F))}
      {items : List (List ℕ × ℕ)}, RepFields nodes i items fs →
      RepFields nodes i (items.map fun x => if x.1 = k then (k, c) else x)
        (fs.map fun f => if f.1 = k then (k, v) else f)
  | [], items, h => by
    rw [show items = [] from h]
    rfl
  | (k', w) :: fs, _, h => by
    obtain ⟨d, ds, rfl, hd, hw, hfs⟩ := h
    have hrest := RepFields.replace (k := k) hc hv hfs
    rw [List.map_cons, List.map_cons]
    by_cases hk : k' = k
    · rw [if_pos hk, if_pos hk]
      exact ⟨c, _, rfl, hc, hv, hrest⟩
    · rw [if_neg hk, if_neg hk]
      exact ⟨d, _, rfl, hd, hw, hrest⟩

/-- Setting a key in the arena is setting it in the value. -/
theorem RepFields.set {v : Json (List ℕ) (Num F)} {k : List ℕ} (hc : i < c)
    (hv : Rep nodes c v) {fs : List (List ℕ × Json (List ℕ) (Num F))}
    {items : List (List ℕ × ℕ)} (h : RepFields nodes i items fs) :
    RepFields nodes i (setKey items k c) (Json.insert fs k v) := by
  rw [setKey, Json.insert, h.keys]
  split_ifs
  · exact RepFields.replace hc hv h
  · exact RepFields.snoc hc hv h

/-- The value of a node that holds no others. -/
def Node.leaf : Node F → Option (Json (List ℕ) (Num F))
  | .null => some .null
  | .bool b => some (.bool b)
  | .int t => some (.num (.int t))
  | .float f => some (.num (.float f))
  | .str us => some (.str us)
  | _ => none

theorem rep_cases {v : Json (List ℕ) (Num F)} (h : Rep nodes i v) :
    ∃ n, nodes[i]? = some n ∧ (n.leaf = some v ∨
      (∃ items vs, n = .arr items ∧ v = .arr vs ∧ RepElems nodes i items vs) ∨
      ∃ items fs, n = .obj items ∧ v = .obj fs ∧ RepFields nodes i items fs) := by
  cases v with
  | null => exact ⟨_, h, .inl rfl⟩
  | bool b => exact ⟨_, h, .inl rfl⟩
  | num x => cases x <;> exact ⟨_, h, .inl rfl⟩
  | str us => exact ⟨_, h, .inl rfl⟩
  | arr vs =>
    obtain ⟨items, hn, hvs⟩ := h
    exact ⟨_, hn, .inr (.inl ⟨items, vs, rfl, rfl, hvs⟩)⟩
  | obj fs =>
    obtain ⟨items, hn, hfs⟩ := h
    exact ⟨_, hn, .inr (.inr ⟨items, fs, rfl, rfl, hfs⟩)⟩

theorem leaf_unique {n : Node F} {v w : Json (List ℕ) (Num F)} (hn : nodes[i]? = some n)
    (hv : n.leaf = some v) (hw : Rep nodes i w) : v = w := by
  obtain ⟨m, hm, hleaf | ⟨items, vs, rfl, -⟩ | ⟨items, fs, rfl, -⟩⟩ := rep_cases hw
  · obtain rfl := Option.some.inj (hn.symm.trans hm)
    exact Option.some.inj (hv.symm.trans hleaf)
  · obtain rfl := Option.some.inj (hn.symm.trans hm)
    cases hv
  · obtain rfl := Option.some.inj (hn.symm.trans hm)
    cases hv

mutual

/-- The arena holds one value at a place. -/
theorem Rep.unique : ∀ (v w : Json (List ℕ) (Num F)) {i : ℕ}, Rep nodes i v → Rep nodes i w → v = w
  | .null, _, _, h, h' => leaf_unique h rfl h'
  | .bool _, _, _, h, h' => leaf_unique h rfl h'
  | .num (.int _), _, _, h, h' => leaf_unique h rfl h'
  | .num (.float _), _, _, h, h' => leaf_unique h rfl h'
  | .str _, _, _, h, h' => leaf_unique h rfl h'
  | .arr vs, w, i, ⟨items, hn, hvs⟩, h' => by
    obtain ⟨m, hm, hleaf | ⟨items', ws, rfl, rfl, hws⟩ | ⟨items', fs, rfl, -⟩⟩ := rep_cases h'
    · exact (leaf_unique hm hleaf (show Rep nodes i (.arr vs) from ⟨items, hn, hvs⟩)).symm
    · obtain rfl := Node.arr.inj (Option.some.inj (hn.symm.trans hm))
      rw [RepElems.unique vs ws hvs hws]
    · cases Option.some.inj (hn.symm.trans hm)
  | .obj fs, w, i, ⟨items, hn, hfs⟩, h' => by
    obtain ⟨m, hm, hleaf | ⟨items', ws, rfl, -⟩ | ⟨items', gs, rfl, rfl, hgs⟩⟩ := rep_cases h'
    · exact (leaf_unique hm hleaf (show Rep nodes i (.obj fs) from ⟨items, hn, hfs⟩)).symm
    · cases Option.some.inj (hn.symm.trans hm)
    · obtain rfl := Node.obj.inj (Option.some.inj (hn.symm.trans hm))
      rw [RepFields.unique fs gs hfs hgs]

/-- `Rep.unique` for elements. -/
theorem RepElems.unique : ∀ (vs ws : List (Json (List ℕ) (Num F))) {i : ℕ} {items : List ℕ},
    RepElems nodes i items vs → RepElems nodes i items ws → vs = ws
  | [], [], _, _, _, _ => rfl
  | [], _ :: _, _, _, h, h' => by
    obtain ⟨c, cs, rfl, -⟩ := h'
    cases h
  | _ :: _, [], _, _, h, h' => by
    obtain ⟨c, cs, rfl, -⟩ := h
    cases h'
  | v :: vs, w :: ws, _, _, h, h' => by
    obtain ⟨c, cs, rfl, -, hv, hvs⟩ := h
    obtain ⟨c', cs', heq, -, hw, hws⟩ := h'
    obtain ⟨rfl, rfl⟩ := List.cons.inj heq
    rw [Rep.unique v w hv hw, RepElems.unique vs ws hvs hws]

/-- `Rep.unique` for fields. -/
theorem RepFields.unique : ∀ (fs gs : List (List ℕ × Json (List ℕ) (Num F))) {i : ℕ}
    {items : List (List ℕ × ℕ)}, RepFields nodes i items fs → RepFields nodes i items gs → fs = gs
  | [], [], _, _, _, _ => rfl
  | [], _ :: _, _, _, h, h' => by
    obtain ⟨c, cs, rfl, -⟩ := h'
    cases h
  | _ :: _, [], _, _, h, h' => by
    obtain ⟨c, cs, rfl, -⟩ := h
    cases h'
  | (k, v) :: fs, (k', w) :: gs, _, _, h, h' => by
    obtain ⟨c, cs, rfl, -, hv, hfs⟩ := h
    obtain ⟨c', cs', heq, -, hw, hgs⟩ := h'
    obtain ⟨hhead, rfl⟩ := List.cons.inj heq
    obtain ⟨rfl, rfl⟩ := Prod.mk.inj hhead
    rw [Rep.unique v w hv hw, RepFields.unique fs gs hfs hgs]

end

theorem sameFrom_append (nodes more : List (Node F)) (i : ℕ) :
    SameFrom i nodes (nodes ++ more) := by
  intro j n _ hn
  rw [List.getElem?_append_left (List.getElem?_eq_some_iff.1 hn).1, hn]

/-! ## One step of the machine -/

variable {s t rest : Text} {fuel depth node : ℕ} {lone l : Bool} {stack : List Frame}
  {v : Json (List ℕ) (Num F)} {e : JErr}

variable (Fl) in
/-- Go on with the fuel that is left. -/
def resume (fuel : ℕ) (r : Reading (Next F)) : Reading (List (Node F) × ℕ) :=
  r.bind fun next rest =>
    match next with
    | .root nodes child => .done (nodes, child) rest
    | .value nodes stack => value Fl fuel nodes stack rest

theorem value_scalar {c : Char} (h1 : c ≠ '{') (h2 : c ≠ '[') :
    value Fl (fuel + 1) nodes stack (c :: t) = (scalar Fl (c :: t)).bind fun node next =>
      resume Fl fuel (close (nodes ++ [node]) stack nodes.length next) := by
  rw [value, if_neg h1, if_neg h2]
  rfl

theorem value_obj (h : stack.length < jsonMaxDepth) :
    value Fl (fuel + 1) nodes stack ('{' :: t) =
      if (ws t).head? = some '}' then
        resume Fl fuel (close (nodes ++ [.obj []]) stack nodes.length (ws t).tail)
      else (key (ws t)).bind fun k after =>
        value Fl fuel (nodes ++ [.obj []]) (.obj nodes.length k :: stack) after := by
  rw [value, if_pos rfl, if_neg (by omega)]
  rfl

theorem value_arr (h : stack.length < jsonMaxDepth) :
    value Fl (fuel + 1) nodes stack ('[' :: t) =
      if (ws t).head? = some ']' then
        resume Fl fuel (close (nodes ++ [.arr []]) stack nodes.length (ws t).tail)
      else value Fl fuel (nodes ++ [.arr []]) (.arr nodes.length :: stack) (ws t) := by
  rw [value, if_neg (by decide), if_pos rfl, if_neg (by omega)]
  rfl

theorem close_arr : close nodes (.arr node :: stack) c t =
    if (ws t).head? = some ']' then close (attach nodes (.arr node) c) stack node (ws t).tail
    else if (ws t).head? ≠ some ',' then .fail (.msg "Expecting ',' delimiter")
    else if (ws (ws t).tail).head? = some ']' then
      .fail (.msg "Illegal trailing comma before end of array")
    else .done (.value (attach nodes (.arr node) c) (.arr node :: stack)) (ws (ws t).tail) := rfl

theorem close_obj {k : List ℕ} : close nodes (.obj node k :: stack) c t =
    if (ws t).head? = some '}' then close (attach nodes (.obj node k) c) stack node (ws t).tail
    else if (ws t).head? ≠ some ',' then .fail (.msg "Expecting ',' delimiter")
    else if (ws (ws t).tail).head? = some '}' then
      .fail (.msg "Illegal trailing comma before end of object")
    else (key (ws (ws t).tail)).bind fun k' after =>
      .done (.value (attach nodes (.obj node k) c) (.obj node k' :: stack)) after := rfl

/-- What an error of the recursive reader is called here. -/
def plain : JErr → JErr
  | .stop => .msg "Expecting value"
  | e => e

theorem normalized_eq {n : NumText} (h : n.Ok) : normalized n.neg n.int = canonInt n.neg n.int := by
  rcases h.int with hz | ⟨c, ds, heq, hc, -⟩
  · rw [hz]
    rfl
  · have hne : c ≠ '0' := by
      rintro rfl
      exact absurd hc.1 (by decide)
    have hzero : c :: ds ≠ ['0'] := fun h => hne (List.cons.inj h).1
    rw [heq, normalized, canonInt, List.dropWhile_cons_of_neg (by simpa using hne),
      if_neg (List.cons_ne_nil c ds), if_neg hzero]

theorem number_done {n : Num F} (h : (points Fl).number s = .done n rest) :
    number Fl s = .done (numNode n) rest := by
  rw [points] at h
  dsimp only at h
  rw [number]
  rcases hn : scanNumber s with _ | ⟨t, u⟩ <;> rw [hn] at h
  · cases h
  · obtain ⟨rfl, rfl⟩ := Reading.done.inj h
    dsimp only
    rw [numOf, normalized_eq (scanNumber_sound hn).1]
    split_ifs <;> rfl

theorem number_fail (h : (points Fl).number s = .fail e) : number Fl s = .fail (plain e) := by
  rw [points] at h
  dsimp only at h
  rw [number]
  rcases hn : scanNumber s with _ | ⟨t, u⟩ <;> rw [hn] at h
  · obtain rfl := Reading.fail.inj h
    rfl
  · cases h

theorem rep_word (w : Word) (nodes : List (Node F)) (i : ℕ)
    (h : nodes[i]? = some (wordNode w)) : Rep nodes i ((points Fl).sense.word w) := by
  cases w <;> exact h

/-- A string, a word or a number that the recursive reader reads is a term of the machine. -/
theorem scalar_done {ch : Char} (h1 : ch ≠ '{') (h2 : ch ≠ '[')
    (h : scanOnce (points Fl) (fuel + 1) depth lone (ch :: t) = .done (v, l) rest) :
    ∃ n, scalar Fl (ch :: t) = .done n rest ∧
      ∀ (nodes : List (Node F)) (i : ℕ), nodes[i]? = some n → Rep nodes i v := by
  by_cases hq : ch = '"'
  · rw [scanOnce, if_pos hq] at h
    obtain ⟨x, t', hx, h⟩ := Reading.bind_eq_done.1 h
    obtain ⟨hv, rfl⟩ := Reading.done.inj h
    obtain ⟨rfl, -⟩ := Prod.mk.inj hv
    rw [scalar, if_pos (by rw [List.head?_cons, hq]), List.tail_cons, string]
    change Reading.map _ (scanString pushPoint [] t) = _ at hx
    rcases hs : scanString pushPoint [] t with ⟨us, t''⟩ | e | _ <;> rw [hs] at hx
    · obtain ⟨rfl, rfl⟩ := Reading.done.inj hx
      exact ⟨.str us, rfl, fun _ _ hn => hn⟩
    · cases hx
    · cases hx
  · rw [scanOnce_other hq h1 h2] at h
    rw [scalar, if_neg (show (ch :: t).head? ≠ some '"' from fun hh => hq (Option.some.inj hh))]
    rcases hw : findWord (ch :: t) with _ | ⟨w, t'⟩
    · rw [scanAtom_number hw] at h
      obtain ⟨n, t', hn, h⟩ := Reading.bind_eq_done.1 h
      obtain ⟨hv, rfl⟩ := Reading.done.inj h
      obtain ⟨rfl, -⟩ := Prod.mk.inj hv
      exact ⟨numNode n, number_done hn, fun _ _ hn => hn⟩
    · rw [scanAtom_word hw] at h
      obtain ⟨hv, rfl⟩ := Reading.done.inj h
      obtain ⟨rfl, -⟩ := Prod.mk.inj hv
      exact ⟨wordNode w, rfl, rep_word w⟩

theorem scalar_fail {ch : Char} (h1 : ch ≠ '{') (h2 : ch ≠ '[')
    (h : scanOnce (points Fl) (fuel + 1) depth lone (ch :: t) = .fail e) :
    scalar Fl (ch :: t) = .fail (plain e) := by
  by_cases hq : ch = '"'
  · rw [scanOnce, if_pos hq] at h
    rcases Reading.bind_eq_fail.1 h with h | ⟨x, t', -, h⟩
    · obtain ⟨m, rfl⟩ := (points_lawful Fl).string_fail _ _ h
      rw [scalar, if_pos (by rw [List.head?_cons, hq]), List.tail_cons, string]
      change Reading.map _ (scanString pushPoint [] t) = _ at h
      rcases hs : scanString pushPoint [] t with ⟨us, t''⟩ | e | _ <;> rw [hs] at h
      · cases h
      · obtain rfl := Reading.fail.inj h
        rfl
      · cases h
    · cases h
  · rw [scanOnce_other hq h1 h2] at h
    rw [scalar, if_neg (show (ch :: t).head? ≠ some '"' from fun hh => hq (Option.some.inj hh))]
    rcases hw : findWord (ch :: t) with _ | ⟨w, t'⟩
    · rw [scanAtom_number hw] at h
      rcases Reading.bind_eq_fail.1 h with h | ⟨n, t', -, h⟩
      · exact number_fail h
      · cases h
    · rw [scanAtom_word hw] at h
      cases h

/-- The recursive reader of fields starts with the key as the machine does. -/
theorem members_eq (d : List (List ℕ × Json (List ℕ) (Num F))) :
    members (points Fl) (fuel + 1) depth lone d s = (key s).bind fun k t =>
      (scanOnce (points Fl) fuel depth (lone || k.any isSurrogate) t).bind fun x t =>
        if (ws t).head? = some '}' then .done (.obj (Json.insert d k x.1), x.2) (ws t).tail
        else if (ws t).head? ≠ some ',' then .fail (.msg "Expecting ',' delimiter")
        else if (ws (ws t).tail).head? = some '}' then
          .fail (.msg "Illegal trailing comma before end of object")
        else members (points Fl) fuel depth x.2 (Json.insert d k x.1) (ws (ws t).tail) := by
  rw [members, key]
  split_ifs with hq
  · rfl
  · change Reading.bind (Reading.map _ (scanString pushPoint [] s.tail)) _ = _
    rw [string]
    rcases scanString pushPoint [] s.tail with ⟨us, t⟩ | e | _
    · rw [Reading.map, Reading.bind_done, Reading.bind_done]
      dsimp only
      split_ifs with hcolon
      · rfl
      · rfl
    · rfl
    · rfl

theorem length_key {k : List ℕ} (h : key s = .done k t) : t.length < s.length := by
  rw [key] at h
  split_ifs at h with hq
  obtain ⟨us, u, hu, h⟩ := Reading.bind_eq_done.1 h
  split_ifs at h with hcolon
  obtain ⟨rfl, rfl⟩ := Reading.done.inj h
  obtain ⟨ps, -, htail, -⟩ := scanString_sound _ _ _ _ le_rfl hu
  have hs := congrArg List.length htail
  have hlen := congrArg List.length (eq_cons_of_head? (not_not.1 hq))
  have hpast := length_past u
  simp only [stringText, List.length_append, List.length_cons] at hs hlen
  omega

theorem length_comma {ch : Char} (h : (ws t).head? = some ch) :
    (ws (ws t).tail).length < t.length := by
  have h1 := (ws_suffix t).length_le
  have h2 := (ws_suffix (ws t).tail).length_le
  have h3 := congrArg List.length (eq_cons_of_head? h)
  rw [List.length_cons] at h3
  omega

/-! ## The machine follows the reader -/

/-- The nodes but one are kept. -/
def SameBut (node : ℕ) (nodes nodes' : List (Node F)) : Prop :=
  ∀ j n, j ≠ node → nodes[j]? = some n → nodes'[j]? = some n

theorem SameBut.from (h : SameBut node nodes nodes') : SameFrom (node + 1) nodes nodes' :=
  fun j n hj hn => h j n (by omega) hn

theorem SameBut.trans (h : SameBut node nodes nodes') (h' : SameBut node nodes' nodes₂) :
    SameBut node nodes nodes₂ :=
  fun j n hj hn => h' j n hj (h j n hj hn)

theorem SameFrom.but (h : SameFrom 0 nodes nodes') : SameBut node nodes nodes' :=
  fun j n _ hn => h j n (Nat.zero_le j) hn

/-- A container that was added and then changed leaves what was there. -/
theorem SameBut.append {n : Node F} (h : SameBut nodes.length (nodes ++ [n]) nodes') :
    SameFrom 0 nodes nodes' := by
  intro j m _ hm
  have hlt := (List.getElem?_eq_some_iff.1 hm).1
  exact h j m (by omega) (sameFrom_append nodes [n] 0 j m (Nat.zero_le j) hm)

theorem attach_same (nodes : List (Node F)) (frame : Frame) (c : ℕ) :
    SameBut frame.node nodes (attach nodes frame c) := by
  intro j n hj hn
  rw [attach, List.getElem?_modify_ne _ nodes hj.symm, hn]

theorem attach_node (frame : Frame) {n : Node F} (h : nodes[frame.node]? = some n) (c : ℕ) :
    (attach nodes frame c)[frame.node]? = some (n.add frame c) := by
  rw [attach, List.getElem?_modify_eq, h]
  rfl

/-- Where the recursive reader reads a value the machine comes to its end, with the value in
the arena. -/
def ScanRuns (Fl : Floats F) (fuel : ℕ) : Prop :=
  ∀ {depth lone s v l rest} (nodes : List (Node F)) {stack : List Frame},
    scanOnce (points Fl) fuel depth lone s = .done (v, l) rest → stack.length = depth →
    ∃ k nodes', k + rest.length ≤ s.length ∧ SameFrom 0 nodes nodes' ∧
      Rep nodes' nodes.length v ∧
      ∀ f, value Fl (k + f) nodes stack s = resume Fl f (close nodes' stack nodes.length rest)

/-- The same inside an array, from an element on. -/
def ElementsRun (Fl : Floats F) (fuel : ℕ) : Prop :=
  ∀ {depth lone a s v l rest node items} {nodes : List (Node F)} {stack : List Frame},
    elements (points Fl) fuel depth lone a s = .done (v, l) rest → stack.length + 1 = depth →
    nodes[node]? = some (.arr items) → RepElems nodes node items a →
    ∃ k nodes', k + rest.length ≤ s.length ∧ SameBut node nodes nodes' ∧ Rep nodes' node v ∧
      ∀ f, value Fl (k + f) nodes (.arr node :: stack) s =
        resume Fl f (close nodes' stack node rest)

/-- The same inside an object, from a key on. -/
def MembersRun (Fl : Floats F) (fuel : ℕ) : Prop :=
  ∀ {depth lone d s v l rest node items} {nodes : List (Node F)} {stack : List Frame},
    members (points Fl) fuel depth lone d s = .done (v, l) rest → stack.length + 1 = depth →
    nodes[node]? = some (.obj items) → RepFields nodes node items d →
    ∃ k nodes', k + rest.length ≤ s.length ∧ SameBut node nodes nodes' ∧ Rep nodes' node v ∧
      ∀ f, ((key s).bind fun key after => value Fl (k + f) nodes (.obj node key :: stack) after) =
        resume Fl f (close nodes' stack node rest)

theorem ScanRuns.succ (ihe : ElementsRun Fl fuel) (ihm : MembersRun Fl fuel) :
    ScanRuns Fl (fuel + 1) := by
  intro depth lone s v l rest nodes stack h hdepth
  have hlast (n : Node F) : (nodes ++ [n])[nodes.length]? = some n := by
    rw [List.getElem?_append_right le_rfl, Nat.sub_self]
    rfl
  cases s with
  | nil =>
    rw [scanOnce] at h
    cases h
  | cons c t =>
    have hws := (ws_suffix t).length_le
    by_cases hb : c = '{'
    · rw [hb, scanOnce, if_neg (by decide), if_pos rfl] at h
      split_ifs at h with hd hemp
      · obtain ⟨hv, rfl⟩ := Reading.done.inj h
        obtain ⟨rfl, -⟩ := Prod.mk.inj hv
        refine ⟨1, nodes ++ [.obj []], ?_, sameFrom_append _ _ _, ⟨[], hlast _, rfl⟩, fun f => ?_⟩
        · have hlen := congrArg List.length (eq_cons_of_head? hemp)
          simp only [List.length_cons] at hlen ⊢
          omega
        · rw [hb, Nat.add_comm, value_obj (by rw [hdepth]; exact not_le.1 hd), if_pos hemp]
      · obtain ⟨k, nodes', hk, hsame, hrep, hrun⟩ := ihm h (by rw [hdepth]) (hlast _) rfl
        refine ⟨k + 1, nodes', ?_, hsame.append, hrep, fun f => ?_⟩
        · rw [List.length_cons]
          omega
        · rw [hb, show k + 1 + f = k + f + 1 by omega,
            value_obj (by rw [hdepth]; exact not_le.1 hd), if_neg hemp]
          exact hrun f
    by_cases ha : c = '['
    · rw [ha, scanOnce, if_neg (by decide), if_neg (by decide), if_pos rfl] at h
      split_ifs at h with hd hemp
      · obtain ⟨hv, rfl⟩ := Reading.done.inj h
        obtain ⟨rfl, -⟩ := Prod.mk.inj hv
        refine ⟨1, nodes ++ [.arr []], ?_, sameFrom_append _ _ _, ⟨[], hlast _, rfl⟩, fun f => ?_⟩
        · have hlen := congrArg List.length (eq_cons_of_head? hemp)
          simp only [List.length_cons] at hlen ⊢
          omega
        · rw [ha, Nat.add_comm, value_arr (by rw [hdepth]; exact not_le.1 hd), if_pos hemp]
      · obtain ⟨k, nodes', hk, hsame, hrep, hrun⟩ := ihe h (by rw [hdepth]) (hlast _) rfl
        refine ⟨k + 1, nodes', ?_, hsame.append, hrep, fun f => ?_⟩
        · rw [List.length_cons]
          omega
        · rw [ha, show k + 1 + f = k + f + 1 by omega,
            value_arr (by rw [hdepth]; exact not_le.1 hd), if_neg hemp]
          exact hrun f
    · obtain ⟨n, hn, hrep⟩ := scalar_done hb ha h
      obtain ⟨y, hy, -, hs, -, -⟩ := scanOnce_sound (points_lawful Fl) h
      refine ⟨1, nodes ++ [n], ?_, sameFrom_append _ _ _, hrep _ _ (hlast n), fun f => ?_⟩
      · obtain ⟨x, w, htext, -⟩ := text_start hy
        rw [hs, htext, List.length_append, List.length_cons]
        omega
      · rw [Nat.add_comm, value_scalar hb ha, hn, Reading.bind_done]

theorem ElementsRun.succ (ihv : ScanRuns Fl fuel) (ihe : ElementsRun Fl fuel) :
    ElementsRun Fl (fuel + 1) := by
  intro depth lone a s v l rest node items nodes stack h hdepth hnode hitems
  have hlength : (Frame.arr node :: stack).length = depth := hdepth
  rw [elements] at h
  obtain ⟨⟨x, l'⟩, t, hx, h⟩ := Reading.bind_eq_done.1 h
  obtain ⟨k, nodes₁, hk, hsame, hrep, hrun⟩ := ihv nodes hx hlength
  have hlt := (List.getElem?_eq_some_iff.1 hnode).1
  -- the element is attached to the array
  have hsame₂ : SameBut node nodes₁ (attach nodes₁ (.arr node) nodes.length) :=
    attach_same nodes₁ (.arr node) _
  have hnode₂ : (attach nodes₁ (.arr node) nodes.length)[node]? =
      some (.arr (items ++ [nodes.length])) :=
    attach_node (.arr node) (hsame node _ (Nat.zero_le _) hnode) _
  have hitems₂ : RepElems (attach nodes₁ (.arr node) nodes.length) node (items ++ [nodes.length])
      (a ++ [x]) :=
    RepElems.mono _ hsame₂.from
      (RepElems.snoc hlt hrep (RepElems.mono _ (hsame.mono (Nat.zero_le _)) hitems))
  split_ifs at h with hclose hcomma htrail
  · obtain ⟨hv, rfl⟩ := Reading.done.inj h
    obtain ⟨rfl, -⟩ := Prod.mk.inj hv
    refine ⟨k, _, ?_, hsame.but.trans hsame₂, ⟨_, hnode₂, hitems₂⟩, fun f => ?_⟩
    · have hlen := congrArg List.length (eq_cons_of_head? hclose)
      have hws := (ws_suffix t).length_le
      rw [List.length_cons] at hlen
      omega
    · rw [hrun f, close_arr, if_pos hclose]
  · obtain ⟨k', nodes', hk', hsame', hrep', hrun'⟩ := ihe h hdepth hnode₂ hitems₂
    refine ⟨k + k', nodes', ?_, hsame.but.trans (hsame₂.trans hsame'), hrep', fun f => ?_⟩
    · have hlen := length_comma (not_not.1 hcomma)
      omega
    · rw [Nat.add_assoc, hrun, close_arr, if_neg hclose, if_neg hcomma, if_neg htrail]
      exact hrun' f

theorem MembersRun.succ (ihv : ScanRuns Fl fuel) (ihm : MembersRun Fl fuel) :
    MembersRun Fl (fuel + 1) := by
  intro depth lone d s v l rest node items nodes stack h hdepth hnode hitems
  have hlength (q : List ℕ) : (Frame.obj node q :: stack).length = depth := hdepth
  rw [members_eq] at h
  obtain ⟨q, u, hkey, h⟩ := Reading.bind_eq_done.1 h
  obtain ⟨⟨x, l'⟩, t, hx, h⟩ := Reading.bind_eq_done.1 h
  obtain ⟨k, nodes₁, hk, hsame, hrep, hrun⟩ := ihv nodes hx (hlength q)
  have hlt := (List.getElem?_eq_some_iff.1 hnode).1
  have hu := length_key hkey
  -- the value is attached to the object under its key
  have hsame₂ : SameBut node nodes₁ (attach nodes₁ (.obj node q) nodes.length) :=
    attach_same nodes₁ (.obj node q) _
  have hnode₂ : (attach nodes₁ (.obj node q) nodes.length)[node]? =
      some (.obj (setKey items q nodes.length)) :=
    attach_node (.obj node q) (hsame node _ (Nat.zero_le _) hnode) _
  have hitems₂ : RepFields (attach nodes₁ (.obj node q) nodes.length) node
      (setKey items q nodes.length) (Json.insert d q x) :=
    RepFields.mono _ hsame₂.from
      (RepFields.set hlt hrep (RepFields.mono _ (hsame.mono (Nat.zero_le _)) hitems))
  split_ifs at h with hclose hcomma htrail
  · obtain ⟨hv, rfl⟩ := Reading.done.inj h
    obtain ⟨rfl, -⟩ := Prod.mk.inj hv
    refine ⟨k, _, ?_, hsame.but.trans hsame₂, ⟨_, hnode₂, hitems₂⟩, fun f => ?_⟩
    · have hlen := congrArg List.length (eq_cons_of_head? hclose)
      have hws := (ws_suffix t).length_le
      rw [List.length_cons] at hlen
      omega
    · rw [hkey, Reading.bind_done, hrun f, close_obj, if_pos hclose]
  · obtain ⟨k', nodes', hk', hsame', hrep', hrun'⟩ := ihm h hdepth hnode₂ hitems₂
    refine ⟨k + k', nodes', ?_, hsame.but.trans (hsame₂.trans hsame'), hrep', fun f => ?_⟩
    · have hlen := length_comma (not_not.1 hcomma)
      omega
    · rw [hkey, Reading.bind_done, Nat.add_assoc, hrun, close_obj, if_neg hclose, if_neg hcomma,
        if_neg htrail, ← hrun' f, resume]
      cases key (ws (ws t).tail) <;> rfl

theorem runs : ∀ fuel, ScanRuns Fl fuel ∧ ElementsRun Fl fuel ∧ MembersRun Fl fuel
  | 0 => by
    refine ⟨?_, ?_, ?_⟩
    · intro depth lone s v l rest nodes stack h
      rw [scanOnce] at h
      cases h
    · intro depth lone a s v l rest node items nodes stack h
      rw [elements] at h
      cases h
    · intro depth lone d s v l rest node items nodes stack h
      rw [members] at h
      cases h
  | fuel + 1 => by
    obtain ⟨ihv, ihe, ihm⟩ := @runs fuel
    exact ⟨ScanRuns.succ ihe ihm, ElementsRun.succ ihv ihe, MembersRun.succ ihv ihm⟩

/-! ## The machine fails with the reader -/

theorem key_fail (h : key s = .fail e) : ∃ m, e = .msg m := by
  rw [key] at h
  split_ifs at h with hq
  · exact ⟨_, (Reading.fail.inj h).symm⟩
  · rcases Reading.bind_eq_fail.1 h with h | ⟨k, t, -, h⟩
    · exact (scanString_fail _ _ _ le_rfl).2 _ h
    · split_ifs at h
      exact ⟨_, (Reading.fail.inj h).symm⟩

/-- Where the recursive reader fails at a value the machine stops with the same error. -/
def ScanFails (Fl : Floats F) (fuel : ℕ) : Prop :=
  ∀ {depth lone s e} (nodes : List (Node F)) {stack : List Frame},
    scanOnce (points Fl) fuel depth lone s = .fail e → e.fatal = false → stack.length = depth →
    ∃ k, k ≤ s.length + 1 ∧ ∀ f, value Fl (k + f) nodes stack s = .fail (plain e)

/-- The same inside an array. -/
def ElementsFail (Fl : Floats F) (fuel : ℕ) : Prop :=
  ∀ {depth lone a s e} (nodes : List (Node F)) (node : ℕ) {stack : List Frame},
    elements (points Fl) fuel depth lone a s = .fail e → e.fatal = false →
    stack.length + 1 = depth →
    ∃ k, k ≤ s.length + 1 ∧
      ∀ f, value Fl (k + f) nodes (.arr node :: stack) s = .fail (plain e)

/-- The same inside an object. -/
def MembersFail (Fl : Floats F) (fuel : ℕ) : Prop :=
  ∀ {depth lone d s e} (nodes : List (Node F)) (node : ℕ) {stack : List Frame},
    members (points Fl) fuel depth lone d s = .fail e → e.fatal = false →
    stack.length + 1 = depth →
    ∃ k, k ≤ s.length + 1 ∧
      ∀ f, ((key s).bind fun key after => value Fl (k + f) nodes (.obj node key :: stack) after) =
        .fail (plain e)

theorem ScanFails.succ (ihe : ElementsFail Fl fuel) (ihm : MembersFail Fl fuel) :
    ScanFails Fl (fuel + 1) := by
  intro depth lone s e nodes stack h hfatal hdepth
  cases s with
  | nil =>
    rw [scanOnce] at h
    obtain rfl := Reading.fail.inj h
    refine ⟨1, le_rfl, fun f => ?_⟩
    rw [Nat.add_comm, value]
    rfl
  | cons c t =>
    have hws := (ws_suffix t).length_le
    have hlen : (c :: t).length = t.length + 1 := rfl
    by_cases hb : c = '{'
    · rw [hb, scanOnce, if_neg (by decide), if_pos rfl] at h
      split_ifs at h with hd hemp
      · obtain rfl := Reading.fail.inj h
        cases hfatal
      · obtain ⟨k, hk, hrun⟩ := ihm (nodes ++ [.obj []]) nodes.length h hfatal (by rw [hdepth])
        refine ⟨k + 1, by omega, fun f => ?_⟩
        rw [hb, show k + 1 + f = k + f + 1 by omega,
          value_obj (by rw [hdepth]; exact not_le.1 hd), if_neg hemp]
        exact hrun f
    by_cases ha : c = '['
    · rw [ha, scanOnce, if_neg (by decide), if_neg (by decide), if_pos rfl] at h
      split_ifs at h with hd hemp
      · obtain rfl := Reading.fail.inj h
        cases hfatal
      · obtain ⟨k, hk, hrun⟩ := ihe (nodes ++ [.arr []]) nodes.length h hfatal (by rw [hdepth])
        refine ⟨k + 1, by omega, fun f => ?_⟩
        rw [ha, show k + 1 + f = k + f + 1 by omega,
          value_arr (by rw [hdepth]; exact not_le.1 hd), if_neg hemp]
        exact hrun f
    · refine ⟨1, by omega, fun f => ?_⟩
      rw [Nat.add_comm, value_scalar hb ha, scalar_fail hb ha h]
      rfl

theorem ElementsFail.succ (ihv : ScanFails Fl fuel) (ihe : ElementsFail Fl fuel) :
    ElementsFail Fl (fuel + 1) := by
  intro depth lone a s e nodes node stack h hfatal hdepth
  have hlength : (Frame.arr node :: stack).length = depth := hdepth
  rw [elements] at h
  rcases Reading.bind_eq_fail.1 h with hx | ⟨⟨x, l⟩, t, hx, h⟩
  · exact ihv nodes hx hfatal hlength
  obtain ⟨k, nodes₁, hk, -, -, hrun⟩ := (runs fuel).1 nodes hx hlength
  split_ifs at h with hclose hcomma htrail
  · obtain rfl := Reading.fail.inj h
    refine ⟨k, by omega, fun f => ?_⟩
    rw [hrun, close_arr, if_neg hclose, if_pos hcomma]
    rfl
  · obtain rfl := Reading.fail.inj h
    refine ⟨k, by omega, fun f => ?_⟩
    rw [hrun, close_arr, if_neg hclose, if_neg hcomma, if_pos htrail]
    rfl
  · obtain ⟨k', hk', hrun'⟩ :=
      ihe (attach nodes₁ (.arr node) nodes.length) node h hfatal hdepth
    have hlen := length_comma (not_not.1 hcomma)
    refine ⟨k + k', by omega, fun f => ?_⟩
    rw [Nat.add_assoc, hrun, close_arr, if_neg hclose, if_neg hcomma, if_neg htrail]
    exact hrun' f

theorem MembersFail.succ (ihv : ScanFails Fl fuel) (ihm : MembersFail Fl fuel) :
    MembersFail Fl (fuel + 1) := by
  intro depth lone d s e nodes node stack h hfatal hdepth
  have hlength (q : List ℕ) : (Frame.obj node q :: stack).length = depth := hdepth
  rw [members_eq] at h
  rcases Reading.bind_eq_fail.1 h with hkey | ⟨q, u, hkey, h⟩
  · obtain ⟨m, rfl⟩ := key_fail hkey
    refine ⟨0, Nat.zero_le _, fun f => ?_⟩
    rw [hkey]
    rfl
  have hu := length_key hkey
  rcases Reading.bind_eq_fail.1 h with hx | ⟨⟨x, l⟩, t, hx, h⟩
  · obtain ⟨k, hk, hrun⟩ := ihv nodes hx hfatal (hlength q)
    refine ⟨k, by omega, fun f => ?_⟩
    rw [hkey, Reading.bind_done, hrun]
  obtain ⟨k, nodes₁, hk, -, -, hrun⟩ := (runs fuel).1 nodes hx (hlength q)
  split_ifs at h with hclose hcomma htrail
  · obtain rfl := Reading.fail.inj h
    refine ⟨k, by omega, fun f => ?_⟩
    rw [hkey, Reading.bind_done, hrun, close_obj, if_neg hclose, if_pos hcomma]
    rfl
  · obtain rfl := Reading.fail.inj h
    refine ⟨k, by omega, fun f => ?_⟩
    rw [hkey, Reading.bind_done, hrun, close_obj, if_neg hclose, if_neg hcomma, if_pos htrail]
    rfl
  · obtain ⟨k', hk', hrun'⟩ :=
      ihm (attach nodes₁ (.obj node q) nodes.length) node h hfatal hdepth
    have hlen := length_comma (not_not.1 hcomma)
    refine ⟨k + k', by omega, fun f => ?_⟩
    rw [hkey, Reading.bind_done, Nat.add_assoc, hrun, close_obj, if_neg hclose, if_neg hcomma,
      if_neg htrail, ← hrun' f, resume]
    cases key (ws (ws t).tail) <;> rfl

theorem fails : ∀ fuel, ScanFails Fl fuel ∧ ElementsFail Fl fuel ∧ MembersFail Fl fuel
  | 0 => by
    refine ⟨?_, ?_, ?_⟩
    · intro depth lone s e nodes stack h
      rw [scanOnce] at h
      cases h
    · intro depth lone a s e nodes node stack h
      rw [elements] at h
      cases h
    · intro depth lone d s e nodes node stack h
      rw [members] at h
      cases h
  | fuel + 1 => by
    obtain ⟨ihv, ihe, ihm⟩ := @fails fuel
    exact ⟨ScanFails.succ ihe ihm, ElementsFail.succ ihv ihe, MembersFail.succ ihv ihm⟩

end Machine

end EngineConsole.JsonArena
