import EngineConsole.JsonSyntax

/-!
# A recursive reader of JSON

The scanner of Python's `json` module as a family : how strings and numbers are read is a
parameter (`Lexis`), and so is how deep it goes before it gives up. The text that is left
stands for the position. The scanner notes when a string held half of a surrogate pair alone.

For a lexis with the laws of one (`Lexis.Lawful`) the reader is exact. What it reads is the
text of a tree of the grammar and the value is that of the tree (`scanOnce_sound`), and every
tree of the grammar that is not too deep is read (`scanOnce_text`). It always comes to an end
(`scanOnce_ends`), it gives up on a text only when the brackets of the text nest too deep
(`scanOnce_tame`), and two of the family that differ only in what they make of strings and
numbers stop at the same places with the same errors (`scanOnce_alike`).
-/

set_option linter.unusedSectionVars false

namespace EngineConsole.JsonReader

open JsonSyntax

/-! ## Answers -/

/-- Why nothing was read. -/
inductive JErr where
  /-- no value starts here -/
  | stop
  /-- a malformed text -/
  | msg (m : String)
  /-- an integer of too many digits -/
  | limit (n : ℕ)
  /-- nested too deep -/
  | depth (m : String)
  deriving DecidableEq

/-- What was read and what is left, an error, or no fuel. -/
inductive Reading (α : Type*) where
  | done (a : α) (rest : Text)
  | fail (e : JErr)
  | more
  deriving DecidableEq

namespace Reading

variable {α β γ : Type*}

/-- Read on. -/
def bind : Reading α → (α → Text → Reading β) → Reading β
  | .done a rest, f => f a rest
  | .fail e, _ => .fail e
  | .more, _ => .more

/-- The same answer with another value. -/
def map (g : α → β) : Reading α → Reading β
  | .done a rest => .done (g a) rest
  | .fail e => .fail e
  | .more => .more

@[simp] theorem bind_done (a : α) (rest : Text) (f : α → Text → Reading β) :
    (Reading.done a rest).bind f = f a rest := rfl

@[simp] theorem bind_fail (e : JErr) (f : α → Text → Reading β) :
    (Reading.fail e).bind f = .fail e := rfl

@[simp] theorem bind_more (f : α → Text → Reading β) : Reading.more.bind f = .more := rfl

theorem bind_eq_done {r : Reading α} {f : α → Text → Reading β} {b : β} {rest : Text} :
    r.bind f = .done b rest ↔ ∃ a t, r = .done a t ∧ f a t = .done b rest := by
  cases r <;> simp

theorem bind_eq_fail {r : Reading α} {f : α → Text → Reading β} {e : JErr} :
    r.bind f = .fail e ↔ r = .fail e ∨ ∃ a t, r = .done a t ∧ f a t = .fail e := by
  cases r <;> simp

theorem bind_eq_more {r : Reading α} {f : α → Text → Reading β} :
    r.bind f = .more ↔ r = .more ∨ ∃ a t, r = .done a t ∧ f a t = .more := by
  cases r <;> simp

end Reading

/-! ## The reader -/

/-- How strings and numbers are read, what they stand for, and how deep to go. A string is
read from after its opening quote; the flag tells that it held half of a pair alone. -/
structure Lexis (S N : Type*) where
  sense : Sense S N
  string : Text → Reading (S × Bool)
  number : Text → Reading N
  maxDepth : ℕ

/-- Every word. -/
def words : List Word :=
  [.null, .true, .false, .nan, .infinity, .negInfinity]

/-- The word at the start of a text and what is left. -/
def findWord (s : Text) : Option (Word × Text) :=
  (words.find? fun w => w.text.isPrefixOf s).map fun w => (w, s.drop w.text.length)

variable {S N : Type*} [DecidableEq S]

/-- A word or a number at the start of the text. -/
def scanAtom (L : Lexis S N) (lone : Bool) (s : Text) : Reading (Json S N × Bool) :=
  match findWord s with
  | some (w, rest) => .done (L.sense.word w, lone) rest
  | none => (L.number s).bind fun n rest => .done (.num n, lone) rest

mutual

/-- A value at the start of the text. -/
def scanOnce (L : Lexis S N) : ℕ → ℕ → Bool → Text → Reading (Json S N × Bool)
  | 0, _, _, _ => .more
  | _ + 1, _, _, [] => .fail .stop
  | fuel + 1, depth, lone, c :: t =>
    if c = '"' then (L.string t).bind fun x rest => .done (.str x.1, lone || x.2) rest
    else if c = '{' then
      if L.maxDepth ≤ depth then
        .fail (.depth
          "maximum recursion depth exceeded while decoding a JSON object from a unicode string")
      else if (ws t).head? = some '}' then .done (.obj [], lone) (ws t).tail
      else members L fuel (depth + 1) lone [] (ws t)
    else if c = '[' then
      if L.maxDepth ≤ depth then
        .fail (.depth
          "maximum recursion depth exceeded while decoding a JSON array from a unicode string")
      else if (ws t).head? = some ']' then .done (.arr [], lone) (ws t).tail
      else elements L fuel (depth + 1) lone [] (ws t)
    else scanAtom L lone (c :: t)

/-- The fields from here on, after the fields `d`. -/
def members (L : Lexis S N) :
    ℕ → ℕ → Bool → List (S × Json S N) → Text → Reading (Json S N × Bool)
  | 0, _, _, _, _ => .more
  | fuel + 1, depth, lone, d, s =>
    if s.head? ≠ some '"' then
      .fail (.msg "Expecting property name enclosed in double quotes")
    else
      (L.string s.tail).bind fun key t =>
        if (ws t).head? ≠ some ':' then .fail (.msg "Expecting ':' delimiter")
        else
          (scanOnce L fuel depth (lone || key.2) (ws (ws t).tail)).bind fun v t =>
            if (ws t).head? = some '}' then
              .done (.obj (Json.insert d key.1 v.1), v.2) (ws t).tail
            else if (ws t).head? ≠ some ',' then .fail (.msg "Expecting ',' delimiter")
            else if (ws (ws t).tail).head? = some '}' then
              .fail (.msg "Illegal trailing comma before end of object")
            else members L fuel depth v.2 (Json.insert d key.1 v.1) (ws (ws t).tail)

/-- The elements from here on, after the elements `a`. -/
def elements (L : Lexis S N) :
    ℕ → ℕ → Bool → List (Json S N) → Text → Reading (Json S N × Bool)
  | 0, _, _, _, _ => .more
  | fuel + 1, depth, lone, a, s =>
    (scanOnce L fuel depth lone s).bind fun v t =>
      if (ws t).head? = some ']' then .done (.arr (a ++ [v.1]), v.2) (ws t).tail
      else if (ws t).head? ≠ some ',' then .fail (.msg "Expecting ',' delimiter")
      else if (ws (ws t).tail).head? = some ']' then
        .fail (.msg "Illegal trailing comma before end of array")
      else elements L fuel depth v.2 (a ++ [v.1]) (ws (ws t).tail)

end

/-- Fuel that is enough for a text. -/
def fuelFor (s : Text) : ℕ :=
  2 * s.length + 1

/-! ## The laws of a lexis -/

/-- Strings and numbers are read as the grammar has them, and just the numbers with `P`. -/
structure Lexis.Lawful (L : Lexis S N) (P : NumText → Prop) : Prop where
  string_sound : ∀ s x rest, L.string s = .done x rest →
    ∃ ps, PiecesOk ps ∧ s = piecesText ps ++ '"' :: rest ∧ x = (L.sense.str ps, unpaired ps)
  number_sound : ∀ s n rest, L.number s = .done n rest →
    ∃ t : NumText, t.Ok ∧ P t ∧ s = t.text ++ rest ∧ n = L.sense.num t
  string_text : ∀ ps rest, PiecesOk ps →
    L.string (piecesText ps ++ '"' :: rest) = .done (L.sense.str ps, unpaired ps) rest
  number_text : ∀ (t : NumText) rest, t.Ok → P t → Follows rest →
    L.number (t.text ++ rest) = .done (L.sense.num t) rest
  string_fail : ∀ s e, L.string s = .fail e → ∃ m, e = .msg m
  string_ends : ∀ s, L.string s ≠ .more
  number_ends : ∀ s, L.number s ≠ .more

variable {L : Lexis S N} {P : NumText → Prop} {s t rest : Text} {fuel depth : ℕ} {lone : Bool}

/-! ## White space and words -/

theorem ws_split (s : Text) : ∃ p, Space p ∧ s = p ++ ws s :=
  ⟨s.takeWhile isWs, fun _ hc => List.mem_takeWhile_imp hc,
    (List.takeWhile_append_dropWhile).symm⟩

theorem ws_space {p : Text} (h : Space p) (s : Text) : ws (p ++ s) = ws s := by
  induction p with
  | nil => rfl
  | cons c p ih =>
    rw [List.cons_append, ws, List.dropWhile_cons_of_pos (h c List.mem_cons_self)]
    exact ih fun x hx => h x (List.mem_cons_of_mem _ hx)

theorem ws_of_not {c : Char} (h : isWs c = false) (s : Text) : ws (c :: s) = c :: s :=
  List.dropWhile_cons_of_neg (by simp [h])

theorem ws_space_cons {p : Text} (h : Space p) {c : Char} (hc : isWs c = false) (s : Text) :
    ws (p ++ c :: s) = c :: s := by
  rw [ws_space h, ws_of_not hc]

theorem eq_cons_of_head? {c : Char} (h : s.head? = some c) : s = c :: s.tail := by
  cases s with
  | nil => cases h
  | cons x s =>
    rw [List.head?_cons, Option.some.injEq] at h
    rw [h, List.tail_cons]

theorem isPrefixOf_self_append (p s : Text) : p.isPrefixOf (p ++ s) = true :=
  List.isPrefixOf_iff_prefix.2 (List.prefix_append p s)

theorem findWord_sound {w : Word} (h : findWord s = some (w, rest)) : s = w.text ++ rest := by
  obtain ⟨w', hw, heq⟩ := Option.map_eq_some_iff.1 h
  obtain ⟨rfl, rfl⟩ := Prod.mk.injEq .. ▸ heq
  have hp : w'.text.isPrefixOf s = true := by simpa using List.find?_some hw
  exact (List.prefix_iff_eq_append.1 (List.isPrefixOf_iff_prefix.1 hp)).symm

theorem findWord_text (w : Word) (rest : Text) :
    findWord (w.text ++ rest) = some (w, rest) := by
  cases w <;> simp [findWord, words, Word.text, List.find?, List.isPrefixOf]

/-- A number starts with a digit, or with a digit after a minus sign. -/
theorem numText_start {n : NumText} (h : n.Ok) : ∃ c t, c.isDigit = true ∧
    (n.text = c :: t ∨ n.text = '-' :: c :: t) := by
  obtain ⟨c, ds, hint⟩ : ∃ c ds, n.int = c :: ds := by
    rcases h.int with hz | ⟨c, ds, heq, -⟩
    · exact ⟨_, _, hz⟩
    · exact ⟨_, _, heq⟩
  have hc : c.isDigit = true := h.digits c (by rw [hint]; exact List.mem_cons_self)
  refine ⟨c, ds ++ n.fracText ++ n.expText, hc, ?_⟩
  rw [NumText.text, NumText.signText, hint]
  split_ifs
  · exact .inr (by simp)
  · exact .inl (by simp)

theorem findWord_digit {c : Char} (h : c.isDigit = true) (s : Text) :
    findWord (c :: s) = none ∧ findWord ('-' :: c :: s) = none := by
  have hne (x : Char) (hx : x.isDigit = false) : (x == c) = false := by
    rw [beq_eq_false_iff_ne]
    rintro rfl
    rw [h] at hx
    cases hx
  refine ⟨?_, ?_⟩ <;>
    simp [findWord, words, Word.text, List.find?, List.isPrefixOf, hne 'n' (by decide),
      hne 't' (by decide), hne 'f' (by decide), hne 'N' (by decide), hne 'I' (by decide),
      hne '-' (by decide)]

/-- The first character of a word or a number opens nothing. -/
theorem scanOnce_other {c : Char} (h1 : c ≠ '"') (h2 : c ≠ '{') (h3 : c ≠ '[') :
    scanOnce L (fuel + 1) depth lone (c :: t) = scanAtom L lone (c :: t) := by
  rw [scanOnce, if_neg h1, if_neg h2, if_neg h3]

theorem scanAtom_word {w : Word} (h : findWord s = some (w, rest)) :
    scanAtom L lone s = .done (L.sense.word w, lone) rest := by
  rw [scanAtom, h]

theorem scanAtom_number (h : findWord s = none) :
    scanAtom L lone s = (L.number s).bind fun n rest => .done (.num n, lone) rest := by
  rw [scanAtom, h]

/-! ## What is read is in the grammar -/

/-- White space and a character. -/
theorem split_at {c : Char} (h : (ws s).head? = some c) :
    ∃ p, Space p ∧ s = p ++ c :: (ws s).tail := by
  obtain ⟨p, hp, hs⟩ := ws_split s
  exact ⟨p, hp, by rw [← eq_cons_of_head? h]; exact hs⟩

/-- A value that is read is the one of a tree whose text was at the start. -/
def ScanSound (L : Lexis S N) (P : NumText → Prop) (fuel : ℕ) : Prop :=
  ∀ {depth lone s v rest}, scanOnce L fuel depth lone s = .done v rest →
    ∃ t : Value, t.Ok ∧ t.AllNums P ∧ s = t.text ++ rest ∧ v = (t.doc L.sense, lone || t.unpaired) ∧
      (depth ≤ L.maxDepth → depth + t.depth ≤ L.maxDepth)

/-- The same for the fields from the start of one on. -/
def MembersSound (L : Lexis S N) (P : NumText → Prop) (fuel : ℕ) : Prop :=
  ∀ {depth lone d s v rest before}, members L fuel depth lone d s = .done v rest →
    Space before → ∃ fs : Fields, fs.Ok ∧ fs.AllNums P ∧ before ++ s = fs.text ++ '}' :: rest ∧
      v = (.obj (fs.docs L.sense d), lone || fs.unpaired) ∧
      (depth ≤ L.maxDepth → depth + fs.depth ≤ L.maxDepth)

/-- The same for the elements from the start of one on. -/
def ElementsSound (L : Lexis S N) (P : NumText → Prop) (fuel : ℕ) : Prop :=
  ∀ {depth lone a s v rest before}, elements L fuel depth lone a s = .done v rest →
    Space before → ∃ es : Elems, es.Ok ∧ es.AllNums P ∧ before ++ s = es.text ++ ']' :: rest ∧
      v = (.arr (a ++ es.docs L.sense), lone || es.unpaired) ∧
      (depth ≤ L.maxDepth → depth + es.depth ≤ L.maxDepth)

theorem ScanSound.succ (hL : L.Lawful P) (ihm : MembersSound L P fuel)
    (ihe : ElementsSound L P fuel) : ScanSound L P (fuel + 1) := by
  intro depth lone s v rest h
  cases s with
  | nil =>
    rw [scanOnce] at h
    cases h
  | cons c t =>
    rw [scanOnce] at h
    split_ifs at h with hq hb hlim hemp hb hlim hemp
    · obtain ⟨x, t', hx, h⟩ := Reading.bind_eq_done.1 h
      obtain ⟨ps, hps, rfl, rfl⟩ := hL.string_sound _ _ _ hx
      obtain ⟨rfl, rfl⟩ := Reading.done.inj h
      exact ⟨.str ps, hps, trivial, by simp [Value.text, quoted, hq], rfl, by simp [Value.depth]⟩
    · obtain ⟨rfl, rfl⟩ := Reading.done.inj h
      obtain ⟨p, hp, hs⟩ := split_at hemp
      refine ⟨.emptyObj p, hp, trivial, by simpa [Value.text, hb] using hs,
        by simp [Value.doc, Value.unpaired], fun _ => ?_⟩
      rw [Value.depth]
      omega
    · obtain ⟨p, hp, hs⟩ := ws_split t
      obtain ⟨fs, hfs, hnums, htext, rfl, hdeep⟩ := ihm h hp
      refine ⟨.obj fs, hfs, hnums, ?_, by simp [Value.doc, Value.unpaired], fun _ => ?_⟩
      · rw [hb, hs, htext, Value.text]
        simp
      · have hle := hdeep (by omega)
        rw [Value.depth]
        omega
    · obtain ⟨rfl, rfl⟩ := Reading.done.inj h
      obtain ⟨p, hp, hs⟩ := split_at hemp
      refine ⟨.emptyArr p, hp, trivial, by simpa [Value.text, hb] using hs,
        by simp [Value.doc, Value.unpaired], fun _ => ?_⟩
      rw [Value.depth]
      omega
    · obtain ⟨p, hp, hs⟩ := ws_split t
      obtain ⟨es, hes, hnums, htext, rfl, hdeep⟩ := ihe h hp
      refine ⟨.arr es, hes, hnums, ?_, by simp [Value.doc, Value.unpaired], fun _ => ?_⟩
      · rw [hb, hs, htext, Value.text]
        simp
      · have hle := hdeep (by omega)
        rw [Value.depth]
        omega
    · rcases hw : findWord (c :: t) with _ | ⟨w, t'⟩
      · rw [scanAtom_number hw] at h
        obtain ⟨n, t', hn, h⟩ := Reading.bind_eq_done.1 h
        obtain ⟨n, hok, hP, htext, rfl⟩ := hL.number_sound _ _ _ hn
        obtain ⟨rfl, rfl⟩ := Reading.done.inj h
        exact ⟨.num n, hok, hP, htext, by simp [Value.doc, Value.unpaired], by simp [Value.depth]⟩
      · rw [scanAtom_word hw] at h
        obtain ⟨rfl, rfl⟩ := Reading.done.inj h
        exact ⟨.word w, trivial, trivial, findWord_sound hw, by simp [Value.doc, Value.unpaired],
          by simp [Value.depth]⟩

theorem MembersSound.succ (hL : L.Lawful P) (ihv : ScanSound L P fuel)
    (ihm : MembersSound L P fuel) : MembersSound L P (fuel + 1) := by
  intro depth lone d s v rest before h hbefore
  rw [members] at h
  split_ifs at h with hq
  obtain ⟨key, t, hkey, h⟩ := Reading.bind_eq_done.1 h
  split_ifs at h with hcolon
  obtain ⟨x, t', hx, h⟩ := Reading.bind_eq_done.1 h
  obtain ⟨ps, hps, htail, rfl⟩ := hL.string_sound _ _ _ hkey
  obtain ⟨y, hy, hPy, hsy, rfl, hdeep⟩ := ihv hx
  obtain ⟨colon, hc, hcolon⟩ := split_at (not_not.1 hcolon)
  obtain ⟨between, hbt, hsplit⟩ := ws_split (ws t).tail
  have hs : before ++ s = before ++ quoted ps ++ colon ++ ':' :: between ++ y.text ++ t' := by
    calc before ++ s
        = before ++ '"' :: (piecesText ps ++ '"' :: (colon ++ ':' :: (ws t).tail)) := by
          rw [eq_cons_of_head? (not_not.1 hq), htail, ← hcolon]
      _ = before ++ quoted ps ++ colon ++ ':' :: between ++ y.text ++ t' := by
          rw [hsplit, hsy]
          simp [quoted]
  split_ifs at h with hclose hcomma htrail
  · obtain ⟨rfl, rfl⟩ := Reading.done.inj h
    obtain ⟨after, ha, hafter⟩ := split_at hclose
    refine ⟨.last before ps colon between y after, ⟨hbefore, hps, hc, hbt, hy, ha⟩, hPy, ?_,
      by simp [Fields.docs, Fields.unpaired, Bool.or_assoc], by simpa [Fields.depth] using hdeep⟩
    calc before ++ s
        = before ++ quoted ps ++ colon ++ ':' :: between ++ y.text ++
            (after ++ '}' :: (ws t').tail) := by rw [hs, ← hafter]
      _ = _ := by simp [Fields.text]
  · obtain ⟨after, ha, hafter⟩ := split_at (not_not.1 hcomma)
    obtain ⟨p, hp, hsp⟩ := ws_split (ws t').tail
    obtain ⟨fs, hfs, hPfs, htext, rfl, hdeeps⟩ := ihm h hp
    refine ⟨.more before ps colon between y after fs,
      ⟨⟨hbefore, hps, hc, hbt, hy, ha⟩, hfs⟩, ⟨hPy, hPfs⟩, ?_,
      by simp [Fields.docs, Fields.unpaired, Bool.or_assoc], fun hd => ?_⟩
    · calc before ++ s
          = before ++ quoted ps ++ colon ++ ':' :: between ++ y.text ++
              (after ++ ',' :: (ws t').tail) := by rw [hs, ← hafter]
        _ = before ++ quoted ps ++ colon ++ ':' :: between ++ y.text ++
              (after ++ ',' :: (fs.text ++ '}' :: rest)) := by rw [hsp, htext]
        _ = _ := by simp [Fields.text]
    · have hle := hdeep hd
      have hles := hdeeps hd
      rw [Fields.depth]
      omega

theorem ElementsSound.succ (ihv : ScanSound L P fuel) (ihe : ElementsSound L P fuel) :
    ElementsSound L P (fuel + 1) := by
  intro depth lone a s v rest before h hbefore
  rw [elements] at h
  obtain ⟨x, t', hx, h⟩ := Reading.bind_eq_done.1 h
  obtain ⟨y, hy, hPy, hsy, rfl, hdeep⟩ := ihv hx
  split_ifs at h with hclose hcomma htrail
  · obtain ⟨rfl, rfl⟩ := Reading.done.inj h
    obtain ⟨after, ha, hafter⟩ := split_at hclose
    refine ⟨.last before y after, ⟨hbefore, hy, ha⟩, hPy, ?_,
      by simp [Elems.docs, Elems.unpaired], by simpa [Elems.depth] using hdeep⟩
    calc before ++ s = before ++ (y.text ++ (after ++ ']' :: (ws t').tail)) := by
          rw [hsy, ← hafter]
      _ = _ := by simp [Elems.text]
  · obtain ⟨after, ha, hafter⟩ := split_at (not_not.1 hcomma)
    obtain ⟨p, hp, hsp⟩ := ws_split (ws t').tail
    obtain ⟨es, hes, hPes, htext, rfl, hdeeps⟩ := ihe h hp
    refine ⟨.more before y after es, ⟨⟨hbefore, hy, ha⟩, hes⟩, ⟨hPy, hPes⟩, ?_,
      by simp [Elems.docs, Elems.unpaired, Bool.or_assoc], fun hd => ?_⟩
    · calc before ++ s = before ++ (y.text ++ (after ++ ',' :: (ws t').tail)) := by
            rw [hsy, ← hafter]
        _ = before ++ (y.text ++ (after ++ ',' :: (es.text ++ ']' :: rest))) := by
            rw [hsp, htext]
        _ = _ := by simp [Elems.text]
    · have hle := hdeep hd
      have hles := hdeeps hd
      rw [Elems.depth]
      omega

theorem sound (hL : L.Lawful P) :
    ∀ fuel, ScanSound L P fuel ∧ MembersSound L P fuel ∧ ElementsSound L P fuel
  | 0 => by
    refine ⟨?_, ?_, ?_⟩
    · intro depth lone s v rest h
      rw [scanOnce] at h
      cases h
    · intro depth lone d s v rest before h
      rw [members] at h
      cases h
    · intro depth lone a s v rest before h
      rw [elements] at h
      cases h
  | fuel + 1 => by
    obtain ⟨ihv, ihm, ihe⟩ := sound hL fuel
    exact ⟨ScanSound.succ hL ihm ihe, MembersSound.succ hL ihv ihm, ElementsSound.succ ihv ihe⟩

/-- What is read is the text of a tree, and the value is that of the tree. -/
theorem scanOnce_sound (hL : L.Lawful P) {v : Json S N × Bool}
    (h : scanOnce L fuel depth lone s = .done v rest) :
    ∃ t : Value, t.Ok ∧ t.AllNums P ∧ s = t.text ++ rest ∧
      v = (t.doc L.sense, lone || t.unpaired) ∧
      (depth ≤ L.maxDepth → depth + t.depth ≤ L.maxDepth) :=
  (sound hL fuel).1 h

/-! ## What is in the grammar is read -/

/-- A value ends where it ends, whatever follows : all but numbers do. -/
def Closed : Value → Prop
  | .num _ => False
  | _ => True

/-- A character of ASCII that neither is white space nor closes anything. -/
def Starts (c : Char) : Prop :=
  isWs c = false ∧ c ≠ ']' ∧ c ≠ '}' ∧ c.toNat < 0x80

theorem starts_of_isDigit {c : Char} (h : c.isDigit = true) : Starts c := by
  obtain ⟨-, -, -, hsq, hbr⟩ := quiet_of_isDigit h
  refine ⟨?_, hsq, hbr, ?_⟩
  · rw [Bool.eq_false_iff]
    intro hws
    simp only [isWs, Bool.or_eq_true, decide_eq_true_eq] at hws
    rcases hws with ((rfl | rfl) | rfl) | rfl <;> exact absurd h (by decide)
  · simp only [Char.isDigit, ge_iff_le, Bool.and_eq_true, decide_eq_true_eq] at h
    have hle : c.val.toNat ≤ 57 := h.2
    exact lt_of_le_of_lt hle (by decide)

theorem text_start : ∀ {v : Value}, v.Ok → ∃ c t, v.text = c :: t ∧ Starts c := by
  intro v h
  cases v with
  | word w => cases w <;> exact ⟨_, _, rfl, by unfold Starts; decide⟩
  | num n =>
    obtain ⟨c, t, hc, ht | ht⟩ := numText_start h
    · exact ⟨c, t, ht, starts_of_isDigit hc⟩
    · exact ⟨'-', _, ht, by unfold Starts; decide⟩
  | str ps => exact ⟨_, _, rfl, by unfold Starts; decide⟩
  | emptyArr space => exact ⟨_, _, rfl, by unfold Starts; decide⟩
  | arr es => exact ⟨_, _, rfl, by unfold Starts; decide⟩
  | emptyObj space => exact ⟨_, _, rfl, by unfold Starts; decide⟩
  | obj fs => exact ⟨_, _, rfl, by unfold Starts; decide⟩

/-- White space before a value is passed over, and the value is left. -/
theorem ws_text {before : Text} (hb : Space before) {v : Value} (hv : v.Ok) (s : Text) :
    ws (before ++ v.text ++ s) = v.text ++ s := by
  obtain ⟨c, t, htext, hc⟩ := text_start hv
  rw [htext, List.append_assoc, List.cons_append, ws_space_cons hb hc.1]

theorem head?_text {v : Value} (hv : v.Ok) (s : Text) :
    (v.text ++ s).head? ≠ some ']' ∧ (v.text ++ s).head? ≠ some '}' := by
  obtain ⟨c, t, htext, hc⟩ := text_start hv
  rw [htext, List.cons_append, List.head?_cons]
  exact ⟨fun h => hc.2.1 (Option.some.inj h), fun h => hc.2.2.1 (Option.some.inj h)⟩

theorem head?_elems {es : Elems} (h : es.Ok) (s : Text) :
    (ws (es.text ++ s)).head? ≠ some ']' := by
  cases es with
  | last before v after =>
    obtain ⟨hb, hv, -⟩ := h
    rw [Elems.text, List.append_assoc, ws_text hb hv]
    exact (head?_text hv _).1
  | more before v after es =>
    obtain ⟨⟨hb, hv, -⟩, -⟩ := h
    rw [Elems.text, List.append_assoc, List.append_assoc, ws_text hb hv]
    exact (head?_text hv _).1

theorem ws_quoted {before : Text} (hb : Space before) (ps : List Piece) (s : Text) :
    ws (before ++ quoted ps ++ s) = '"' :: (piecesText ps ++ '"' :: s) := by
  have hquoted : before ++ quoted ps ++ s = before ++ '"' :: (piecesText ps ++ '"' :: s) := by
    simp [quoted]
  rw [hquoted, ws_space_cons hb (by decide)]

theorem head?_fields {fs : Fields} (h : fs.Ok) (s : Text) :
    (ws (fs.text ++ s)).head? = some '"' := by
  cases fs with
  | last before key colon between v after =>
    have htext : (Fields.last before key colon between v after).text ++ s =
        before ++ quoted key ++ (colon ++ ':' :: (between ++ v.text ++ after ++ s)) := by
      simp [Fields.text]
    rw [htext, ws_quoted h.1, List.head?_cons]
  | more before key colon between v after fs =>
    have htext : (Fields.more before key colon between v after fs).text ++ s =
        before ++ quoted key ++
          (colon ++ ':' :: (between ++ v.text ++ after ++ ',' :: (fs.text ++ s))) := by
      simp [Fields.text]
    rw [htext, ws_quoted h.1.1, List.head?_cons]

theorem ends_space {after : Text} (ha : Space after) {c : Char} (hc : c = ',' ∨ c = ']' ∨ c = '}')
    (s : Text) : Follows (after ++ c :: s) := by
  intro x hx
  cases after with
  | nil =>
    obtain rfl : c = x := by simpa using hx
    exact .inr hc
  | cons y after =>
    obtain rfl : y = x := by simpa using hx
    exact .inl (ha y List.mem_cons_self)

/-- The fields of an object from a key on : the key, the value and what comes after it. -/
theorem members_key (hL : L.Lawful P) {key : List Piece} {colon between : Text} {v : Value}
    (hk : PiecesOk key) (hc : Space colon) (hbt : Space between) (hv : v.Ok)
    {before : Text} (hb : Space before) (d : List (S × Json S N)) (s : Text) {x : Json S N × Bool}
    (hx : scanOnce L fuel depth (lone || unpaired key) (v.text ++ s) = .done x s) :
    members L (fuel + 1) depth lone d
        (ws (before ++ quoted key ++ (colon ++ ':' :: (between ++ v.text ++ s)))) =
      if (ws s).head? = some '}' then
        .done (.obj (Json.insert d (L.sense.str key) x.1), x.2) (ws s).tail
      else if (ws s).head? ≠ some ',' then .fail (.msg "Expecting ',' delimiter")
      else if (ws (ws s).tail).head? = some '}' then
        .fail (.msg "Illegal trailing comma before end of object")
      else members L fuel depth x.2 (Json.insert d (L.sense.str key) x.1) (ws (ws s).tail) := by
  rw [ws_quoted hb, members, if_neg (by simp), List.tail_cons, hL.string_text _ _ hk,
    Reading.bind_done, ws_space_cons hc (by decide), if_neg (by simp), List.tail_cons,
    ws_text hbt hv, hx, Reading.bind_done]

mutual

/-- Every value of the grammar that is not too deep is read. -/
theorem scanOnce_text (hL : L.Lawful P) : ∀ (v : Value), v.Ok → v.AllNums P →
    ∀ (fuel depth : ℕ) (lone : Bool) (rest : Text), Closed v ∨ Follows rest →
      fuelFor (v.text ++ rest) ≤ fuel → depth + v.depth ≤ L.maxDepth →
      scanOnce L fuel depth lone (v.text ++ rest) =
        .done (v.doc L.sense, lone || v.unpaired) rest
  | _, _, _, 0, _, _, _, _, hfuel, _ => by
    rw [fuelFor] at hfuel
    omega
  | .word w, _, _, fuel + 1, depth, lone, rest, _, _, _ => by
    have hw := findWord_text w rest
    obtain ⟨c, t, htext, h1, h2, h3⟩ :
        ∃ c t, w.text = c :: t ∧ c ≠ '"' ∧ c ≠ '{' ∧ c ≠ '[' := by
      cases w <;> exact ⟨_, _, rfl, by decide, by decide, by decide⟩
    rw [htext, List.cons_append] at hw
    rw [Value.text, htext, List.cons_append, scanOnce_other h1 h2 h3,
      scanAtom_word hw]
    simp [Value.doc, Value.unpaired]
  | .num n, hok, hP, fuel + 1, depth, lone, rest, hends, _, _ => by
    have hends : Follows rest := by simpa [Closed] using hends
    have hn := hL.number_text n rest hok hP hends
    obtain ⟨c, t, hc, ht | ht⟩ := numText_start hok
    · obtain ⟨h1, h2, h3, -, -⟩ := quiet_of_isDigit hc
      rw [ht, List.cons_append] at hn
      rw [Value.text, ht, List.cons_append, scanOnce_other h1 h3 h2,
        scanAtom_number (findWord_digit hc _).1, hn]
      simp [Value.doc, Value.unpaired]
    · rw [ht, List.cons_append, List.cons_append] at hn
      rw [Value.text, ht, List.cons_append, List.cons_append,
        scanOnce_other (by decide) (by decide) (by decide),
        scanAtom_number (findWord_digit hc _).2, hn]
      simp [Value.doc, Value.unpaired]
  | .str ps, hok, _, fuel + 1, depth, lone, rest, _, _, _ => by
    have htext : (Value.str ps).text ++ rest = '"' :: (piecesText ps ++ '"' :: rest) := by
      simp [Value.text, quoted]
    rw [htext, scanOnce, if_pos rfl, hL.string_text _ _ hok, Reading.bind_done]
    rfl
  | .emptyArr space, hok, _, fuel + 1, depth, lone, rest, _, _, hdepth => by
    have htext : (Value.emptyArr space).text ++ rest = '[' :: (space ++ ']' :: rest) := by
      simp [Value.text]
    rw [Value.depth] at hdepth
    rw [htext, scanOnce, if_neg (by decide), if_neg (by decide), if_pos rfl,
      if_neg (by omega), ws_space_cons hok (by decide), if_pos List.head?_cons, List.tail_cons]
    simp [Value.doc, Value.unpaired]
  | .emptyObj space, hok, _, fuel + 1, depth, lone, rest, _, _, hdepth => by
    have htext : (Value.emptyObj space).text ++ rest = '{' :: (space ++ '}' :: rest) := by
      simp [Value.text]
    rw [Value.depth] at hdepth
    rw [htext, scanOnce, if_neg (by decide), if_pos rfl, if_neg (by omega),
      ws_space_cons hok (by decide), if_pos List.head?_cons, List.tail_cons]
    simp [Value.doc, Value.unpaired]
  | .arr es, hok, hP, fuel + 1, depth, lone, rest, _, hfuel, hdepth => by
    have htext : (Value.arr es).text ++ rest = '[' :: (es.text ++ ']' :: rest) := by
      simp [Value.text]
    rw [htext, fuelFor, List.length_cons] at hfuel
    rw [Value.depth] at hdepth
    rw [htext, scanOnce, if_neg (by decide), if_neg (by decide), if_pos rfl,
      if_neg (by omega), if_neg (head?_elems hok _),
      elements_text hL es hok hP fuel (depth + 1) lone [] rest (by rw [fuelFor]; omega) (by omega)]
    simp [Value.doc, Value.unpaired]
  | .obj fs, hok, hP, fuel + 1, depth, lone, rest, _, hfuel, hdepth => by
    have htext : (Value.obj fs).text ++ rest = '{' :: (fs.text ++ '}' :: rest) := by
      simp [Value.text]
    rw [htext, fuelFor, List.length_cons] at hfuel
    rw [Value.depth] at hdepth
    rw [htext, scanOnce, if_neg (by decide), if_pos rfl, if_neg (by omega),
      if_neg (by rw [head?_fields hok]; decide),
      members_text hL fs hok hP fuel (depth + 1) lone [] rest (by rw [fuelFor]; omega) (by omega)]
    simp [Value.doc, Value.unpaired]

/-- The elements of an array are read to the closing bracket. -/
theorem elements_text (hL : L.Lawful P) : ∀ (es : Elems), es.Ok → es.AllNums P →
    ∀ (fuel depth : ℕ) (lone : Bool) (a : List (Json S N)) (rest : Text),
      fuelFor (es.text ++ ']' :: rest) + 1 ≤ fuel → depth + es.depth ≤ L.maxDepth →
      elements L fuel depth lone a (ws (es.text ++ ']' :: rest)) =
        .done (.arr (a ++ es.docs L.sense), lone || es.unpaired) rest
  | _, _, _, 0, _, _, _, _, hfuel, _ => by
    omega
  | .last before v after, ⟨hb, hv, ha⟩, hP, fuel + 1, depth, lone, a, rest, hfuel, hdepth => by
    have htext : (Elems.last before v after).text ++ ']' :: rest =
        before ++ v.text ++ (after ++ ']' :: rest) := by simp [Elems.text]
    rw [htext, fuelFor, List.append_assoc, List.length_append] at hfuel
    rw [Elems.depth] at hdepth
    rw [htext, ws_text hb hv, elements, scanOnce_text hL v hv hP fuel depth lone _
      (.inr (ends_space ha (by decide) rest)) (by rw [fuelFor]; omega) hdepth, Reading.bind_done,
      ws_space_cons ha (by decide), if_pos List.head?_cons, List.tail_cons]
    simp [Elems.docs, Elems.unpaired]
  | .more before v after es, ⟨⟨hb, hv, ha⟩, hes⟩, ⟨hPv, hPes⟩, fuel + 1, depth, lone, a, rest,
      hfuel, hdepth => by
    have htext : (Elems.more before v after es).text ++ ']' :: rest =
        before ++ v.text ++ (after ++ ',' :: (es.text ++ ']' :: rest)) := by simp [Elems.text]
    rw [htext, fuelFor, List.append_assoc, List.length_append] at hfuel
    have hshort : (es.text ++ ']' :: rest).length <
        (v.text ++ (after ++ ',' :: (es.text ++ ']' :: rest))).length := by
      simp only [List.length_append, List.length_cons]
      omega
    rw [Elems.depth] at hdepth
    rw [htext, ws_text hb hv, elements, scanOnce_text hL v hv hPv fuel depth lone _
      (.inr (ends_space ha (by decide) _)) (by rw [fuelFor]; omega) (by omega), Reading.bind_done,
      ws_space_cons ha (by decide), if_neg (by simp), if_neg (by simp), List.tail_cons,
      if_neg (head?_elems hes _),
      elements_text hL es hes hPes fuel depth _ _ rest (by rw [fuelFor]; omega) (by omega)]
    simp [Elems.docs, Elems.unpaired, Bool.or_assoc]

/-- The fields of an object are read to the closing brace. -/
theorem members_text (hL : L.Lawful P) : ∀ (fs : Fields), fs.Ok → fs.AllNums P →
    ∀ (fuel depth : ℕ) (lone : Bool) (d : List (S × Json S N)) (rest : Text),
      fuelFor (fs.text ++ '}' :: rest) + 1 ≤ fuel → depth + fs.depth ≤ L.maxDepth →
      members L fuel depth lone d (ws (fs.text ++ '}' :: rest)) =
        .done (.obj (fs.docs L.sense d), lone || fs.unpaired) rest
  | _, _, _, 0, _, _, _, _, hfuel, _ => by
    omega
  | .last before key colon between v after, ⟨hb, hk, hc, hbt, hv, ha⟩, hP, fuel + 1, depth, lone,
      d, rest, hfuel, hdepth => by
    have htext : (Fields.last before key colon between v after).text ++ '}' :: rest =
        before ++ quoted key ++ (colon ++ ':' :: (between ++ v.text ++ (after ++ '}' :: rest))) := by
      simp [Fields.text]
    have hshort : (v.text ++ (after ++ '}' :: rest)).length <
        ((Fields.last before key colon between v after).text ++ '}' :: rest).length := by
      rw [htext]
      simp only [List.length_append, List.length_cons]
      omega
    rw [fuelFor] at hfuel
    rw [Fields.depth] at hdepth
    rw [htext, members_key hL hk hc hbt hv hb d _ (scanOnce_text hL v hv hP fuel depth _ _
      (.inr (ends_space ha (by decide) rest)) (by rw [fuelFor]; omega) hdepth),
      ws_space_cons ha (by decide), if_pos List.head?_cons, List.tail_cons]
    simp [Fields.docs, Fields.unpaired, Bool.or_assoc]
  | .more before key colon between v after fs, ⟨⟨hb, hk, hc, hbt, hv, ha⟩, hfs⟩, ⟨hPv, hPfs⟩,
      fuel + 1, depth, lone, d, rest, hfuel, hdepth => by
    have htext : (Fields.more before key colon between v after fs).text ++ '}' :: rest =
        before ++ quoted key ++ (colon ++ ':' :: (between ++ v.text ++
          (after ++ ',' :: (fs.text ++ '}' :: rest)))) := by
      simp [Fields.text]
    have hshort : (v.text ++ (after ++ ',' :: (fs.text ++ '}' :: rest))).length <
        ((Fields.more before key colon between v after fs).text ++ '}' :: rest).length := by
      rw [htext]
      simp only [List.length_append, List.length_cons]
      omega
    have hshorter : (fs.text ++ '}' :: rest).length <
        (v.text ++ (after ++ ',' :: (fs.text ++ '}' :: rest))).length := by
      simp only [List.length_append, List.length_cons]
      omega
    rw [fuelFor] at hfuel
    rw [Fields.depth] at hdepth
    rw [htext, members_key hL hk hc hbt hv hb d _ (scanOnce_text hL v hv hPv fuel depth _ _
      (.inr (ends_space ha (by decide) _)) (by rw [fuelFor]; omega) (by omega)),
      ws_space_cons ha (by decide), if_neg (by simp), if_neg (by simp), List.tail_cons,
      if_neg (by rw [head?_fields hfs]; decide),
      members_text hL fs hfs hPfs fuel depth _ _ rest (by rw [fuelFor]; omega) (by omega)]
    simp [Fields.docs, Fields.unpaired, Bool.or_assoc]

end

/-! ## How a reading ends -/

/-- The reading came to an end, and an error is one of `Q`. -/
def Settles {α : Type*} (Q : JErr → Prop) : Reading α → Prop
  | .done _ _ => True
  | .fail e => Q e
  | .more => False

/-- The numbers in a text give errors of `Q` only, and so does the depth, unless the brackets
nest no deeper than the reader goes. -/
structure Fit (L : Lexis S N) (Q : JErr → Prop) (depth : ℕ) (s : Text) : Prop where
  number : ∀ t, t <:+ s → Settles Q (L.number t)
  deep : (∀ m, Q (.depth m)) ∨ deepest .out depth s ≤ L.maxDepth

section Settles

variable {α β : Type*} {Q : JErr → Prop} {d d' : ℕ} {s' : Text}

theorem Settles.bind {r : Reading α} {f : α → Text → Reading β} (h : Settles Q r)
    (hf : ∀ a t, r = .done a t → Settles Q (f a t)) : Settles Q (r.bind f) := by
  cases r with
  | done a t => exact hf a t rfl
  | fail e => exact h
  | more => exact h

theorem Fit.mono (h : Fit L Q d s) (hs : s' <:+ s)
    (hd : deepest .out d' s' ≤ deepest .out d s) : Fit L Q d' s' :=
  ⟨fun t ht => h.number t (ht.trans hs), h.deep.imp_right hd.trans⟩

theorem deepest_ws (d : ℕ) (s : Text) : deepest .out d (ws s) = deepest .out d s := by
  obtain ⟨p, hp, hs⟩ := ws_split s
  conv_rhs => rw [hs, deepest_quiets hp.quiet]

theorem ws_suffix (s : Text) : ws s <:+ s :=
  List.dropWhile_suffix _

theorem Fit.ws (h : Fit L Q d s) : Fit L Q d (ws s) :=
  h.mono (ws_suffix s) (deepest_ws d s).le

/-- Past white space and a character that is no bracket. -/
theorem Fit.past (h : Fit L Q d s) {c : Char} (hc : (JsonSyntax.ws s).head? = some c)
    (hq : Quiet c) : Fit L Q d (JsonSyntax.ws (JsonSyntax.ws s).tail) := by
  refine (h.ws.mono (List.tail_suffix _) ?_).ws
  rw [← deepest_quiet hq, ← eq_cons_of_head? hc]

/-- Past a string. -/
theorem Fit.string (hL : L.Lawful P) (h : Fit L Q d s) (hq : s.head? = some '"')
    {x : S × Bool} (hx : L.string s.tail = .done x t) : Fit L Q d t ∧ t.length < s.length := by
  obtain ⟨ps, hps, htail, -⟩ := hL.string_sound _ _ _ hx
  have hs : s = quoted ps ++ t := by
    rw [eq_cons_of_head? hq, htail]
    simp [quoted]
  refine ⟨h.mono (hs ▸ List.suffix_append _ _) ?_, ?_⟩
  · rw [hs, deepest_quoted hps]
  · rw [hs]
    simp only [quoted, List.length_append, List.length_cons]
    omega

/-- Past a value. -/
theorem Fit.value (hL : L.Lawful P) (h : Fit L Q d s) {v : Json S N × Bool}
    (hv : scanOnce L fuel depth lone s = .done v t) : Fit L Q d t ∧ t.length < s.length := by
  obtain ⟨y, hy, -, hs, -, -⟩ := scanOnce_sound hL hv
  refine ⟨h.mono (hs ▸ List.suffix_append _ _) ?_, ?_⟩
  · rw [hs, deepest_text y hy]
    exact le_max_right _ _
  · obtain ⟨c, w, htext, -⟩ := text_start hy
    rw [hs, htext]
    simp

theorem length_past (s : Text) : (ws (ws s).tail).length ≤ s.length :=
  ((ws_suffix _).trans ((List.tail_suffix _).trans (ws_suffix s))).length_le

/-- Into a bracket. -/
theorem Fit.open {c : Char} (h : Fit L Q depth (c :: t)) (hc : c = '[' ∨ c = '{') :
    Fit L Q (depth + 1) (JsonSyntax.ws t) := by
  refine (h.mono (List.suffix_cons c t) ?_).ws
  rw [deepest_open hc]
  exact le_max_right _ _

theorem Fit.tooDeep {c : Char} (h : Fit L Q depth (c :: t)) (hc : c = '[' ∨ c = '{')
    (hd : L.maxDepth ≤ depth) (m : String) : Q (.depth m) := by
  rcases h.deep with h | h
  · exact h m
  · rw [deepest_open hc] at h
    have hle := (le_max_left _ _).trans h
    omega

theorem settles (hL : L.Lawful P) (hstop : Q .stop) (hmsg : ∀ m, Q (.msg m)) : ∀ fuel,
    (∀ depth lone s, fuelFor s ≤ fuel → Fit L Q depth s →
      Settles Q (scanOnce L fuel depth lone s)) ∧
    (∀ depth lone d s, fuelFor s + 1 ≤ fuel → Fit L Q depth s →
      Settles Q (members L fuel depth lone d s)) ∧
    ∀ depth lone a s, fuelFor s + 1 ≤ fuel → Fit L Q depth s →
      Settles Q (elements L fuel depth lone a s)
  | 0 => ⟨fun _ _ s h => by rw [fuelFor] at h; omega, fun _ _ _ s h => by omega,
      fun _ _ _ s h => by omega⟩
  | fuel + 1 => by
    obtain ⟨ihv, ihm, ihe⟩ := settles hL hstop hmsg fuel
    have hstring (s : Text) : Settles Q (L.string s) := by
      cases hs : L.string s with
      | done x t => trivial
      | fail e =>
        obtain ⟨m, rfl⟩ := hL.string_fail s e hs
        exact hmsg m
      | more => exact hL.string_ends s hs
    have hlen (t : Text) : (JsonSyntax.ws t).length ≤ t.length := (ws_suffix t).length_le
    refine ⟨fun depth lone s hfuel h => ?_, fun depth lone d s hfuel h => ?_,
      fun depth lone a s hfuel h => ?_⟩
    · rw [fuelFor] at hfuel
      cases s with
      | nil =>
        rw [scanOnce]
        exact hstop
      | cons c t =>
        have hle := hlen t
        rw [List.length_cons] at hfuel
        rw [scanOnce]
        split_ifs with hq hb hd hemp hb hd hemp
        · exact (hstring t).bind fun _ _ _ => trivial
        · exact h.tooDeep (.inr hb) hd _
        · trivial
        · exact ihm _ _ _ _ (by rw [fuelFor]; omega) (h.open (.inr hb))
        · exact h.tooDeep (.inl hb) hd _
        · trivial
        · exact ihe _ _ _ _ (by rw [fuelFor]; omega) (h.open (.inl hb))
        · rcases hw : findWord (c :: t) with _ | ⟨w, t'⟩
          · rw [scanAtom_number hw]
            exact (h.number _ List.suffix_rfl).bind fun _ _ _ => trivial
          · rw [scanAtom_word hw]
            trivial
    · rw [fuelFor] at hfuel
      rw [members]
      split_ifs with hq
      · exact hmsg _
      refine (hstring _).bind fun key t hkey => ?_
      obtain ⟨ht, hlt⟩ := h.string hL (not_not.1 hq) hkey
      split_ifs with hcolon
      · exact hmsg _
      have hpast := ht.past (not_not.1 hcolon) (by decide)
      have hle := length_past t
      refine (ihv _ _ _ (by rw [fuelFor]; omega) hpast).bind fun v t' hv => ?_
      obtain ⟨ht', hlt'⟩ := hpast.value hL hv
      split_ifs with hclose hcomma htrail
      · trivial
      · exact hmsg _
      · exact hmsg _
      · have hle' := length_past t'
        exact ihm _ _ _ _ (by rw [fuelFor]; omega) (ht'.past (not_not.1 hcomma) (by decide))
    · rw [fuelFor] at hfuel
      rw [elements]
      refine (ihv _ _ _ (by rw [fuelFor]; omega) h).bind fun v t hv => ?_
      obtain ⟨ht, hlt⟩ := h.value hL hv
      split_ifs with hclose hcomma htrail
      · trivial
      · exact hmsg _
      · exact hmsg _
      · have hle := length_past t
        exact ihe _ _ _ _ (by rw [fuelFor]; omega) (ht.past (not_not.1 hcomma) (by decide))

/-- With enough fuel a reading comes to an end. -/
theorem scanOnce_ends (hL : L.Lawful P) (depth : ℕ) (lone : Bool) (s : Text) :
    scanOnce L (fuelFor s) depth lone s ≠ .more := by
  have hnumber (t : Text) : Settles (fun _ => True) (L.number t) := by
    cases ht : L.number t with
    | done n t' => trivial
    | fail e => trivial
    | more => exact hL.number_ends t ht
  have hend : Settles (fun _ => True) (scanOnce L (fuelFor s) depth lone s) :=
    (settles hL trivial (fun _ => trivial) (fuelFor s)).1 depth lone s le_rfl
      ⟨fun t _ => hnumber t, .inl fun _ => trivial⟩
  intro hmore
  rw [hmore] at hend
  exact hend

end Settles

/-- An error that says nothing about the grammar : too many digits, or too deep. -/
def JErr.fatal : JErr → Bool
  | .limit _ | .depth _ => true
  | _ => false

/-- The brackets of a text nest no deeper than the reader goes, and no number in it has too
many digits. -/
structure Tame (L : Lexis S N) (s : Text) : Prop where
  number : ∀ t, t <:+ s → ∀ e, L.number t = .fail e → e.fatal = false
  deep : nesting s ≤ L.maxDepth

/-- Where the brackets of a text do not nest too deep, its end is not that they do. -/
theorem scanOnce_tame (hL : L.Lawful P) (h : Tame L s) {e : JErr}
    (hs : scanOnce L (fuelFor s) 0 lone s = .fail e) : e.fatal = false := by
  have hend : Settles (fun e => e.fatal = false) (scanOnce L (fuelFor s) 0 lone s) := by
    refine (settles (Q := fun e => e.fatal = false) hL rfl (fun _ => rfl) (fuelFor s)).1 0 lone s
      le_rfl ⟨fun t ht => ?_, .inr h.deep⟩
    cases hn : L.number t with
    | done n t' => trivial
    | fail e => exact h.number t ht e hn
    | more => exact hL.number_ends t hn
  rw [hs] at hend
  exact hend

/-! ## Two readers -/

/-- The first answer is a fatal error, or both are the same but for what `g₁` and `g₂` leave
out. -/
def Alike {α β γ : Type*} (g₁ : α → γ) (g₂ : β → γ) (r₁ : Reading α) (r₂ : Reading β) : Prop :=
  (∃ e, r₁ = .fail e ∧ e.fatal = true) ∨ r₁.map g₁ = r₂.map g₂

/-- Two lexes that find the same strings and numbers, and the second goes deeper. -/
structure Like {S' N' : Type*} (L : Lexis S N) (L' : Lexis S' N') : Prop where
  string : ∀ s, Alike Prod.snd Prod.snd (L.string s) (L'.string s)
  number : ∀ s, Alike (fun _ => ()) (fun _ => ()) (L.number s) (L'.number s)
  maxDepth : L.maxDepth ≤ L'.maxDepth

section Alike

variable {α α' β β' γ δ : Type*}

theorem Alike.bind {g : α → γ} {g' : α' → γ} {k : β → δ} {k' : β' → δ} {r : Reading α}
    {r' : Reading α'} {f : α → Text → Reading β} {f' : α' → Text → Reading β'} (h : Alike g g' r r')
    (hf : ∀ a a' t, g a = g' a' → Alike k k' (f a t) (f' a' t)) :
    Alike k k' (r.bind f) (r'.bind f') := by
  rcases h with ⟨e, rfl, he⟩ | h
  · exact .inl ⟨e, rfl, he⟩
  · cases r <;> cases r' <;> simp only [Reading.map, Reading.done.injEq, Reading.fail.injEq, reduceCtorEq]
      at h
    · obtain ⟨hg, rfl⟩ := h
      exact hf _ _ _ hg
    · rw [h]
      exact .inr rfl
    · exact .inr rfl

theorem Alike.same {g : α → γ} {g' : α' → γ} {e : JErr} :
    Alike g g' (.fail e) (.fail e) :=
  .inr rfl

theorem Alike.done {g : α → γ} {g' : α' → γ} {a : α} {a' : α'} (h : g a = g' a') (t : Text) :
    Alike g g' (.done a t) (.done a' t) :=
  .inr (by rw [Reading.map, Reading.map, h])

variable {S' N' : Type*} [DecidableEq S'] {L' : Lexis S' N'}

theorem alike (hL : Like L L') : ∀ fuel,
    (∀ depth lone s, Alike Prod.snd Prod.snd (scanOnce L fuel depth lone s)
      (scanOnce L' fuel depth lone s)) ∧
    (∀ depth lone d d' s, Alike Prod.snd Prod.snd (members L fuel depth lone d s)
      (members L' fuel depth lone d' s)) ∧
    ∀ depth lone a a' s, Alike Prod.snd Prod.snd (elements L fuel depth lone a s)
      (elements L' fuel depth lone a' s)
  | 0 => ⟨fun _ _ _ => .inr rfl, fun _ _ _ _ _ => .inr rfl, fun _ _ _ _ _ => .inr rfl⟩
  | fuel + 1 => by
    obtain ⟨ihv, ihm, ihe⟩ := alike hL fuel
    have hdepth := hL.maxDepth
    refine ⟨fun depth lone s => ?_, fun depth lone d d' s => ?_, fun depth lone a a' s => ?_⟩
    · cases s with
      | nil => exact .inr rfl
      | cons c t =>
        rw [scanOnce, scanOnce]
        by_cases hq : c = '"'
        · rw [if_pos hq, if_pos hq]
          exact (hL.string t).bind fun x x' t' hx => .done (by simp [hx]) t'
        rw [if_neg hq, if_neg hq]
        by_cases hb : c = '{'
        · rw [if_pos hb, if_pos hb]
          by_cases hd : L.maxDepth ≤ depth
          · rw [if_pos hd]
            exact .inl ⟨_, rfl, rfl⟩
          have hd' : ¬L'.maxDepth ≤ depth := by omega
          rw [if_neg hd, if_neg hd']
          split_ifs with hemp
          · exact .done rfl _
          · exact ihm _ _ _ _ _
        rw [if_neg hb, if_neg hb]
        by_cases hb : c = '['
        · rw [if_pos hb, if_pos hb]
          by_cases hd : L.maxDepth ≤ depth
          · rw [if_pos hd]
            exact .inl ⟨_, rfl, rfl⟩
          have hd' : ¬L'.maxDepth ≤ depth := by omega
          rw [if_neg hd, if_neg hd']
          split_ifs with hemp
          · exact .done rfl _
          · exact ihe _ _ _ _ _
        rw [if_neg hb, if_neg hb]
        rcases hw : findWord (c :: t) with _ | ⟨w, t'⟩
        · rw [scanAtom_number hw, scanAtom_number hw]
          exact (hL.number _).bind fun n n' t' _ => .done rfl t'
        · rw [scanAtom_word hw, scanAtom_word hw]
          exact .done rfl t'
    · rw [members, members]
      split_ifs with hq
      · exact .same
      refine (hL.string _).bind fun key key' t hkey => ?_
      split_ifs with hcolon
      · exact .same
      rw [hkey]
      refine (ihv _ _ _).bind fun v v' t' hv => ?_
      split_ifs with hclose hcomma htrail
      · exact .inr (by simp [Reading.map, hv])
      · exact .same
      · exact .same
      · rw [hv]
        exact ihm _ _ _ _ _
    · rw [elements, elements]
      refine (ihv _ _ _).bind fun v v' t hv => ?_
      split_ifs with hclose hcomma htrail
      · exact .inr (by simp [Reading.map, hv])
      · exact .same
      · exact .same
      · rw [hv]
        exact ihe _ _ _ _ _

/-- Two readers that differ in what they make of strings and numbers stop at the same place
with the same error, unless the first met too many digits or went too deep. -/
theorem scanOnce_alike (hL : Like L L') (depth : ℕ) (lone : Bool) (s : Text) :
    Alike Prod.snd Prod.snd (scanOnce L fuel depth lone s) (scanOnce L' fuel depth lone s) :=
  (alike hL fuel).1 depth lone s

end Alike

end EngineConsole.JsonReader
