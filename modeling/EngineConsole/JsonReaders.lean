import EngineConsole.JsonArena

/-!
# The two JSON readers of the adapters agree

`json_loads` and `JsonDoc::loads` find the same strings and numbers (`scanner_like_points`), so
they stop at the same place with the same error, unless the first met an integer that is too
long or went too deep. Neither happens on a tame text : one whose brackets nest no deeper than
512, with no run of more than 4300 digits (`scanner_tame`).

A text is a document when it is one tree of the grammar between white space. On a tame text
that is a document both readers have its value, the second with code points for characters
(`document_codes`); on any other tame text both have the same message (`readers_agree`). Half
of a surrogate pair alone is what only the first refuses.
-/

set_option linter.unusedSectionVars false

namespace EngineConsole.JsonArena

open JsonSyntax JsonReader PyJson

variable {F : Type*} {Fl : Floats F} {s rest : Text} {e : JErr} {v : Json (List ℕ) (Num F)}
  {lone : Bool}

/-! ## Reading a whole text -/

/-- No byte order mark in front. -/
def NoMark (s : Text) : Prop :=
  s.head? ≠ some '\ufeff'

/-- What the recursive reader over code points answers is what the machine answers. -/
theorem loads_done (hmark : NoMark s)
    (h : scanOnce (points Fl) (fuelFor (ws s)) 0 false (ws s) = .done (v, lone) rest) :
    ∃ nodes, Rep nodes 0 v ∧ loads Fl s =
      if ws rest ≠ [] then some (.error (.msg "Extra data")) else some (.ok nodes) := by
  have hstack : ([] : List Frame).length = 0 := rfl
  obtain ⟨k, nodes, hk, -, hrep, hrun⟩ := (runs (fuelFor (ws s))).1 [] h hstack
  obtain ⟨f, hf⟩ : ∃ f, (ws s).length + 1 = k + f := ⟨(ws s).length + 1 - k, by omega⟩
  refine ⟨nodes, hrep, ?_⟩
  rw [loads, if_neg hmark, hf, hrun f]
  rfl

theorem loads_fail (hmark : NoMark s)
    (h : scanOnce (points Fl) (fuelFor (ws s)) 0 false (ws s) = .fail e)
    (hfatal : e.fatal = false) : loads Fl s = some (.error (plain e)) := by
  have hstack : ([] : List Frame).length = 0 := rfl
  obtain ⟨k, hk, hrun⟩ := (fails (fuelFor (ws s))).1 [] h hfatal hstack
  obtain ⟨f, hf⟩ : ∃ f, (ws s).length + 1 = k + f := ⟨(ws s).length + 1 - k, by omega⟩
  rw [loads, if_neg hmark, hf, hrun f]

/-! ## The two readers find the same strings and numbers -/

theorem scanner_like_points (Fl : Floats F) : Like (scanner Fl) (points Fl) where
  string s := by
    refine .inr ?_
    change (scanstring s).map Prod.snd = Reading.map _ (Reading.map _ _)
    rw [scanstring_eq]
    cases scanString pushPoint [] s <;> rfl
  number s := by
    change Alike _ _ (PyJson.number Fl s) ((points Fl).number s)
    rw [PyJson.number, points]
    dsimp only
    rcases hn : scanNumber s with _ | ⟨n, t⟩
    · exact .inr rfl
    · dsimp only
      rw [numOf]
      split_ifs
      · exact .inr rfl
      · exact .inl ⟨_, rfl, rfl⟩
      · exact .inr rfl
  maxDepth := by
    change maxDepth ≤ jsonMaxDepth
    decide

/-! ## Tame texts -/

/-- The brackets of the text nest no deeper than 512, and no run of digits in it is longer than
4300. -/
structure TameText (s : Text) : Prop where
  nesting : nesting s ≤ maxDepth
  runs : ∀ ds, ds <:+: s → Digits ds → ds.length ≤ intMaxStrDigits

theorem TameText.ws (h : TameText s) : TameText (JsonSyntax.ws s) where
  nesting := by
    rw [JsonSyntax.nesting, deepest_ws]
    exact h.nesting
  runs ds hds := h.runs ds (hds.trans (ws_suffix s).isInfix)

/-- The integer part of a number in a tame text is not too long. -/
theorem TameText.short (h : TameText s) {n : NumText} (hok : n.Ok) (hs : n.text <:+: s) :
    n.int.length ≤ intMaxStrDigits := by
  refine h.runs n.int (List.IsInfix.trans ⟨n.signText, n.fracText ++ n.expText, ?_⟩ hs) hok.digits
  simp [NumText.text]

theorem scanner_tame (h : TameText s) : Tame (scanner Fl) s where
  number t ht e he := by
    change PyJson.number Fl t = _ at he
    rw [PyJson.number] at he
    rcases hn : scanNumber t with _ | ⟨n, u⟩ <;> rw [hn] at he
    · obtain rfl := Reading.fail.inj he
      rfl
    · dsimp only at he
      split_ifs at he with hfloat hlimit
      obtain ⟨hok, hspell⟩ := scanNumber_sound hn
      have hlen := h.short hok
        ((hspell ▸ (List.prefix_append n.text u).isInfix).trans ht.isInfix)
      omega
  deep := h.nesting

theorem allNums_short (h : TameText s) {y : Value} (hy : y.Ok) (hs : y.text <:+: s) :
    y.AllNums Short :=
  allNums_within (fun _ hok hn => .inr (h.short hok hn)) y hy hs

/-! ## Documents -/

/-- A text that is one tree between white space. -/
structure Document where
  before : Text
  value : Value
  after : Text

/-- The text of a document. -/
def Document.text (d : Document) : Text :=
  d.before ++ d.value.text ++ d.after

/-- The tree is one of the grammar, with white space around it. -/
structure Document.Ok (d : Document) : Prop where
  before : Space d.before
  value : d.value.Ok
  after : Space d.after

variable {d : Document}

theorem ws_after {p : Text} (h : Space p) : ws p = [] := by
  have hs := ws_space h []
  rwa [List.append_nil] at hs

theorem ends_of_space {p : Text} (h : Space p) : Follows p :=
  fun c hc => .inl (h c (List.mem_of_mem_head? hc))

theorem Document.Ok.ws (h : d.Ok) : ws d.text = d.value.text ++ d.after := by
  rw [Document.text, ws_text h.before h.value]

theorem Document.Ok.noMark (h : d.Ok) : NoMark d.text := by
  obtain ⟨c, t, htext, hstart⟩ := text_start h.value
  rw [Document.text, htext, NoMark]
  cases hb : d.before with
  | nil =>
    intro hhead
    obtain rfl := Option.some.inj hhead
    exact absurd hstart.2.2.2 (by decide)
  | cons b p =>
    intro hhead
    obtain rfl := Option.some.inj hhead
    exact absurd (h.before _ (hb ▸ List.mem_cons_self)) (by decide)

/-- Every lexis that goes deep enough reads a document to its end. -/
theorem Document.Ok.scanOnce {S N : Type*} [DecidableEq S] {L : Lexis S N} {P : NumText → Prop}
    (hL : L.Lawful P) (h : d.Ok) (hnums : d.value.AllNums P) (hdepth : d.value.depth ≤ L.maxDepth) :
    scanOnce L (fuelFor (JsonSyntax.ws d.text)) 0 false (JsonSyntax.ws d.text) =
      .done (d.value.doc L.sense, d.value.unpaired) d.after := by
  rw [h.ws, scanOnce_text hL d.value h.value hnums _ 0 false d.after
    (.inr (ends_of_space h.after)) le_rfl (by rw [Nat.zero_add]; exact hdepth), Bool.false_or]

/-- The depth of the tree of a document is how deep its brackets nest. -/
theorem Document.Ok.depth_le (h : d.Ok) (htame : TameText d.text) : d.value.depth ≤ maxDepth := by
  have hnest := htame.ws.nesting
  rw [h.ws, nesting, deepest_text d.value h.value] at hnest
  have hlevels : levels 0 d.value.depth ≤ maxDepth := (le_max_left _ _).trans hnest
  rw [levels] at hlevels
  split_ifs at hlevels
  · omega
  · omega

/-! ## The same documents -/

/-- The code points of some characters. -/
def codes (t : Text) : List ℕ :=
  t.map Char.toNat

theorem codes_injective : Function.Injective codes :=
  List.map_injective_iff.2 fun _ _ h => Char.toNat_inj.1 h

/-- Code points that are no half of a pair are those of their characters. -/
theorem codes_toChars {us : List ℕ} (h : ∀ u ∈ us, u < 0x110000)
    (hu : us.any isSurrogate = false) : codes (toChars us) = us := by
  rw [codes, toChars, List.map_map]
  refine (List.map_congr_left fun u hmem => ?_).trans (List.map_id us)
  have hchar : charFromU32 u ≠ none := by
    rw [ne_eq, charFromU32_eq_none (h u hmem)]
    have hnot := List.any_eq_false.1 hu u hmem
    exact hnot
  have hvalid : u.isValidChar := by
    by_contra hv
    exact hchar (if_neg hv)
  rw [Function.comp_apply, charFromU32, if_pos hvalid, Option.getD_some, Char.ofNat,
    dif_pos hvalid]
  rfl

theorem points_via (Fl : Floats F) : Sense.Via codes (scanner Fl).sense (points Fl).sense where
  str _ hps hu := (codes_toChars (codePoints_lt hps) hu).symm
  num _ := rfl
  word w := by cases w <;> rfl

/-- Without half of a pair alone a document is the same for both readers, but for characters
against code points. -/
theorem document_codes (h : d.Ok) (hu : d.value.unpaired = false) :
    d.value.doc (points Fl).sense = (d.value.doc (scanner Fl).sense).mapStr codes :=
  doc_via (points_via Fl) codes_injective d.value h.value hu

/-! ## Agreement -/

/-- Both readers on a document. -/
theorem loads_document (Fl : Floats F) (h : d.Ok) (htame : TameText d.text) :
    jsonLoads Fl d.text = some (if d.value.unpaired then
        .error ⟨"JSONDecodeError", "lone surrogate in a \\uXXXX escape"⟩
      else .ok (d.value.doc (scanner Fl).sense)) ∧
    ∃ nodes, loads Fl d.text = some (.ok nodes) ∧ Rep nodes 0 (d.value.doc (points Fl).sense) := by
  have hdepth := h.depth_le htame
  constructor
  · have hread := h.scanOnce (scanner_lawful Fl)
      (allNums_short htame h.value ⟨d.before, d.after, rfl⟩) hdepth
    rw [jsonLoads, if_neg h.noMark, hread]
    dsimp only
    rw [ws_after h.after, if_neg (by simp)]
    split_ifs <;> rfl
  · have hread := h.scanOnce (points_lawful Fl)
      (allNums_within (fun _ _ _ => trivial) d.value h.value List.infix_rfl)
      (hdepth.trans (scanner_like_points Fl).maxDepth)
    obtain ⟨nodes, hrep, hloads⟩ := loads_done h.noMark hread
    rw [ws_after h.after, if_neg (by simp)] at hloads
    exact ⟨nodes, hloads, hrep⟩

/-- Both readers on a text that is no document. -/
theorem loads_malformed (htame : TameText s) (h : ∀ d : Document, d.Ok → d.text ≠ s) :
    ∃ m, jsonLoads Fl s = some (.error ⟨"JSONDecodeError", m⟩) ∧
      loads Fl s = some (.error (.msg m)) := by
  by_cases hmark : NoMark s
  swap
  · refine ⟨"Unexpected UTF-8 BOM (decode using utf-8-sig)", ?_, ?_⟩
    · rw [jsonLoads, if_pos (not_not.1 hmark)]
    · rw [loads, if_pos (not_not.1 hmark)]
  have hws := htame.ws
  have hboth : Alike Prod.snd Prod.snd (scanOnce (scanner Fl) (fuelFor (ws s)) 0 false (ws s))
      (scanOnce (points Fl) (fuelFor (ws s)) 0 false (ws s)) :=
    scanOnce_alike (scanner_like_points Fl) 0 false (ws s)
  rcases hscan : scanOnce (scanner Fl) (fuelFor (ws s)) 0 false (ws s) with
    ⟨⟨v, lone⟩, rest⟩ | e | _
  · rw [hscan] at hboth
    rcases hboth with ⟨e, he, -⟩ | hboth
    · cases he
    -- the value is followed by something, as the text is no document
    have hextra : ws rest ≠ [] := by
      intro hrest
      obtain ⟨y, hy, -, hs, -⟩ := scanOnce_sound (scanner_lawful Fl) hscan
      obtain ⟨p, hp, hsplit⟩ := ws_split s
      obtain ⟨q, hq, hq'⟩ := ws_split rest
      rw [hrest, List.append_nil] at hq'
      refine h ⟨p, y, rest⟩ ⟨hp, hy, hq' ▸ hq⟩ ?_
      rw [Document.text, List.append_assoc, ← hs]
      exact hsplit.symm
    rcases hpts : scanOnce (points Fl) (fuelFor (ws s)) 0 false (ws s) with
      ⟨⟨v', lone'⟩, rest'⟩ | e | _ <;> rw [hpts] at hboth
    · obtain ⟨-, rfl⟩ := Reading.done.inj hboth
      obtain ⟨nodes, -, hloads⟩ := loads_done hmark hpts
      refine ⟨"Extra data", ?_, ?_⟩
      · rw [jsonLoads, if_neg hmark, hscan]
        exact if_pos hextra
      · rw [hloads, if_pos hextra]
    · cases hboth
    · cases hboth
  · have hfatal := scanOnce_tame (scanner_lawful Fl) (scanner_tame hws) hscan
    rw [hscan] at hboth
    rcases hboth with ⟨e', he, hf⟩ | hboth
    · obtain rfl := Reading.fail.inj he
      rw [hf] at hfatal
      cases hfatal
    rcases hpts : scanOnce (points Fl) (fuelFor (ws s)) 0 false (ws s) with
      ⟨⟨v', lone'⟩, rest'⟩ | e' | _ <;> rw [hpts] at hboth
    · cases hboth
    · obtain rfl := Reading.fail.inj hboth
      have hloads := loads_fail hmark hpts hfatal
      have hjson : jsonLoads Fl s = some (.error (toExc e)) := by
        rw [jsonLoads, if_neg hmark, hscan]
      cases e with
      | stop => exact ⟨_, hjson, hloads⟩
      | msg m => exact ⟨m, hjson, hloads⟩
      | limit n => cases hfatal
      | depth m => cases hfatal
    · cases hboth
  · exact absurd hscan (scanOnce_ends (scanner_lawful Fl) 0 false (ws s))

/-- On a tame text the two readers accept the documents of the grammar, with the same value
where no half of a surrogate pair is alone, and else refuse with the same message; a repeated
key keeps its first place and has its last value. What is written is read back. -/
theorem readers_agree (Fl : Floats F) :
    (∀ d : Document, d.Ok → TameText d.text → d.value.unpaired = false →
      ∃ v nodes, jsonLoads Fl d.text = some (.ok v) ∧ loads Fl d.text = some (.ok nodes) ∧
        v = d.value.doc (scanner Fl).sense ∧ Rep nodes 0 (v.mapStr codes)) ∧
    (∀ d : Document, d.Ok → TameText d.text → d.value.unpaired = true →
      jsonLoads Fl d.text =
          some (.error ⟨"JSONDecodeError", "lone surrogate in a \\uXXXX escape"⟩) ∧
        ∃ nodes, loads Fl d.text = some (.ok nodes) ∧
          Rep nodes 0 (d.value.doc (points Fl).sense)) ∧
    (∀ s, TameText s → (∀ d : Document, d.Ok → d.text ≠ s) →
      ∃ m, jsonLoads Fl s = some (.error ⟨"JSONDecodeError", m⟩) ∧
        loads Fl s = some (.error (.msg m))) ∧
    (∀ (S : Type) [DecidableEq S] (D : Sense S (Num F)) (fs : Fields) (k : S),
      (fs.docs D []).map Prod.fst = ((fs.pairs D).map Prod.fst).reverse.dedup.reverse ∧
        (fs.docs D []).find? (fun f => f.1 = k) =
          (fs.pairs D).reverse.find? fun f => f.1 = k) ∧
    (Fl.Exact → ∀ v : PyVal F, Canonical v → v.depth ≤ maxDepth →
      jsonLoads Fl (dumpsCompact Fl v) = some (.ok v)) := by
  refine ⟨fun d h htame hu => ?_, fun d h htame hu => ?_, fun s => loads_malformed,
    fun S _ D fs k => ?_, fun hF v => jsonLoads_written hF⟩
  · obtain ⟨hjson, nodes, hloads, hrep⟩ := loads_document Fl h htame
    rw [hu, if_neg Bool.false_ne_true] at hjson
    rw [document_codes h hu] at hrep
    exact ⟨_, nodes, hjson, hloads, rfl, hrep⟩
  · obtain ⟨hjson, hloads⟩ := loads_document Fl h htame
    rw [hu, if_pos rfl] at hjson
    exact ⟨hjson, hloads⟩
  · rw [docs_eq_collect]
    exact ⟨Keyed.keys_collect _, Keyed.find_collect k _⟩

theorem readers_agree_list :
    (∃ v nodes, jsonLoads zeros ['[', '1', ']'] = some (.ok v) ∧
      loads zeros ['[', '1', ']'] = some (.ok nodes) ∧ v = .arr [.num (.int ['1'])] ∧
      Rep nodes 0 (v.mapStr codes)) ∧
    jsonLoads zeros (dumpsCompact zeros (.arr [.num (.float (.finite true))])) =
      some (.ok (.arr [.num (.float (.finite true))])) := by
  have hshort : ∀ ds, ds <:+: ['[', '1', ']'] → Digits ds → ds.length ≤ intMaxStrDigits :=
    fun ds hds _ => hds.length_le.trans (by decide)
  have hint : (⟨false, ['1'], none, none⟩ : NumText).Ok :=
    ⟨.inr ⟨'1', [], rfl, by decide, by simp⟩, (fun _ h => by cases h), (fun _ h => by cases h)⟩
  have hspace : Space [] := fun _ h => by cases h
  have hexact : zeros.Exact := fun f => by cases f <;> rfl
  have hcanon : Canonical (.arr [.num (.float (.finite true))] : PyVal Bool) :=
    ⟨⟨trivial, trivial⟩, ⟨trivial, trivial⟩⟩
  exact ⟨(readers_agree zeros).1 ⟨[], .arr (.last [] (.num ⟨false, ['1'], none, none⟩) []), []⟩
      ⟨hspace, ⟨hspace, hint, hspace⟩, hspace⟩ ⟨by decide, hshort⟩ rfl,
    (readers_agree zeros).2.2.2.2 hexact _ hcanon (by decide)⟩

end EngineConsole.JsonArena
