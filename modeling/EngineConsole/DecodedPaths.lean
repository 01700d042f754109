import EngineConsole.Security

/-!
# Decoded paths

How `percent_decode` and `from_utf8_lossy` go along a path : what has no `%` stays as it is
(`percentDecode_append`), and an ASCII byte is a character of its own wherever it stands
(`utf8Lossy_split`), so that the segments of a decoded path can be told from its bytes as well
as from its text (`segment_of_bytes`). A text is read from its bytes (`utf8Lossy_text`).
-/

set_option linter.unusedSectionVars false

namespace EngineConsole.Web

/-! ## Escapes -/

/-- What comes before the first `%` is not changed. -/
theorem percentDecode_append : ∀ {a : List UInt8}, 37 ∉ a → ∀ s,
    percentDecode (a ++ s) = a ++ percentDecode s
  | [], _, s => rfl
  | b :: a, h, s => by
    have hb : b ≠ 37 := fun hb => h (by simp [hb])
    have ih := percentDecode_append (fun ha => h (List.mem_cons_of_mem b ha)) s
    rw [List.cons_append, percentDecode.eq_def]
    split
    · rename_i heq
      exact absurd (List.cons.inj heq).1 hb
    · rename_i heq
      obtain ⟨rfl, rfl⟩ := List.cons.inj heq
      rw [ih, List.cons_append]
    · rename_i heq
      cases heq

theorem percentDecode_eq {a : List UInt8} (h : 37 ∉ a) : percentDecode a = a := by
  have := percentDecode_append h []
  rwa [List.append_nil, percentDecode, List.append_nil] at this

/-! ## Characters of more than one byte -/

section
variable {b b₀ b₁ b₂ b₃ : UInt8} {r : List UInt8}

theorem not_isCont (hb : b < 128) : isCont b = false := by
  have : ¬128 ≤ b := UInt8.not_le.2 hb
  simp [isCont, this]

theorem not_second3 (hb : b < 128) : second3 b₀ b = false := by
  have h160 : ¬160 ≤ b := UInt8.not_le.2 (UInt8.lt_trans hb (by decide))
  have h128 : ¬128 ≤ b := UInt8.not_le.2 hb
  simp [second3, isCont, h160, h128]

theorem not_second4 (hb : b < 128) : second4 b₀ b = false := by
  have h144 : ¬144 ≤ b := UInt8.not_le.2 (UInt8.lt_trans hb (by decide))
  have h128 : ¬128 ≤ b := UInt8.not_le.2 hb
  simp [second4, isCont, h144, h128]

/-- The first byte of a character of two, three and four bytes. -/
def lead2 (b : UInt8) : Bool := 194 ≤ b && b ≤ 223
def lead3 (b : UInt8) : Bool := 224 ≤ b && b ≤ 239
def lead4 (b : UInt8) : Bool := 240 ≤ b && b ≤ 244

alias utf8Lossy_def := utf8Lossy.eq_def

theorem utf8Lossy_ascii (hb : b < 128) :
    utf8Lossy (b :: r) = Char.ofNat b.toNat :: utf8Lossy r := by
  rw [utf8Lossy_def]
  exact if_pos hb

theorem utf8Lossy_stray (h : ¬b < 128) (h2 : lead2 b = false) (h3 : lead3 b = false)
    (h4 : lead4 b = false) : utf8Lossy (b :: r) = replacement :: utf8Lossy r := by
  rw [lead2] at h2
  rw [lead3] at h3
  rw [lead4] at h4
  rw [utf8Lossy_def]
  dsimp only
  rw [if_neg h, h2, h3, h4]
  rfl

theorem utf8Lossy_two (h : ¬b₀ < 128) (h2 : lead2 b₀) (h₁ : isCont b₁) :
    utf8Lossy (b₀ :: b₁ :: r) = Char.ofNat (b₀.toNat % 32 * 64 + low6 b₁) :: utf8Lossy r := by
  rw [lead2] at h2
  rw [utf8Lossy_def]
  dsimp only
  rw [if_neg h, if_pos h2, if_pos h₁]

theorem utf8Lossy_two_cut (h : ¬b₀ < 128) (h2 : lead2 b₀) (hr : r.head?.any isCont = false) :
    utf8Lossy (b₀ :: r) = replacement :: utf8Lossy r := by
  rw [lead2] at h2
  rw [utf8Lossy_def]
  dsimp only
  rw [if_neg h, if_pos h2]
  cases r with
  | nil => rfl
  | cons b₁ r =>
    have h₁ : ¬isCont b₁ := by simpa using hr
    exact if_neg h₁

theorem utf8Lossy_three (h : ¬b₀ < 128) (h2 : lead2 b₀ = false) (h3 : lead3 b₀)
    (h₁ : second3 b₀ b₁) (h₂ : isCont b₂) : utf8Lossy (b₀ :: b₁ :: b₂ :: r) =
      Char.ofNat ((b₀.toNat % 16 * 64 + low6 b₁) * 64 + low6 b₂) :: utf8Lossy r := by
  rw [lead2] at h2
  rw [lead3] at h3
  rw [utf8Lossy_def]
  dsimp only
  rw [if_neg h, h2, h3, h₁, h₂]
  rfl

theorem utf8Lossy_three_cut (h : ¬b₀ < 128) (h2 : lead2 b₀ = false) (h3 : lead3 b₀)
    (hr : r.head?.any (second3 b₀) = false) :
    utf8Lossy (b₀ :: r) = replacement :: utf8Lossy r := by
  rw [lead2] at h2
  rw [lead3] at h3
  rw [utf8Lossy_def]
  dsimp only
  rw [if_neg h, h2, h3]
  rcases r with _ | ⟨b₁, _ | ⟨b₂, r⟩⟩
  · rfl
  · have h₁ : second3 b₀ b₁ = false := by simpa using hr
    simp [h₁]
  · have h₁ : second3 b₀ b₁ = false := by simpa using hr
    simp [h₁]

theorem utf8Lossy_three_cut₂ (h : ¬b₀ < 128) (h2 : lead2 b₀ = false) (h3 : lead3 b₀)
    (h₁ : second3 b₀ b₁) (hr : r.head?.any isCont = false) :
    utf8Lossy (b₀ :: b₁ :: r) = replacement :: utf8Lossy r := by
  rw [lead2] at h2
  rw [lead3] at h3
  rw [utf8Lossy_def]
  dsimp only
  rw [if_neg h, h2, h3]
  cases r with
  | nil => simp [h₁, utf8Lossy]
  | cons b₂ r =>
    have h₂ : isCont b₂ = false := by simpa using hr
    simp [h₁, h₂]

theorem utf8Lossy_four (h : ¬b₀ < 128) (h2 : lead2 b₀ = false) (h3 : lead3 b₀ = false)
    (h4 : lead4 b₀) (h₁ : second4 b₀ b₁) (h₂ : isCont b₂) (h₃ : isCont b₃) :
    utf8Lossy (b₀ :: b₁ :: b₂ :: b₃ :: r) =
      Char.ofNat (((b₀.toNat % 8 * 64 + low6 b₁) * 64 + low6 b₂) * 64 + low6 b₃) ::
        utf8Lossy r := by
  rw [lead2] at h2
  rw [lead3] at h3
  rw [lead4] at h4
  rw [utf8Lossy_def]
  dsimp only
  rw [if_neg h, h2, h3, h4, h₁, h₂, h₃]
  rfl

theorem utf8Lossy_four_cut (h : ¬b₀ < 128) (h2 : lead2 b₀ = false) (h3 : lead3 b₀ = false)
    (h4 : lead4 b₀) (hr : r.head?.any (second4 b₀) = false) :
    utf8Lossy (b₀ :: r) = replacement :: utf8Lossy r := by
  rw [lead2] at h2
  rw [lead3] at h3
  rw [lead4] at h4
  rw [utf8Lossy_def]
  dsimp only
  rw [if_neg h, h2, h3, h4]
  rcases r with _ | ⟨b₁, _ | ⟨b₂, _ | ⟨b₃, r⟩⟩⟩
  · rfl
  all_goals
    have h₁ : second4 b₀ b₁ = false := by simpa using hr
    simp [h₁]

theorem utf8Lossy_four_cut₂ (h : ¬b₀ < 128) (h2 : lead2 b₀ = false) (h3 : lead3 b₀ = false)
    (h4 : lead4 b₀) (h₁ : second4 b₀ b₁) (hr : r.head?.any isCont = false) :
    utf8Lossy (b₀ :: b₁ :: r) = replacement :: utf8Lossy r := by
  rw [lead2] at h2
  rw [lead3] at h3
  rw [lead4] at h4
  rw [utf8Lossy_def]
  dsimp only
  rw [if_neg h, h2, h3, h4]
  rcases r with _ | ⟨b₂, _ | ⟨b₃, r⟩⟩
  · simp [h₁, utf8Lossy]
  all_goals
    have h₂ : isCont b₂ = false := by simpa using hr
    simp [h₁, h₂]

theorem utf8Lossy_four_cut₃ (h : ¬b₀ < 128) (h2 : lead2 b₀ = false) (h3 : lead3 b₀ = false)
    (h4 : lead4 b₀) (h₁ : second4 b₀ b₁) (h₂ : isCont b₂) (hr : r.head?.any isCont = false) :
    utf8Lossy (b₀ :: b₁ :: b₂ :: r) = replacement :: utf8Lossy r := by
  rw [lead2] at h2
  rw [lead3] at h3
  rw [lead4] at h4
  rw [utf8Lossy_def]
  dsimp only
  rw [if_neg h, h2, h3, h4]
  cases r with
  | nil => simp [h₁, h₂, utf8Lossy]
  | cons b₃ r =>
    have h₃ : isCont b₃ = false := by simpa using hr
    simp [h₁, h₂, h₃]

end

theorem any_head_append {p : UInt8 → Bool} {b : UInt8} (hb : p b = false) (r c : List UInt8) :
    (r ++ b :: c).head?.any p = r.head?.any p := by
  cases r with
  | nil => simp [hb]
  | cons a r => rfl

/-- An ASCII byte is a character of its own, and ends what is before it. -/
theorem utf8Lossy_split {b : UInt8} (hb : b < 128) (c : List UInt8) : ∀ a : List UInt8,
    utf8Lossy (a ++ b :: c) = utf8Lossy a ++ Char.ofNat b.toNat :: utf8Lossy c
  | [] => utf8Lossy_ascii hb
  | b₀ :: r => by
    -- each case consumes the same bytes with `b :: c` after them as without
    have hhead (p : UInt8 → Bool) (hp : p b = false) := any_head_append hp r c
    have ih := utf8Lossy_split hb c r
    rw [List.cons_append]
    by_cases h : b₀ < 128
    · rw [utf8Lossy_ascii h, utf8Lossy_ascii h, ih, List.cons_append]
    cases h2 : lead2 b₀ with
    | true =>
      cases hr : r.head?.any isCont with
      | false =>
        rw [utf8Lossy_two_cut h h2 ((hhead _ (not_isCont hb)).trans hr),
          utf8Lossy_two_cut h h2 hr, ih, List.cons_append]
      | true =>
        rcases r with _ | ⟨b₁, r⟩
        · cases hr
        · have h₁ : isCont b₁ := by simpa using hr
          rw [List.cons_append, utf8Lossy_two h h2 h₁, utf8Lossy_two h h2 h₁,
            utf8Lossy_split hb c r, List.cons_append]
    | false =>
      cases h3 : lead3 b₀ with
      | true =>
        cases hr : r.head?.any (second3 b₀) with
        | false =>
          rw [utf8Lossy_three_cut h h2 h3 ((hhead _ (not_second3 hb)).trans hr),
            utf8Lossy_three_cut h h2 h3 hr, ih, List.cons_append]
        | true =>
          rcases r with _ | ⟨b₁, r⟩
          · cases hr
          have h₁ : second3 b₀ b₁ := by simpa using hr
          have ih₁ := utf8Lossy_split hb c r
          cases hr₁ : r.head?.any isCont with
          | false =>
            rw [List.cons_append, utf8Lossy_three_cut₂ h h2 h3 h₁
              ((any_head_append (not_isCont hb) r c).trans hr₁),
              utf8Lossy_three_cut₂ h h2 h3 h₁ hr₁, ih₁, List.cons_append]
          | true =>
            rcases r with _ | ⟨b₂, r⟩
            · cases hr₁
            have h₂ : isCont b₂ := by simpa using hr₁
            rw [List.cons_append, List.cons_append, utf8Lossy_three h h2 h3 h₁ h₂,
              utf8Lossy_three h h2 h3 h₁ h₂, utf8Lossy_split hb c r, List.cons_append]
      | false =>
        cases h4 : lead4 b₀ with
        | false =>
          rw [utf8Lossy_stray h h2 h3 h4, utf8Lossy_stray h h2 h3 h4, ih, List.cons_append]
        | true =>
          cases hr : r.head?.any (second4 b₀) with
          | false =>
            rw [utf8Lossy_four_cut h h2 h3 h4 ((hhead _ (not_second4 hb)).trans hr),
              utf8Lossy_four_cut h h2 h3 h4 hr, ih, List.cons_append]
          | true =>
            rcases r with _ | ⟨b₁, r⟩
            · cases hr
            have h₁ : second4 b₀ b₁ := by simpa using hr
            have ih₁ := utf8Lossy_split hb c r
            cases hr₁ : r.head?.any isCont with
            | false =>
              rw [List.cons_append, utf8Lossy_four_cut₂ h h2 h3 h4 h₁
                ((any_head_append (not_isCont hb) r c).trans hr₁),
                utf8Lossy_four_cut₂ h h2 h3 h4 h₁ hr₁, ih₁, List.cons_append]
            | true =>
              rcases r with _ | ⟨b₂, r⟩
              · cases hr₁
              have h₂ : isCont b₂ := by simpa using hr₁
              have ih₂ := utf8Lossy_split hb c r
              cases hr₂ : r.head?.any isCont with
              | false =>
                rw [List.cons_append, List.cons_append, utf8Lossy_four_cut₃ h h2 h3 h4 h₁ h₂
                  ((any_head_append (not_isCont hb) r c).trans hr₂),
                  utf8Lossy_four_cut₃ h h2 h3 h4 h₁ h₂ hr₂, ih₂, List.cons_append]
              | true =>
                rcases r with _ | ⟨b₃, r⟩
                · cases hr₂
                have h₃ : isCont b₃ := by simpa using hr₂
                rw [List.cons_append, List.cons_append, List.cons_append,
                  utf8Lossy_four h h2 h3 h4 h₁ h₂ h₃, utf8Lossy_four h h2 h3 h4 h₁ h₂ h₃,
                  utf8Lossy_split hb c r, List.cons_append]
termination_by a => a.length

/-! ## Segments -/

/-- Where a segment stands. -/
theorem mem_splitOn {α : Type*} [DecidableEq α] {sep : α} {seg : List α} (s : List α)
    (h : seg ∈ s.splitOn sep) : ∃ pre post, s = pre ++ (seg ++ post) ∧
      (pre = [] ∨ ∃ p, pre = p ++ [sep]) ∧ (post = [] ∨ ∃ q, post = sep :: q) := by
  by_cases hsep : sep ∈ s
  · obtain ⟨xs, s', hs, hxs⟩ := List.eq_append_cons_of_mem hsep
    have hlt : s'.length < s.length := by
      rw [hs, List.length_append, List.length_cons]
      omega
    rw [hs] at h ⊢
    rw [List.splitOn_append_cons_self, List.splitOn_eq_singleton hxs, List.singleton_append,
      List.mem_cons] at h
    rcases h with rfl | h
    · exact ⟨[], sep :: s', rfl, .inl rfl, .inr ⟨s', rfl⟩⟩
    · obtain ⟨pre, post, hs', hpre, hpost⟩ := mem_splitOn s' h
      rw [hs']
      refine ⟨xs ++ sep :: pre, post, by simp, .inr ?_, hpost⟩
      rcases hpre with rfl | ⟨p, rfl⟩
      · exact ⟨xs, rfl⟩
      · exact ⟨xs ++ sep :: p, by simp⟩
  · rw [List.splitOn_eq_singleton hsep, List.mem_singleton] at h
    exact ⟨[], [], by simp [h], .inl rfl, .inl rfl⟩
termination_by s.length

/-- A segment that stands alone is a segment. -/
theorem segment_mem {α : Type*} [DecidableEq α] {sep : α} {seg pre post : List α}
    (hseg : sep ∉ seg) (hpre : pre = [] ∨ ∃ p, pre = p ++ [sep])
    (hpost : post = [] ∨ ∃ q, post = sep :: q) : seg ∈ (pre ++ (seg ++ post)).splitOn sep := by
  have hmem : seg ∈ (seg ++ post).splitOn sep := by
    rcases hpost with rfl | ⟨q, rfl⟩
    · rw [List.append_nil, List.splitOn_eq_singleton hseg]
      exact List.mem_singleton_self seg
    · rw [List.splitOn_append_cons_self, List.splitOn_eq_singleton hseg]
      exact List.mem_append_left _ (List.mem_singleton_self seg)
  rcases hpre with rfl | ⟨p, rfl⟩
  · exact hmem
  · rw [List.append_assoc, List.singleton_append, List.splitOn_append_cons_self]
    exact List.mem_append_right _ hmem

/-- ASCII bytes are read one by one. -/
theorem utf8Lossy_append : ∀ {a : List UInt8}, (∀ b ∈ a, b < 128) → ∀ s,
    utf8Lossy (a ++ s) = latin1 a ++ utf8Lossy s
  | [], _, s => rfl
  | b :: a, h, s => by
    rw [List.cons_append, utf8Lossy_ascii (h b List.mem_cons_self),
      utf8Lossy_append (fun c hc => h c (List.mem_cons_of_mem b hc)) s]
    rfl

/-- A segment of ASCII bytes is a segment of the text. -/
theorem segment_of_bytes {seg s : List UInt8} (hseg : ∀ b ∈ seg, b < 128)
    (hslash : '/' ∉ latin1 seg) (h : seg ∈ s.splitOn 47) :
    latin1 seg ∈ (utf8Lossy s).splitOn '/' := by
  obtain ⟨pre, post, rfl, hpre, hpost⟩ := mem_splitOn s h
  have hend : utf8Lossy (seg ++ post) = latin1 seg ++ utf8Lossy post :=
    utf8Lossy_append hseg post
  have hpost' : utf8Lossy post = [] ∨ ∃ q, utf8Lossy post = '/' :: q := by
    rcases hpost with rfl | ⟨q, rfl⟩
    · exact .inl rfl
    · exact .inr ⟨utf8Lossy q, utf8Lossy_ascii (by decide)⟩
  rcases hpre with rfl | ⟨p, rfl⟩
  · rw [List.nil_append, hend, ← List.nil_append (latin1 seg ++ utf8Lossy post)]
    exact segment_mem hslash (.inl rfl) hpost'
  · have htext : utf8Lossy (p ++ [47] ++ (seg ++ post)) =
        utf8Lossy p ++ ['/'] ++ (latin1 seg ++ utf8Lossy post) := by
      rw [List.append_assoc, List.singleton_append, utf8Lossy_split (by decide), hend,
        List.append_assoc]
      rfl
    rw [htext]
    exact segment_mem hslash (.inr ⟨_, rfl⟩) hpost'

/-! ## Encoded characters -/

theorem toNat_byte {n : ℕ} (h : n < 256) : (UInt8.ofNat n).toNat = n := by
  rw [UInt8.toNat_ofNat']
  exact Nat.mod_eq_of_lt h

section
variable {b b₀ b₁ : UInt8}

theorem isCont_iff : isCont b = true ↔ 128 ≤ b.toNat ∧ b.toNat ≤ 191 := by
  simp [isCont, UInt8.le_iff_toNat_le]

theorem lead2_iff : lead2 b = true ↔ 194 ≤ b.toNat ∧ b.toNat ≤ 223 := by
  simp [lead2, UInt8.le_iff_toNat_le]

theorem lead3_iff : lead3 b = true ↔ 224 ≤ b.toNat ∧ b.toNat ≤ 239 := by
  simp [lead3, UInt8.le_iff_toNat_le]

theorem lead4_iff : lead4 b = true ↔ 240 ≤ b.toNat ∧ b.toNat ≤ 244 := by
  simp [lead4, UInt8.le_iff_toNat_le]

theorem second3_of (h : 128 ≤ b₁.toNat ∧ b₁.toNat ≤ 191) (hlo : b₀.toNat = 224 → 160 ≤ b₁.toNat)
    (hhi : b₀.toNat = 237 → b₁.toNat ≤ 159) : second3 b₀ b₁ = true := by
  rw [second3]
  by_cases h224 : b₀ = 224
  · have := hlo (by rw [h224]; rfl)
    simp [h224, UInt8.le_iff_toNat_le, this, h.2]
  rw [if_neg h224]
  by_cases h237 : b₀ = 237
  · have := hhi (by rw [h237]; rfl)
    simp [h237, UInt8.le_iff_toNat_le, this, h.1]
  rw [if_neg h237]
  exact isCont_iff.2 h

theorem second4_of (h : 128 ≤ b₁.toNat ∧ b₁.toNat ≤ 191) (hlo : b₀.toNat = 240 → 144 ≤ b₁.toNat)
    (hhi : b₀.toNat = 244 → b₁.toNat ≤ 143) : second4 b₀ b₁ = true := by
  rw [second4]
  by_cases h240 : b₀ = 240
  · have := hlo (by rw [h240]; rfl)
    simp [h240, UInt8.le_iff_toNat_le, this, h.2]
  rw [if_neg h240]
  by_cases h244 : b₀ = 244
  · have := hhi (by rw [h244]; rfl)
    simp [h244, UInt8.le_iff_toNat_le, this, h.1]
  rw [if_neg h244]
  exact isCont_iff.2 h

end

/-- A byte that continues a character holds its low six bits. -/
theorem cont_byte (n : ℕ) : 128 ≤ (UInt8.ofNat (n % 64 + 128)).toNat ∧
    (UInt8.ofNat (n % 64 + 128)).toNat ≤ 191 ∧ low6 (UInt8.ofNat (n % 64 + 128)) = n % 64 := by
  have hn : n % 64 < 64 := Nat.mod_lt n (by decide)
  rw [low6, toNat_byte (by omega)]
  omega

/-- A character is read from its bytes. -/
theorem utf8Lossy_char (c : Char) (r : List UInt8) :
    utf8Lossy (String.utf8EncodeChar c ++ r) = c :: utf8Lossy r := by
  have hvalid : c.val.toNat < 0xd800 ∨ 0xdfff < c.val.toNat ∧ c.val.toNat < 0x110000 := c.valid
  have hc : Char.ofNat c.val.toNat = c := Char.ofNat_toNat c
  rw [String.utf8EncodeChar]
  generalize c.val.toNat = v at hvalid hc ⊢
  by_cases h1 : v ≤ 0x7f
  · rw [if_pos h1]
    have hb : UInt8.ofNat v < 128 := by
      rw [UInt8.lt_iff_toNat_lt, toNat_byte (by omega)]
      exact Nat.lt_succ_of_le h1
    rw [List.singleton_append, utf8Lossy_ascii hb, toNat_byte (by omega), hc]
  rw [if_neg h1]
  obtain ⟨hlo₀, hhi₀, hlow₀⟩ := cont_byte v
  obtain ⟨hlo₁, hhi₁, hlow₁⟩ := cont_byte (v / 64)
  obtain ⟨hlo₂, hhi₂, hlow₂⟩ := cont_byte (v / 4096)
  by_cases h2 : v ≤ 0x7ff
  · rw [if_pos h2]
    have hb : (UInt8.ofNat (v / 64 % 32 + 192)).toNat = v / 64 % 32 + 192 := toNat_byte (by omega)
    have hhigh : ¬UInt8.ofNat (v / 64 % 32 + 192) < 128 := by
      rw [UInt8.lt_iff_toNat_lt, hb]
      exact Nat.not_lt.2 (by show 128 ≤ _; omega)
    have hlead : lead2 (UInt8.ofNat (v / 64 % 32 + 192)) = true := lead2_iff.2 (by omega)
    rw [List.cons_append, List.singleton_append,
      utf8Lossy_two hhigh hlead (isCont_iff.2 ⟨hlo₀, hhi₀⟩), hb, hlow₀]
    rw [show (v / 64 % 32 + 192) % 32 * 64 + v % 64 = v by omega, hc]
  rw [if_neg h2]
  by_cases h3 : v ≤ 0xffff
  · rw [if_pos h3]
    have hb : (UInt8.ofNat (v / 4096 % 16 + 224)).toNat = v / 4096 % 16 + 224 :=
      toNat_byte (by omega)
    have hb₁ : (UInt8.ofNat (v / 64 % 64 + 128)).toNat = v / 64 % 64 + 128 := toNat_byte (by omega)
    have hhigh : ¬UInt8.ofNat (v / 4096 % 16 + 224) < 128 := by
      rw [UInt8.lt_iff_toNat_lt, hb]
      exact Nat.not_lt.2 (by show 128 ≤ _; omega)
    have hlead2 : lead2 (UInt8.ofNat (v / 4096 % 16 + 224)) = false := by
      rw [Bool.eq_false_iff, ne_eq, lead2_iff]
      omega
    have hlead : lead3 (UInt8.ofNat (v / 4096 % 16 + 224)) = true := lead3_iff.2 (by omega)
    have hsecond : second3 (UInt8.ofNat (v / 4096 % 16 + 224)) (UInt8.ofNat (v / 64 % 64 + 128)) =
        true := second3_of ⟨hlo₁, hhi₁⟩ (by omega) (by omega)
    simp only [List.cons_append, List.nil_append]
    rw [utf8Lossy_three hhigh hlead2 hlead hsecond (isCont_iff.2 ⟨hlo₀, hhi₀⟩), hb, hlow₀, hlow₁]
    rw [show ((v / 4096 % 16 + 224) % 16 * 64 + v / 64 % 64) * 64 + v % 64 = v by omega, hc]
  · rw [if_neg h3]
    have hb : (UInt8.ofNat (v / 262144 % 8 + 240)).toNat = v / 262144 % 8 + 240 :=
      toNat_byte (by omega)
    have hb₂ : (UInt8.ofNat (v / 4096 % 64 + 128)).toNat = v / 4096 % 64 + 128 :=
      toNat_byte (by omega)
    have hhigh : ¬UInt8.ofNat (v / 262144 % 8 + 240) < 128 := by
      rw [UInt8.lt_iff_toNat_lt, hb]
      exact Nat.not_lt.2 (by show 128 ≤ _; omega)
    have hlead2 : lead2 (UInt8.ofNat (v / 262144 % 8 + 240)) = false := by
      rw [Bool.eq_false_iff, ne_eq, lead2_iff]
      omega
    have hlead3 : lead3 (UInt8.ofNat (v / 262144 % 8 + 240)) = false := by
      rw [Bool.eq_false_iff, ne_eq, lead3_iff]
      omega
    have hlead : lead4 (UInt8.ofNat (v / 262144 % 8 + 240)) = true := lead4_iff.2 (by omega)
    have hsecond : second4 (UInt8.ofNat (v / 262144 % 8 + 240))
        (UInt8.ofNat (v / 4096 % 64 + 128)) = true :=
      second4_of ⟨hlo₂, hhi₂⟩ (by omega) (by omega)
    simp only [List.cons_append, List.nil_append]
    rw [utf8Lossy_four hhigh hlead2 hlead3 hlead hsecond (isCont_iff.2 ⟨hlo₁, hhi₁⟩)
      (isCont_iff.2 ⟨hlo₀, hhi₀⟩), hb, hlow₀, hlow₁, hlow₂]
    rw [show (((v / 262144 % 8 + 240) % 8 * 64 + v / 4096 % 64) * 64 + v / 64 % 64) * 64 +
      v % 64 = v by omega, hc]

/-- A text is read from its bytes. -/
theorem utf8Lossy_text (s : Text) : utf8Lossy (s.flatMap String.utf8EncodeChar) = s := by
  induction s with
  | nil => rfl
  | cons c s ih => rw [List.flatMap_cons, utf8Lossy_char, ih]

end EngineConsole.Web
