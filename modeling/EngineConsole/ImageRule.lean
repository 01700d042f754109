import EngineConsole.Patterns
import EngineConsole.Router

/-!
# Which images a policy allows

A policy lists exact image references, `repository:*` and `repository@sha256:*`. The node
(ecnode's `policy.rs`) splits a reference with a grammar and compares its parts; the hub
(`image_allowed` of ec-hub's `nodeview.rs`) compares the reference with the pattern, and with
what stands before the star.

The grammar has one way to split a reference (`splitImage_eq_some`). So both agree
(`mirrored`) unless the image is itself one of the patterns with a star, or is longer than the
references that the node takes; then the hub allows what the node refuses (`not_mirrored`).
-/

set_option linter.unusedSectionVars false

namespace EngineConsole

namespace Images

open Web (Text)

/-! ## The grammar -/

/-- `[a-z0-9]` -/
def lowDigit (c : Char) : Bool :=
  c.isLower || c.isDigit

/-- `[A-Za-z0-9]` -/
def alnum (c : Char) : Bool :=
  c.isAlphanum

/-- `[A-Za-z0-9_]` -/
def tagHead (c : Char) : Bool :=
  c.isAlphanum || c = '_'

/-- `[A-Za-z0-9_.-]` -/
def tagChar (c : Char) : Bool :=
  c.isAlphanum || c = '_' || c = '.' || c = '-'

/-- `[a-f0-9]` -/
def hexDigit (c : Char) : Bool :=
  c.isDigit || 'a' ≤ c && c ≤ 'f'

/-- `[a-z0-9]+` -/
def word : Regex Char :=
  .cat (.cls lowDigit) (.many lowDigit)

/-- `(?:[._]|__|-+)[a-z0-9]+` -/
def moreWord : Regex Char :=
  .cat (.alt (.cls fun c => c = '.' || c = '_')
    (.alt (.lit ['_', '_']) (.cat (.cls fun c => c = '-') (.many fun c => c = '-')))) word

/-- `COMP` -/
def comp : Pattern Char :=
  .cat (.plain word) (.star (.plain moreWord))

/-- `[A-Za-z0-9](?:[A-Za-z0-9-]*[A-Za-z0-9])?` -/
def label : Regex Char :=
  .cat (.cls alnum) (.opt (.cat (.many fun c => alnum c || c = '-') (.cls alnum)))

/-- `(?::[0-9]{1,5})?` -/
def port : Regex Char :=
  .opt (.cat (.lit [':']) (.cat (.cls Char.isDigit) (.atMost Char.isDigit 4)))

/-- `DOMAIN` -/
def domain : Pattern Char :=
  .cat (.cat (.plain label) (.star (.plain (.cat (.lit ['.']) label))))
    (.plain (.cat port (.lit ['/'])))

/-- `repo_re` -/
def repo : Pattern Char :=
  .cat (.opt domain) (.cat comp (.star (.cat (.plain (.lit ['/'])) comp)))

/-- `TAG` -/
def tag : Regex Char :=
  .cat (.cls tagHead) (.atMost tagChar 127)

/-- `sha256:` -/
def sha256 : Text :=
  ['s', 'h', 'a', '2', '5', '6', ':']

/-- `DIGEST` -/
def digest : Regex Char :=
  .cat (.lit sha256) (.exactly hexDigit 64)

/-- `IMAGE_REF` -/
def imageRef : Pattern Char :=
  .cat (.group "repo" repo)
    (.cat (.opt (.cat (.plain (.lit [':'])) (.group "tag" (.plain tag))))
      (.opt (.cat (.plain (.lit ['@'])) (.group "digest" (.plain digest)))))

/-- `PAT_TAG` -/
def patTag : Pattern Char :=
  .cat (.group "repo" repo) (.plain (.lit [':', '*']))

/-- What follows the repository in `PAT_DIGEST`. -/
def anyDigest : Text :=
  '@' :: sha256 ++ ['*']

/-- `PAT_DIGEST` -/
def patDigest : Pattern Char :=
  .cat (.group "repo" repo) (.plain (.lit anyDigest))

/-! ## The node -/

/-- A group of a match. -/
def named (gs : Regex.Groups Char) (name : String) : Option Text :=
  (gs.find? fun g => g.1 = name).map Prod.snd

/-- A reference in its parts. -/
structure Parts where
  repo : Text
  tag : Option Text
  digest : Option Text
deriving DecidableEq

/-- `split_image` -/
def splitImage (r : Text) : Option Parts :=
  if 256 < r.length then none
  else
    (imageRef.captures r).bind fun gs =>
      (named gs "repo").map fun repo => ⟨repo, named gs "tag", named gs "digest"⟩

/-- `valid_image` -/
def validImage (r : Text) : Bool :=
  (splitImage r).isSome

/-- `image_matches` -/
def imageMatches (pattern image : Text) : Bool :=
  match splitImage image with
  | none => false
  | some parts =>
    match patTag.captures pattern with
    | some gs => named gs "repo" = some parts.repo && parts.tag.isSome && parts.digest.isNone
    | none =>
      match patDigest.captures pattern with
      | some gs => named gs "repo" = some parts.repo && parts.digest.isSome && parts.tag.isNone
      | none => validImage pattern && image = pattern

/-- `valid_image_pattern` -/
def validImagePattern (p : Text) : Bool :=
  patTag.isMatch p || patDigest.isMatch p || validImage p

/-- `Policy::image_allowed` -/
def nodeAllows (patterns : List Text) (image : Text) : Bool :=
  patterns.any fun p => imageMatches p image

/-! ## The hub -/

/-- `strip_suffix` -/
def stripSuffix (p suffix : Text) : Option Text :=
  if suffix.isSuffixOf p then some (p.take (p.length - suffix.length)) else none

/-- `strip_prefix` -/
def stripPrefix (s head : Text) : Option Text :=
  if head.isPrefixOf s then some (s.drop head.length) else none

/-- The hub's `DIGEST` -/
def isDigest (d : Text) : Bool :=
  (Regex.exactly hexDigit 64).isMatch d

/-- The hub's `TAG` -/
def isTag (t : Text) : Bool :=
  tag.isMatch t

/-- One pattern of the hub's `image_allowed`. -/
def hubMatches (p image : Text) : Bool :=
  p = image ||
    match stripSuffix p anyDigest with
    | some repo =>
      repo ≠ [] && !repo.contains '*' &&
        (stripPrefix image (repo ++ '@' :: sha256)).any isDigest
    | none =>
      match stripSuffix p [':', '*'] with
      | some repo =>
        repo ≠ [] && !repo.contains '*' && !repo.contains '@' &&
          (stripPrefix image (repo ++ [':'])).any fun t => isTag t && t.getLast? ≠ some '\n'
      | none => false

/-- The hub's `image_allowed` -/
def hubAllows (patterns : List Text) (image : Text) : Bool :=
  patterns.any fun p => hubMatches p image

/-! ## Characters -/

theorem isAlphanum_ne {c d : Char} (h : c.isAlphanum = true) (hd : d.isAlphanum = false) :
    c ≠ d := by
  rintro rfl
  rw [h] at hd
  cases hd

theorem isAlphanum_of_lowDigit {c : Char} (h : lowDigit c = true) : c.isAlphanum = true := by
  unfold lowDigit at h
  rw [Bool.or_eq_true] at h
  rw [Char.isAlphanum, Char.isAlpha, Bool.or_eq_true, Bool.or_eq_true]
  tauto

theorem isAlphanum_of_isDigit {c : Char} (h : c.isDigit = true) : c.isAlphanum = true := by
  rw [Char.isAlphanum, h, Bool.or_true]

/-- A character that is neither part of a word nor one of `._-`. -/
structure Outside (d : Char) : Prop where
  alnum : d.isAlphanum = false
  dot : d ≠ '.'
  low : d ≠ '_'
  hyphen : d ≠ '-'

section

variable {d : Char}

theorem word_over (h : Outside d) : word.Over (· ≠ d) :=
  ⟨fun _ hc => isAlphanum_ne (isAlphanum_of_lowDigit hc) h.alnum,
    fun _ hc => isAlphanum_ne (isAlphanum_of_lowDigit hc) h.alnum⟩

theorem comp_over (h : Outside d) : comp.Over (· ≠ d) := by
  refine ⟨word_over h, ⟨fun c hc => ?_, Regex.over_lit fun c hc => ?_, fun c hc => ?_, fun c hc => ?_⟩,
    word_over h⟩
  · rcases (by simpa using hc : c = '.' ∨ c = '_') with rfl | rfl
    exacts [h.dot.symm, h.low.symm]
  · rcases (by simpa using hc : c = '_') with rfl
    exact h.low.symm
  · rw [of_decide_eq_true hc]
    exact h.hyphen.symm
  · rw [of_decide_eq_true hc]
    exact h.hyphen.symm

theorem label_over (h : Outside d) : label.Over (· ≠ d) := by
  refine ⟨fun c hc => isAlphanum_ne hc h.alnum, fun c hc => ?_,
    fun c hc => isAlphanum_ne hc h.alnum⟩
  rcases (by simpa using hc : alnum c = true ∨ c = '-') with hc | rfl
  · exact isAlphanum_ne hc h.alnum
  · exact h.hyphen.symm

/-- The host of a domain. -/
def host : Pattern Char :=
  .cat (.plain label) (.star (.plain (.cat (.lit ['.']) label)))

theorem host_over (h : Outside d) : host.Over (· ≠ d) :=
  ⟨label_over h, Regex.over_lit fun c hc => by
    rw [List.mem_singleton.1 hc]
    exact h.dot.symm, label_over h⟩

theorem port_over (h : Outside d) (hcolon : d ≠ ':') : port.Over (· ≠ d) := by
  have hdigit (c : Char) (hc : c.isDigit = true) : c ≠ d :=
    isAlphanum_ne (isAlphanum_of_isDigit hc) h.alnum
  refine ⟨Regex.over_lit fun c hc => ?_, hdigit, Regex.over_atMost hdigit 4⟩
  rw [List.mem_singleton.1 hc]
  exact hcolon.symm

/-- The path of a repository. -/
def comps : Pattern Char :=
  .cat comp (.star (.cat (.plain (.lit ['/'])) comp))

theorem comps_over (h : Outside d) (hslash : d ≠ '/') : comps.Over (· ≠ d) :=
  ⟨comp_over h, Regex.over_lit fun c hc => by
    rw [List.mem_singleton.1 hc]
    exact hslash.symm, comp_over h⟩

theorem repo_over (h : Outside d) (hslash : d ≠ '/') (hcolon : d ≠ ':') : repo.Over (· ≠ d) :=
  ⟨⟨host_over h, port_over h hcolon, Regex.over_lit fun c hc => by
    rw [List.mem_singleton.1 hc]
    exact hslash.symm⟩, comps_over h hslash⟩

theorem tag_over (h : Outside d) : tag.Over (· ≠ d) := by
  refine ⟨fun c hc => ?_, Regex.over_atMost (fun c hc => ?_) 127⟩
  · rcases (by simpa [tagHead] using hc : c.isAlphanum = true ∨ c = '_') with hc | rfl
    exacts [isAlphanum_ne hc h.alnum, h.low.symm]
  · have hc' : c.isAlphanum = true ∨ c = '_' ∨ c = '.' ∨ c = '-' := by
      simpa [tagChar, or_assoc] using hc
    rcases hc' with hc | rfl | rfl | rfl
    exacts [isAlphanum_ne hc h.alnum, h.low.symm, h.dot.symm, h.hyphen.symm]

end

theorem outside_star : Outside '*' := ⟨rfl, by decide, by decide, by decide⟩
theorem outside_at : Outside '@' := ⟨rfl, by decide, by decide, by decide⟩
theorem outside_colon : Outside ':' := ⟨rfl, by decide, by decide, by decide⟩
theorem outside_slash : Outside '/' := ⟨rfl, by decide, by decide, by decide⟩
theorem outside_newline : Outside '\n' := ⟨rfl, by decide, by decide, by decide⟩

/-! ## One way to split a reference -/

section

variable {w r t u x y : Text} {c : Char}

theorem not_mem_repo (hw : w ∈ repo.lang) (h : Outside c) (hslash : c ≠ '/') (hcolon : c ≠ ':') :
    c ∉ w :=
  fun hc => Pattern.Over.of_mem (repo_over h hslash hcolon) hw c hc rfl

theorem not_mem_tag (ht : t ∈ tag.lang) (h : Outside c) : c ∉ t :=
  fun hc => Regex.Over.of_mem (tag_over h) ht c hc rfl

theorem repo_ne_nil (hw : w ∈ repo.lang) : w ≠ [] := by
  obtain ⟨x, -, y, hy, rfl⟩ := Pattern.mem_cat.1 hw
  obtain ⟨a, ha, b, -, rfl⟩ := Pattern.mem_cat.1 hy
  obtain ⟨a₁, ha₁, a₂, -, rfl⟩ := Pattern.mem_cat.1 ha
  obtain ⟨c, hc, d, -, rfl⟩ := Regex.mem_cat.1 (show a₁ ∈ word.lang from ha₁)
  obtain ⟨e, -, rfl⟩ := Regex.mem_cls.1 hc
  simp

/-- A slash follows every colon of a repository : the colon stands before a port. -/
theorem slash_of_colon (hw : w ∈ repo.lang) {a b : Text} (hab : w = a ++ ':' :: b) : '/' ∈ b := by
  obtain ⟨x, hx, y, hy, rfl⟩ := Pattern.mem_cat.1 hw
  have hy' : ':' ∉ y := fun hc =>
    Pattern.Over.of_mem (comps_over outside_colon (by decide)) hy _ hc rfl
  rcases Pattern.mem_opt.1 hx with hx | rfl
  · obtain ⟨p, -, q, hq, rfl⟩ := Pattern.mem_cat.1 hx
    obtain ⟨v, -, s, hs, rfl⟩ := Regex.mem_cat.1 (show q ∈ (Regex.cat port (.lit ['/'])).lang from hq)
    rw [Regex.mem_lit.1 hs] at hab
    have hab' : (p ++ v) ++ '/' :: y = a ++ ':' :: b := by simpa using hab
    rcases List.append_eq_append_iff.1 hab' with ⟨e, -, he⟩ | ⟨e, -, he⟩
    · cases e with
      | nil => simp at he
      | cons z e =>
        obtain ⟨-, rfl⟩ := List.cons.inj he
        exact absurd (by simp) hy'
    · cases e with
      | nil => simp at he
      | cons z e =>
        obtain ⟨-, rfl⟩ := List.cons.inj he
        simp
  · rw [List.nil_append] at hab
    exact absurd (by simp [hab]) hy'

/-- The text of a part that may be missing. -/
def after (c : Char) (o : Option Text) : Text :=
  o.elim [] (c :: ·)

/-- What stands before a separator is determined, if the separator is not in it. -/
theorem before_unique (hx : c ∉ x) (hy : c ∉ y) {o o' : Option Text}
    (h : x ++ after c o = y ++ after c o') : x = y ∧ o = o' := by
  induction x generalizing y with
  | nil =>
    cases y with
    | nil =>
      refine ⟨rfl, ?_⟩
      cases o <;> cases o' <;> simp_all [after]
    | cons d y =>
      cases o with
      | none => simp [after] at h
      | some t =>
        have hcd : c = d := (List.cons.inj h).1
        exact absurd (by simp [hcd]) hy
  | cons d x ih =>
    cases y with
    | nil =>
      cases o' with
      | none => simp [after] at h
      | some t =>
        have hcd : d = c := (List.cons.inj h).1
        exact absurd (by simp [hcd]) hx
    | cons e y =>
      obtain ⟨rfl, htail⟩ := List.cons.inj h
      rw [List.mem_cons, not_or] at hx hy
      obtain ⟨rfl, rfl⟩ := ih hx.2 hy.2 htail
      exact ⟨rfl, rfl⟩

/-- The repository of what stands before a digest is determined. -/
theorem repo_unique {r r' : Text} {o o' : Option Text} (hr : r ∈ repo.lang) (hr' : r' ∈ repo.lang)
    (ho : ∀ t ∈ o, '/' ∉ t) (ho' : ∀ t ∈ o', '/' ∉ t) (h : r ++ after ':' o = r' ++ after ':' o') :
    r = r' ∧ o = o' := by
  have hlonger {r r' e : Text} {o o' : Option Text} (hr' : r' ∈ repo.lang) (ho : ∀ t ∈ o, '/' ∉ t)
      (hre : r' = r ++ e) (he : after ':' o = e ++ after ':' o') : e = [] := by
    cases e with
    | nil => rfl
    | cons z e =>
      cases o with
      | none => simp [after] at he
      | some t =>
        obtain ⟨rfl, ht⟩ := List.cons.inj (show ':' :: t = z :: (e ++ after ':' o') from he)
        have hslash := slash_of_colon hr' hre
        exact absurd (ht ▸ List.mem_append_left _ hslash) (ho t rfl)
  have hsame {o o' : Option Text} (h : after ':' o = after ':' o') : o = o' := by
    cases o <;> cases o' <;> simp_all [after]
  rcases List.append_eq_append_iff.1 h with ⟨e, hre, he⟩ | ⟨e, hre, he⟩
  · obtain rfl := hlonger hr' ho hre he
    exact ⟨by simpa using hre.symm, hsame he⟩
  · obtain rfl := hlonger hr ho' hre he
    exact ⟨by simpa using hre, (hsame he).symm⟩

/-- The parts are words of the grammar. -/
structure Parts.Fit (p : Parts) : Prop where
  repo : p.repo ∈ Images.repo.lang
  tag : ∀ t ∈ p.tag, t ∈ Images.tag.lang
  digest : ∀ d ∈ p.digest, d ∈ Images.digest.lang

/-- The reference with these parts. -/
def Parts.text (p : Parts) : Text :=
  p.repo ++ after ':' p.tag ++ after '@' p.digest

theorem Parts.Fit.no_at {p : Parts} (h : p.Fit) : '@' ∉ p.repo ++ after ':' p.tag := by
  intro hat
  rcases List.mem_append.1 hat with hat | hat
  · exact not_mem_repo h.repo outside_at (by decide) (by decide) hat
  · cases ht : p.tag with
    | none => simp [ht, after] at hat
    | some t =>
      rcases List.mem_cons.1 (show '@' ∈ ':' :: t by simpa [ht, after] using hat) with hat | hat
      · exact absurd hat (by decide)
      · exact not_mem_tag (h.tag t ht) outside_at hat

/-- A reference has one way to be split. -/
theorem Parts.Fit.unique {p q : Parts} (hp : p.Fit) (hq : q.Fit) (h : p.text = q.text) : p = q := by
  obtain ⟨hleft, hdigest⟩ := before_unique hp.no_at hq.no_at h
  obtain ⟨hrepo, htag⟩ := repo_unique hp.repo hq.repo
    (fun t ht => not_mem_tag (hp.tag t ht) outside_slash)
    (fun t ht => not_mem_tag (hq.tag t ht) outside_slash) hleft
  cases p
  cases q
  simp_all

/-! ## What the node splits -/

theorem repo_silent : repo.silent = true := by decide

theorem tag_silent : tag.silent = true :=
  Regex.silent_atMost tagChar 127

theorem digest_silent : digest.silent = true :=
  Bool.and_eq_true_iff.2 ⟨Regex.silent_lit _, Regex.silent_exactly hexDigit 64⟩

/-- A part that may be missing is noted with its group. -/
theorem run_part {β : Type} {c : Char} {name : String} {a : Regex Char} (ha : a.silent) {s : Text}
    {gs : Regex.Groups Char} {k : Text → Regex.Groups Char → Option β} {v : β}
    (h : Pattern.run (.opt (.cat (.plain (.lit [c])) (.group name (.plain a)))) s gs k = some v) :
    ∃ o rest, (∀ t ∈ o, t ∈ a.lang) ∧ after c o ++ rest = s ∧
      k rest ((o.map (name, ·)).toList ++ gs) = some v := by
  rcases Option.or_eq_some_iff.1 h with h | ⟨-, h⟩
  · rw [Pattern.run] at h
    obtain ⟨x, rest₁, gs₁, hx, rfl, hgroup, hgs⟩ := Pattern.run_some (.plain (.lit [c])) h
    obtain rfl := hgs rfl
    obtain ⟨t, rest, ht, rfl, hk⟩ := Pattern.run_group_some (a := .plain a) ha hgroup
    refine ⟨some t, rest, fun t' ht' => ?_, ?_, hk⟩
    · rw [← Option.some.inj ht']
      exact ht
    · rw [Regex.mem_lit.1 (show x ∈ (Regex.lit [c]).lang from hx)]
      rfl
  · exact ⟨none, s, fun t ht => absurd ht (by simp), rfl, h⟩

/-- What the grammar captures. -/
theorem captures_imageRef {gs : Regex.Groups Char} (h : imageRef.captures r = some gs) :
    ∃ p : Parts, p.Fit ∧ p.text = r ∧ named gs "repo" = some p.repo ∧ named gs "tag" = p.tag ∧
      named gs "digest" = p.digest := by
  rw [imageRef, Pattern.captures, Pattern.run] at h
  obtain ⟨w, rest₁, hw, rfl, hparts⟩ := Pattern.run_group_some repo_silent h
  rw [Pattern.run] at hparts
  obtain ⟨o, rest₂, ho, rfl, hdigest⟩ := run_part tag_silent hparts
  obtain ⟨o', rest₃, ho', rfl, hend⟩ := run_part digest_silent hdigest
  split_ifs at hend with hrest
  obtain rfl := List.isEmpty_iff.1 hrest
  obtain rfl := Option.some.inj hend
  refine ⟨⟨w, o, o'⟩, ⟨hw, ho, ho'⟩, ?_, ?_⟩
  · simp [Parts.text]
  · cases o <;> cases o' <;> simp [named]

theorem mem_imageRef {p : Parts} (h : p.Fit) : p.text ∈ imageRef.lang := by
  have hpart (c : Char) (name : String) (a : Regex Char) (o : Option Text)
      (ho : ∀ t ∈ o, t ∈ a.lang) :
      after c o ∈ Pattern.lang (.opt (.cat (.plain (.lit [c])) (.group name (.plain a)))) := by
    rw [Pattern.mem_opt]
    cases o with
    | none => exact .inr rfl
    | some t =>
      exact .inl (Pattern.mem_cat.2 ⟨[c], Regex.mem_lit.2 rfl, t, ho t rfl, rfl⟩)
  refine Pattern.mem_cat.2 ⟨p.repo, h.repo, after ':' p.tag ++ after '@' p.digest,
    Pattern.mem_cat.2 ⟨_, hpart ':' "tag" tag p.tag h.tag, _,
      hpart '@' "digest" digest p.digest h.digest, rfl⟩, ?_⟩
  rw [Parts.text, List.append_assoc]

/-- The parts of a reference are those it is made of. -/
theorem splitImage_eq_some {p : Parts} :
    splitImage r = some p ↔ r.length ≤ 256 ∧ p.Fit ∧ p.text = r := by
  unfold splitImage
  by_cases hlen : 256 < r.length
  · rw [if_pos hlen]
    constructor
    · nofun
    · exact fun h => absurd h.1 (by omega)
  · rw [if_neg hlen]
    constructor
    · intro h
      obtain ⟨gs, hgs, h⟩ := Option.bind_eq_some_iff.1 h
      obtain ⟨q, hq, htext, hrepo, htag, hdigest⟩ := captures_imageRef hgs
      rw [hrepo, htag, hdigest] at h
      obtain rfl := Option.some.inj h
      exact ⟨by omega, hq, htext⟩
    · rintro ⟨-, hp, rfl⟩
      obtain ⟨gs, hgs⟩ := Option.isSome_iff_exists.1 (Pattern.captures_of_mem (mem_imageRef hp))
      obtain ⟨q, hq, htext, hrepo, htag, hdigest⟩ := captures_imageRef hgs
      obtain rfl := hq.unique hp htext
      rw [hgs, Option.bind_some, hrepo, htag, hdigest]
      rfl

/-- What a pattern with a star captures is the repository before it. -/
theorem captures_wild {l : Text} {gs : Regex.Groups Char}
    (h : Pattern.captures (.cat (.group "repo" repo) (.plain (.lit l))) r = some gs) :
    ∃ w ∈ repo.lang, r = w ++ l ∧ named gs "repo" = some w := by
  rw [Pattern.captures, Pattern.run] at h
  obtain ⟨w, rest₁, hw, rfl, hlit⟩ := Pattern.run_group_some repo_silent h
  obtain ⟨x, rest, gs', hx, rfl, hend, hgs⟩ := Pattern.run_some (.plain (.lit l)) hlit
  split_ifs at hend with hrest
  obtain rfl := List.isEmpty_iff.1 hrest
  obtain rfl := Option.some.inj hend
  refine ⟨w, hw, ?_, ?_⟩
  · rw [Regex.mem_lit.1 (show x ∈ (Regex.lit l).lang from hx), List.append_nil]
  · rw [hgs (Regex.silent_lit l)]
    rfl

theorem captures_of_wild {l : Text} (hw : w ∈ repo.lang) :
    ∃ gs, Pattern.captures (.cat (.group "repo" repo) (.plain (.lit l))) (w ++ l) = some gs :=
  Option.isSome_iff_exists.1 (Pattern.captures_of_mem
    (Pattern.mem_cat.2 ⟨w, hw, l, Regex.mem_lit.2 rfl, rfl⟩))

/-! ## What a pattern covers -/

theorem stripSuffix_eq_some {l : Text} : stripSuffix r l = some w ↔ r = w ++ l := by
  unfold stripSuffix
  constructor
  · intro h
    split_ifs at h with hsuffix
    obtain ⟨v, rfl⟩ := List.isSuffixOf_iff_suffix.1 hsuffix
    rw [List.length_append, Nat.add_sub_cancel, List.take_left' rfl] at h
    rw [Option.some.inj h]
  · rintro rfl
    rw [if_pos (List.isSuffixOf_iff_suffix.2 (List.suffix_append w l)), List.length_append,
      Nat.add_sub_cancel, List.take_left' rfl]

theorem stripPrefix_eq_some {l : Text} : stripPrefix r l = some w ↔ r = l ++ w := by
  unfold stripPrefix
  constructor
  · intro h
    split_ifs at h with hstarts
    obtain ⟨v, rfl⟩ := List.isPrefixOf_iff_prefix.1 hstarts
    rw [List.drop_left' rfl] at h
    rw [Option.some.inj h]
  · rintro rfl
    rw [if_pos (List.isPrefixOf_iff_prefix.2 (List.prefix_append l w)), List.drop_left' rfl]

/-- The pattern ends with a star. -/
def Wild (p : Text) : Prop :=
  p.getLast? = some '*'

/-- The image is the repository of the pattern with a tag, or with a digest. -/
def Covers (p image : Text) : Prop :=
  ∃ w, '@' ∉ w ∧
    ((p = w ++ [':', '*'] ∧ ∃ t, isTag t = true ∧ image = w ++ ':' :: t) ∨
      (p = w ++ anyDigest ∧ ∃ d, isDigest d = true ∧ image = w ++ '@' :: (sha256 ++ d)))

theorem mem_digest {d : Text} : d ∈ digest.lang ↔ ∃ x, isDigest x = true ∧ d = sha256 ++ x := by
  refine Regex.mem_cat_lit.trans ⟨?_, ?_⟩
  · rintro ⟨x, hx, rfl⟩
    exact ⟨x, Regex.isMatch_iff.2 hx, rfl⟩
  · rintro ⟨x, hx, rfl⟩
    exact ⟨x, Regex.isMatch_iff.1 hx, rfl⟩

theorem star_not_mem {p : Parts} (h : p.Fit) : '*' ∉ p.text := by
  have hdigest : digest.Over (· ≠ '*') := by
    have hlit : (sha256.all fun c => decide (c ≠ '*')) = true := by decide
    refine ⟨Regex.over_lit fun c hc => of_decide_eq_true (List.all_eq_true.1 hlit c hc),
      Regex.over_exactly (fun c hc => ?_) 64⟩
    rintro rfl
    exact absurd hc (by decide)
  intro hmem
  rcases List.mem_append.1 hmem with hmem | hmem
  · rcases List.mem_append.1 hmem with hmem | hmem
    · exact not_mem_repo h.repo outside_star (by decide) (by decide) hmem
    · cases ht : p.tag with
      | none => simp [ht, after] at hmem
      | some t =>
        rw [ht] at hmem
        rcases List.mem_cons.1 (show '*' ∈ ':' :: t from hmem) with hmem | hmem
        · exact absurd hmem (by decide)
        · exact not_mem_tag (h.tag t ht) outside_star hmem
  · cases hd : p.digest with
    | none => simp [hd, after] at hmem
    | some d =>
      rw [hd] at hmem
      rcases List.mem_cons.1 (show '*' ∈ '@' :: d from hmem) with hmem | hmem
      · exact absurd hmem (by decide)
      · exact Regex.Over.of_mem hdigest (h.digest d hd) _ hmem rfl

theorem not_wild_of_valid (h : validImage r = true) : ¬Wild r := by
  obtain ⟨p, hp⟩ := Option.isSome_iff_exists.1 h
  obtain ⟨-, hfit, rfl⟩ := splitImage_eq_some.1 hp
  exact fun hw => star_not_mem hfit (List.mem_of_getLast? hw)

/-- The patterns that a policy takes. -/
theorem pattern_cases (h : validImagePattern r = true) :
    (∃ w ∈ repo.lang, r = w ++ [':', '*']) ∨ (∃ w ∈ repo.lang, r = w ++ anyDigest) ∨
      validImage r = true := by
  rw [validImagePattern, Bool.or_eq_true, Bool.or_eq_true] at h
  rcases h with (h | h) | h
  · obtain ⟨gs, hgs⟩ := Option.isSome_iff_exists.1 h
    obtain ⟨w, hw, hr, -⟩ := captures_wild hgs
    exact .inl ⟨w, hw, hr⟩
  · obtain ⟨gs, hgs⟩ := Option.isSome_iff_exists.1 h
    obtain ⟨w, hw, hr, -⟩ := captures_wild hgs
    exact .inr (.inl ⟨w, hw, hr⟩)
  · exact .inr (.inr h)

/-- A pattern of one kind is not of the other. -/
theorem tag_ne_digest (hw : '@' ∉ w) : w ++ [':', '*'] ≠ u ++ anyDigest := by
  intro h
  have hat : '@' ∈ w ++ [':', '*'] := h ▸ by simp [anyDigest]
  simp [hw] at hat

theorem wild_tag : Wild (w ++ [':', '*']) := by simp [Wild]

theorem wild_digest : Wild (w ++ anyDigest) := by simp [Wild, anyDigest, sha256]

/-- What the hub allows. -/
theorem hubMatches_iff {p image : Text} (hp : validImagePattern p = true) :
    hubMatches p image = true ↔ p = image ∨ Covers p image := by
  unfold hubMatches
  rw [Bool.or_eq_true, decide_eq_true_eq]
  refine or_congr_right ?_
  rcases pattern_cases hp with ⟨w, hw, rfl⟩ | ⟨w, hw, rfl⟩ | hvalid
  · have hat := not_mem_repo hw outside_at (by decide) (by decide)
    have hstar := not_mem_repo hw outside_star (by decide) (by decide)
    have hnone : stripSuffix (w ++ [':', '*']) anyDigest = none :=
      Option.eq_none_iff_forall_ne_some.2 fun u hu => tag_ne_digest hat (stripSuffix_eq_some.1 hu)
    rw [hnone, stripSuffix_eq_some.2 rfl]
    simp only [Bool.and_eq_true, decide_eq_true_eq, Option.any_eq_true, stripPrefix_eq_some,
      Bool.not_eq_true', ne_eq]
    constructor
    · rintro ⟨-, t, rfl, ht, -⟩
      exact ⟨w, hat, .inl ⟨rfl, t, ht, by simp⟩⟩
    · rintro ⟨u, hu, ⟨heq, t, ht, rfl⟩ | ⟨heq, -⟩⟩
      · obtain rfl := List.append_cancel_right heq
        refine ⟨⟨⟨repo_ne_nil hw, by simpa using hstar⟩, by simpa using hat⟩, t, by simp, ht, ?_⟩
        exact fun hlast => not_mem_tag (Regex.isMatch_iff.1 ht) outside_newline
          (List.mem_of_getLast? hlast)
      · exact absurd heq (tag_ne_digest hat)
  · have hat := not_mem_repo hw outside_at (by decide) (by decide)
    have hstar := not_mem_repo hw outside_star (by decide) (by decide)
    rw [stripSuffix_eq_some.2 rfl]
    simp only [Bool.and_eq_true, decide_eq_true_eq, Option.any_eq_true, stripPrefix_eq_some,
      Bool.not_eq_true', ne_eq]
    constructor
    · rintro ⟨-, d, rfl, hd⟩
      exact ⟨w, hat, .inr ⟨rfl, d, hd, by simp⟩⟩
    · rintro ⟨u, hu, ⟨heq, -⟩ | ⟨heq, d, hd, rfl⟩⟩
      · exact absurd heq.symm (tag_ne_digest hu)
      · obtain rfl := List.append_cancel_right heq
        exact ⟨⟨repo_ne_nil hw, by simpa using hstar⟩, d, by simp, hd⟩
  · have hwild := not_wild_of_valid hvalid
    have hnone : stripSuffix p anyDigest = none :=
      Option.eq_none_iff_forall_ne_some.2 fun u hu =>
        hwild (stripSuffix_eq_some.1 hu ▸ wild_digest)
    have hnone' : stripSuffix p [':', '*'] = none :=
      Option.eq_none_iff_forall_ne_some.2 fun u hu => hwild (stripSuffix_eq_some.1 hu ▸ wild_tag)
    rw [hnone, hnone']
    constructor
    · nofun
    · rintro ⟨u, -, ⟨heq, -⟩ | ⟨heq, -⟩⟩
      · exact absurd (heq ▸ wild_tag) hwild
      · exact absurd (heq ▸ wild_digest) hwild

/-- A pattern with a star is not one with the other. -/
theorem captures_eq_none {l : Text} (h : ∀ u ∈ repo.lang, r ≠ u ++ l) :
    Pattern.captures (.cat (.group "repo" repo) (.plain (.lit l))) r = none := by
  refine Option.eq_none_iff_forall_ne_some.2 fun gs hgs => ?_
  obtain ⟨u, hu, hr, -⟩ := captures_wild hgs
  exact h u hu hr

theorem named_of_wild {l : Text} (hw : w ∈ repo.lang) :
    ∃ gs, Pattern.captures (.cat (.group "repo" repo) (.plain (.lit l))) (w ++ l) = some gs ∧
      named gs "repo" = some w := by
  obtain ⟨gs, hgs⟩ := captures_of_wild (l := l) hw
  obtain ⟨u, -, heq, hnamed⟩ := captures_wild hgs
  obtain rfl := List.append_cancel_right heq
  exact ⟨gs, hgs, hnamed⟩

theorem imageMatches_tag {image : Text} (hw : w ∈ repo.lang) :
    imageMatches (w ++ [':', '*']) image = true ↔
      ∃ t, splitImage image = some ⟨w, some t, none⟩ := by
  obtain ⟨gs, hgs, hnamed⟩ := named_of_wild (l := [':', '*']) hw
  have hcaptures : patTag.captures (w ++ [':', '*']) = some gs := hgs
  unfold imageMatches
  cases hsplit : splitImage image with
  | none => simp
  | some parts =>
    obtain ⟨repo, tag, digest⟩ := parts
    rw [hcaptures]
    dsimp only
    rw [hnamed]
    simp only [Bool.and_eq_true, decide_eq_true_eq, Option.some_inj, Parts.mk.injEq,
      Option.isSome_iff_exists, Option.isNone_iff_eq_none]
    constructor
    · rintro ⟨⟨rfl, t, rfl⟩, rfl⟩
      exact ⟨t, rfl, rfl, rfl⟩
    · rintro ⟨t, rfl, rfl, rfl⟩
      exact ⟨⟨rfl, t, rfl⟩, rfl⟩

theorem imageMatches_digest {image : Text} (hw : w ∈ repo.lang) :
    imageMatches (w ++ anyDigest) image = true ↔
      ∃ d, splitImage image = some ⟨w, none, some d⟩ := by
  obtain ⟨gs, hgs, hnamed⟩ := named_of_wild (l := anyDigest) hw
  have hcaptures : patDigest.captures (w ++ anyDigest) = some gs := hgs
  have hnone : patTag.captures (w ++ anyDigest) = none :=
    captures_eq_none fun u hu heq =>
      tag_ne_digest (not_mem_repo hu outside_at (by decide) (by decide)) heq.symm
  unfold imageMatches
  cases hsplit : splitImage image with
  | none => simp
  | some parts =>
    obtain ⟨repo, tag, digest⟩ := parts
    rw [hnone, hcaptures]
    dsimp only
    rw [hnamed]
    simp only [Bool.and_eq_true, decide_eq_true_eq, Option.some_inj, Parts.mk.injEq,
      Option.isSome_iff_exists, Option.isNone_iff_eq_none]
    constructor
    · rintro ⟨⟨rfl, d, rfl⟩, rfl⟩
      exact ⟨d, rfl, rfl, rfl⟩
    · rintro ⟨d, rfl, rfl, rfl⟩
      exact ⟨⟨rfl, d, rfl⟩, rfl⟩

theorem imageMatches_exact {p image : Text} (hp : validImage p = true) :
    imageMatches p image = true ↔ p = image := by
  have hwild := not_wild_of_valid hp
  have hnone : patTag.captures p = none :=
    captures_eq_none fun u _ heq => hwild (heq ▸ wild_tag)
  have hnone' : patDigest.captures p = none :=
    captures_eq_none fun u _ heq => hwild (heq ▸ wild_digest)
  unfold imageMatches
  rw [hnone, hnone', hp]
  cases hsplit : splitImage image with
  | none =>
    refine ⟨nofun, ?_⟩
    rintro rfl
    rw [validImage, hsplit] at hp
    cases hp
  | some parts => simp [eq_comm]

/-- What the node allows. -/
theorem imageMatches_iff {p image : Text} (hp : validImagePattern p = true) :
    imageMatches p image = true ↔
      image.length ≤ 256 ∧ (p = image ∧ ¬Wild p ∨ Covers p image) := by
  rcases pattern_cases hp with ⟨w, hw, rfl⟩ | ⟨w, hw, rfl⟩ | hvalid
  · have hat := not_mem_repo hw outside_at (by decide) (by decide)
    rw [imageMatches_tag hw]
    constructor
    · rintro ⟨t, ht⟩
      obtain ⟨hlen, hfit, rfl⟩ := splitImage_eq_some.1 ht
      refine ⟨hlen, .inr ⟨w, hat, .inl ⟨rfl, t, ?_, by simp [Parts.text, after]⟩⟩⟩
      exact Regex.isMatch_iff.2 (hfit.tag t rfl)
    · rintro ⟨hlen, ⟨-, hwild⟩ | ⟨u, -, ⟨heq, t, ht, rfl⟩ | ⟨heq, -⟩⟩⟩
      · exact absurd wild_tag hwild
      · obtain rfl := List.append_cancel_right heq
        refine ⟨t, splitImage_eq_some.2 ⟨hlen, ⟨hw, ?_, nofun⟩, by simp [Parts.text, after]⟩⟩
        rintro _ ⟨⟩
        exact Regex.isMatch_iff.1 ht
      · exact absurd heq (tag_ne_digest hat)
  · have hat := not_mem_repo hw outside_at (by decide) (by decide)
    rw [imageMatches_digest hw]
    constructor
    · rintro ⟨d, hd⟩
      obtain ⟨hlen, hfit, rfl⟩ := splitImage_eq_some.1 hd
      obtain ⟨x, hx, hdx⟩ := mem_digest.1 (hfit.digest d rfl)
      refine ⟨hlen, .inr ⟨w, hat, .inr ⟨rfl, x, hx, ?_⟩⟩⟩
      simp [Parts.text, after, hdx]
    · rintro ⟨hlen, ⟨-, hwild⟩ | ⟨u, hu, ⟨heq, -⟩ | ⟨heq, d, hd, rfl⟩⟩⟩
      · exact absurd wild_digest hwild
      · exact absurd heq.symm (tag_ne_digest hu)
      · obtain rfl := List.append_cancel_right heq
        refine ⟨sha256 ++ d, splitImage_eq_some.2 ⟨hlen, ⟨hw, nofun, ?_⟩, ?_⟩⟩
        · rintro _ ⟨⟩
          exact mem_digest.2 ⟨d, hd, rfl⟩
        · simp [Parts.text, after]
  · have hwild := not_wild_of_valid hvalid
    rw [imageMatches_exact hvalid]
    constructor
    · rintro rfl
      obtain ⟨parts, hparts⟩ := Option.isSome_iff_exists.1 hvalid
      exact ⟨(splitImage_eq_some.1 hparts).1, .inl ⟨rfl, hwild⟩⟩
    · rintro ⟨-, ⟨rfl, -⟩ | ⟨u, -, ⟨heq, -⟩ | ⟨heq, -⟩⟩⟩
      · rfl
      · exact absurd (heq ▸ wild_tag) hwild
      · exact absurd (heq ▸ wild_digest) hwild

theorem validImage_of_matches {p image : Text} (h : imageMatches p image = true) :
    validImage image = true := by
  unfold imageMatches at h
  split at h
  · cases h
  · next parts hparts => rw [validImage, hparts, Option.isSome_some]

/-- The hub goes beyond the node : the image is a pattern with a star, or one covers it and it is
too long to be a reference. -/
def Beyond (patterns : List Text) (image : Text) : Prop :=
  ∃ p ∈ patterns, Wild p ∧ p = image ∨ 256 < image.length ∧ Covers p image

/-- The hub allows the valid images that the node allows, unless the image is one of the patterns
with a star, or one covers it and it is longer than 256 characters. -/
theorem mirrored {patterns : List Text} (h : ∀ p ∈ patterns, validImagePattern p = true)
    (image : Text) :
    hubAllows patterns image = (nodeAllows patterns image && validImage image) ↔
      ¬Beyond patterns image := by
  have hvalid : nodeAllows patterns image = true → validImage image = true := by
    intro hnode
    obtain ⟨p, -, hp⟩ := List.any_eq_true.1 hnode
    exact validImage_of_matches hp
  have hnode : (nodeAllows patterns image && validImage image) = nodeAllows patterns image := by
    cases hn : nodeAllows patterns image with
    | false => rfl
    | true => rw [hvalid hn, Bool.true_and]
  rw [hnode, Bool.eq_iff_iff, hubAllows, nodeAllows, List.any_eq_true, List.any_eq_true]
  constructor
  · rintro heq ⟨p, hp, ⟨hwild, rfl⟩ | ⟨hlong, hcovers⟩⟩
    · obtain ⟨q, hq, hmatches⟩ := heq.1 ⟨p, hp, (hubMatches_iff (h p hp)).2 (.inl rfl)⟩
      exact not_wild_of_valid (validImage_of_matches hmatches) hwild
    · obtain ⟨q, hq, hmatches⟩ := heq.1 ⟨p, hp, (hubMatches_iff (h p hp)).2 (.inr hcovers)⟩
      have hlen := ((imageMatches_iff (h q hq)).1 hmatches).1
      omega
  · intro hbeyond
    constructor
    · rintro ⟨p, hp, hmatches⟩
      refine ⟨p, hp, (imageMatches_iff (h p hp)).2 ?_⟩
      rcases (hubMatches_iff (h p hp)).1 hmatches with rfl | hcovers
      · have hwild : ¬Wild p := fun hw => hbeyond ⟨p, hp, .inl ⟨hw, rfl⟩⟩
        rcases pattern_cases (h p hp) with ⟨w, -, rfl⟩ | ⟨w, -, rfl⟩ | hv
        · exact absurd wild_tag hwild
        · exact absurd wild_digest hwild
        · exact (imageMatches_iff (h p hp)).1 ((imageMatches_exact hv).2 rfl)
      · refine ⟨?_, .inr hcovers⟩
        by_contra hlong
        exact hbeyond ⟨p, hp, .inr ⟨by omega, hcovers⟩⟩
    · rintro ⟨p, hp, hmatches⟩
      refine ⟨p, hp, (hubMatches_iff (h p hp)).2 ?_⟩
      rcases ((imageMatches_iff (h p hp)).1 hmatches).2 with ⟨rfl, -⟩ | hcovers
      · exact .inl rfl
      · exact .inr hcovers

end

/-! ## Images -/

/-- `a/b:*` -/
def anyTag : Text := "a/b:*"

/-- A tag of the repository is allowed by both. -/
theorem mirrored_tag :
    hubAllows [anyTag] "a/b:1" = (nodeAllows [anyTag] "a/b:1" && validImage "a/b:1") := by
  refine (mirrored (by decide +kernel) _).2 ?_
  rintro ⟨p, hp, ⟨-, heq⟩ | ⟨hlong, -⟩⟩
  · rw [List.mem_singleton.1 hp] at heq
    exact absurd heq (by decide)
  · exact absurd hlong (by decide)

/-- The pattern itself is allowed by the hub only, and so is a reference of more than 256
characters. -/
theorem not_mirrored :
    ¬(∀ (patterns : List Text) (image : Text), (∀ p ∈ patterns, validImagePattern p = true) →
      hubAllows patterns image = (nodeAllows patterns image && validImage image)) ∧
    ¬(∀ (patterns : List Text) (image : Text), (∀ p ∈ patterns, validImagePattern p = true) →
      (∀ p ∈ patterns, p ≠ image) →
      hubAllows patterns image = (nodeAllows patterns image && validImage image)) := by
  refine ⟨fun hall => ?_, fun hall => ?_⟩
  · have heq := hall [anyTag] anyTag (by decide +kernel)
    exact absurd heq (by decide +kernel)
  · have heq := hall [List.replicate 300 'a' ++ [':', '*']] (List.replicate 300 'a' ++ [':', '1'])
      (by decide +kernel) (by decide +kernel)
    exact absurd heq (by decide +kernel)

end Images

end EngineConsole
