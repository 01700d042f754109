import Mathlib

/-!
# Lines as Python splits them

`str.splitlines()` as the hub has it (`services/common.rs`) : a text is cut at every line break
that Python knows, CRLF being one, and the breaks are left out. A text without a break is one
line, and a break ends the line before it (`pySplitlines_line`), so a text made of lines is cut
into them.
-/

set_option linter.unusedSectionVars false

namespace EngineConsole.PyLines

abbrev Text := List Char

/-- The line boundaries Python recognises. -/
def isBreak (c : Char) : Bool :=
  c = '\n' || c = '\r' || c = '\x0b' || c = '\x0c' || c = '\x1c' || c = '\x1d' || c = '\x1e' ||
    c = '\u0085' || c = '\u2028' || c = '\u2029'

/-- The lines from here on, after the characters `line` of the first. -/
def splitFrom (line : Text) : Text → List Text
  | [] => if line = [] then [] else [line]
  | '\r' :: '\n' :: s => line :: splitFrom [] s
  | c :: s => if isBreak c then line :: splitFrom [] s else splitFrom (line ++ [c]) s

/-- `py_splitlines` -/
def pySplitlines (s : Text) : List Text :=
  splitFrom [] s

/-- No line break in the text. -/
def Unbroken (s : Text) : Prop :=
  ∀ c ∈ s, isBreak c = false

variable {c : Char} {s t line : Text}

/-- A break ends the line, but for a carriage return before a line feed. -/
theorem splitFrom_step (line s : Text) (h : c = '\r' → s.head? ≠ some '\n') :
    splitFrom line (c :: s) =
      if isBreak c then line :: splitFrom [] s else splitFrom (line ++ [c]) s := by
  rw [splitFrom.eq_def]
  split
  · contradiction
  · rename_i heq
    obtain ⟨hc, hs⟩ := List.cons.inj heq
    exact absurd (by rw [hs]; rfl) (h hc)
  · rename_i heq
    obtain ⟨rfl, rfl⟩ := List.cons.inj heq
    rfl

theorem splitFrom_cons (h : isBreak c = false) (line s : Text) :
    splitFrom line (c :: s) = splitFrom (line ++ [c]) s := by
  have hcr : c ≠ '\r' := by
    rintro rfl
    cases h
  rw [splitFrom_step line s fun hr => absurd hr hcr, if_neg (Bool.eq_false_iff.1 h)]

theorem splitFrom_append (h : Unbroken s) (line t : Text) :
    splitFrom line (s ++ t) = splitFrom (line ++ s) t := by
  induction s generalizing line with
  | nil => rw [List.nil_append, List.append_nil]
  | cons c s ih =>
    rw [List.cons_append, splitFrom_cons (h c List.mem_cons_self),
      ih fun x hx => h x (List.mem_cons_of_mem _ hx), List.append_assoc]
    rfl

/-- A line and its end. -/
theorem pySplitlines_line (h : Unbroken s) (t : Text) :
    pySplitlines (s ++ '\n' :: t) = s :: pySplitlines t := by
  have hlf : '\n' ≠ '\r' := by decide
  rw [pySplitlines, splitFrom_append h, List.nil_append, splitFrom_step s t fun hr => absurd hr hlf,
    if_pos (by decide)]
  rfl

theorem Unbroken.append (hs : Unbroken s) (ht : Unbroken t) : Unbroken (s ++ t) :=
  fun c hc => (List.mem_append.1 hc).elim (hs c) (ht c)

theorem Unbroken.cons (hc : isBreak c = false) (hs : Unbroken s) : Unbroken (c :: s) := by
  intro x hx
  rcases List.mem_cons.1 hx with rfl | hx
  exacts [hc, hs x hx]

theorem Unbroken.lf (h : Unbroken s) : '\n' ∉ s :=
  fun hmem => Bool.noConfusion (h _ hmem)

/-- A text without a break is one line, unless it is empty. -/
theorem pySplitlines_unbroken (h : Unbroken s) :
    pySplitlines s = if s = [] then [] else [s] := by
  have hs := splitFrom_append h [] []
  rw [List.append_nil, List.nil_append] at hs
  rw [pySplitlines, hs]
  rfl

/-- Printable ASCII has no line break. -/
theorem isBreak_of_printable (hlo : 0x20 ≤ c.toNat) (hhi : c.toNat ≤ 0x7e) :
    isBreak c = false := by
  simp only [isBreak, Bool.or_eq_false_iff, decide_eq_false_iff_not]
  refine ⟨⟨⟨⟨⟨⟨⟨⟨⟨?_, ?_⟩, ?_⟩, ?_⟩, ?_⟩, ?_⟩, ?_⟩, ?_⟩, ?_⟩, ?_⟩ <;>
    · rintro rfl
      revert hlo hhi
      decide

/-- The lines of a text that ends in a line feed are there whatever comes after. -/
theorem splitFrom_lf (t : Text) (a line : Text) :
    splitFrom line (a ++ '\n' :: t) = splitFrom line (a ++ ['\n']) ++ pySplitlines t := by
  induction line, a using splitFrom.induct with
  | case1 | case2 line hne =>
    have hlf : '\n' ≠ '\r' := by decide
    rw [List.nil_append, List.nil_append, splitFrom_step _ _ fun h => absurd h hlf,
      splitFrom_step _ _ fun h => absurd h hlf, if_pos (by decide), if_pos (by decide)]
    rfl
  | case3 line s ih => exact congrArg (line :: ·) ih
  | case4 line c s hcr hc ih =>
    by_cases hend : c = '\r' ∧ s = []
    · rw [hend.1, hend.2]
      rfl
    have hhead (u : Text) : c = '\r' → (s ++ '\n' :: u).head? ≠ some '\n' := by
      rintro hr
      cases s with
      | nil => exact absurd ⟨hr, rfl⟩ hend
      | cons d s =>
        intro hd
        obtain rfl := Option.some.inj hd
        exact hcr s hr rfl
    rw [List.cons_append, List.cons_append, splitFrom_step _ _ (hhead t),
      splitFrom_step _ _ (hhead []), if_pos hc, if_pos hc, ih]
    rfl
  | case5 line c s hcr hc ih =>
    have hr : c ≠ '\r' := by
      rintro rfl
      exact hc rfl
    rw [List.cons_append, List.cons_append, splitFrom_step _ _ fun h => absurd h hr,
      splitFrom_step _ _ fun h => absurd h hr, if_neg hc, if_neg hc, ih]

/-- The lines of a line that ends in a line feed come first. -/
theorem pySplitlines_lf (a t : Text) :
    pySplitlines (a ++ '\n' :: t) = pySplitlines (a ++ ['\n']) ++ pySplitlines t :=
  splitFrom_lf t a []

theorem head_ne (h : ∀ u, c = '\r' → s = '\n' :: u → False) : c = '\r' → s.head? ≠ some '\n' := by
  intro hr hd
  obtain ⟨u, rfl⟩ := List.head?_eq_some_iff.1 hd
  exact h u hr rfl

/-- No line has a break. -/
theorem unbroken_of_mem : ∀ {s line : Text}, Unbroken line → ∀ x ∈ splitFrom line s, Unbroken x := by
  intro s line hline
  induction line, s using splitFrom.induct with
  | case1 =>
    intro x hx
    cases hx
  | case2 line hne =>
    intro x hx
    have hlast : splitFrom line [] = [line] := if_neg hne
    rw [hlast, List.mem_singleton] at hx
    exact hx ▸ hline
  | case3 line s ih =>
    intro x hx
    rcases List.mem_cons.1 hx with rfl | hx
    · exact hline
    · exact ih (fun _ h => by cases h) x hx
  | case4 line c s hcr hc ih =>
    intro x hx
    rw [splitFrom_step _ _ (head_ne hcr), if_pos hc, List.mem_cons] at hx
    rcases hx with rfl | hx
    · exact hline
    · exact ih (fun _ h => by cases h) x hx
  | case5 line c s hcr hc ih =>
    intro x hx
    rw [splitFrom_step _ _ (head_ne hcr), if_neg hc] at hx
    refine ih (fun y hy => ?_) x hx
    rcases List.mem_append.1 hy with hy | hy
    · exact hline y hy
    · rw [List.mem_singleton.1 hy]
      exact Bool.eq_false_iff.2 hc

end EngineConsole.PyLines
