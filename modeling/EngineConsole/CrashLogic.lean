import Mathlib

/-!
# Programs that may fail or be stopped

A program over a state ends with a value, with an error, or by a crash, and leaves a state
in each case (`Prog`). `Triple P m Q E C` says where a run from a state in `P` may end :
in `Q` with a value, in `E` with an error, in `C` after a crash. The conditions `E` and `C`
are those of a whole program, so the rule for sequencing asks of each part that it keeps
them (`Triple.bind`), and a program that does neither has them empty (`Total`).
-/

set_option linter.unusedSectionVars false

namespace EngineConsole

/-- How a run ends. -/
inductive Exit (ε α : Type*) where
  | done (a : α)
  | failed (e : ε)
  | crashed

/-- A program over a state. -/
def Prog (σ ε α : Type) := σ → Exit ε α × σ

variable {σ ε ε' α β : Type}

namespace Prog

/-- Run one program, and after it the other. -/
def andThen (m : Prog σ ε α) (f : α → Prog σ ε β) : Prog σ ε β := fun s =>
  match m s with
  | (.done a, t) => f a t
  | (.failed e, t) => (.failed e, t)
  | (.crashed, t) => (.crashed, t)

instance : Monad (Prog σ ε) where
  pure a := fun s => (.done a, s)
  bind := andThen

/-- End with an error. -/
def fail (e : ε) : Prog σ ε α := fun s => (.failed e, s)

/-- Be stopped. -/
def crash : Prog σ ε α := fun s => (.crashed, s)

/-- Look at the state. -/
def look (f : σ → α) : Prog σ ε α := fun s => (.done (f s), s)

/-- Change the state. -/
def change (f : σ → σ) : Prog σ ε Unit := fun s => (.done (), f s)

/-- A result that is there already. -/
def ofExcept : Except ε α → Prog σ ε α
  | .ok a => pure a
  | .error e => fail e

/-- Name the error anew. -/
def mapError (f : ε → ε') (m : Prog σ ε α) : Prog σ ε' α := fun s =>
  match m s with
  | (.done a, t) => (.done a, t)
  | (.failed e, t) => (.failed (f e), t)
  | (.crashed, t) => (.crashed, t)

/-- Change the state when the program has returned, with a value or an error. -/
def finallyChange (m : Prog σ ε α) (f : σ → σ) : Prog σ ε α := fun s =>
  match m s with
  | (.done a, t) => (.done a, f t)
  | (.failed e, t) => (.failed e, f t)
  | (.crashed, t) => (.crashed, t)

end Prog

/-! ## Triples -/

/-- The run ended as the three conditions say. -/
def Ends (Q : α → σ → Prop) (E : ε → σ → Prop) (C : σ → Prop) : Exit ε α × σ → Prop
  | (.done a, t) => Q a t
  | (.failed e, t) => E e t
  | (.crashed, t) => C t

/-- From a state in `P` the program ends in `Q` with a value, in `E` with an error, or in `C`
after a crash. -/
def Triple (P : σ → Prop) (m : Prog σ ε α) (Q : α → σ → Prop) (E : ε → σ → Prop)
    (C : σ → Prop) : Prop :=
  ∀ s, P s → Ends Q E C (m s)

/-- From a state in `P` the program returns a value, in `Q`. -/
def Total (P : σ → Prop) (m : Prog σ ε α) (Q : α → σ → Prop) : Prop :=
  Triple P m Q (fun _ _ => False) fun _ => False

namespace Triple

variable {P P' : σ → Prop} {m : Prog σ ε α} {Q Q' : α → σ → Prop} {R : β → σ → Prop}
variable {E E₁ : ε → σ → Prop} {E' : ε' → σ → Prop} {C C' : σ → Prop}

theorem conseq (h : Triple P m Q E C) (hP : ∀ s, P' s → P s) (hQ : ∀ a s, Q a s → Q' a s)
    (hE : ∀ e s, E e s → E₁ e s) (hC : ∀ s, C s → C' s) : Triple P' m Q' E₁ C' := by
  intro s hs
  have hm := h s (hP s hs)
  rcases hr : m s with ⟨a | e | _, t⟩ <;> rw [hr] at hm
  exacts [hQ a t hm, hE e t hm, hC t hm]

/-- Strengthen what is known before. -/
theorem pre (h : Triple P m Q E C) (hP : ∀ s, P' s → P s) : Triple P' m Q E C :=
  h.conseq hP (fun _ _ => id) (fun _ _ => id) fun _ => id

/-- Weaken what is known of the value. -/
theorem post (h : Triple P m Q E C) (hQ : ∀ a s, Q a s → Q' a s) : Triple P m Q' E C :=
  h.conseq (fun _ => id) hQ (fun _ _ => id) fun _ => id

/-- Fix the state the program starts in. -/
theorem intro (h : ∀ s, P s → Triple (· = s) m Q E C) : Triple P m Q E C :=
  fun s hs => h s hs s rfl

theorem pure {a : α} (h : ∀ s, P s → Q a s) : Triple P (pure a : Prog σ ε α) Q E C :=
  fun s hs => h s hs

theorem fail {e : ε} (h : ∀ s, P s → E e s) : Triple P (Prog.fail e : Prog σ ε α) Q E C :=
  fun s hs => h s hs

theorem crash (h : ∀ s, P s → C s) : Triple P (Prog.crash : Prog σ ε α) Q E C :=
  fun s hs => h s hs

theorem look {f : σ → α} (h : ∀ s, P s → Q (f s) s) :
    Triple P (Prog.look f : Prog σ ε α) Q E C :=
  fun s hs => h s hs

theorem change {f : σ → σ} {Q : Unit → σ → Prop} (h : ∀ s, P s → Q () (f s)) :
    Triple P (Prog.change f : Prog σ ε Unit) Q E C :=
  fun s hs => h s hs

theorem bind {f : α → Prog σ ε β} (hm : Triple P m Q E C) (hf : ∀ a, Triple (Q a) (f a) R E C) :
    Triple P (m >>= f) R E C := by
  intro s hs
  have h := hm s hs
  show Ends R E C (Prog.andThen m f s)
  unfold Prog.andThen
  rcases hr : m s with ⟨a | e | _, t⟩ <;> rw [hr] at h
  exacts [hf a t h, h, h]

theorem ofExcept {r : Except ε α} (hok : ∀ a, r = .ok a → ∀ s, P s → Q a s)
    (herror : ∀ e, r = .error e → ∀ s, P s → E e s) :
    Triple P (Prog.ofExcept r : Prog σ ε α) Q E C := by
  rcases r with e | a
  exacts [fail (herror e rfl), pure (hok a rfl)]

theorem mapError {f : ε → ε'} (h : Triple P m Q (fun e => E' (f e)) C) :
    Triple P (m.mapError f) Q E' C := by
  intro s hs
  have hm := h s hs
  unfold Prog.mapError
  rcases hr : m s with ⟨a | e | _, t⟩ <;> rw [hr] at hm <;> exact hm

theorem finallyChange {f : σ → σ}
    (h : Triple P m (fun a s => Q a (f s)) (fun e s => E e (f s)) C) :
    Triple P (m.finallyChange f) Q E C := by
  intro s hs
  have hm := h s hs
  unfold Prog.finallyChange
  rcases hr : m s with ⟨a | e | _, t⟩ <;> rw [hr] at hm <;> exact hm

/-- One of two programs, by a test. -/
theorem ite {c : Prop} [Decidable c] {m' : Prog σ ε α} (ht : c → Triple P m Q E C)
    (hf : ¬c → Triple P m' Q E C) : Triple P (if c then m else m') Q E C := by
  by_cases hc : c
  · rw [if_pos hc]
    exact ht hc
  · rw [if_neg hc]
    exact hf hc

/-- What a triple says of a run that returned. -/
theorem done (h : Triple P m Q E C) {s : σ} (hs : P s) {a : α} {t : σ}
    (hr : m s = (.done a, t)) : Q a t := by
  have hm := h s hs
  rwa [hr] at hm

theorem failed (h : Triple P m Q E C) {s : σ} (hs : P s) {e : ε} {t : σ}
    (hr : m s = (.failed e, t)) : E e t := by
  have hm := h s hs
  rwa [hr] at hm

theorem crashed (h : Triple P m Q E C) {s : σ} (hs : P s) {t : σ}
    (hr : m s = (.crashed, t)) : C t := by
  have hm := h s hs
  rwa [hr] at hm

end Triple

/-- A total program returns. -/
theorem Total.returns {P : σ → Prop} {m : Prog σ ε α} {Q : α → σ → Prop} (h : Total P m Q)
    {s : σ} (hs : P s) : ∃ a t, m s = (.done a, t) ∧ Q a t := by
  have hm := h s hs
  rcases hr : m s with ⟨a | e | _, t⟩ <;> rw [hr] at hm
  exacts [⟨a, t, rfl, hm⟩, hm.elim, hm.elim]

end EngineConsole
