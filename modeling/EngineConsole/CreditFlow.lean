import Mathlib

/-!
# One direction of a credit-controlled stream

A sender may have at most a window `W` of bytes outstanding. It spends credit when it
takes bytes to send; the receiver gives credit back once the bytes it consumed and has
not granted yet reach a threshold `T`. `CreditFlow W T` is the `Account` of the window
with its laws : every byte of it is the sender's credit, in flight, held by the receiver,
consumed and not yet granted, or in a grant on its way (`conserve`). The laws are fields,
so each operation keeps them by construction.

What is in flight always fits the window the receiver has open (`inflight_le_open`), and
with `T ≤ W` a direction in which nothing moves has credit left (`credit_pos_of_quiet`) :
the threshold cannot wedge the sender.
-/

namespace EngineConsole

/-- Where the bytes of a window are. -/
@[ext]
structure Account where
  /-- The sender may still send. -/
  credit : ℤ
  /-- Taken by the sender, not yet with the receiver. -/
  inflight : ℤ
  /-- With the receiver, not yet consumed. -/
  held : ℤ
  /-- Consumed, not yet granted back. -/
  unacked : ℤ
  /-- Granted back, not yet with the sender. -/
  granting : ℤ

/-- The account of a window of `W` bytes with grants of at least `T` bytes. -/
structure CreditFlow (W T : ℤ) extends Account where
  credit_nonneg : 0 ≤ credit
  inflight_nonneg : 0 ≤ inflight
  held_nonneg : 0 ≤ held
  unacked_nonneg : 0 ≤ unacked
  granting_nonneg : 0 ≤ granting
  unacked_lt : unacked < T
  conserve : credit + inflight + held + unacked + granting = W

namespace CreditFlow

variable {W T : ℤ}

/-- A fresh window : all of it is the sender's credit. -/
def fresh (hW : 0 ≤ W) (hT : 0 < T) : CreditFlow W T where
  credit := W
  inflight := 0
  held := 0
  unacked := 0
  granting := 0
  credit_nonneg := hW
  inflight_nonneg := le_refl 0
  held_nonneg := le_refl 0
  unacked_nonneg := le_refl 0
  granting_nonneg := le_refl 0
  unacked_lt := hT
  conserve := by omega

variable (f : CreditFlow W T)

/-! ## The operations -/

/-- The sender takes `n` bytes of its credit. -/
def send (n : ℤ) (hn : 0 ≤ n) (hc : n ≤ f.credit) : CreditFlow W T :=
  { f with
    credit := f.credit - n
    inflight := f.inflight + n
    credit_nonneg := by omega
    inflight_nonneg := by have := f.inflight_nonneg; omega
    conserve := by have := f.conserve; omega }

/-- `n` bytes in flight arrive. -/
def arrive (n : ℤ) (hn : 0 ≤ n) (hi : n ≤ f.inflight) : CreditFlow W T :=
  { f with
    inflight := f.inflight - n
    held := f.held + n
    inflight_nonneg := by omega
    held_nonneg := by have := f.held_nonneg; omega
    conserve := by have := f.conserve; omega }

/-- The receiver consumes `n` bytes and the threshold is not reached. -/
def consume (n : ℤ) (hn : 0 ≤ n) (hh : n ≤ f.held) (hT : f.unacked + n < T) :
    CreditFlow W T :=
  { f with
    held := f.held - n
    unacked := f.unacked + n
    held_nonneg := by omega
    unacked_nonneg := by have := f.unacked_nonneg; omega
    unacked_lt := hT
    conserve := by have := f.conserve; omega }

/-- The receiver consumes `n` bytes and grants back all it has not granted yet. -/
def grant (n : ℤ) (hn : 0 ≤ n) (hh : n ≤ f.held) : CreditFlow W T :=
  { f with
    held := f.held - n
    unacked := 0
    granting := f.granting + (f.unacked + n)
    held_nonneg := by omega
    unacked_nonneg := le_refl 0
    unacked_lt := by have := f.unacked_lt; have := f.unacked_nonneg; omega
    granting_nonneg := by have := f.granting_nonneg; have := f.unacked_nonneg; omega
    conserve := by have := f.conserve; omega }

/-- A grant of `n` bytes reaches the sender. -/
def receive (n : ℤ) (hn : 0 ≤ n) (hg : n ≤ f.granting) : CreditFlow W T :=
  { f with
    credit := f.credit + n
    granting := f.granting - n
    credit_nonneg := by have := f.credit_nonneg; omega
    granting_nonneg := by omega
    conserve := by have := f.conserve; omega }

/-! ## What the account gives -/

/-- What is in flight fits the window the receiver has open. -/
theorem inflight_le_open : f.inflight ≤ W - f.held - f.unacked := by
  have := f.conserve
  have := f.credit_nonneg
  have := f.granting_nonneg
  omega

theorem held_le : f.held ≤ W := by
  have := f.inflight_le_open
  have := f.inflight_nonneg
  have := f.unacked_nonneg
  omega

theorem credit_add_granting_le : f.credit + f.granting ≤ W := by
  have := f.conserve
  have := f.inflight_nonneg
  have := f.held_nonneg
  have := f.unacked_nonneg
  omega

/-- With nothing in flight, nothing held and no grant under way, the sender has credit. -/
theorem credit_pos_of_quiet (hTW : T ≤ W) (hi : f.inflight = 0) (hh : f.held = 0)
    (hg : f.granting = 0) : 0 < f.credit := by
  have := f.conserve
  have := f.unacked_lt
  omega

end CreditFlow

end EngineConsole
