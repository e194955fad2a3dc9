import Mathlib.Algebra.Order.Group.Defs
import Mathlib.Order.Nat

/-! A timer that becomes ready once it is observed more than `limit` after its
start, and stays so until it is started again. -/
namespace BlobTracking.Library

structure WarmUp (T : Type) where
  ready : Bool
  start : T

namespace WarmUp
variable {T : Type}

/-- The position of the last start before `n`, and the time it noted. -/
def lastStart (begin : T) (restart : Nat → Option T) : Nat → Nat × T
  | 0 => (0, begin)
  | n + 1 => match restart n with
    | some time => (n + 1, time)
    | none => lastStart begin restart n

theorem lastStart_le (begin : T) (restart : Nat → Option T) (n : Nat) :
    (lastStart begin restart n).1 ≤ n := by
  induction n with
  | zero => exact le_rfl
  | succ n ih =>
    unfold lastStart
    split
    · exact le_rfl
    · exact ih.trans n.le_succ

variable [AddGroup T] [LinearOrder T]

/-- One observation of the clock, and perhaps a new start. -/
def step (limit : T) (timer : WarmUp T) (now : T) (restart : Option T) : WarmUp T :=
  match restart with
  | some time => ⟨false, time⟩
  | none => ⟨timer.ready || decide (limit < now - timer.start), timer.start⟩

def after (limit begin : T) (now : Nat → T) (restart : Nat → Option T) : Nat → WarmUp T
  | 0 => ⟨false, begin⟩
  | n + 1 => step limit (after limit begin now restart n) (now n) (restart n)

variable {limit begin : T} {now : Nat → T} {restart : Nat → Option T}

theorem start_after (n : Nat) :
    (after limit begin now restart n).start = (lastStart begin restart n).2 := by
  induction n with
  | zero => rfl
  | succ n ih =>
    unfold after step lastStart
    cases restart n with
    | some time => rfl
    | none => exact ih

/-- The timer is ready after any observation that came late enough since the last start. -/
theorem ready_iff (n : Nat) : (after limit begin now restart n).ready = true ↔
    ∃ m, (lastStart begin restart n).1 ≤ m ∧ m < n ∧
      limit < now m - (lastStart begin restart n).2 := by
  induction n with
  | zero =>
    constructor
    · intro h
      cases h
    · intro ⟨m, _, hm, _⟩
      exact absurd hm (Nat.not_lt_zero m)
  | succ n ih =>
    unfold after step lastStart
    cases hrestart : restart n with
    | some time =>
      constructor
      · intro h
        cases h
      · intro ⟨m, hle, hlt, _⟩
        exact absurd hlt (Nat.not_lt.mpr hle)
    | none =>
      dsimp only
      rw [Bool.or_eq_true, ih, decide_eq_true_eq, start_after]
      constructor
      · intro h
        cases h with
        | inl hbefore =>
          obtain ⟨m, hle, hlt, hlate⟩ := hbefore
          exact ⟨m, hle, hlt.trans n.lt_succ_self, hlate⟩
        | inr hnow => exact ⟨n, lastStart_le begin restart n, n.lt_succ_self, hnow⟩
      · intro ⟨m, hle, hlt, hlate⟩
        cases Nat.lt_succ_iff_lt_or_eq.mp hlt with
        | inl hbefore => exact Or.inl ⟨m, hle, hbefore, hlate⟩
        | inr heq => exact Or.inr (heq ▸ hlate)

end WarmUp

end BlobTracking.Library
