import Mathlib.Algebra.Order.Field.Basic
import Mathlib.Tactic.Linarith
import Mathlib.Tactic.FieldSimp
import Mathlib.Tactic.LinearCombination
import Mathlib.Tactic.Ring

/-! The Kalman filter of one coordinate that moves at constant velocity and is
observed through its position. The covariance keeps a non-negative correlation,
so both gains stay in the unit interval and an update never passes the
measurement. -/
namespace BlobTracking.Library.ConstantVelocity

variable {K : Type} [Field K] [LinearOrder K] [IsStrictOrderedRing K]

structure Noise (K : Type) [Field K] [LinearOrder K] where
  process : K
  measurement : K
  process_pos : 0 < process
  measurement_pos : 0 < measurement

/-- A covariance of position and velocity, which never pull apart. -/
@[ext] structure Cov (K : Type) [Field K] [LinearOrder K] where
  pos : K
  cross : K
  vel : K
  pos_nonneg : 0 ≤ pos
  cross_nonneg : 0 ≤ cross
  vel_nonneg : 0 ≤ vel
  cross_sq_le : cross ^ 2 ≤ pos * vel

@[ext] structure Motion (K : Type) where
  pos : K
  vel : K

namespace Cov

def zero : Cov K := ⟨0, 0, 0, le_rfl, le_rfl, le_rfl, by simp⟩

def isotropic (v : K) (hv : 0 ≤ v) : Cov K :=
  ⟨v, 0, v, hv, le_rfl, hv, by nlinarith [mul_nonneg hv hv]⟩

def predict (n : Noise K) (c : Cov K) : Cov K where
  pos := c.pos + 2 * c.cross + c.vel + n.process
  cross := c.cross + c.vel
  vel := c.vel + n.process
  pos_nonneg := by linarith [c.pos_nonneg, c.cross_nonneg, c.vel_nonneg, n.process_pos]
  cross_nonneg := add_nonneg c.cross_nonneg c.vel_nonneg
  vel_nonneg := add_nonneg c.vel_nonneg n.process_pos.le
  cross_sq_le := by
    have hrest : 0 ≤ n.process * (c.pos + 2 * c.cross + c.vel + c.vel + n.process) :=
      mul_nonneg n.process_pos.le (by
        linarith [c.pos_nonneg, c.cross_nonneg, c.vel_nonneg, n.process_pos])
    linear_combination c.cross_sq_le + hrest

def innovation (n : Noise K) (c : Cov K) : K := c.pos + n.measurement

theorem innovation_pos (n : Noise K) (c : Cov K) : 0 < c.innovation n :=
  add_pos_of_nonneg_of_pos c.pos_nonneg n.measurement_pos

def posGain (n : Noise K) (c : Cov K) : K := c.pos / c.innovation n

def velGain (n : Noise K) (c : Cov K) : K := c.cross / c.innovation n

def correct (n : Noise K) (c : Cov K) : Cov K where
  pos := c.pos - c.posGain n * c.pos
  cross := c.cross - c.posGain n * c.cross
  vel := c.vel - c.velGain n * c.cross
  pos_nonneg := by
    have hs := c.innovation_pos n
    rw [posGain, div_mul_eq_mul_div, sub_nonneg, div_le_iff₀ hs]
    exact mul_le_mul_of_nonneg_left (by linarith [n.measurement_pos, innovation.eq_1 n c])
      c.pos_nonneg
  cross_nonneg := by
    have hs := c.innovation_pos n
    rw [posGain, div_mul_eq_mul_div, sub_nonneg, div_le_iff₀ hs, mul_comm c.pos]
    exact mul_le_mul_of_nonneg_left (by linarith [n.measurement_pos, innovation.eq_1 n c])
      c.cross_nonneg
  vel_nonneg := by
    have hs := c.innovation_pos n
    rw [velGain, div_mul_eq_mul_div, sub_nonneg, div_le_iff₀ hs, innovation]
    nlinarith [c.cross_sq_le, mul_nonneg c.vel_nonneg n.measurement_pos.le]
  cross_sq_le := by
    have hs := c.innovation_pos n
    have hr := n.measurement_pos
    have hkeep : 1 - c.posGain n = n.measurement / c.innovation n := by
      rw [posGain, eq_div_iff hs.ne', sub_mul, div_mul_cancel₀ _ hs.ne', innovation]
      ring
    have hvel : (c.vel - c.velGain n * c.cross) * c.innovation n =
        c.vel * c.innovation n - c.cross ^ 2 := by
      rw [velGain, sub_mul, div_mul_eq_mul_div, div_mul_cancel₀ _ hs.ne', sq]
    have hgoal : (c.cross * n.measurement) ^ 2 ≤
        c.pos * n.measurement * (c.vel * c.innovation n - c.cross ^ 2) := by
      have hsplit : c.pos * n.measurement * (c.vel * c.innovation n - c.cross ^ 2) -
          (c.cross * n.measurement) ^ 2 =
            n.measurement * (c.innovation n * (c.pos * c.vel - c.cross ^ 2)) := by
        rw [innovation]
        ring
      have := mul_nonneg hr.le (mul_nonneg hs.le (sub_nonneg.mpr c.cross_sq_le))
      linarith
    calc (c.cross - c.posGain n * c.cross) ^ 2
        = (c.cross * n.measurement) ^ 2 / c.innovation n ^ 2 := by
          rw [← div_pow, mul_div_assoc, ← hkeep]
          ring
      _ ≤ c.pos * n.measurement * (c.vel * c.innovation n - c.cross ^ 2) /
            c.innovation n ^ 2 := by gcongr
      _ = (c.pos - c.posGain n * c.pos) * (c.vel - c.velGain n * c.cross) := by
          rw [← hvel, show c.pos - c.posGain n * c.pos = c.pos * (1 - c.posGain n) by ring, hkeep]
          field_simp

section Gains
variable (n : Noise K) (c : Cov K)

theorem posGain_nonneg : 0 ≤ c.posGain n := div_nonneg c.pos_nonneg (c.innovation_pos n).le

theorem posGain_lt_one : c.posGain n < 1 := by
  rw [posGain, div_lt_one (c.innovation_pos n), innovation]
  linarith [n.measurement_pos]

theorem velGain_nonneg : 0 ≤ c.velGain n := div_nonneg c.cross_nonneg (c.innovation_pos n).le

theorem velGain_le_one (h : c.cross ≤ c.pos) : c.velGain n ≤ 1 := by
  rw [velGain, div_le_one (c.innovation_pos n), innovation]
  linarith [n.measurement_pos]

theorem posGain_pos (h : 0 < c.pos) : 0 < c.posGain n := div_pos h (c.innovation_pos n)

omit [IsStrictOrderedRing K] in
theorem posGain_of_zero (h : c.pos = 0) : c.posGain n = 0 := by rw [posGain, h, zero_div]

theorem predict_pos_pos : 0 < (c.predict n).pos := by
  change 0 < c.pos + 2 * c.cross + c.vel + n.process
  linarith [c.pos_nonneg, c.cross_nonneg, c.vel_nonneg, n.process_pos]

theorem predict_cross_le_pos : (c.predict n).cross ≤ (c.predict n).pos := by
  change c.cross + c.vel ≤ c.pos + 2 * c.cross + c.vel + n.process
  linarith [c.pos_nonneg, c.cross_nonneg, n.process_pos]

end Gains

end Cov

def Motion.advance (m : Motion K) : Motion K := ⟨m.pos + m.vel, m.vel⟩

def Motion.correct (n : Noise K) (c : Cov K) (z : K) (m : Motion K) : Motion K :=
  ⟨m.pos + c.posGain n * (z - m.pos), m.vel + c.velGain n * (z - m.pos)⟩

omit [IsStrictOrderedRing K] in
theorem Motion.correct_residual (n : Noise K) (c : Cov K) (z : K) (m : Motion K) :
    z - (m.correct n c z).pos = (1 - c.posGain n) * (z - m.pos) := by
  unfold correct
  ring

theorem Motion.abs_correct_residual_le (n : Noise K) (c : Cov K) (z : K) (m : Motion K) :
    |z - (m.correct n c z).pos| ≤ |z - m.pos| := by
  rw [correct_residual, abs_mul,
    abs_of_nonneg (sub_nonneg.mpr (c.posGain_lt_one n).le)]
  exact mul_le_of_le_one_left (abs_nonneg _) (by linarith [c.posGain_nonneg n])

theorem Motion.abs_correct_residual_lt (n : Noise K) (c : Cov K) {z : K} {m : Motion K}
    (hpos : 0 < c.pos) (hz : z ≠ m.pos) : |z - (m.correct n c z).pos| < |z - m.pos| := by
  rw [correct_residual, abs_mul,
    abs_of_nonneg (sub_nonneg.mpr (c.posGain_lt_one n).le)]
  exact mul_lt_of_lt_one_left (abs_pos.mpr (sub_ne_zero.mpr hz))
    (by linarith [c.posGain_pos n hpos])

/-- A coordinate of the filter, before and after its last correction. -/
@[ext] structure Axis (K : Type) [Field K] [LinearOrder K] where
  pre : Motion K
  post : Motion K
  preCov : Cov K
  postCov : Cov K

namespace Axis

def predict (n : Noise K) (a : Axis K) : Axis K :=
  ⟨a.post.advance, a.post.advance, a.postCov.predict n, a.postCov.predict n⟩

def correct (n : Noise K) (z : K) (a : Axis K) : Axis K :=
  { a with post := a.pre.correct n a.preCov z, postCov := a.preCov.correct n }

end Axis

section Reach
variable {n : Noise K}

/-- Where `u` steps without a measurement started, and how fast they went. -/
structure Coasting (lo hi speed : K) (u : Nat) (m : Motion K) : Prop where
  exists_start : ∃ start, m.pos = start + u * m.vel ∧ lo ≤ start ∧ start ≤ hi
  vel_le : |m.vel| ≤ speed

omit [IsStrictOrderedRing K] in
theorem Coasting.advance {lo hi speed : K} {u : Nat} {m : Motion K}
    (h : Coasting lo hi speed u m) : Coasting lo hi speed (u + 1) m.advance := by
  rcases h.exists_start with ⟨start, hpos, hlo, hhi⟩
  refine ⟨⟨start, ?_, hlo, hhi⟩, h.vel_le⟩
  change m.pos + m.vel = start + ((u + 1 : Nat) : K) * m.vel
  rw [hpos]
  push_cast
  ring

theorem Coasting.abs_pos_le {lo hi speed bound : K} {u : Nat} {m : Motion K}
    (h : Coasting lo hi speed u m) (hlo : -bound ≤ lo) (hhi : hi ≤ bound) :
    |m.pos| ≤ bound + u * speed := by
  rcases h.exists_start with ⟨start, hpos, hstart, hstart'⟩
  rw [hpos]
  calc |start + u * m.vel| ≤ |start| + |u * m.vel| := abs_add_le _ _
    _ ≤ bound + u * speed := by
      rw [abs_mul, Nat.abs_cast]
      exact add_le_add (abs_le.mpr ⟨by linarith, by linarith⟩)
        (mul_le_mul_of_nonneg_left h.vel_le (Nat.cast_nonneg u))

/-- A measurement near the prediction confines the position to its own neighbourhood
and the speed to what could have led there. -/
theorem Coasting.correct {lo hi speed gate top : K} {u : Nat} {m : Motion K} {c : Cov K} {z : K}
    (h : Coasting lo hi speed (u + 1) m) (hcross : c.cross ≤ c.pos)
    (hgate : |z - m.pos| ≤ gate) (hz : 0 ≤ z) (hz' : z ≤ top) (hlo : lo = -gate)
    (hhi : hi = top + gate) (hspeed : speed = top + 3 * gate) :
    Coasting lo hi speed 0 (m.correct n c z) := by
  subst hlo hhi hspeed
  rcases h.exists_start with ⟨start, hpos, hstart, hstart'⟩
  have hresidual := (m.abs_correct_residual_le n c z).trans hgate
  have hdrift : |m.vel| ≤ top + 2 * gate := by
    have htravel : |((u + 1 : Nat) : K) * m.vel| ≤ top + 2 * gate := by
      have hnear := abs_le.mp hgate
      rw [show ((u + 1 : Nat) : K) * m.vel = m.pos - start by rw [hpos]; ring, abs_le]
      exact ⟨by linarith, by linarith⟩
    rw [abs_mul, Nat.abs_cast] at htravel
    have hone : (1 : K) ≤ ((u + 1 : Nat) : K) := by
      rw [Nat.cast_succ]
      linarith [Nat.cast_nonneg (α := K) u]
    exact (le_mul_of_one_le_left (abs_nonneg _) hone).trans htravel
  refine ⟨⟨(m.correct n c z).pos, by simp, ?_, ?_⟩, ?_⟩
  · linarith [(abs_le.mp hresidual).2]
  · linarith [(abs_le.mp hresidual).1]
  · calc |m.vel + c.velGain n * (z - m.pos)|
        ≤ |m.vel| + |c.velGain n * (z - m.pos)| := abs_add_le _ _
      _ ≤ (top + 2 * gate) + gate := by
        rw [abs_mul, abs_of_nonneg (c.velGain_nonneg n)]
        exact add_le_add hdrift ((mul_le_of_le_one_left (abs_nonneg _)
          (c.velGain_le_one n hcross)).trans hgate)
      _ = top + 3 * gate := by ring

end Reach

end BlobTracking.Library.ConstantVelocity
