import BlobTracking.Library.ConstantVelocity
import Mathlib.Algebra.BigOperators.Intervals
import Mathlib.Algebra.BigOperators.Ring.Finset
import Mathlib.Algebra.Order.BigOperators.Group.Finset
import Mathlib.Tactic.IntervalCases
import Mathlib.Tactic.Positivity

/-! A target that keeps its velocity and is measured exactly. The error of the
filter, weighed by its covariance, never grows, and each measurement takes as much
from it as its own residual weighs. So the residuals of a whole run add up to no
more than the first error, and since the covariance stays bounded, all but finitely
many of them are small. -/
namespace BlobTracking.Library.ConstantVelocity

variable {K : Type} [Field K] [LinearOrder K] [IsStrictOrderedRing K] {n : Noise K}

/-- The variance of `a * pos + b * vel`. -/
def Cov.form (c : Cov K) (a b : K) : K :=
  a * (a * c.pos + b * c.cross) + b * (a * c.cross + b * c.vel)

/-- The error `e` weighs at most `energy` against the covariance `c`. -/
def Weighs (c : Cov K) (energy : K) (e : Motion K) : Prop :=
  ∀ a b, (a * e.pos + b * e.vel) ^ 2 ≤ energy * c.form a b

def Motion.minus (target m : Motion K) : Motion K := ⟨target.pos - m.pos, target.vel - m.vel⟩

section Energy
variable {c : Cov K} {energy : K} {e : Motion K}

theorem Cov.form_predict (n : Noise K) (c : Cov K) (a b : K) :
    (c.predict n).form a b = c.form a (a + b) + n.process * (a ^ 2 + b ^ 2) := by
  simp only [form, predict]
  ring

theorem Cov.form_nonneg (c : Cov K) (a b : K) : 0 ≤ c.form a b := by
  unfold form
  cases c.pos_nonneg.eq_or_lt with
  | inl hzero =>
    have hcross : c.cross = 0 := by
      have hsq := c.cross_sq_le
      rw [← hzero, zero_mul] at hsq
      exact pow_eq_zero_iff two_ne_zero |>.mp (le_antisymm hsq (sq_nonneg _))
    rw [← hzero, hcross]
    have := mul_nonneg (sq_nonneg b) c.vel_nonneg
    linarith
  | inr hpos =>
    have hsquare : c.pos * (a * (a * c.pos + b * c.cross) + b * (a * c.cross + b * c.vel)) =
        (a * c.pos + b * c.cross) ^ 2 + b ^ 2 * (c.pos * c.vel - c.cross ^ 2) := by
      ring
    have hrest := mul_nonneg (sq_nonneg b) (sub_nonneg.mpr c.cross_sq_le)
    have hprod : 0 ≤ c.pos * (a * (a * c.pos + b * c.cross) + b * (a * c.cross + b * c.vel)) := by
      rw [hsquare]
      exact add_nonneg (sq_nonneg _) hrest
    exact nonneg_of_mul_nonneg_right hprod hpos

theorem Weighs.predict (h : Weighs c energy e) (henergy : 0 ≤ energy) :
    Weighs (c.predict n) energy e.advance := by
  intro a b
  have hnoise : 0 ≤ energy * (n.process * (a ^ 2 + b ^ 2)) :=
    mul_nonneg henergy (mul_nonneg n.process_pos.le (by positivity))
  calc (a * (e.pos + e.vel) + b * e.vel) ^ 2
      = (a * e.pos + (a + b) * e.vel) ^ 2 := by ring
    _ ≤ energy * c.form a (a + b) := h a (a + b)
    _ ≤ energy * (c.predict n).form a b := by
      rw [Cov.form_predict, mul_add]
      linarith

/-- After a prediction any error has a weight, whatever the covariance was before. -/
theorem weighs_predicted (n : Noise K) (c : Cov K) (e : Motion K) :
    Weighs (c.predict n) ((e.pos ^ 2 + e.vel ^ 2) / n.process) e := by
  intro a b
  have hform := c.form_nonneg a (a + b)
  have hweight : 0 ≤ (e.pos ^ 2 + e.vel ^ 2) / n.process :=
    div_nonneg (by positivity) n.process_pos.le
  have hcauchy : (a * e.pos + b * e.vel) ^ 2 ≤ (e.pos ^ 2 + e.vel ^ 2) * (a ^ 2 + b ^ 2) := by
    have hcross := sq_nonneg (a * e.vel - b * e.pos)
    linarith [show (e.pos ^ 2 + e.vel ^ 2) * (a ^ 2 + b ^ 2) - (a * e.pos + b * e.vel) ^ 2 =
      (a * e.vel - b * e.pos) ^ 2 by ring]
  calc (a * e.pos + b * e.vel) ^ 2
      ≤ (e.pos ^ 2 + e.vel ^ 2) * (a ^ 2 + b ^ 2) := hcauchy
    _ = (e.pos ^ 2 + e.vel ^ 2) / n.process * (n.process * (a ^ 2 + b ^ 2)) := by
      rw [← mul_assoc, div_mul_cancel₀ _ n.process_pos.ne']
    _ ≤ (e.pos ^ 2 + e.vel ^ 2) / n.process * (c.predict n).form a b := by
      rw [Cov.form_predict]
      exact mul_le_mul_of_nonneg_left (le_add_of_nonneg_left hform) hweight

/-- A quadratic in `t` that stays below another one bounds the product of their ends. -/
theorem sq_mul_le_of_forall {A v B S : K} (henergy : 0 ≤ energy)
    (hv : v ^ 2 < energy * S ∨ energy = 0)
    (h : ∀ t, (A + t * v) ^ 2 ≤ energy * (B + t ^ 2 * S)) :
    A ^ 2 * S ≤ B * (energy * S - v ^ 2) := by
  cases henergy.eq_or_lt with
  | inl hzero =>
    have hsum : ∀ t, A + t * v = 0 := by
      intro t
      have hsq := h t
      rw [← hzero, zero_mul] at hsq
      exact pow_eq_zero_iff two_ne_zero |>.mp (le_antisymm hsq (sq_nonneg (A + t * v)))
    have hA : A = 0 := by
      have := hsum 0
      rwa [zero_mul, add_zero] at this
    have hv : v = 0 := by
      have := hsum 1
      rwa [hA, zero_add, one_mul] at this
    rw [← hzero, hA, hv]
    simp
  | inr hpos =>
    have hroom : 0 < energy * S - v ^ 2 := sub_pos.mpr (hv.resolve_right hpos.ne')
    -- the quadratic is tightest at `t = A * v / (energy * S - v ^ 2)`
    have hbest := h (A * v / (energy * S - v ^ 2))
    have hleft : A + A * v / (energy * S - v ^ 2) * v =
        A * (energy * S) / (energy * S - v ^ 2) := by
      field_simp
      ring
    rw [hleft, div_pow, div_pow, div_mul_eq_mul_div, ← sub_nonneg] at hbest
    have hscaled : energy * (B + (A * v) ^ 2 * S / (energy * S - v ^ 2) ^ 2) -
        (A * (energy * S)) ^ 2 / (energy * S - v ^ 2) ^ 2 =
          energy / (energy * S - v ^ 2) * (B * (energy * S - v ^ 2) - A ^ 2 * S) := by
      field_simp
      ring
    rw [hscaled] at hbest
    exact sub_nonneg.mp (nonneg_of_mul_nonneg_right hbest (div_pos hpos hroom))

/-- What a correction takes from `a * pos + b * vel`, for a residual of one. -/
def Cov.gain (n : Noise K) (c : Cov K) (a b : K) : K :=
  (a * c.pos + b * c.cross) / c.innovation n

theorem Cov.form_correct (n : Noise K) (c : Cov K) (a b : K) :
    (c.correct n).form a b = c.form a b - c.gain n a b ^ 2 * c.innovation n := by
  have hS := c.innovation_pos n
  simp only [form, correct, posGain, velGain, gain]
  field_simp
  ring

/-- The variance is least at the gain, up to the noise of the measurement. -/
theorem Cov.form_correct_add (n : Noise K) (c : Cov K) (a b t : K) :
    (c.correct n).form a b + t ^ 2 * c.innovation n =
      c.form (a + (t - c.gain n a b)) b + n.measurement * (t - c.gain n a b) ^ 2 := by
  have hgain : c.gain n a b * c.innovation n = a * c.pos + b * c.cross :=
    div_mul_cancel₀ _ (c.innovation_pos n).ne'
  have hpos : c.pos = c.innovation n - n.measurement := by
    rw [innovation]
    ring
  have hshift : c.form (a + (t - c.gain n a b)) b = c.form a b +
      2 * (t - c.gain n a b) * (c.gain n a b * c.innovation n) +
        (t - c.gain n a b) ^ 2 * c.pos := by
    rw [hgain]
    simp only [form]
    ring
  rw [form_correct, hshift, hpos]
  ring

/-- A measurement of the target's own position. -/
theorem Weighs.correct (n : Noise K) (h : Weighs c energy e) (henergy : 0 ≤ energy) :
    Weighs (c.correct n) (energy - e.pos ^ 2 / c.innovation n)
        ⟨e.pos - c.posGain n * e.pos, e.vel - c.velGain n * e.pos⟩ ∧
      0 ≤ energy - e.pos ^ 2 / c.innovation n := by
  have hS := c.innovation_pos n
  have hresidual : e.pos ^ 2 ≤ energy * c.pos := by
    have := h 1 0
    simpa [Cov.form] using this
  have hlt : c.pos < c.innovation n := lt_add_of_pos_right _ n.measurement_pos
  have hroom : e.pos ^ 2 ≤ energy * c.innovation n :=
    hresidual.trans (mul_le_mul_of_nonneg_left hlt.le henergy)
  refine ⟨fun a b => ?_, sub_nonneg.mpr ((div_le_iff₀ hS).mpr hroom)⟩
  have herror : a * (e.pos - c.posGain n * e.pos) + b * (e.vel - c.velGain n * e.pos) =
      a * e.pos + b * e.vel - c.gain n a b * e.pos := by
    simp only [Cov.posGain, Cov.velGain, Cov.gain]
    field_simp
    ring
  have hquadratic : ∀ t, (a * e.pos + b * e.vel - c.gain n a b * e.pos + t * e.pos) ^ 2 ≤
      energy * ((c.correct n).form a b + t ^ 2 * c.innovation n) := by
    intro t
    have hnoise : 0 ≤ energy * (n.measurement * (t - c.gain n a b) ^ 2) :=
      mul_nonneg henergy (mul_nonneg n.measurement_pos.le (sq_nonneg _))
    have hbound := h (a + (t - c.gain n a b)) b
    rw [Cov.form_correct_add, mul_add]
    calc (a * e.pos + b * e.vel - c.gain n a b * e.pos + t * e.pos) ^ 2
        = ((a + (t - c.gain n a b)) * e.pos + b * e.vel) ^ 2 := by ring
      _ ≤ energy * c.form (a + (t - c.gain n a b)) b +
          energy * (n.measurement * (t - c.gain n a b) ^ 2) := by
        linarith
  have hstrict : e.pos ^ 2 < energy * c.innovation n ∨ energy = 0 := by
    cases henergy.eq_or_lt with
    | inl hzero => exact Or.inr hzero.symm
    | inr hpos => exact Or.inl (hresidual.trans_lt (mul_lt_mul_of_pos_left hlt hpos))
  have hproduct := sq_mul_le_of_forall henergy hstrict hquadratic
  have hscale : (energy - e.pos ^ 2 / c.innovation n) * (c.correct n).form a b =
      (c.correct n).form a b * (energy * c.innovation n - e.pos ^ 2) / c.innovation n := by
    field_simp
  rw [herror, hscale, le_div_iff₀ hS]
  exact hproduct

end Energy

/-- A covariance as a correction leaves it. -/
structure Settled (n : Noise K) (c : Cov K) : Prop where
  pos_le : c.pos ≤ n.measurement
  vel_le : c.vel ≤ 2 * n.measurement + 3 * n.process

/-- The covariance after `u` predictions. -/
def Cov.coast (n : Noise K) (c : Cov K) : Nat → Cov K
  | 0 => c
  | u + 1 => (c.coast n u).predict n

section Bounds
variable {c : Cov K}

theorem Settled.cross_le (h : Settled n c) : c.cross ≤ 2 * n.measurement + 3 * n.process := by
  have hq := n.process_pos
  have hr := n.measurement_pos
  apply abs_le_of_sq_le_sq' _ (by linarith) |>.2
  calc c.cross ^ 2 ≤ c.pos * c.vel := c.cross_sq_le
    _ ≤ (2 * n.measurement + 3 * n.process) * (2 * n.measurement + 3 * n.process) :=
      mul_le_mul (by linarith [h.pos_le]) h.vel_le c.vel_nonneg (by linarith)
    _ = (2 * n.measurement + 3 * n.process) ^ 2 := (sq _).symm

/-- The gain on the velocity is the best there is, so any other bounds what it leaves. -/
theorem Cov.correct_vel_le (n : Noise K) (c : Cov K) (k : K) :
    (c.correct n).vel ≤ c.vel - 2 * k * c.cross + k ^ 2 * c.innovation n := by
  have hS := c.innovation_pos n
  have hsquare : c.vel - 2 * k * c.cross + k ^ 2 * c.innovation n - (c.correct n).vel =
      (k * c.innovation n - c.cross) ^ 2 / c.innovation n := by
    simp only [correct, velGain]
    field_simp
    ring
  have hnonneg := div_nonneg (sq_nonneg (k * c.innovation n - c.cross)) hS.le
  rw [← hsquare] at hnonneg
  linarith

theorem Cov.correct_pos_le (n : Noise K) (c : Cov K) : (c.correct n).pos ≤ n.measurement := by
  have hS := c.innovation_pos n
  have hle : c.pos ≤ c.innovation n := le_add_of_nonneg_right n.measurement_pos.le
  have hpos : (c.correct n).pos = c.pos * n.measurement / c.innovation n := by
    rw [eq_div_iff hS.ne']
    simp only [correct, posGain]
    field_simp
    rw [innovation]
    ring
  rw [hpos, div_le_iff₀ hS, mul_comm]
  exact mul_le_mul_of_nonneg_left hle n.measurement_pos.le

/-- A measurement settles a covariance that has coasted for at most four frames. -/
theorem Settled.correct_coast (h : Settled n c) {u : Nat} (hpos : 0 < u) (hle : u ≤ 4) :
    Settled n ((c.coast n u).correct n) := by
  refine ⟨Cov.correct_pos_le n _, ?_⟩
  have hvel := Cov.correct_vel_le n (c.coast n u) (1 / u)
  have hp := h.pos_le
  have hq := n.process_pos
  have hr := n.measurement_pos
  interval_cases u
  all_goals
    simp only [Cov.coast, Cov.predict, Cov.innovation] at hvel
    refine hvel.trans ?_
    push_cast
    linarith

theorem Settled.innovation_coast_le (h : Settled n c) {u : Nat} (hle : u ≤ 4) :
    (c.coast n u).innovation n ≤ 50 * n.measurement + 90 * n.process := by
  have hp := h.pos_le
  have hc := h.cross_le
  have hv := h.vel_le
  have hq := n.process_pos
  have hr := n.measurement_pos
  interval_cases u
  all_goals
    simp only [Cov.coast, Cov.predict, Cov.innovation]
    linarith [c.cross_nonneg, c.vel_nonneg]

end Bounds

/-- The target after `i` frames. -/
def Motion.steady (target : Motion K) (i : Nat) : Motion K :=
  ⟨target.pos + i * target.vel, target.vel⟩

/-- The filter after `i` frames, of which those with `hit` measure the target. -/
def Axis.track (n : Noise K) (target : Motion K) (hit : Nat → Bool) (a : Axis K) : Nat → Axis K
  | 0 => a
  | i + 1 =>
    let p := (a.track n target hit i).predict n
    if hit i then p.correct n (target.steady (i + 1)).pos else p

section Run
variable {target : Motion K} {hit : Nat → Bool} {a : Axis K}

/-- The error of the prediction in frame `i`, before its measurement. -/
def predictionError (n : Noise K) (target : Motion K) (hit : Nat → Bool) (a : Axis K)
    (i : Nat) : Motion K :=
  (target.steady (i + 1)).minus ((a.track n target hit i).predict n).pre

/-- The variance of the residual in frame `i`. -/
def residualCov (n : Noise K) (target : Motion K) (hit : Nat → Bool) (a : Axis K) (i : Nat) : K :=
  ((a.track n target hit i).postCov.predict n).innovation n

/-- What the measurements before frame `i` have taken from the error. -/
def spent (n : Noise K) (target : Motion K) (hit : Nat → Bool) (a : Axis K) (i : Nat) : K :=
  ∑ j ∈ Finset.range i, if hit j then
    (predictionError n target hit a j).pos ^ 2 / residualCov n target hit a j else 0

def firstEnergy (n : Noise K) (target : Motion K) (hit : Nat → Bool) (a : Axis K) : K :=
  ((predictionError n target hit a 0).pos ^ 2 + (predictionError n target hit a 0).vel ^ 2) /
    n.process

theorem predictionError_succ (i : Nat) : predictionError n target hit a (i + 1) =
    ((target.steady (i + 1)).minus (a.track n target hit (i + 1)).post).advance := by
  apply Motion.ext
  · simp only [predictionError, Motion.minus, Motion.advance, Motion.steady, Axis.predict]
    push_cast
    ring
  · rfl

theorem weighs_track (n : Noise K) (target : Motion K) (hit : Nat → Bool) (a : Axis K) (i : Nat) :
    Weighs ((a.track n target hit i).postCov.predict n)
        (firstEnergy n target hit a - spent n target hit a i)
        (predictionError n target hit a i) ∧
      0 ≤ firstEnergy n target hit a - spent n target hit a i := by
  induction i with
  | zero =>
    have hzero : spent n target hit a 0 = 0 := Finset.sum_range_zero _
    rw [hzero, sub_zero]
    exact ⟨weighs_predicted n _ _, div_nonneg (by positivity) n.process_pos.le⟩
  | succ i ih =>
    have hspent : spent n target hit a (i + 1) = spent n target hit a i + if hit i then
        (predictionError n target hit a i).pos ^ 2 / residualCov n target hit a i else 0 :=
      Finset.sum_range_succ _ i
    rw [predictionError_succ, hspent, Axis.track]
    by_cases hhit : hit i = true
    · have hcorrect := ih.1.correct n ih.2
      rw [if_pos hhit, if_pos hhit, ← sub_sub]
      refine ⟨?_, hcorrect.2⟩
      have herror : (target.steady (i + 1)).minus (((a.track n target hit i).predict n).correct n
          (target.steady (i + 1)).pos).post = ⟨(predictionError n target hit a i).pos -
            ((a.track n target hit i).postCov.predict n).posGain n *
              (predictionError n target hit a i).pos,
            (predictionError n target hit a i).vel -
            ((a.track n target hit i).postCov.predict n).velGain n *
              (predictionError n target hit a i).pos⟩ := by
        simp only [predictionError, Motion.minus, Axis.correct, Axis.predict, Motion.correct]
        apply Motion.ext <;> ring
      rw [herror]
      exact hcorrect.1.predict hcorrect.2
    · rw [if_neg hhit, if_neg hhit, add_zero]
      exact ⟨ih.1.predict ih.2, ih.2⟩

theorem spent_le (n : Noise K) (target : Motion K) (hit : Nat → Bool) (a : Axis K) (i : Nat) :
    spent n target hit a i ≤ firstEnergy n target hit a :=
  sub_nonneg.mp (weighs_track n target hit a i).2

/-- No four frames in a row before `N` are without a measurement. -/
def Alive (hit : Nat → Bool) (N : Nat) : Prop :=
  ∀ i, i + 4 ≤ N → ∃ j, i ≤ j ∧ j < i + 4 ∧ hit j = true

theorem Alive.tail {N : Nat} (h : Alive hit (N + 1)) :
    Alive (fun j => hit (j + 1)) N := by
  intro i hi
  rcases h (i + 1) (by omega) with ⟨j, hj, hj', hhit⟩
  cases j with
  | zero => exact absurd hj (Nat.not_succ_le_zero i)
  | succ j => exact ⟨j, by omega, by omega, hhit⟩

theorem exists_settled (target : Motion K) (ha : Settled n a.postCov) {N : Nat}
    (halive : Alive hit N) {i : Nat} (hi : i ≤ N) : ∃ u c, u ≤ 3 ∧ u ≤ i ∧ Settled n c ∧
      (a.track n target hit i).postCov = c.coast n u ∧ ∀ j, i ≤ j + u → j < i → hit j = false := by
  induction i with
  | zero => exact ⟨0, a.postCov, by omega, le_rfl, ha, rfl, fun j _ hj => absurd hj j.not_lt_zero⟩
  | succ i ih =>
    obtain ⟨u, c, hu, hui, hc, hcov, hmissed⟩ := ih (Nat.le_of_succ_le hi)
    rw [Axis.track]
    by_cases hhit : hit i = true
    · rw [if_pos hhit]
      refine ⟨0, (c.coast n (u + 1)).correct n, by omega, Nat.zero_le _,
        hc.correct_coast u.succ_pos (by omega), ?_, fun j hj hj' => by omega⟩
      rw [Cov.coast, Cov.coast, ← hcov]
      rfl
    · have hall : ∀ j, i + 1 ≤ j + (u + 1) → j < i + 1 → hit j = false := by
        intro j hj hj'
        cases (Nat.lt_succ_iff.mp hj').eq_or_lt with
        | inl hlast => exact hlast ▸ Bool.not_eq_true _ ▸ hhit
        | inr hbefore => exact hmissed j (by omega) hbefore
      have hroom : u + 1 ≤ 3 := by
        by_contra hlong
        obtain ⟨j, hj, hj', hjhit⟩ := halive (i - 3) (by omega)
        exact Bool.false_ne_true ((hall j (by omega) (by omega)).symm.trans hjhit)
      rw [if_neg hhit]
      refine ⟨u + 1, c, hroom, by omega, hc, ?_, hall⟩
      rw [Cov.coast, ← hcov]
      rfl

/-- The squared residuals of a run, however long it is, add up to a bound that its first
prediction fixes. -/
theorem sum_residual_sq_le (target : Motion K) (ha : Settled n a.postCov) {N : Nat}
    (halive : Alive hit N) :
    (∑ j ∈ Finset.range N, if hit j then (predictionError n target hit a j).pos ^ 2 else 0) ≤
      (50 * n.measurement + 90 * n.process) * firstEnergy n target hit a := by
  have hq := n.process_pos
  have hr := n.measurement_pos
  have hterm : ∀ j ∈ Finset.range N,
      (if hit j then (predictionError n target hit a j).pos ^ 2 else 0) ≤
        (50 * n.measurement + 90 * n.process) * if hit j then
          (predictionError n target hit a j).pos ^ 2 / residualCov n target hit a j else 0 := by
    intro j hj
    split
    · obtain ⟨u, c, hu, _, hc, hcov, _⟩ :=
        exists_settled target ha halive (Finset.mem_range.mp hj).le
      have hcovLe : residualCov n target hit a j ≤ 50 * n.measurement + 90 * n.process := by
        unfold residualCov
        rw [hcov]
        exact hc.innovation_coast_le (Nat.succ_le_succ hu)
      have hpos : 0 < residualCov n target hit a j := Cov.innovation_pos n _
      rw [← mul_div_assoc, le_div_iff₀ hpos, mul_comm]
      exact mul_le_mul_of_nonneg_right hcovLe (sq_nonneg _)
    · rw [mul_zero]
  calc _ ≤ (50 * n.measurement + 90 * n.process) * spent n target hit a N := by
        unfold spent
        rw [Finset.mul_sum]
        exact Finset.sum_le_sum hterm
    _ ≤ _ := mul_le_mul_of_nonneg_left (spent_le n target hit a N) (by linarith)

end Run

end BlobTracking.Library.ConstantVelocity
