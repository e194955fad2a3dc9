import BlobTracking.Library.ConstantVelocity
import BlobTracking.Tracking.MKalman

/-! `MKalman` splits into two constant-velocity filters, one for each coordinate.
The four by four covariances stay in block form under both operations and the
innovation matrix stays diagonal, so it can always be inverted. -/
namespace BlobTracking.Tracking
open Library.ConstantVelocity OpenCV Matrix

def noise : Noise ℚ := ⟨1 / 10000, 1 / 10, by norm_num, by norm_num⟩

def initialCov : Cov ℚ := Cov.isotropic (1 / 10) (by norm_num)

def planeCov (cx cy : Cov ℚ) : Mat 4 4 :=
  !![cx.pos, 0, cx.cross, 0; 0, cy.pos, 0, cy.cross; cx.cross, 0, cx.vel, 0; 0, cy.cross, 0, cy.vel]

def planeState (mx my : Motion ℚ) : Fin 4 → ℚ := ![mx.pos, my.pos, mx.vel, my.vel]

def plane (x y : Axis ℚ) : MKalman where
  KF :=
    { transitionMatrix := !![1, 0, 1, 0; 0, 1, 0, 1; 0, 0, 1, 0; 0, 0, 0, 1]
      statePre := planeState x.pre y.pre
      statePost := planeState x.post y.post
      measurementMatrix := setIdentity 1
      processNoiseCov := setIdentity (1 / 10000)
      measurementNoiseCov := setIdentity (1 / 10)
      errorCovPre := planeCov x.preCov y.preCov
      errorCovPost := planeCov x.postCov y.postCov }

/-- One coordinate as the constructor leaves it: the seed is in the state before
the correction only, and only the covariance after it is set. -/
def seeded (k : Int) : Axis ℚ := ⟨⟨k, 0⟩, ⟨0, 0⟩, Cov.zero, initialCov⟩

theorem setIdentity_position : (setIdentity 1 : Mat 2 4) = !![1, 0, 0, 0; 0, 1, 0, 0] := by
  ext i j
  fin_cases i <;> fin_cases j <;> rfl

theorem setIdentity_position_transpose :
    (setIdentity 1 : Mat 2 4)ᵀ = !![1, 0; 0, 1; 0, 0; 0, 0] := by
  ext i j
  fin_cases i <;> fin_cases j <;> rfl

theorem setIdentity_two (s : ℚ) : (setIdentity s : Mat 2 2) = !![s, 0; 0, s] := by
  ext i j
  fin_cases i <;> fin_cases j <;> rfl

theorem setIdentity_four (s : ℚ) : (setIdentity s : Mat 4 4) =
    !![s, 0, 0, 0; 0, s, 0, 0; 0, 0, s, 0; 0, 0, 0, s] := by
  ext i j
  fin_cases i <;> fin_cases j <;> rfl

theorem transition_transpose :
    (!![1, 0, 1, 0; 0, 1, 0, 1; 0, 0, 1, 0; 0, 0, 0, 1] : Mat 4 4)ᵀ =
      !![1, 0, 0, 0; 0, 1, 0, 0; 1, 0, 1, 0; 0, 1, 0, 1] := by
  ext i j
  fin_cases i <;> fin_cases j <;> simp

namespace MKalman
variable {cv : KalmanOps} (x y : Axis ℚ)

theorem construct_eq (hcv : cv.Exact) (inix iniy : Int) :
    construct cv inix iniy = plane (seeded inix) (seeded iniy) := by
  have hstate : (0 : Fin 4 → ℚ) = planeState ⟨0, 0⟩ ⟨0, 0⟩ := by
    funext i
    fin_cases i <;> rfl
  have hpre : (0 : Mat 4 4) = planeCov Cov.zero Cov.zero := by
    ext i j
    fin_cases i <;> fin_cases j <;> rfl
  have hpost : (setIdentity (1 / 10) : Mat 4 4) = planeCov initialCov initialCov :=
    setIdentity_four _
  unfold construct plane
  dsimp only [seeded]
  rw [hcv.statePost_zero, hcv.errorCovPre_zero, hstate, hpre, hpost]
  rfl

theorem predictedState_plane :
    (plane x y).KF.predictedState = planeState x.post.advance y.post.advance := by
  simp [KalmanFilter.predictedState, plane, planeState, Motion.advance, -Matrix.mulVec_cons]

theorem predictedCov_plane :
    (plane x y).KF.predictedCov =
      planeCov (x.postCov.predict noise) (y.postCov.predict noise) := by
  unfold KalmanFilter.predictedCov plane planeCov
  rw [setIdentity_four, transition_transpose]
  simp only [Cov.predict, noise]
  simp
  refine ⟨?_, ?_⟩ <;> ring

theorem predict_plane (hcv : cv.Exact) :
    (plane x y).predict cv =
      (⟨truncate x.post.advance.pos, truncate y.post.advance.pos⟩,
        plane (x.predict noise) (y.predict noise)) := by
  unfold predict
  rw [hcv.predict_eq, KalmanFilter.predicted, predictedState_plane, predictedCov_plane]
  rfl

theorem innovationCov_plane :
    (plane x y).KF.innovationCov =
      !![x.preCov.innovation noise, 0; 0, y.preCov.innovation noise] := by
  unfold KalmanFilter.innovationCov plane planeCov
  rw [setIdentity_position_transpose, setIdentity_position, setIdentity_two]
  simp [Cov.innovation, noise]

theorem isUnit_det_innovationCov_plane : IsUnit (plane x y).KF.innovationCov.det := by
  rw [innovationCov_plane, Matrix.det_fin_two_of, isUnit_iff_ne_zero]
  have hx := x.preCov.innovation_pos noise
  have hy := y.preCov.innovation_pos noise
  simpa using ⟨hx.ne', hy.ne'⟩

theorem innovationCov_plane_inv :
    (plane x y).KF.innovationCov⁻¹ =
      !![(x.preCov.innovation noise)⁻¹, 0; 0, (y.preCov.innovation noise)⁻¹] := by
  have hx := (x.preCov.innovation_pos noise).ne'
  have hy := (y.preCov.innovation_pos noise).ne'
  apply Matrix.inv_eq_right_inv
  rw [innovationCov_plane, Matrix.one_fin_two]
  simp [hx, hy]

def planeGain (cx cy : Cov ℚ) : Mat 4 2 :=
  !![cx.posGain noise, 0; 0, cy.posGain noise; cx.velGain noise, 0; 0, cy.velGain noise]

theorem gain_plane :
    (plane x y).KF.errorCovPre * (plane x y).KF.measurementMatrixᵀ *
      (plane x y).KF.innovationCov⁻¹ = planeGain x.preCov y.preCov := by
  rw [innovationCov_plane_inv]
  unfold plane planeCov planeGain
  rw [setIdentity_position_transpose]
  simp [Cov.posGain, Cov.velGain, div_eq_mul_inv]

theorem correct_plane (hcv : cv.Exact) (z : Point2f) :
    (plane x y).correct cv z = plane (x.correct noise z.x) (y.correct noise z.y) := by
  have hinnovation : (plane x y).KF.innovation ![z.x, z.y] =
      ![z.x - x.pre.pos, z.y - y.pre.pos] := by
    unfold KalmanFilter.innovation plane planeState
    rw [setIdentity_position]
    simp [-Matrix.mulVec_cons]
  have hstate : (plane x y).KF.statePre + planeGain x.preCov y.preCov *ᵥ
      ![z.x - x.pre.pos, z.y - y.pre.pos] =
        planeState (x.pre.correct noise x.preCov z.x) (y.pre.correct noise y.preCov z.y) := by
    simp [plane, planeState, planeGain, Motion.correct, -Matrix.mulVec_cons]
  have hcov : (plane x y).KF.errorCovPre - planeGain x.preCov y.preCov *
      ((plane x y).KF.measurementMatrix * (plane x y).KF.errorCovPre) =
        planeCov (x.preCov.correct noise) (y.preCov.correct noise) := by
    unfold plane planeCov planeGain
    rw [setIdentity_position]
    have hgain : ∀ c : Cov ℚ, c.velGain noise * c.pos = c.posGain noise * c.cross := by
      intro c
      unfold Cov.velGain Cov.posGain
      ring
    have hzero : (0 : Fin 1 → ℚ) = ![0] := by
      funext i
      fin_cases i
      rfl
    simp [Cov.correct, hgain, hzero]
  unfold correct
  rw [hcv.correct_eq _ _ (isUnit_det_innovationCov_plane x y), gain_plane,
    KalmanFilter.correctedBy, hinnovation, hstate, hcov]
  rfl

end MKalman

end BlobTracking.Tracking
