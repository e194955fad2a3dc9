import Mathlib.LinearAlgebra.Matrix.NonsingularInverse

/-! OpenCV's `KalmanFilter` with four state variables, two measured ones and no
control, over exact arithmetic. Its operations are a parameter; what is assumed
of them is the documented equations. `exactKalman` evaluates these equations. -/
namespace BlobTracking.OpenCV
open Matrix

abbrev Mat (rows columns : Nat) := Matrix (Fin rows) (Fin columns) ℚ

/-- The public matrices of `cv::KalmanFilter(4, 2, 0)` that `MKalman` or the
equations use. -/
@[ext] structure KalmanFilter where
  statePre : Fin 4 → ℚ
  statePost : Fin 4 → ℚ
  transitionMatrix : Mat 4 4
  measurementMatrix : Mat 2 4
  processNoiseCov : Mat 4 4
  measurementNoiseCov : Mat 2 2
  errorCovPre : Mat 4 4
  errorCovPost : Mat 4 4

namespace KalmanFilter

/-- `x'(k) = A x(k-1)`. -/
def predictedState (kf : KalmanFilter) : Fin 4 → ℚ := kf.transitionMatrix *ᵥ kf.statePost

/-- `P'(k) = A P(k-1) Aᵀ + Q`. -/
def predictedCov (kf : KalmanFilter) : Mat 4 4 :=
  kf.transitionMatrix * kf.errorCovPost * kf.transitionMatrixᵀ + kf.processNoiseCov

/-- The matrix that `correct` inverts, `H P'(k) Hᵀ + R`. -/
def innovationCov (kf : KalmanFilter) : Mat 2 2 :=
  kf.measurementMatrix * kf.errorCovPre * kf.measurementMatrixᵀ + kf.measurementNoiseCov

def innovation (kf : KalmanFilter) (measurement : Fin 2 → ℚ) : Fin 2 → ℚ :=
  measurement - kf.measurementMatrix *ᵥ kf.statePre

/-- The filter after the predict equations; the results are copied to the Post fields. -/
def predicted (kf : KalmanFilter) : KalmanFilter :=
  { kf with
    statePre := kf.predictedState
    statePost := kf.predictedState
    errorCovPre := kf.predictedCov
    errorCovPost := kf.predictedCov }

/-- The filter after the correct equations with the given gain. -/
def correctedBy (kf : KalmanFilter) (gain : Mat 4 2) (measurement : Fin 2 → ℚ) :
    KalmanFilter :=
  { kf with
    statePost := kf.statePre + gain *ᵥ kf.innovation measurement
    errorCovPost := kf.errorCovPre - gain * (kf.measurementMatrix * kf.errorCovPre) }

end KalmanFilter

structure KalmanOps where
  /-- `KalmanFilter(4, 2, 0)`. -/
  construct : KalmanFilter
  predict : KalmanFilter → KalmanFilter
  correct : KalmanFilter → (Fin 2 → ℚ) → KalmanFilter

/-- The documented behaviour. Nothing is assumed of `correct` where the matrix it
inverts is singular. -/
structure KalmanOps.Exact (cv : KalmanOps) : Prop where
  statePre_zero : cv.construct.statePre = 0
  statePost_zero : cv.construct.statePost = 0
  errorCovPre_zero : cv.construct.errorCovPre = 0
  errorCovPost_zero : cv.construct.errorCovPost = 0
  predict_eq : ∀ kf, cv.predict kf = kf.predicted
  correct_eq : ∀ kf z, IsUnit kf.innovationCov.det →
    cv.correct kf z = kf.correctedBy
      (kf.errorCovPre * kf.measurementMatrixᵀ * kf.innovationCov⁻¹) z

/-- `setIdentity(m, Scalar::all(s))`. -/
def setIdentity (s : ℚ) : Mat rows columns :=
  Matrix.of fun i j => if i.val = j.val then s else 0

/-- The inverse of a 2 × 2 matrix from its determinant. -/
def invTwo (m : Mat 2 2) : Mat 2 2 :=
  (m 0 0 * m 1 1 - m 0 1 * m 1 0)⁻¹ • !![m 1 1, -m 0 1; -m 1 0, m 0 0]

theorem invTwo_eq_inv (m : Mat 2 2) : invTwo m = m⁻¹ := by
  rw [Matrix.inv_def, Matrix.adjugate_fin_two, Matrix.det_fin_two, Ring.inverse_eq_inv']
  rfl

def exactKalman : KalmanOps where
  construct :=
    { statePre := 0, statePost := 0, transitionMatrix := 1, measurementMatrix := 0,
      processNoiseCov := 1, measurementNoiseCov := 1, errorCovPre := 0, errorCovPost := 0 }
  predict := KalmanFilter.predicted
  correct kf z :=
    kf.correctedBy (kf.errorCovPre * kf.measurementMatrixᵀ * invTwo kf.innovationCov) z

theorem exactKalman_exact : exactKalman.Exact where
  statePre_zero := rfl
  statePost_zero := rfl
  errorCovPre_zero := rfl
  errorCovPost_zero := rfl
  predict_eq _ := rfl
  correct_eq kf z _ := by
    change kf.correctedBy (kf.errorCovPre * kf.measurementMatrixᵀ * invTwo kf.innovationCov) z = _
    rw [invTwo_eq_inv]

end BlobTracking.OpenCV
