import BlobTracking.OpenCV.Kalman
import BlobTracking.OpenCV.Points
import BlobTracking.Tracking.TrackObj

/-! `MKalman`: a constant-velocity filter over pixel positions. The constructor
seeds `statePre` and `errorCovPost` only. -/
namespace BlobTracking.Tracking
open OpenCV Matrix

structure MKalman where
  KF : KalmanFilter

namespace MKalman
variable (cv : KalmanOps)

def construct (inix iniy : Int) : MKalman where
  KF :=
    { cv.construct with
      transitionMatrix := !![1, 0, 1, 0; 0, 1, 0, 1; 0, 0, 1, 0; 0, 0, 0, 1]
      statePre := ![(inix : ℚ), (iniy : ℚ), 0, 0]
      measurementMatrix := setIdentity 1
      processNoiseCov := setIdentity (1 / 10000)
      measurementNoiseCov := setIdentity (1 / 10)
      errorCovPost := setIdentity (1 / 10) }

/-- The prediction is read from `statePre`, both coordinates truncated to `int`. -/
def predict (k : MKalman) : Point × MKalman :=
  let kf := cv.predict k.KF
  (⟨truncate (kf.statePre 0), truncate (kf.statePre 1)⟩, ⟨kf⟩)

def correct (k : MKalman) (p : Point2f) : MKalman := ⟨cv.correct k.KF ![p.x, p.y]⟩

/-- `MKalman` as `TrackObj` uses it. The initial point is truncated to integers. -/
def ops : FilterOps Point2f MKalman where
  construct iniP := construct cv (truncate iniP.x) (truncate iniP.y)
  predict k := ((k.predict cv).1.toPoint2f, (k.predict cv).2)
  correct := correct cv

/-- The position part of `statePre`. -/
def positionPre (k : MKalman) : Point2f := ⟨k.KF.statePre 0, k.KF.statePre 1⟩

/-- The position part of `statePost`. -/
def positionPost (k : MKalman) : Point2f := ⟨k.KF.statePost 0, k.KF.statePost 1⟩

end MKalman

end BlobTracking.Tracking
