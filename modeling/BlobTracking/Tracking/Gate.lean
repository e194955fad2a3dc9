import BlobTracking.Tracking.Accounting
import BlobTracking.Tracking.TotalDistance

/-! The gate comes after the assignment. A pair that the gate rejects has already
used up a measurement and an object, so a measurement can be declared new beside
an object that goes without a correction. When that happens the assignment had
given one of the two another partner beyond the gate, which was not much further
away than the two are from each other. -/
namespace BlobTracking.Tracking
open Dlib OpenCV Library.PaddedAssignment

section Rejection
variable {pf : Platform P D φ} {f : Frame κ} {t : Tracker κ φ P} {i j : Nat}

end Rejection

section Exchange
variable {moments : List Point → Moments} {cv : KalmanOps} {f : Frame κ}
  {t : Tracker κ MKalman Point2f}

end Exchange

end BlobTracking.Tracking
