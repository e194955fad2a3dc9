import BlobTracking.OpenCV.Polygon
import BlobTracking.Tracking.MKalman
import BlobTracking.Tracking.TrackSpec

/-! The platform of exact arithmetic: rational points, distances as square roots,
and `MKalman` as the filter. `moments` and the Kalman filter are OpenCV's. -/
namespace BlobTracking.Tracking
open OpenCV

/-- `none` stands for a centroid that divides by zero. -/
def getBlobCentroid (moments : List Point → Moments) (blob : List Point) : Option Point2f :=
  let moment := moments blob
  if moment.m00 = 0 then none
  else some ⟨moment.m10 / moment.m00, moment.m01 / moment.m00⟩

/-- A blob without a centroid stands at the origin here; statements about exact
arithmetic are for blobs that have one. -/
def exactPlatform (moments : List Point → Moments) (cv : KalmanOps) :
    Platform Point2f Surd MKalman :=
  { MKalman.ops cv with
    getBlobCentroid := fun blob => (getBlobCentroid moments blob).getD ⟨0, 0⟩
    sub := fun p q => p - q
    norm := norm
    scale := Surd.scale
    toInt := Surd.toInt
    exceeds := Surd.exceeds }

/-- The same with the cast of `distance_matrix` to 32 bits. -/
def intPlatform (moments : List Point → Moments) (cv : KalmanOps) :
    Platform Point2f Surd MKalman :=
  { exactPlatform moments cv with toInt := Surd.toInt32 }

theorem getBlobCentroid_square (x y : Int) :
    getBlobCentroid polygonMoments (square x y) = some ⟨x, y⟩ := by
  unfold getBlobCentroid
  rw [polygonMoments_square]
  norm_num

def plainFrame (solve : Dlib.Solver) (blobs : List (List Point)) : Frame Unit :=
  ⟨blobs, fun _ => (), solve⟩

section Lemmas
variable {moments : List Point → Moments} {cv : KalmanOps}

@[simp] theorem exactPlatform_toFilterOps :
    (exactPlatform moments cv).toFilterOps = MKalman.ops cv := rfl

theorem measurements_of_centroids {f : Frame κ} {zs : List Point2f}
    (h : f.blobs.map (getBlobCentroid moments) = zs.map some) :
    f.measurements (exactPlatform moments cv) = zs := by
  have hmap := congrArg (List.map fun z : Option Point2f => z.getD ⟨0, 0⟩) h
  simp only [List.map_map, Function.comp_def, Option.getD_some, List.map_id'] at hmap
  exact hmap

theorem exceeds_tresh_eq_false_iff (p z : Point2f) :
    (exactPlatform moments cv).exceeds
        ((exactPlatform moments cv).norm ((exactPlatform moments cv).sub p z)) Tracker.tresh =
          false ↔ distance p z ≤ 100 := by
  change (norm (p - z)).exceeds Tracker.tresh = false ↔ _
  rw [← Bool.not_eq_true, norm_exceeds_iff, not_lt]
  norm_num [Tracker.tresh]

theorem realEntry_eq_neg_quantised {measurements : List Point2f}
    {objects : List (TrackObj κ MKalman Point2f)} {i j : Nat} {z p : Point2f}
    (hz : measurements[i]? = some z) (hp : lastPosition objects j = some p) :
    Tracker.realEntry (exactPlatform moments cv) measurements objects i j =
      -quantised z p := by
  unfold Tracker.realEntry
  rw [hz, hp]
  exact toInt_scale_norm z p

theorem realEntry_eq_neg_quantised32 {measurements : List Point2f}
    {objects : List (TrackObj κ MKalman Point2f)} {i j : Nat} {z p : Point2f}
    (hz : measurements[i]? = some z) (hp : lastPosition objects j = some p) :
    Tracker.realEntry (intPlatform moments cv) measurements objects i j =
      -quantised32 z p := by
  unfold Tracker.realEntry
  rw [hz, hp]
  exact toInt32_scale_norm z p

end Lemmas

end BlobTracking.Tracking
