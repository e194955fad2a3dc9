import BlobTracking.Proc.BlobDetector
import BlobTracking.Tracking.Bounds
import BlobTracking.Tracking.Identity

/-! From the detector to the tracker: a hull that `findBlobs` keeps has a centroid,
inside its own bounding box, unless the area interval lets flat hulls through. -/
namespace BlobTracking.Tracking

open OpenCV Proc

theorem getBlobCentroid_polygonMoments {hull : List Point} (h : shoelace hull ≠ 0) :
    getBlobCentroid polygonMoments hull =
      some ⟨(firstMoment Point.x hull : ℚ) / shoelace hull / 3,
        (firstMoment Point.y hull : ℚ) / shoelace hull / 3⟩ := by
  unfold getBlobCentroid
  have harea : |(shoelace hull : ℚ)| / 2 ≠ 0 :=
    mt (polygonArea_eq_zero_iff hull).mp h
  rw [polygonMoments, if_neg h]
  dsimp only
  rw [if_neg harea, sign_mul_div_area h, sign_mul_div_area h]

/-- The quotient exists and lies in the bounding box. -/
structure HasCentroid (hull : List Point) : Prop where
  m00_ne_zero : (polygonMoments hull).m00 ≠ 0
  inBoundingBox : ∃ c, getBlobCentroid polygonMoments hull = some c ∧ InBoundingBox hull c

theorem hasCentroid_of_area {contour hull : List Point} (h : IsConvexHull contour hull)
    (harea : polygonArea hull ≠ 0) : HasCentroid hull := by
  have hshoelace := mt (polygonArea_eq_zero_iff hull).mpr harea
  rcases h.coordinate_mem hshoelace (c := Point.x) 1 0 (fun p => by ring) with ⟨hleft, hright⟩
  rcases h.coordinate_mem hshoelace (c := Point.y) 0 1 (fun p => by ring) with ⟨htop, hbottom⟩
  exact ⟨by rwa [polygonMoments_m00], _, getBlobCentroid_polygonMoments hshoelace,
    ⟨hleft, hright, htop, hbottom⟩⟩

section Detector
variable {convexHull : List Point → List Point} {contours : List (List Point)}

/-- What the constructor is given decides whether a flat hull can be kept. -/
def ExcludesFlat (minArea maxArea : Int) (contours : List (List Point)) : Prop :=
  0 ≤ minArea ∨ maxArea ≤ 0 ∨ ∀ contour ∈ contours, ¬Flat contour

theorem area_ne_zero_of_kept {minArea maxArea : Int}
    (hexcludes : ExcludesFlat minArea maxArea contours) {contour hull : List Point}
    (hmem : contour ∈ contours) (h : IsConvexHull contour hull)
    (hkept : (BlobDetector.construct minArea maxArea).Keeps hull) : polygonArea hull ≠ 0 := by
  intro hzero
  rcases hkept with ⟨habove, hbelow⟩
  rw [hzero] at habove hbelow
  have hmin : minArea < 0 := Int.cast_lt_zero.mp habove
  have hmax : 0 < maxArea := Int.cast_pos.mp hbelow
  rcases hexcludes with hle | hle | hnone
  · exact absurd hmin (not_lt.mpr hle)
  · exact absurd hmax (not_lt.mpr hle)
  · exact hnone contour hmem (h.flat_of_shoelace ((polygonArea_eq_zero_iff hull).mp hzero))

/-- Every centroid fed to the tracker is well defined, exactly if no flat hull is kept. -/
theorem findBlobs_hasCentroid_iff (convexHull : List Point → List Point) (minArea maxArea : Int)
    (contours : List (List Point))
    (hhull : ∀ contour ∈ contours, IsConvexHull contour (convexHull contour)) :
    (∀ hull ∈ ((BlobDetector.construct minArea maxArea).findBlobs convexHull contours).getBlobs,
      HasCentroid hull) ↔ ExcludesFlat minArea maxArea contours := by
  simp only [BlobDetector.mem_getBlobs_findBlobs]
  refine ⟨?_, ?_⟩
  · intro hall
    by_contra hexcludes
    unfold ExcludesFlat at hexcludes
    push Not at hexcludes
    rcases hexcludes with ⟨hmin, hmax, contour, hmem, hflat⟩
    have hzero : polygonArea (convexHull contour) = 0 :=
      (polygonArea_eq_zero_iff _).mpr ((hhull contour hmem).shoelace_of_flat hflat)
    have hkept : (BlobDetector.construct minArea maxArea).Keeps (convexHull contour) := by
      unfold BlobDetector.Keeps
      rw [hzero]
      exact ⟨Int.cast_lt_zero.mpr hmin, Int.cast_pos.mpr hmax⟩
    have hcentroid := hall _ ⟨⟨contour, hmem, rfl⟩, hkept⟩
    exact hcentroid.m00_ne_zero ((polygonMoments_m00 _).trans hzero)
  · rintro hexcludes hull ⟨⟨contour, hmem, rfl⟩, hkept⟩
    have h := hhull contour hmem
    exact hasCentroid_of_area h (area_ne_zero_of_kept hexcludes hmem h hkept)

theorem findBlobs_hasCentroid_square : HasCentroid (square 500 500) := by
  have hhull : ∀ contour ∈ [square 500 500], IsConvexHull contour (id contour) := by
    intro contour hmem
    rw [List.mem_singleton.mp hmem]
    exact isConvexHull_square 500 500
  have hkept : (BlobDetector.construct 0 1000000).Keeps (square 500 500) := by
    unfold BlobDetector.Keeps
    rw [← polygonMoments_m00, polygonMoments_square]
    norm_num [BlobDetector.construct]
  have hmem : square 500 500 ∈
      ((BlobDetector.construct 0 1000000).findBlobs id [square 500 500]).getBlobs :=
    (BlobDetector.mem_getBlobs_findBlobs id).mpr ⟨⟨_, List.mem_singleton_self _, rfl⟩, hkept⟩
  exact (findBlobs_hasCentroid_iff id 0 1000000 [square 500 500] hhull).mpr (Or.inl le_rfl) _ hmem

/-- A negative `minArea` keeps the hull of a single pixel. -/
theorem pixel_without_centroid :
    ¬∀ (convexHull : List Point → List Point) (minArea maxArea : Int) (contours : List (List Point)),
      (∀ contour ∈ contours, IsConvexHull contour (convexHull contour)) →
      ∀ hull ∈ ((BlobDetector.construct minArea maxArea).findBlobs convexHull contours).getBlobs,
        HasCentroid hull := by
  intro h
  have hzero : shoelace [⟨3, 4⟩] = 0 := rfl
  have hhull : ∀ contour ∈ [[⟨3, 4⟩]], IsConvexHull contour (id contour) := by
    intro contour hmem
    rw [List.mem_singleton.mp hmem]
    exact isConvexHull_pixel ⟨3, 4⟩
  have hkept : (BlobDetector.construct (-1) 1).Keeps [⟨3, 4⟩] := by
    unfold BlobDetector.Keeps
    rw [(polygonArea_eq_zero_iff _).mpr hzero]
    norm_num [BlobDetector.construct]
  have hmem : [⟨3, 4⟩] ∈
      ((BlobDetector.construct (-1) 1).findBlobs id [[⟨3, 4⟩]]).getBlobs :=
    (BlobDetector.mem_getBlobs_findBlobs id).mpr ⟨⟨_, List.mem_singleton_self _, rfl⟩, hkept⟩
  apply (h id (-1) 1 [[⟨3, 4⟩]] hhull _ hmem).m00_ne_zero
  rw [polygonMoments_m00, polygonArea_eq_zero_iff]
  exact hzero

/-- A frame whose blobs the detector found in an image with sides of `L` pixels. -/
structure Detected (convexHull : List Point → List Point) (minArea maxArea : Int) (L : ℝ)
    (f : Frame κ) : Prop where
  permutes : f.maxCostAssignment.Permutes
  found : ∃ contours : List (List Point),
    (∀ contour ∈ contours, IsConvexHull contour (convexHull contour)) ∧
    (∀ contour ∈ contours, ∀ p ∈ contour,
      (0 ≤ p.x ∧ (p.x : ℝ) ≤ L) ∧ 0 ≤ p.y ∧ (p.y : ℝ) ≤ L) ∧
    ExcludesFlat minArea maxArea contours ∧
    f.blobs = ((BlobDetector.construct minArea maxArea).findBlobs convexHull contours).getBlobs

/-- What the detector finds meets what the tracker needs of its frames. -/
theorem Detected.inImage {minArea maxArea : Int} {L : ℝ} {f : Frame κ}
    (h : Detected convexHull minArea maxArea L f) : InImage polygonMoments L f where
  permutes := h.permutes
  centroids hull hmem := by
    rcases h.found with ⟨contours, hhull, himage, hexcludes, hblobs⟩
    rw [hblobs, BlobDetector.mem_getBlobs_findBlobs] at hmem
    rcases hmem with ⟨⟨contour, hcontour, rfl⟩, hkept⟩
    have hconvex := hhull contour hcontour
    have harea := area_ne_zero_of_kept hexcludes hcontour hconvex hkept
    have hvertex := fun p hp => himage contour hcontour p (hconvex.subset hp)
    rcases (hasCentroid_of_area hconvex harea).inBoundingBox with ⟨c, hc, hbox⟩
    rcases hbox.left with ⟨left, hleft, hleft'⟩
    rcases hbox.right with ⟨right, hright, hright'⟩
    rcases hbox.top with ⟨top, htop, htop'⟩
    rcases hbox.bottom with ⟨bottom, hbottom, hbottom'⟩
    refine ⟨c, hc, ⟨?_, ?_⟩, ?_, ?_⟩
    · exact le_trans (Int.cast_nonneg (hvertex left hleft).1.1) hleft'
    · exact le_trans (by exact_mod_cast hright') (hvertex right hright).1.2
    · exact le_trans (Int.cast_nonneg (hvertex top htop).2.1) htop'
    · exact le_trans (by exact_mod_cast hbottom') (hvertex bottom hbottom).2.2

/-- The detector and the tracker together: no round of `main` faults, and no object ever
leaves the bounds of the tracker. -/
theorem main_confined {cv : KalmanOps} (hcv : cv.Exact) {minArea maxArea : Int} {L : ℚ}
    (hL : 0 ≤ L) {frames : Nat → Frame κ}
    (hframes : ∀ k, Detected convexHull minArea maxArea (L : ℝ) (frames k)) (k : Nat) :
    ∃ t, mainLoop (exactPlatform polygonMoments cv) frames k = some t ∧
      ∀ obj ∈ t.objects, Confined cv L obj := by
  rw [mainLoop_eq_after]
  rcases exists_after (exactPlatform polygonMoments cv) (fun k => (hframes k).permutes) k with
    ⟨t, ht⟩
  exact ⟨t, ht, confined_of_reachable hcv hL
    (reachable_of_after (fun k => (hframes k).inImage) ht)⟩

end Detector

end BlobTracking.Tracking
