import BlobTracking.OpenCV.Polygon

/-! The part of the blob detector that decides which contours the tracker sees. -/
namespace BlobTracking.Proc

open OpenCV

structure BlobDetector where
  minAreaBlob : Int
  maxAreaBlob : Int
  hulls : List (List Point)
deriving DecidableEq

namespace BlobDetector

def construct (minArea : Int := 0) (maxArea : Int := 1000000) : BlobDetector where
  minAreaBlob := minArea
  maxAreaBlob := maxArea
  hulls := []

def getBlobs (detector : BlobDetector) : List (List Point) := detector.hulls

/-- `area > minAreaBlob && area < maxAreaBlob` for `area = contourArea(hull)`. -/
def Keeps (detector : BlobDetector) (hull : List Point) : Prop :=
  polygonArea hull > detector.minAreaBlob ∧ polygonArea hull < detector.maxAreaBlob

instance (detector : BlobDetector) : DecidablePred detector.Keeps := fun hull =>
  inferInstanceAs (Decidable
    (polygonArea hull > detector.minAreaBlob ∧ polygonArea hull < detector.maxAreaBlob))

section FindBlobs
variable (convexHull : List Point → List Point)

def findBlob (detector : BlobDetector) (contour : List Point) : BlobDetector :=
  let hull := convexHull contour
  if detector.Keeps hull then { detector with hulls := detector.hulls ++ [hull] }
  else detector

/-- `contours` is what `findContours` finds in the foreground. -/
def findBlobs (detector : BlobDetector) (contours : List (List Point)) : BlobDetector :=
  contours.foldl (findBlob convexHull) { detector with hulls := [] }

theorem foldl_findBlob (detector : BlobDetector) (contours : List (List Point)) :
    contours.foldl (findBlob convexHull) detector =
      { detector with
        hulls := detector.hulls ++ (contours.map convexHull).filter detector.Keeps } := by
  induction contours generalizing detector with
  | nil => simp
  | cons contour rest ih =>
    rw [List.foldl_cons, ih, List.map_cons]
    by_cases hkeeps : detector.Keeps (convexHull contour)
    · rw [List.filter_cons_of_pos (by simpa using hkeeps), findBlob, if_pos hkeeps]
      simp only [List.append_assoc, List.singleton_append]
      rfl
    · rw [List.filter_cons_of_neg (by simpa using hkeeps), findBlob, if_neg hkeeps]

theorem mem_getBlobs_findBlobs {detector : BlobDetector} {contours : List (List Point)}
    {hull : List Point} : hull ∈ (detector.findBlobs convexHull contours).getBlobs ↔
      (∃ contour ∈ contours, convexHull contour = hull) ∧ detector.Keeps hull := by
  unfold findBlobs getBlobs
  rw [foldl_findBlob, List.nil_append, List.mem_filter, List.mem_map, decide_eq_true_eq]
  rfl

end FindBlobs

end BlobDetector

end BlobTracking.Proc
