import BlobTracking.Library.ConvexPolygon
import BlobTracking.OpenCV.Polygon

/-! Which pixels a hull covers. For a hull with an area its edges tell, so that it can
be computed. -/
namespace BlobTracking.OpenCV

open Library

/-- The hull with its inside. -/
def filledHull (hull : List Point) : Set (ℝ × ℝ) :=
  filled (fun q : Point => (q.x : ℝ)) (fun q => (q.y : ℝ)) hull

/-- The filled hull contains the pixel. -/
def Covers (hull : List Point) (p : Point) : Prop := ((p.x : ℝ), (p.y : ℝ)) ∈ filledHull hull

theorem covers_vertex {hull : List Point} {p : Point} (h : p ∈ hull) : Covers hull p :=
  vertex_mem_filled _ _ h

theorem Covers.le {hull : List Point} {p : Point} (h : Covers hull p) (a b r : Int)
    (hvertices : ∀ q ∈ hull, a * q.x + b * q.y ≤ r) : a * p.x + b * p.y ≤ r := by
  have hle : (a : ℝ) * p.x + b * p.y ≤ r := by
    refine le_of_mem_filled _ _ (fun q hq => ?_) h
    exact_mod_cast hvertices q hq
  exact_mod_cast hle

/-- From the pixel all edges turn the same way. -/
def WithinEdges (hull : List Point) (p : Point) : Prop :=
  (∀ e ∈ edges hull, 0 ≤ orientation p e.1 e.2) ∨ ∀ e ∈ edges hull, orientation p e.1 e.2 ≤ 0

instance (hull : List Point) : DecidablePred (WithinEdges hull) := fun p =>
  inferInstanceAs (Decidable ((∀ e ∈ edges hull, 0 ≤ orientation p e.1 e.2) ∨
    ∀ e ∈ edges hull, orientation p e.1 e.2 ≤ 0))

theorem turn_eq_orientation (p q r : Point) :
    turn (fun q : Point => (q.x : ℝ)) (fun q => (q.y : ℝ)) p q r = (orientation p q r : ℝ) := by
  unfold turn orientation
  push_cast
  rfl

theorem sum_crossProduct_eq_shoelace (hull : List Point) :
    ((edges hull).map fun e =>
      Library.crossProduct (fun q : Point => (q.x : ℝ)) (fun q => (q.y : ℝ)) e.1 e.2).sum =
        (shoelace hull : ℝ) := by
  unfold shoelace
  rw [Int.cast_list_sum, List.map_map]
  congr 1
  apply List.map_congr_left
  intro e _
  simp [Library.crossProduct, cross]

theorem IsConvexHull.covers_iff {contour hull : List Point} (h : IsConvexHull contour hull)
    (harea : shoelace hull ≠ 0) (p : Point) : Covers hull p ↔ WithinEdges hull p := by
  have horiented : (∀ e ∈ edges hull, ∀ q ∈ hull,
      0 ≤ turn (fun q : Point => (q.x : ℝ)) (fun q => (q.y : ℝ)) e.1 e.2 q) ∨
      ∀ e ∈ edges hull, ∀ q ∈ hull,
        turn (fun q : Point => (q.x : ℝ)) (fun q => (q.y : ℝ)) e.1 e.2 q ≤ 0 := by
    simp only [turn_eq_orientation, Int.cast_nonneg_iff, Int.cast_nonpos]
    exact h.oriented.imp (fun hleft e he q hq => hleft e he q (h.subset hq))
      fun hright e he q hq => hright e he q (h.subset hq)
  have hcovers := mem_filled_iff (fun q : Point => (q.x : ℝ)) (fun q => (q.y : ℝ)) (p := p)
    horiented (by rwa [sum_crossProduct_eq_shoelace, Int.cast_ne_zero])
  simp only [OneSided, turn_eq_orientation, Int.cast_nonneg_iff, Int.cast_nonpos] at hcovers
  exact hcovers

end BlobTracking.OpenCV
