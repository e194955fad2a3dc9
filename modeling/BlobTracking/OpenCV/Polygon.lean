import BlobTracking.Library.ClosedPolygon
import BlobTracking.OpenCV.Points
import Mathlib.Analysis.Convex.Hull

/-! What OpenCV computes of a closed polygon with integer vertices: its area by the
shoelace formula and its moments by Green's formula, both without the sign of
the orientation. `IsConvexHull` is what is assumed of `convexHull`. -/
namespace BlobTracking.OpenCV

open Library

def cross (p q : Point) : Int := p.x * q.y - q.x * p.y

def shoelace (polygon : List Point) : Int :=
  ((edges polygon).map fun e => cross e.1 e.2).sum

/-- The moments `getBlobCentroid` reads. -/
@[ext] structure Moments where
  m00 : ℚ
  m10 : ℚ
  m01 : ℚ
deriving DecidableEq

/-- Green's formula for the first moment of the coordinate `c`, before the sign. -/
def firstMoment (c : Point → Int) (polygon : List Point) : Int :=
  ((edges polygon).map fun e => cross e.1 e.2 * (c e.1 + c e.2)).sum

/-- `moments(polygon, false)`: signs are chosen to make `m00` non-negative, and a
polygon without area has no moments at all. -/
def polygonMoments (polygon : List Point) : Moments :=
  if shoelace polygon = 0 then ⟨0, 0, 0⟩
  else
    { m00 := |(shoelace polygon : ℚ)| / 2
      m10 := (shoelace polygon).sign * firstMoment Point.x polygon / 6
      m01 := (shoelace polygon).sign * firstMoment Point.y polygon / 6 }

/-- `contourArea(polygon)`. -/
def polygonArea (polygon : List Point) : ℚ := |(shoelace polygon : ℚ)| / 2

def orientation (p q r : Point) : Int :=
  (q.x - p.x) * (r.y - p.y) - (q.y - p.y) * (r.x - p.x)

def square (x y : Int) : List Point :=
  [⟨x - 1, y - 1⟩, ⟨x + 1, y - 1⟩, ⟨x + 1, y + 1⟩, ⟨x - 1, y + 1⟩]

theorem polygonMoments_square (x y : Int) :
    polygonMoments (square x y) = ⟨4, 4 * x, 4 * y⟩ := by
  have harea : shoelace (square x y) = 8 := by
    simp [shoelace, square, edges, cross]
    ring
  have hx : firstMoment Point.x (square x y) = 24 * x := by
    simp [firstMoment, square, edges, cross]
    ring
  have hy : firstMoment Point.y (square x y) = 24 * y := by
    simp [firstMoment, square, edges, cross]
    ring
  have hsign : Int.sign 8 = 1 := rfl
  unfold polygonMoments
  rw [if_neg (by rw [harea]; decide), harea, hx, hy, hsign]
  ext <;> push_cast
  · norm_num
  · ring
  · ring

def Point.toPlane (p : Point) : ℚ × ℚ := (p.x, p.y)

theorem Point.toPlane_injective : Function.Injective Point.toPlane := by
  intro p q h
  rcases Prod.mk.inj h with ⟨hx, hy⟩
  exact Point.ext (Int.cast_injective hx) (Int.cast_injective hy)

/-- `hull` lists the vertices of the convex hull of `contour` in a consistent
orientation: every edge has the whole contour on the same closed side. -/
structure IsConvexHull (contour hull : List Point) : Prop where
  subset : hull ⊆ contour
  covers : ∀ p ∈ contour, p.toPlane ∈ convexHull ℚ {v | ∃ q ∈ hull, v = q.toPlane}
  oriented : (∀ e ∈ edges hull, ∀ p ∈ contour, 0 ≤ orientation e.1 e.2 p) ∨
    ∀ e ∈ edges hull, ∀ p ∈ contour, orientation e.1 e.2 p ≤ 0

/-- A polygon that is on one side of each of its edges is its own hull. -/
theorem isConvexHull_of_oriented {hull : List Point}
    (h : (∀ e ∈ edges hull, ∀ p ∈ hull, 0 ≤ orientation e.1 e.2 p) ∨
      ∀ e ∈ edges hull, ∀ p ∈ hull, orientation e.1 e.2 p ≤ 0) : IsConvexHull hull hull where
  subset := List.Subset.refl hull
  covers q hq := subset_convexHull ℚ _ ⟨q, hq, rfl⟩
  oriented := h

theorem isConvexHull_pixel (p : Point) : IsConvexHull [p] [p] := by
  refine isConvexHull_of_oriented (Or.inl fun e he q hq => ?_)
  rw [List.mem_singleton.mp he, List.mem_singleton.mp hq]
  simp [orientation]

theorem isConvexHull_square (x y : Int) : IsConvexHull (square x y) (square x y) := by
  refine isConvexHull_of_oriented (Or.inl fun e he p hp => ?_)
  have hbounds : (x - 1 ≤ p.x ∧ p.x ≤ x + 1) ∧ y - 1 ≤ p.y ∧ p.y ≤ y + 1 := by
    simp only [square, List.mem_cons, List.not_mem_nil, or_false] at hp
    rcases hp with rfl | rfl | rfl | rfl <;> dsimp only <;> omega
  simp only [edges, square, List.cons_append, List.nil_append, List.zip_cons_cons,
    List.zip_nil_left, List.mem_cons, List.not_mem_nil, or_false] at he
  rcases he with rfl | rfl | rfl | rfl <;> simp only [orientation] <;> omega

def Flat (contour : List Point) : Prop :=
  ∀ p ∈ contour, ∀ q ∈ contour, ∀ r ∈ contour, orientation p q r = 0

/-- Inside the smallest upright rectangle around the vertices. -/
structure InBoundingBox (hull : List Point) (c : Point2f) : Prop where
  left : ∃ p ∈ hull, (p.x : ℚ) ≤ c.x
  right : ∃ p ∈ hull, c.x ≤ (p.x : ℚ)
  top : ∃ p ∈ hull, (p.y : ℚ) ≤ c.y
  bottom : ∃ p ∈ hull, c.y ≤ (p.y : ℚ)

theorem cast_sum_map (l : List α) (f : α → Int) :
    ((l.map f).sum : ℚ) = (l.map fun i => (f i : ℚ)).sum := by
  rw [Int.cast_list_sum, List.map_map]
  rfl

theorem shoelace_eq_fan (o : Point) (polygon : List Point) :
    (shoelace polygon : ℚ) = ((edges polygon).map fun e => (orientation o e.1 e.2 : ℚ)).sum := by
  rw [← cast_sum_map]
  exact congrArg Int.cast (sum_crossProduct_eq_fan Point.x Point.y o polygon)

theorem firstMoment_eq_fan {c : Point → Int} (a b : Int) (hc : ∀ p, c p = a * p.x + b * p.y)
    (o : Point) (polygon : List Point) :
    (firstMoment c polygon : ℚ) = ((edges polygon).map fun e =>
      (orientation o e.1 e.2 : ℚ) * ((c o + c e.1 + c e.2 : Int) : ℚ)).sum := by
  have hfan := congrArg (Int.cast : Int → ℚ)
    (sum_moment_eq_fan Point.x Point.y a b hc o polygon)
  rw [cast_sum_map (edges polygon) fun e => turn Point.x Point.y o e.1 e.2 * _] at hfan
  simp only [Int.cast_mul] at hfan
  exact hfan

theorem orientation_rotate (p q r : Point) : orientation p q r = orientation q r p :=
  turn_rotate Point.x Point.y p q r

theorem polygonArea_eq_zero_iff (polygon : List Point) :
    polygonArea polygon = 0 ↔ shoelace polygon = 0 := by
  simp [polygonArea]

theorem polygonMoments_m00 (polygon : List Point) :
    (polygonMoments polygon).m00 = polygonArea polygon := by
  unfold polygonMoments
  split
  case isTrue hzero => exact ((polygonArea_eq_zero_iff polygon).mpr hzero).symm
  case isFalse => rfl

theorem sign_mul_div_area {a : Int} (ha : a ≠ 0) (m : ℚ) :
    a.sign * m / 6 / (|(a : ℚ)| / 2) = m / a / 3 := by
  have hcast : (a : ℚ) ≠ 0 := Int.cast_ne_zero.mpr ha
  rcases ha.lt_or_gt with hneg | hpos
  · rw [Int.sign_eq_neg_one_of_neg hneg, abs_of_neg (Int.cast_lt_zero.mpr hneg)]
    push_cast
    field_simp
    ring
  · rw [Int.sign_eq_one_of_pos hpos, abs_of_pos (Int.cast_pos.mpr hpos)]
    push_cast
    field_simp
    ring

namespace IsConvexHull
variable {contour hull : List Point}

/-- Seen from any point of the contour, all edges turn the same way. -/
theorem oneSided (h : IsConvexHull contour hull) {o : Point} (ho : o ∈ contour) :
    OneSided (edges hull) fun e => (orientation o e.1 e.2 : ℚ) := by
  rcases h.oriented with hside | hside
  · refine Or.inl fun e he => Int.cast_nonneg ?_
    rw [orientation_rotate]
    exact hside e he o ho
  · refine Or.inr fun e he => Int.cast_nonpos.mpr ?_
    rw [orientation_rotate]
    exact hside e he o ho

theorem shoelace_of_flat (h : IsConvexHull contour hull) (hflat : Flat contour) :
    shoelace hull = 0 := by
  cases hull with
  | nil => rfl
  | cons o rest =>
    have hfan : (shoelace (o :: rest) : ℚ) = 0 := by
      rw [shoelace_eq_fan o]
      apply List.sum_eq_zero
      intro a ha
      rcases List.mem_map.mp ha with ⟨e, he, rfl⟩
      rcases mem_of_mem_edges he with ⟨hstart, hend⟩
      rw [hflat o (h.subset List.mem_cons_self) e.1 (h.subset hstart) e.2 (h.subset hend)]
      exact Int.cast_zero
    exact_mod_cast hfan

theorem eq_of_edges_eq (h : IsConvexHull contour hull) (hpoint : ∀ e ∈ edges hull, e.1 = e.2) :
    ∀ p ∈ contour, ∀ q ∈ contour, p = q := by
  have hsingle : ∃ o : Point, ∀ p ∈ contour, p = o := by
    cases hull with
    | nil =>
      refine ⟨⟨0, 0⟩, fun p hp => ?_⟩
      simpa using h.covers p hp
    | cons o rest =>
      refine ⟨o, fun p hp => ?_⟩
      have hvertices : {v | ∃ q ∈ o :: rest, v = q.toPlane} ⊆ {o.toPlane} := by
        rintro v ⟨q, hq, rfl⟩
        rw [eq_head_of_edges hpoint q hq]
        rfl
      have hcovered := convexHull_mono hvertices (h.covers p hp)
      rw [convexHull_singleton] at hcovered
      exact Point.toPlane_injective hcovered
  rcases hsingle with ⟨o, ho⟩
  exact fun p hp q hq => (ho p hp).trans (ho q hq).symm

theorem flat_of_shoelace (h : IsConvexHull contour hull) (harea : shoelace hull = 0) :
    Flat contour := by
  -- with no area, every contour point is on the line of every edge
  have hlines : ∀ e ∈ edges hull, ∀ p ∈ contour, orientation e.1 e.2 p = 0 := by
    intro e he p hp
    have hfan : ((edges hull).map fun e => (orientation p e.1 e.2 : ℚ)).sum = 0 := by
      rw [← shoelace_eq_fan, harea]
      exact Int.cast_zero
    rw [← orientation_rotate]
    exact_mod_cast (h.oneSided hp).eq_zero_of_sum hfan e he
  intro p hp q hq r hr
  by_cases hpoint : ∀ e ∈ edges hull, e.1 = e.2
  · rw [h.eq_of_edges_eq hpoint q hq p hp]
    simp [orientation]
  · push Not at hpoint
    rcases hpoint with ⟨e, he, hne⟩
    have hdiffer : e.1.x ≠ e.2.x ∨ e.1.y ≠ e.2.y := by
      by_contra hsame
      push Not at hsame
      exact hne (Point.ext hsame.1 hsame.2)
    exact turn_eq_zero_of_line Point.x Point.y hdiffer (hlines e he p hp) (hlines e he q hq)
      (hlines e he r hr)

/-- A coordinate of the centroid is between two vertices. -/
theorem coordinate_mem (h : IsConvexHull contour hull) (harea : shoelace hull ≠ 0)
    {c : Point → Int} (a b : Int) (hc : ∀ p, c p = a * p.x + b * p.y) :
    (∃ p ∈ hull, (c p : ℚ) ≤ firstMoment c hull / shoelace hull / 3) ∧
      ∃ p ∈ hull, (firstMoment c hull / shoelace hull / 3 : ℚ) ≤ c p := by
  have hne : hull ≠ [] := by
    rintro rfl
    exact harea rfl
  rcases List.exists_mem_of_ne_nil hull hne with ⟨o, ho⟩
  have hvertices : hull.toFinset.Nonempty := ⟨o, List.mem_toFinset.mpr ho⟩
  rcases hull.toFinset.exists_min_image c hvertices with ⟨low, hlow, hmin⟩
  rcases hull.toFinset.exists_max_image c hvertices with ⟨high, hhigh, hmax⟩
  simp only [List.mem_toFinset] at hlow hmin hhigh hmax
  have hsum : ((edges hull).map fun e => (orientation o e.1 e.2 : ℚ)).sum ≠ 0 := by
    rw [← shoelace_eq_fan]
    exact Int.cast_ne_zero.mpr harea
  have hlo : ∀ e ∈ edges hull, ((3 * c low : Int) : ℚ) ≤ ((c o + c e.1 + c e.2 : Int) : ℚ) := by
    intro e he
    have hstart := hmin _ (mem_of_mem_edges he).1
    have hend := hmin _ (mem_of_mem_edges he).2
    have hapex := hmin o ho
    rw [Int.cast_le]
    omega
  have hhi : ∀ e ∈ edges hull, ((c o + c e.1 + c e.2 : Int) : ℚ) ≤ ((3 * c high : Int) : ℚ) := by
    intro e he
    have hstart := hmax _ (mem_of_mem_edges he).1
    have hend := hmax _ (mem_of_mem_edges he).2
    have hapex := hmax o ho
    rw [Int.cast_le]
    omega
  have hmean := (h.oneSided (h.subset ho)).mean_mem hsum hlo hhi
  rw [← shoelace_eq_fan, ← firstMoment_eq_fan a b hc] at hmean
  push_cast at hmean
  refine ⟨⟨low, hlow, ?_⟩, high, hhigh, ?_⟩
  · rw [le_div_iff₀ three_pos]
    linarith [hmean.1]
  · rw [div_le_iff₀ three_pos]
    linarith [hmean.2]

end IsConvexHull

end BlobTracking.OpenCV
