import BlobTracking.Library.ClosedPolygon
import Mathlib.Analysis.Convex.Topology
import Mathlib.Analysis.LocallyConvex.Separation

/-! The filled polygon of a list of vertices. Where a point sees all edges turn the same
way and the polygon has an area, the point is covered: a line that kept it off the
vertices would order them by slope, and no closed polygon goes only up. -/
namespace BlobTracking.Library

section Convex
variable {α : Type*} (x y : α → ℝ)

/-- All convex combinations of the vertices. -/
def filled (polygon : List α) : Set (ℝ × ℝ) :=
  convexHull ℝ {v | ∃ q ∈ polygon, v = (x q, y q)}

theorem vertex_mem_filled {polygon : List α} {q : α} (h : q ∈ polygon) :
    (x q, y q) ∈ filled x y polygon :=
  subset_convexHull ℝ _ ⟨q, h, rfl⟩

/-- A half-plane around the vertices is one around the filled polygon. -/
theorem le_of_mem_filled {polygon : List α} {a b r : ℝ}
    (hvertices : ∀ q ∈ polygon, a * x q + b * y q ≤ r) {v : ℝ × ℝ}
    (hv : v ∈ filled x y polygon) : a * v.1 + b * v.2 ≤ r := by
  have hlinear : IsLinearMap ℝ fun w : ℝ × ℝ => a * w.1 + b * w.2 := by
    refine ⟨fun s t => ?_, fun c s => ?_⟩
    · simp only [Prod.fst_add, Prod.snd_add]
      ring
    · simp only [Prod.smul_fst, Prod.smul_snd, smul_eq_mul]
      ring
  refine convexHull_min ?_ (convex_halfSpace_le hlinear r) hv
  intro u hu
  rcases hu with ⟨q, hq, rfl⟩
  exact hvertices q hq

theorem finite_vertices (polygon : List α) : {v | ∃ q ∈ polygon, v = (x q, y q)}.Finite := by
  classical
  refine (polygon.toFinset.finite_toSet.image fun q => (x q, y q)).subset ?_
  intro v hv
  rcases hv with ⟨q, hq, rfl⟩
  exact ⟨q, List.mem_toFinset.mpr hq, rfl⟩

theorem exists_separator {polygon : List α} {v : ℝ × ℝ} (hv : v ∉ filled x y polygon) :
    ∃ a b : ℝ, ∀ q ∈ polygon, 0 < a * (x q - v.1) + b * (y q - v.2) := by
  rcases geometric_hahn_banach_point_closed (convex_convexHull ℝ _)
    ((finite_vertices x y polygon).isClosed_convexHull ℝ) hv with ⟨f, u, hpoint, hpolygon⟩
  have hf : ∀ s t : ℝ, f (s, t) = s * f (1, 0) + t * f (0, 1) := by
    intro s t
    rw [← smul_eq_mul, ← smul_eq_mul, ← map_smul, ← map_smul, ← map_add]
    simp
  refine ⟨f (1, 0), f (0, 1), fun q hq => ?_⟩
  have hvertex := hpoint.trans (hpolygon _ (vertex_mem_filled x y hq))
  rw [hf (x q) (y q), show v = (v.1, v.2) from rfl, hf] at hvertex
  linarith

/-- Along a closed polygon nothing goes only up. -/
theorem step_eq_zero {polygon : List α} {f : α → ℝ}
    (h : OneSided (edges polygon) fun e => f e.2 - f e.1) :
    ∀ e ∈ edges polygon, f e.2 - f e.1 = 0 := by
  refine h.eq_zero_of_sum ?_
  have hsum : ((edges polygon).map fun e => f e.2 - f e.1 + f e.1).sum =
      ((edges polygon).map fun e => f e.1).sum := by
    simp only [sub_add_cancel, sum_edges_start f]
  rw [List.sum_map_add] at hsum
  exact add_eq_right.mp hsum

/-- How far round from the line through `p` a vertex lies, seen from `p`. -/
noncomputable def slope (a b : ℝ) (p q : α) : ℝ :=
  (a * (y q - y p) - b * (x q - x p)) / (a * (x q - x p) + b * (y q - y p))

/-- The slope grows with the turn. -/
theorem exists_slope_sub_slope {a b : ℝ} {p q r : α}
    (hq : 0 < a * (x q - x p) + b * (y q - y p))
    (hr : 0 < a * (x r - x p) + b * (y r - y p)) :
    ∃ w, 0 < w ∧ slope x y a b p r - slope x y a b p q = turn x y p q r * w := by
  have hne : a ≠ 0 ∨ b ≠ 0 := by
    by_contra hzero
    push Not at hzero
    simp [hzero.1, hzero.2] at hq
  have hnormal : 0 < a ^ 2 + b ^ 2 := by
    rcases hne with ha | hb <;> positivity
  refine ⟨_, div_pos hnormal (mul_pos hr hq), ?_⟩
  unfold slope turn
  rw [div_sub_div _ _ hr.ne' hq.ne', mul_div_assoc']
  congr 1
  ring

theorem mem_filled_of_oneSided {polygon : List α} {p : α}
    (hside : OneSided (edges polygon) fun e => turn x y p e.1 e.2)
    (harea : ((edges polygon).map fun e => crossProduct x y e.1 e.2).sum ≠ 0) :
    (x p, y p) ∈ filled x y polygon := by
  by_contra hout
  rcases exists_separator x y hout with ⟨a, b, hpos⟩
  have hstep : ∀ e ∈ edges polygon, ∃ w, 0 < w ∧
      slope x y a b p e.2 - slope x y a b p e.1 = turn x y p e.1 e.2 * w := fun e he =>
    exists_slope_sub_slope x y (hpos e.1 (mem_of_mem_edges he).1)
      (hpos e.2 (mem_of_mem_edges he).2)
  -- the slopes go one way along the edges and come back to where they started
  have hslopes : OneSided (edges polygon) fun e =>
      slope x y a b p e.2 - slope x y a b p e.1 := by
    rcases hside with hturns | hturns
    · refine Or.inl fun e he => ?_
      rcases hstep e he with ⟨w, hw, hslope⟩
      exact (mul_nonneg (hturns e he) hw.le).trans_eq hslope.symm
    · refine Or.inr fun e he => ?_
      rcases hstep e he with ⟨w, hw, hslope⟩
      exact hslope.trans_le (mul_nonpos_of_nonpos_of_nonneg (hturns e he) hw.le)
  have hturn : ∀ e ∈ edges polygon, turn x y p e.1 e.2 = 0 := by
    intro e he
    rcases hstep e he with ⟨w, hw, hslope⟩
    have hzero := hslope.symm.trans (step_eq_zero hslopes e he)
    exact (mul_eq_zero.mp hzero).resolve_right hw.ne'
  apply harea
  rw [sum_crossProduct_eq_fan x y p]
  apply List.sum_eq_zero
  intro t ht
  rcases List.mem_map.mp ht with ⟨e, he, rfl⟩
  exact hturn e he

theorem turn_swap (p q r : α) : turn x y q p r = -turn x y p q r := by
  unfold turn
  ring

/-- The filled polygon stays on the side of a line where its vertices are. -/
theorem turn_nonneg_of_mem_filled {polygon : List α} {u v p : α}
    (hvertices : ∀ q ∈ polygon, 0 ≤ turn x y u v q) (hp : (x p, y p) ∈ filled x y polygon) :
    0 ≤ turn x y u v p := by
  have hturn : ∀ q, turn x y u v q = ((y v - y u) * x u + -(x v - x u) * y u) -
      ((y v - y u) * x q + -(x v - x u) * y q) := by
    intro q
    unfold turn
    ring
  rw [hturn, sub_nonneg]
  refine le_of_mem_filled x y (fun q hq => ?_) hp
  rw [← sub_nonneg, ← hturn]
  exact hvertices q hq

/-- A polygon with an area whose edges have it on one side covers what they have there. -/
theorem mem_filled_iff {polygon : List α} {p : α}
    (horiented : (∀ e ∈ edges polygon, ∀ q ∈ polygon, 0 ≤ turn x y e.1 e.2 q) ∨
      ∀ e ∈ edges polygon, ∀ q ∈ polygon, turn x y e.1 e.2 q ≤ 0)
    (harea : ((edges polygon).map fun e => crossProduct x y e.1 e.2).sum ≠ 0) :
    (x p, y p) ∈ filled x y polygon ↔
      OneSided (edges polygon) fun e => turn x y p e.1 e.2 := by
  refine ⟨?_, fun hside => mem_filled_of_oneSided x y hside harea⟩
  intro hp
  rcases horiented with hleft | hright
  · refine Or.inl fun e he => ?_
    dsimp only
    rw [turn_rotate]
    exact turn_nonneg_of_mem_filled x y (hleft e he) hp
  · refine Or.inr fun e he => ?_
    dsimp only
    rw [turn_rotate, turn_swap, neg_nonpos]
    refine turn_nonneg_of_mem_filled x y (fun q hq => ?_) hp
    rw [turn_swap, neg_nonneg]
    exact hright e he q hq

end Convex

end BlobTracking.Library
