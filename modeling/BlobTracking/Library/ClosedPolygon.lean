import Mathlib.Algebra.BigOperators.Ring.List
import Mathlib.Algebra.Order.BigOperators.Group.List
import Mathlib.Algebra.Order.Field.Basic
import Mathlib.Tactic.LinearCombination
import Mathlib.Tactic.Linarith
import Mathlib.Tactic.Ring

/-! Closed polygons, with vertices of any type that has two coordinates in a ring.
The sums of Green's formula over the edges split into the triangles spanned with
any apex, which makes the centroid of an oriented polygon a weighted mean. -/
namespace BlobTracking.Library

/-- The edges of a closed polygon, the closing one last. -/
def edges : List α → List (α × α)
  | [] => []
  | p :: rest => (p :: rest).zip (rest ++ [p])

theorem mem_of_mem_edges {polygon : List α} {e : α × α} (h : e ∈ edges polygon) :
    e.1 ∈ polygon ∧ e.2 ∈ polygon := by
  cases polygon with
  | nil => cases h
  | cons p rest =>
    rcases List.of_mem_zip h with ⟨hfst, hsnd⟩
    refine ⟨hfst, ?_⟩
    rcases List.mem_append.mp hsnd with hmem | hmem
    · exact List.mem_cons_of_mem p hmem
    · exact List.mem_singleton.mp hmem ▸ List.mem_cons_self

/-- A polygon all of whose edges are points is a point. -/
theorem eq_head_of_edges {p : α} {rest : List α}
    (h : ∀ e ∈ edges (p :: rest), e.1 = e.2) : ∀ q ∈ p :: rest, q = p := by
  have hindex : ∀ i, (hi : i < (p :: rest).length) → (p :: rest)[i] = p := by
    intro i
    induction i with
    | zero => exact fun _ => rfl
    | succ i ih =>
      intro hi
      have hrest : i < rest.length := Nat.succ_lt_succ_iff.mp hi
      have hedge : ((p :: rest)[i], rest[i]) ∈ edges (p :: rest) := by
        rw [edges, List.mem_iff_getElem]
        exact ⟨i, by simp; omega, by simp [List.getElem_append_left hrest]⟩
      exact (h _ hedge).symm.trans (ih (by omega))
  intro q hq
  rcases List.mem_iff_getElem.mp hq with ⟨i, hi, rfl⟩
  exact hindex i hi

/-- Every vertex starts one edge and ends another. -/
theorem sum_edges_start {M : Type*} [AddCommMonoid M] (f : α → M) (polygon : List α) :
    ((edges polygon).map fun e => f e.1).sum = ((edges polygon).map fun e => f e.2).sum := by
  cases polygon with
  | nil => rfl
  | cons p rest =>
    have hstarts : (edges (p :: rest)).map Prod.fst = p :: rest := List.map_fst_zip (by simp)
    have hends : (edges (p :: rest)).map Prod.snd = rest ++ [p] := List.map_snd_zip (by simp)
    calc ((edges (p :: rest)).map fun e => f e.1).sum
        = (((edges (p :: rest)).map Prod.fst).map f).sum := by rw [List.map_map]; rfl
      _ = (((edges (p :: rest)).map Prod.snd).map f).sum := by
        rw [hstarts, hends]
        exact ((List.perm_append_singleton p rest).symm.map f).sum_eq
      _ = ((edges (p :: rest)).map fun e => f e.2).sum := by rw [List.map_map]; rfl

/-! ## Fans -/

section Fan
variable {R : Type*} [CommRing R] (x y : α → R)

def crossProduct (p q : α) : R := x p * y q - x q * y p

def turn (p q r : α) : R := (x q - x p) * (y r - y p) - (y q - y p) * (x r - x p)

theorem turn_rotate (p q r : α) : turn x y p q r = turn x y q r p := by
  unfold turn
  ring

/-- The shoelace sum is the signed area of the fan with any apex. -/
theorem sum_crossProduct_eq_fan (o : α) (polygon : List α) :
    ((edges polygon).map fun e => crossProduct x y e.1 e.2).sum =
      ((edges polygon).map fun e => turn x y o e.1 e.2).sum := by
  have htriangle : ∀ e : α × α, crossProduct x y e.1 e.2 + crossProduct x y o e.1 =
      turn x y o e.1 e.2 + crossProduct x y o e.2 := by
    intro e
    unfold crossProduct turn
    ring
  have hsum : ((edges polygon).map fun e => crossProduct x y e.1 e.2 + crossProduct x y o e.1).sum =
      ((edges polygon).map fun e => turn x y o e.1 e.2 + crossProduct x y o e.2).sum := by
    simp only [htriangle]
  rw [List.sum_map_add, List.sum_map_add, sum_edges_start (crossProduct x y o)] at hsum
  exact add_right_cancel hsum

/-- Green's sum for a linear coordinate `c` is three times the first moment of the fan. -/
theorem sum_moment_eq_fan {c : α → R} (a b : R) (hc : ∀ p, c p = a * x p + b * y p) (o : α)
    (polygon : List α) :
    ((edges polygon).map fun e => crossProduct x y e.1 e.2 * (c e.1 + c e.2)).sum =
      ((edges polygon).map fun e => turn x y o e.1 e.2 * (c o + c e.1 + c e.2)).sum := by
  let spoke : α → R := fun p => crossProduct x y o p * (c o + c p)
  have htriangle : ∀ e : α × α, crossProduct x y e.1 e.2 * (c e.1 + c e.2) + spoke e.1 =
      turn x y o e.1 e.2 * (c o + c e.1 + c e.2) + spoke e.2 := by
    intro e
    simp only [spoke, crossProduct, turn, hc]
    ring
  have hsum : ((edges polygon).map fun e =>
      crossProduct x y e.1 e.2 * (c e.1 + c e.2) + spoke e.1).sum = ((edges polygon).map fun e =>
      turn x y o e.1 e.2 * (c o + c e.1 + c e.2) + spoke e.2).sum := by
    simp only [htriangle]
  rw [List.sum_map_add, List.sum_map_add, sum_edges_start spoke] at hsum
  exact add_right_cancel hsum

theorem turn_eq_zero_of_line [IsDomain R] {u v p q r : α} (huv : x u ≠ x v ∨ y u ≠ y v)
    (hp : turn x y u v p = 0) (hq : turn x y u v q = 0) (hr : turn x y u v r = 0) :
    turn x y p q r = 0 := by
  unfold turn at hp hq hr ⊢
  rcases huv with hx | hy
  · apply (mul_eq_zero.mp _).resolve_left (sub_ne_zero.mpr hx.symm)
    linear_combination (x q - x p) * (hr - hp) - (x r - x p) * (hq - hp)
  · apply (mul_eq_zero.mp _).resolve_left (sub_ne_zero.mpr hy.symm)
    linear_combination (y q - y p) * (hr - hp) - (y r - y p) * (hq - hp)

end Fan

/-! ## Weighted means -/

theorem sum_map_neg {M : Type*} [AddCommGroup M] (l : List ι) (w : ι → M) :
    (l.map fun i => -w i).sum = -(l.map w).sum := by
  rw [List.sum_neg, List.map_map]
  rfl

section Mean
variable {K : Type*} [Field K] [LinearOrder K] [IsStrictOrderedRing K] {l : List ι} {w v : ι → K}
  {lo hi : K}

theorem mean_mem_of_nonneg (hw : ∀ i ∈ l, 0 ≤ w i) (hsum : 0 < (l.map w).sum)
    (hlo : ∀ i ∈ l, lo ≤ v i) (hhi : ∀ i ∈ l, v i ≤ hi) :
    lo ≤ (l.map fun i => w i * v i).sum / (l.map w).sum ∧
      (l.map fun i => w i * v i).sum / (l.map w).sum ≤ hi := by
  refine ⟨?_, ?_⟩
  · rw [le_div_iff₀ hsum, ← List.sum_map_mul_left]
    apply List.sum_le_sum
    intro i hmem
    rw [mul_comm]
    exact mul_le_mul_of_nonneg_left (hlo i hmem) (hw i hmem)
  · rw [div_le_iff₀ hsum, ← List.sum_map_mul_left]
    apply List.sum_le_sum
    intro i hmem
    rw [mul_comm hi]
    exact mul_le_mul_of_nonneg_left (hhi i hmem) (hw i hmem)

def OneSided (l : List ι) (w : ι → K) : Prop := (∀ i ∈ l, 0 ≤ w i) ∨ ∀ i ∈ l, w i ≤ 0

theorem OneSided.eq_zero_of_sum (h : OneSided l w) (hsum : (l.map w).sum = 0) :
    ∀ i ∈ l, w i = 0 := by
  have hnonneg : ∀ {w : ι → K}, (∀ i ∈ l, 0 ≤ w i) → (l.map w).sum = 0 → ∀ i ∈ l, w i = 0 := by
    intro w hw hsum i hmem
    exact List.all_zero_of_le_zero_le_of_sum_eq_zero (List.forall_mem_map.mpr hw) hsum
      (List.mem_map_of_mem hmem)
  rcases h with hw | hw
  · exact hnonneg hw hsum
  · intro i hmem
    have hneg := hnonneg (w := fun i => -w i) (fun i hmem => neg_nonneg.mpr (hw i hmem))
      (by rw [sum_map_neg, hsum, neg_zero])
    exact neg_eq_zero.mp (hneg i hmem)

theorem OneSided.mean_mem (h : OneSided l w) (hsum : (l.map w).sum ≠ 0)
    (hlo : ∀ i ∈ l, lo ≤ v i) (hhi : ∀ i ∈ l, v i ≤ hi) :
    lo ≤ (l.map fun i => w i * v i).sum / (l.map w).sum ∧
      (l.map fun i => w i * v i).sum / (l.map w).sum ≤ hi := by
  rcases h with hw | hw
  · have hpos := List.sum_nonneg (List.forall_mem_map.mpr hw)
    exact mean_mem_of_nonneg hw (lt_of_le_of_ne hpos hsum.symm) hlo hhi
  · have hw' : ∀ i ∈ l, 0 ≤ -w i := fun i hmem => neg_nonneg.mpr (hw i hmem)
    have hpos := List.sum_nonneg (List.forall_mem_map.mpr hw')
    rw [sum_map_neg] at hpos
    have hmean := mean_mem_of_nonneg hw' (by
      rw [sum_map_neg]
      exact lt_of_le_of_ne hpos (neg_ne_zero.mpr hsum).symm) hlo hhi
    simp only [neg_mul, sum_map_neg, neg_div_neg_eq] at hmean
    exact hmean

end Mean

end BlobTracking.Library
