import BlobTracking.Library.AlternatingTree
import Mathlib.Algebra.Order.BigOperators.Group.Finset
import Mathlib.Algebra.BigOperators.Group.Finset.Sigma
import Mathlib.Tactic.Linarith
import Mathlib.Tactic.Ring

/-! Labels that bound every cost from above. A matching inside the edges where
the bound is met, complete on both sides, has the greatest total; labels are
lowered on a set of rows and raised on a set of columns without losing the
bound, as long as no edge between the two sets has less slack. -/
namespace BlobTracking.Library.EqualityGraph
open AlternatingTree

structure Labels (X Y R : Type) where
  lx : X → R
  ly : Y → R

namespace Labels
variable {X Y R : Type} [CommRing R] {labels : Labels X Y R} {cost : X → Y → R}

def reduced (labels : Labels X Y R) (cost : X → Y → R) (x : X) (y : Y) : R :=
  labels.lx x + labels.ly y - cost x y

def Tight (labels : Labels X Y R) (cost : X → Y → R) (x : X) (y : Y) : Prop :=
  cost x y = labels.lx x + labels.ly y

theorem tight_iff_reduced {x : X} {y : Y} :
    labels.Tight cost x y ↔ labels.reduced cost x y = 0 := by
  unfold Tight reduced
  rw [sub_eq_zero, eq_comm]

theorem sum_equiv [Fintype X] [Fintype Y] (labels : Labels X Y R) (σ : X ≃ Y) :
    ∑ x, (labels.lx x + labels.ly (σ x)) = ∑ x, labels.lx x + ∑ y, labels.ly y := by
  rw [Finset.sum_add_distrib, Equiv.sum_comp σ labels.ly]

/-- Lower the rows of `S` and raise the columns of `T`. -/
def shift (labels : Labels X Y R) (S : X → Bool) (T : Y → Bool) (δ : R) : Labels X Y R where
  lx x := if S x = true then labels.lx x - δ else labels.lx x
  ly y := if T y = true then labels.ly y + δ else labels.ly y

section Shift
variable {S : X → Bool} {T : Y → Bool} {δ : R} {x : X} {y : Y}

theorem shift_lx (labels : Labels X Y R) (S : X → Bool) (T : Y → Bool) (δ : R) (x : X) :
    (labels.shift S T δ).lx x = if S x = true then labels.lx x - δ else labels.lx x := rfl

theorem shift_ly (labels : Labels X Y R) (S : X → Bool) (T : Y → Bool) (δ : R) (y : Y) :
    (labels.shift S T δ).ly y = if T y = true then labels.ly y + δ else labels.ly y := rfl

theorem reduced_shift_of_iff (h : S x = true ↔ T y = true) :
    (labels.shift S T δ).reduced cost x y = labels.reduced cost x y := by
  unfold reduced
  rw [shift_lx, shift_ly]
  by_cases hx : S x = true
  · rw [if_pos hx, if_pos (h.mp hx)]
    ring
  · rw [if_neg hx, if_neg fun hy => hx (h.mpr hy)]

theorem reduced_shift_of_crossing (hx : S x = true) (hy : T y ≠ true) :
    (labels.shift S T δ).reduced cost x y = labels.reduced cost x y - δ := by
  unfold reduced
  rw [shift_lx, shift_ly, if_pos hx, if_neg hy]
  ring

theorem tight_shift_of_iff (h : S x = true ↔ T y = true) :
    (labels.shift S T δ).Tight cost x y ↔ labels.Tight cost x y := by
  rw [tight_iff_reduced, tight_iff_reduced, reduced_shift_of_iff h]

end Shift

variable [LinearOrder R]

def Feasible (labels : Labels X Y R) (cost : X → Y → R) : Prop :=
  ∀ x y, cost x y ≤ labels.lx x + labels.ly y

section Feasible
variable [IsStrictOrderedRing R]

theorem Feasible.reduced_nonneg (h : labels.Feasible cost) (x : X) (y : Y) :
    0 ≤ labels.reduced cost x y :=
  sub_nonneg.mpr (h x y)

/-- A complete matching of tight edges is one of greatest total. -/
theorem Feasible.optimal [Fintype X] [Fintype Y] (h : labels.Feasible cost) {σ : X ≃ Y}
    (hσ : ∀ x, labels.Tight cost x (σ x)) (τ : X ≃ Y) :
    ∑ x, cost x (τ x) ≤ ∑ x, cost x (σ x) := by
  calc ∑ x, cost x (τ x) ≤ ∑ x, (labels.lx x + labels.ly (τ x)) :=
        Finset.sum_le_sum fun x _ => h x (τ x)
    _ = ∑ x, (labels.lx x + labels.ly (σ x)) := by
        rw [sum_equiv, sum_equiv]
    _ = ∑ x, cost x (σ x) := Finset.sum_congr rfl fun x _ => (hσ x).symm

theorem Feasible.shift {S : X → Bool} {T : Y → Bool} {δ : R} (h : labels.Feasible cost)
    (hδ : 0 ≤ δ)
    (hslack : ∀ x y, S x = true → T y ≠ true → δ ≤ labels.reduced cost x y) :
    (labels.shift S T δ).Feasible cost := by
  intro x y
  have hxy := h x y
  rw [shift_lx, shift_ly]
  by_cases hx : S x = true
  · rw [if_pos hx]
    by_cases hy : T y = true
    · rw [if_pos hy]
      linarith
    · have hcross := hslack x y hx hy
      unfold reduced at hcross
      rw [if_neg hy]
      linarith
  · rw [if_neg hx]
    split <;> linarith

end Feasible

/-- Labels that started from the row maxima, of costs at most `hi`, and have only
been shifted along columns that are matched. -/
structure Grown (labels : Labels X Y R) (cost : X → Y → R) (m : Matching X Y) (hi : R) :
    Prop where
  feasible : labels.Feasible cost
  tight : m.Within (labels.Tight cost)
  lx_le : ∀ x, labels.lx x ≤ hi
  ly_nonneg : ∀ y, 0 ≤ labels.ly y
  ly_free : ∀ y, m.yx y = none → labels.ly y = 0

namespace Grown
variable {m : Matching X Y} {lo hi : R}

theorem lo_le_lx (h : labels.Grown cost m hi) (hlo : ∀ x y, lo ≤ cost x y) {free : Y}
    (hfree : m.yx free = none) (x : X) : lo ≤ labels.lx x := by
  have hbound := h.feasible x free
  rw [h.ly_free free hfree, add_zero] at hbound
  exact (hlo x free).trans hbound

theorem augment (h : labels.Grown cost m hi) {root : X} {m' : Matching X Y}
    (haug : Matching.Augmented (labels.Tight cost) root m m') : labels.Grown cost m' hi :=
  { h with
    tight := haug.within
    ly_free := fun y hy => h.ly_free y (haug.column y hy) }

variable [IsStrictOrderedRing R]

/-- One free column keeps all labels within the spread of the costs. -/
theorem ly_le (h : labels.Grown cost m hi) (hm : m.Valid) (hlo : ∀ x y, lo ≤ cost x y)
    (hhi : ∀ x y, cost x y ≤ hi) {free : Y} (hfree : m.yx free = none) (y : Y) (x₀ : X) :
    labels.ly y ≤ hi - lo := by
  cases hy : m.yx y with
  | none =>
    rw [h.ly_free y hy]
    exact sub_nonneg.mpr ((hlo x₀ y).trans (hhi x₀ y))
  | some x =>
    have htight : cost x y = _ := h.tight x y ((hm.xy_iff x y).mpr hy)
    have := h.lo_le_lx hlo hfree x
    have := hhi x y
    linarith

theorem shift (h : labels.Grown cost m hi) {S : X → Bool} {T : Y → Bool} {δ : R}
    (hδ : 0 ≤ δ) (hslack : ∀ x y, S x = true → T y ≠ true → δ ≤ labels.reduced cost x y)
    (hmatched : ∀ x y, m.xy x = some y → (S x = true ↔ T y = true))
    (hfree : ∀ y, m.yx y = none → T y ≠ true) :
    (labels.shift S T δ).Grown cost m hi where
  feasible := h.feasible.shift hδ hslack
  tight x y hxy := (tight_shift_of_iff (hmatched x y hxy)).mpr (h.tight x y hxy)
  lx_le x := by
    have := h.lx_le x
    rw [shift_lx]
    split <;> linarith
  ly_nonneg y := by
    have := h.ly_nonneg y
    rw [shift_ly]
    split <;> linarith
  ly_free y hy := by
    rw [shift_ly, if_neg (hfree y hy)]
    exact h.ly_free y hy

end Grown

end Labels

end BlobTracking.Library.EqualityGraph
