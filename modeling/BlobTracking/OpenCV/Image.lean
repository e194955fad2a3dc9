import BlobTracking.Library.WindowFilter
import Mathlib.Algebra.BigOperators.Fin
import Mathlib.Algebra.BigOperators.Group.Finset.Basic
import Mathlib.Algebra.Order.BigOperators.Group.Finset
import Mathlib.Data.Fintype.Prod
import Mathlib.Order.Fin.Basic

/-! Images of eight bits a channel and the three filters of `morphologyOperations`.
Every channel is filtered on its own. -/
namespace BlobTracking.OpenCV

open Library

/-- One plane of `uchar` for each channel. -/
abbrev Image (rows cols channels : Nat) := Fin channels → Fin rows × Fin cols → Fin 256

/-- Where `BORDER_REFLECT_101` reads position `p` of a line of `len`. -/
def borderInterpolate (p : Int) (len : Nat) : Nat :=
  if len = 1 then 0
  else
    let q := (p % (2 * ((len : Int) - 1))).toNat
    if q < len then q else 2 * (len - 1) - q

theorem borderInterpolate_lt {len : Nat} (h : 0 < len) (p : Int) :
    borderInterpolate p len < len := by
  unfold borderInterpolate
  dsimp only
  split
  · exact h
  · have hnonneg := Int.emod_nonneg p (show 2 * ((len : Int) - 1) ≠ 0 by omega)
    have hlt := Int.emod_lt_of_pos p (show 0 < 2 * ((len : Int) - 1) by omega)
    split <;> omega

def borderIndex {len : Nat} (i : Fin len) (offset : Int) : Fin len :=
  ⟨borderInterpolate (i.val + offset) len, borderInterpolate_lt i.pos _⟩

theorem borderInterpolate_of_lt {len p : Nat} (h : p < len) : borderInterpolate p len = p := by
  unfold borderInterpolate
  dsimp only
  split
  · omega
  · rw [Int.emod_eq_of_lt (Int.natCast_nonneg p) (by omega), Int.toNat_natCast, if_pos h]

@[simp] theorem borderIndex_zero {len : Nat} (i : Fin len) : borderIndex i 0 = i := by
  apply Fin.ext
  change borderInterpolate (i.val + 0) len = i.val
  rw [add_zero, borderInterpolate_of_lt i.isLt]

/-- Past its last pixel a line is read backwards, without the last pixel. -/
theorem borderIndex_one_ne {len : Nat} (hlen : 1 < len) (i : Fin len) : borderIndex i 1 ≠ i := by
  intro h
  have hval : borderInterpolate (i.val + 1) len = i.val := congrArg Fin.val h
  have hi := i.isLt
  rw [← Nat.cast_add_one] at hval
  by_cases hnext : i.val + 1 < len
  · rw [borderInterpolate_of_lt hnext] at hval
    omega
  · have hlast : i.val + 1 = len := by omega
    unfold borderInterpolate at hval
    dsimp only at hval
    rw [if_neg (by omega), hlast] at hval
    by_cases htwo : len = 2
    · subst htwo
      simp at hval
      omega
    · rw [Int.emod_eq_of_lt (Int.natCast_nonneg len) (by omega), Int.toNat_natCast,
        if_neg (lt_irrefl len)] at hval
      omega

/-- The sum over the five by five pixels around `p`. -/
def boxSum {rows cols : Nat} (x : Fin rows × Fin cols → Fin 256) (p : Fin rows × Fin cols) : Nat :=
  ∑ d : Fin 5 × Fin 5, (x (borderIndex p.1 ((d.1.val : Int) - 2),
    borderIndex p.2 ((d.2.val : Int) - 2))).val

theorem boxSum_le {rows cols : Nat} {x : Fin rows × Fin cols → Fin 256} {v : Nat}
    (h : ∀ p, (x p).val ≤ v) (p : Fin rows × Fin cols) : boxSum x p ≤ 25 * v := by
  have hsum := Finset.sum_le_card_nsmul (Finset.univ : Finset (Fin 5 × Fin 5))
    (fun d => (x (borderIndex p.1 ((d.1.val : Int) - 2),
      borderIndex p.2 ((d.2.val : Int) - 2))).val) v fun d _ => h _
  exact hsum

/-- A window that reads one black pixel has at most 24 bright ones. -/
theorem boxSum_le_of_black {rows cols : Nat} {x : Fin rows × Fin cols → Fin 256} {v : Nat}
    (h : ∀ p, (x p).val ≤ v) {p : Fin rows × Fin cols} {d : Fin 5 × Fin 5}
    (hblack : (x (borderIndex p.1 ((d.1.val : Int) - 2),
      borderIndex p.2 ((d.2.val : Int) - 2))).val = 0) : boxSum x p ≤ 24 * v := by
  let pixel : Fin 5 × Fin 5 → Nat := fun d => (x (borderIndex p.1 ((d.1.val : Int) - 2),
    borderIndex p.2 ((d.2.val : Int) - 2))).val
  have hsplit : pixel d + ∑ e ∈ Finset.univ.erase d, pixel e = boxSum x p :=
    Finset.add_sum_erase _ pixel (Finset.mem_univ d)
  have hrest := Finset.sum_le_card_nsmul (Finset.univ.erase d) pixel v fun e _ => h _
  rw [Finset.card_erase_of_mem (Finset.mem_univ d)] at hrest
  have hcard : (Finset.univ : Finset (Fin 5 × Fin 5)).card - 1 = 24 := rfl
  rw [hcard, smul_eq_mul] at hrest
  rw [show pixel d = 0 from hblack, Nat.zero_add] at hsplit
  exact hsplit ▸ hrest

section Filters
variable {rows cols channels : Nat}

/-- `blur(x, dest, Size(5,5))`: the mean, rounded to the nearest integer. -/
def blur (x : Image rows cols channels) : Image rows cols channels := fun c p =>
  ⟨(boxSum (x c) p + 12) / 25, by
    have hle : boxSum (x c) p ≤ 25 * 255 := boxSum_le (fun q => Nat.le_of_lt_succ (x c q).isLt) p
    omega⟩

/-- `getStructuringElement(MORPH_RECT, Size(width, height), anchor)`; the anchor of a
rectangle is not kept. -/
structure RectKernel where
  width : Nat
  height : Nat
  width_pos : 0 < width
  height_pos : 0 < height

/-- The kernel is laid over a pixel with its centre, the default anchor. -/
def RectKernel.reach (kernel : RectKernel) : Reach where
  up := kernel.height / 2
  down := kernel.height - 1 - kernel.height / 2
  left := kernel.width / 2
  right := kernel.width - 1 - kernel.width / 2

def dilate (kernel : RectKernel) (x : Image rows cols channels) : Image rows cols channels :=
  fun c => (kernel.reach.window rows cols).maximum (x c)

def erode (kernel : RectKernel) (x : Image rows cols channels) : Image rows cols channels :=
  fun c => (kernel.reach.window rows cols).minimum (x c)

end Filters

end BlobTracking.OpenCV
