import Mathlib.Algebra.BigOperators.Fin
import Mathlib.Algebra.BigOperators.Intervals
import Mathlib.Algebra.Order.BigOperators.Group.Finset
import Mathlib.Data.Fintype.Sum
import Mathlib.Tactic.Linarith
import Mathlib.Tactic.Ring

/-! An `m × n` assignment problem squared up with a running counter. The counter
is handed out row by row to the entries outside the `m × n` block, so it is not
neutral: it charges every real pair `(i,j)` an index bias, and a permutation is
optimal for the square matrix exactly when its real pairs are optimal for the
biased costs. -/
namespace BlobTracking.Library.PaddedAssignment

/-- The counter before entry `(i,j)` is visited, starting from one. -/
def padding (m n i j : Nat) : Int :=
  ((min i m * (max m n - n) + (i - m) * max m n +
    (if i < m then j - n else j) + 1 : Nat) : Int)

theorem padding_zero (m n : Nat) : padding m n 0 0 = 1 := by
  simp [padding]

theorem padding_succ_of_padded {m n i j : Nat} (h : m ≤ i ∨ n ≤ j) :
    padding m n i (j + 1) = padding m n i j + 1 := by
  unfold padding
  split <;> push_cast <;> omega

theorem padding_succ_of_real {m n i j : Nat} (hi : i < m) (hj : j < n) :
    padding m n i (j + 1) = padding m n i j := by
  unfold padding
  rw [if_pos hi, if_pos hi]
  push_cast
  omega

theorem padding_row_end (m n i : Nat) :
    padding m n i (max m n) = padding m n (i + 1) 0 := by
  unfold padding
  by_cases hi : i < m
  · rw [if_pos hi, min_eq_left hi.le, min_eq_left (show i + 1 ≤ m from hi), Nat.succ_mul,
      show i - m = 0 by omega, show i + 1 - m = 0 by omega]
    split <;> push_cast <;> omega
  · rw [if_neg hi, if_neg (by omega), min_eq_right (by omega), min_eq_right (by omega),
      show i + 1 - m = i - m + 1 by omega, Nat.succ_mul]
    push_cast
    omega

theorem padding_of_row_left_over {m n i : Nat} (hmn : m < n) (hi : m ≤ i) (j : Nat) :
    padding m n i j = (((i - m) * n + 1 : Nat) : Int) + j := by
  unfold padding
  rw [if_neg (by omega), max_eq_right hmn.le, Nat.sub_self]
  push_cast
  ring

theorem padding_of_column_left_over {m n i j : Nat} (hnm : n ≤ m) (hi : i < m) :
    padding m n i j = ((j - n + 1 : Nat) : Int) + ((m - n : Nat) : Int) * i := by
  unfold padding
  rw [if_pos hi, min_eq_left hi.le, max_eq_left hnm, show i - m = 0 by omega]
  push_cast
  ring

/-- The square matrix: real costs inside the `m × n` block, the counter outside. -/
def padded (m n : Nat) (cost : Nat → Nat → Int) (i j : Nat) : Int :=
  if i < m ∧ j < n then cost i j else padding m n i j

section Padding
variable {m n : Nat} (σ : Equiv.Perm (Fin (max m n)))

/-- The part of the padding total that no permutation changes. -/
def paddingBase (m n : Nat) : Int :=
  if m < n then ∑ i : Fin (max m n) with m ≤ i.val, ((((i.val - m) * n + 1 : Nat)) : Int)
  else ∑ j : Fin (max m n) with n ≤ j.val, (((j.val - n + 1 : Nat)) : Int)

/-- What the counter adds to a permutation: a constant, plus the rows left over
when there are more rows, or the columns left over when there are more columns. -/
theorem sum_padding :
    ∑ i with m ≤ i.val ∨ n ≤ (σ i).val, padding m n i.val (σ i).val =
      paddingBase m n + ((m - n : Nat) : Int) * ∑ i with n ≤ (σ i).val, (i.val : Int) +
        (if m < n then ∑ i with m ≤ i.val, ((σ i).val : Int) else 0) := by
  by_cases hmn : m < n
  · have hset : (Finset.univ.filter fun i => m ≤ i.val ∨ n ≤ (σ i).val) =
        Finset.univ.filter fun i : Fin (max m n) => m ≤ i.val := by
      apply Finset.filter_congr
      intro i _
      have := (σ i).isLt
      omega
    rw [hset, paddingBase, if_pos hmn, if_pos hmn, show m - n = 0 by omega, Nat.cast_zero,
      zero_mul, add_zero, ← Finset.sum_add_distrib]
    apply Finset.sum_congr rfl
    intro i hi
    exact padding_of_row_left_over hmn (Finset.mem_filter.mp hi).2 _
  · have hset : (Finset.univ.filter fun i => m ≤ i.val ∨ n ≤ (σ i).val) =
        Finset.univ.filter fun i : Fin (max m n) => n ≤ (σ i).val := by
      apply Finset.filter_congr
      intro i _
      have := i.isLt
      omega
    have hcolumns : ∑ i with n ≤ (σ i).val, ((((σ i).val - n + 1 : Nat)) : Int) =
        paddingBase m n := by
      rw [paddingBase, if_neg hmn]
      exact Finset.sum_equiv σ (by simp) (by simp)
    rw [hset, if_neg hmn, add_zero, ← hcolumns, Finset.mul_sum, ← Finset.sum_add_distrib]
    apply Finset.sum_congr rfl
    intro i _
    exact padding_of_column_left_over (not_lt.mp hmn) (by have := i.isLt; omega)

end Padding

theorem sum_left_over (a N : Nat) (f : Nat → Nat) :
    ∑ i : Fin N with a ≤ i.val, f (i.val - a) = ∑ k ∈ Finset.range (N - a), f k := by
  apply Finset.sum_nbij fun i => i.val - a
  · intro i hi
    have := (Finset.mem_filter.mp hi).2
    have := i.isLt
    exact Finset.mem_range.mpr (by omega)
  · intro i hi j hj hij
    have := (Finset.mem_filter.mp hi).2
    have := (Finset.mem_filter.mp hj).2
    exact Fin.ext (by dsimp only at hij; omega)
  · intro k hk
    have hlt := Finset.mem_range.mp (Finset.mem_coe.mp hk)
    exact ⟨⟨k + a, by omega⟩, by simp, by simp⟩
  · intro i _
    rfl

theorem sum_range_eq_choose (d : Nat) : ∑ k ∈ Finset.range d, k = d.choose 2 := by
  rw [Finset.sum_range_id, Nat.choose_two_right]

/-- The constant in closed form. -/
theorem paddingBase_eq (m n : Nat) :
    paddingBase m n =
      ((if m < n then n * (n - m).choose 2 + (n - m) else (m - n + 1).choose 2 : Nat) : Int) := by
  unfold paddingBase
  by_cases hmn : m < n
  · rw [if_pos hmn, if_pos hmn, ← Nat.cast_sum, sum_left_over m (max m n) fun k => k * n + 1,
      max_eq_right hmn.le, Finset.sum_add_distrib, ← Finset.sum_mul, sum_range_eq_choose,
      Finset.sum_const, Finset.card_range, smul_eq_mul, mul_one, mul_comm]
  · rw [if_neg hmn, if_neg hmn, ← Nat.cast_sum, sum_left_over n (max m n) fun k => k + 1,
      max_eq_left (not_lt.mp hmn), ← sum_range_eq_choose, Finset.sum_range_succ', add_zero]

/-- A way of pairing `min m n` rows with as many columns. -/
@[ext] structure Pairing (m n : Nat) where
  pairs : Finset (Fin m × Fin n)
  row_injOn : Set.InjOn Prod.fst (pairs : Set (Fin m × Fin n))
  column_injOn : Set.InjOn Prod.snd (pairs : Set (Fin m × Fin n))
  card_eq : pairs.card = min m n

namespace Pairing

def total (cost : Nat → Nat → Int) (P : Pairing m n) : Int :=
  ∑ p ∈ P.pairs, cost p.1.val p.2.val

end Pairing

/-- What the counter charges for pairing row `i` with column `j`. -/
def bias (m n i j : Nat) : Int :=
  ((m - n : Nat) : Int) * i + if m < n then (j : Int) else 0

section RealPairs
variable {m n : Nat}

def toRow (i : Fin m) : Fin (max m n) := i.castLE (le_max_left m n)
def toColumn (j : Fin n) : Fin (max m n) := j.castLE (le_max_right m n)

def realPairs (σ : Equiv.Perm (Fin (max m n))) : Finset (Fin m × Fin n) :=
  Finset.univ.filter fun p => σ (toRow p.1) = toColumn p.2

@[simp] theorem mem_realPairs {σ : Equiv.Perm (Fin (max m n))} {p : Fin m × Fin n} :
    p ∈ realPairs σ ↔ σ (toRow p.1) = toColumn p.2 := by
  simp [realPairs]

theorem toRow_injective : Function.Injective (toRow : Fin m → Fin (max m n)) :=
  Fin.castLE_injective (le_max_left m n)

theorem toColumn_injective : Function.Injective (toColumn : Fin n → Fin (max m n)) :=
  Fin.castLE_injective (le_max_right m n)

theorem card_realPairs (σ : Equiv.Perm (Fin (max m n))) : (realPairs σ).card = min m n := by
  rcases le_total m n with hmn | hmn
  · have himage : realPairs σ = Finset.univ.image fun i : Fin m =>
        (i, (⟨(σ (toRow i)).val, by have := (σ (toRow i)).isLt; omega⟩ : Fin n)) := by
      ext ⟨i, j⟩
      simp only [mem_realPairs, Finset.mem_image, Finset.mem_univ, true_and, Prod.mk.injEq,
        exists_eq_left]
      simp [toColumn, Fin.ext_iff]
    rw [himage, Finset.card_image_of_injective _ fun a b hab => congrArg Prod.fst hab,
      Finset.card_univ, Fintype.card_fin, min_eq_left hmn]
  · have himage : realPairs σ = Finset.univ.image fun j : Fin n =>
        ((⟨(σ.symm (toColumn j)).val, by have := (σ.symm (toColumn j)).isLt; omega⟩ : Fin m),
          j) := by
      ext ⟨i, j⟩
      simp only [mem_realPairs, Finset.mem_image, Finset.mem_univ, true_and, Prod.mk.injEq]
      rw [← Equiv.eq_symm_apply]
      simp [toRow, Fin.ext_iff, eq_comm]
    rw [himage, Finset.card_image_of_injective _ fun a b hab => congrArg Prod.snd hab,
      Finset.card_univ, Fintype.card_fin, min_eq_right hmn]

def realPairing (σ : Equiv.Perm (Fin (max m n))) : Pairing m n where
  pairs := realPairs σ
  row_injOn := by
    intro p hp q hq hpq
    have heq := mem_realPairs.mp hq
    rw [← hpq, mem_realPairs.mp hp] at heq
    exact Prod.ext hpq (toColumn_injective heq)
  column_injOn := by
    intro p hp q hq hpq
    have heq := mem_realPairs.mp hq
    rw [← hpq, ← mem_realPairs.mp hp] at heq
    exact Prod.ext (toRow_injective (σ.injective heq)).symm hpq
  card_eq := card_realPairs σ

/-- Every pairing is the real part of some permutation. -/
theorem exists_realPairing_eq (P : Pairing m n) :
    ∃ σ : Equiv.Perm (Fin (max m n)), realPairing σ = P := by
  classical
  let rows : Finset (Fin (max m n)) := P.pairs.image fun p => toRow p.1
  let target : Fin (max m n) → Fin (max m n) := fun i =>
    if h : ∃ p ∈ P.pairs, toRow p.1 = i then toColumn h.choose.2 else i
  have htarget : ∀ p ∈ P.pairs, target (toRow p.1) = toColumn p.2 := by
    intro p hp
    have hex : ∃ q ∈ P.pairs, toRow q.1 = (toRow p.1 : Fin (max m n)) := ⟨p, hp, rfl⟩
    have heq : hex.choose = p :=
      P.row_injOn hex.choose_spec.1 hp (toRow_injective hex.choose_spec.2)
    simp only [target]
    rw [dif_pos hex, heq]
  have hinj : Set.InjOn target (rows : Set (Fin (max m n))) := by
    intro a ha b hb hab
    obtain ⟨p, hp, rfl⟩ := Finset.mem_image.mp ha
    obtain ⟨q, hq, rfl⟩ := Finset.mem_image.mp hb
    rw [htarget p hp, htarget q hq] at hab
    rw [P.column_injOn hp hq (toColumn_injective hab)]
  obtain ⟨g, hg⟩ := Finset.exists_equiv_extend_of_card_eq (t := Finset.univ)
    (by simp) (Finset.subset_univ (rows.image target)) hinj
  let σ : Equiv.Perm (Fin (max m n)) :=
    g.trans (Equiv.subtypeUnivEquiv fun x => Finset.mem_univ x)
  refine ⟨σ, Pairing.ext (Finset.eq_of_subset_of_card_le ?_ ?_).symm⟩
  · intro p hp
    have hrow : toRow p.1 ∈ rows := Finset.mem_image_of_mem _ hp
    exact mem_realPairs.mpr ((hg _ hrow).trans (htarget p hp))
  · rw [P.card_eq]
    exact (card_realPairs σ).le

theorem sum_realPairs (σ : Equiv.Perm (Fin (max m n))) (f : Nat → Nat → Int) :
    (realPairing σ).total f =
      ∑ i with i.val < m ∧ (σ i).val < n, f i.val (σ i).val := by
  apply Finset.sum_bij (fun (p : Fin m × Fin n) _ => (toRow p.1 : Fin (max m n)))
  · intro p hp
    have hval := congrArg Fin.val (mem_realPairs.mp hp)
    simp only [toColumn, Fin.val_castLE] at hval
    simp [toRow, Fin.val_castLE] at hval ⊢
    omega
  · intro p hp q hq hpq
    exact (realPairing σ).row_injOn hp hq (toRow_injective hpq)
  · intro i hi
    obtain ⟨hrow, hcolumn⟩ := (Finset.mem_filter.mp hi).2
    exact ⟨(⟨i.val, hrow⟩, ⟨(σ i).val, hcolumn⟩),
      mem_realPairs.mpr (Fin.ext rfl), Fin.ext rfl⟩
  · intro p hp
    rw [mem_realPairs.mp hp]
    rfl

/-- Every permutation meets the real block as often as it can. -/
theorem card_real (σ : Equiv.Perm (Fin (max m n))) :
    (Finset.univ.filter fun i => i.val < m ∧ (σ i).val < n).card = min m n := by
  have hcount := sum_realPairs σ fun _ _ => 1
  rw [Pairing.total, Finset.sum_const, Finset.sum_const, (realPairing σ).card_eq, nsmul_one,
    nsmul_one] at hcount
  exact (Nat.cast_injective hcount).symm

end RealPairs

end BlobTracking.Library.PaddedAssignment
