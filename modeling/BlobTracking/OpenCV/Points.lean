import Mathlib.Analysis.Real.Sqrt
import Mathlib.Algebra.Order.Floor.Semiring
import Mathlib.Data.Rat.Floor

/-! Pixel points, their exact counterparts with rational coordinates, and the
distances between them. A distance is a signed square root of a rational: this
is closed under everything the tracker does to one, and comparing and
truncating it stay computable. -/
namespace BlobTracking.OpenCV

/-- `cv::Point`. -/
@[ext] structure Point where
  x : Int
  y : Int
deriving DecidableEq, Repr

/-- `cv::Point2f` over exact arithmetic. -/
@[ext] structure Point2f where
  x : ℚ
  y : ℚ
deriving DecidableEq, Repr

namespace Point2f

instance : Sub Point2f := ⟨fun p q => ⟨p.x - q.x, p.y - q.y⟩⟩

@[simp] theorem sub_x (p q : Point2f) : (p - q).x = p.x - q.x := rfl
@[simp] theorem sub_y (p q : Point2f) : (p - q).y = p.y - q.y := rfl

end Point2f

/-- Conversion of a floating-point number to `int`: the fraction is dropped. -/
def truncate (q : ℚ) : Int := q.num.tdiv q.den

def Point.toPoint2f (p : Point) : Point2f := ⟨p.x, p.y⟩

@[simp] theorem Point.toPoint2f_x (p : Point) : p.toPoint2f.x = p.x := rfl
@[simp] theorem Point.toPoint2f_y (p : Point) : p.toPoint2f.y = p.y := rfl

@[simp] theorem truncate_intCast (k : Int) : truncate (k : ℚ) = k := by
  simp [truncate]

theorem truncate_neg (q : ℚ) : truncate (-q) = -truncate q := by
  simp [truncate, Int.neg_tdiv]

theorem truncate_of_nonneg {q : ℚ} (h : 0 ≤ q) : truncate q = ⌊q⌋ := by
  unfold truncate
  rw [Int.tdiv_eq_ediv_of_nonneg (Rat.num_nonneg.mpr h), Rat.floor_def']

theorem abs_truncate_le (q : ℚ) : |(truncate q : ℚ)| ≤ |q| := by
  rcases le_total 0 q with h | h
  · rw [truncate_of_nonneg h, abs_of_nonneg h,
      abs_of_nonneg (by exact_mod_cast Int.floor_nonneg.mpr h)]
    exact Int.floor_le q
  · have hneg : 0 ≤ -q := neg_nonneg.mpr h
    have hfloor : (0 : ℚ) ≤ ⌊-q⌋ := by exact_mod_cast Int.floor_nonneg.mpr hneg
    rw [← abs_neg q, ← abs_neg, ← Int.cast_neg, ← truncate_neg, truncate_of_nonneg hneg,
      abs_of_nonneg hfloor, abs_of_nonneg hneg]
    exact Int.floor_le (-q)

theorem abs_sub_truncate_lt (q : ℚ) : |q - truncate q| < 1 := by
  rcases le_total 0 q with h | h
  · rw [truncate_of_nonneg h, abs_lt]
    exact ⟨by linarith [Int.floor_le q], by linarith [Int.lt_floor_add_one q]⟩
  · have hneg : 0 ≤ -q := neg_nonneg.mpr h
    have heq : (truncate q : ℚ) = -(⌊-q⌋ : ℚ) := by
      rw [← truncate_of_nonneg hneg, truncate_neg, Int.cast_neg, neg_neg]
    rw [heq, abs_lt]
    exact ⟨by linarith [Int.lt_floor_add_one (-q)], by linarith [Int.floor_le (-q)]⟩

/-- `±√square`. -/
structure Surd where
  negative : Bool
  square : ℚ
  square_nonneg : 0 ≤ square

namespace Surd

noncomputable def toReal (d : Surd) : ℝ :=
  if d.negative then -√(d.square : ℝ) else √(d.square : ℝ)

/-- `k * d`. -/
def scale (k : Int) (d : Surd) : Surd :=
  ⟨xor (decide (k < 0)) d.negative, k ^ 2 * d.square,
    mul_nonneg (sq_nonneg _) d.square_nonneg⟩

/-- `(int) d`. -/
def toInt (d : Surd) : Int :=
  if d.negative then -(Nat.sqrt ⌊d.square⌋₊ : Int) else Nat.sqrt ⌊d.square⌋₊

/-- `(int) d` in 32 bits, where all that does not fit becomes the least `int`. -/
def toInt32 (d : Surd) : Int :=
  if -2 ^ 31 ≤ d.toInt ∧ d.toInt < 2 ^ 31 then d.toInt else -2 ^ 31

/-- `d > k`. -/
def exceeds (d : Surd) (k : Int) : Bool :=
  if d.negative then k < 0 && d.square < (k : ℚ) ^ 2
  else k < 0 || (k : ℚ) ^ 2 < d.square

theorem toReal_scale (k : Int) (d : Surd) : (d.scale k).toReal = k * d.toReal := by
  have hroot : √((k : ℝ) ^ 2 * (d.square : ℝ)) = |(k : ℝ)| * √(d.square : ℝ) := by
    rw [Real.sqrt_mul (sq_nonneg _), Real.sqrt_sq_eq_abs]
  have hcast : (((k : ℚ) ^ 2 * d.square : ℚ) : ℝ) = (k : ℝ) ^ 2 * (d.square : ℝ) := by
    push_cast
    rfl
  unfold toReal scale
  simp only [hcast, hroot]
  by_cases hk : k < 0
  · have habs : |(k : ℝ)| = -k := abs_of_neg (by exact_mod_cast hk)
    cases d.negative <;> simp [hk, habs]
  · have habs : |(k : ℝ)| = k := abs_of_nonneg (by exact_mod_cast not_lt.mp hk)
    cases d.negative <;> simp [hk, habs]

theorem exceeds_iff (d : Surd) (k : Int) : d.exceeds k = true ↔ (k : ℝ) < d.toReal := by
  have hsq : ((k : ℚ) ^ 2 < d.square) ↔ (k : ℝ) ^ 2 < (d.square : ℝ) := by
    rw [← Rat.cast_lt (K := ℝ)]
    push_cast
    rfl
  have hsq' : (d.square < (k : ℚ) ^ 2) ↔ (d.square : ℝ) < (k : ℝ) ^ 2 := by
    rw [← Rat.cast_lt (K := ℝ)]
    push_cast
    rfl
  have hroot := Real.sqrt_nonneg (d.square : ℝ)
  have hsquare : (0 : ℝ) ≤ d.square := by exact_mod_cast d.square_nonneg
  unfold exceeds toReal
  cases d.negative
  · by_cases hk : k < 0
    · have hk' : (k : ℝ) < 0 := by exact_mod_cast hk
      simp [hk, lt_of_lt_of_le hk' hroot]
    · have hk' : (0 : ℝ) ≤ k := by exact_mod_cast not_lt.mp hk
      simp [hk, hsq, Real.lt_sqrt hk']
  · by_cases hk : k < 0
    · have hk' : (k : ℝ) < 0 := by exact_mod_cast hk
      simp only [hk, decide_true, Bool.true_and, decide_eq_true_eq, if_true, hsq']
      rw [lt_neg, Real.sqrt_lt' (by linarith), neg_sq]
    · have hk' : (0 : ℝ) ≤ k := by exact_mod_cast not_lt.mp hk
      simp only [hk, decide_false, Bool.false_and, Bool.false_eq_true, if_true, false_iff, not_lt]
      linarith

theorem natSqrt_floor (q : ℚ) (h : 0 ≤ q) : (Nat.sqrt ⌊q⌋₊ : Int) = ⌊√(q : ℝ)⌋ := by
  symm
  rw [Int.floor_eq_iff]
  have hq : (0 : ℝ) ≤ q := by exact_mod_cast h
  constructor
  · apply Real.le_sqrt_of_sq_le
    calc (((Nat.sqrt ⌊q⌋₊ : Int) : ℝ)) ^ 2 = ((Nat.sqrt ⌊q⌋₊ ^ 2 : Nat) : ℝ) := by push_cast; rfl
      _ ≤ (⌊q⌋₊ : ℝ) := by exact_mod_cast Nat.sqrt_le' ⌊q⌋₊
      _ ≤ q := by exact_mod_cast Nat.floor_le h
  · rw [Real.sqrt_lt' (by positivity)]
    have hlt : ⌊q⌋₊ + 1 ≤ (Nat.sqrt ⌊q⌋₊ + 1) ^ 2 := Nat.succ_le_of_lt (Nat.lt_succ_sqrt' ⌊q⌋₊)
    calc (q : ℝ) < ((⌊q⌋₊ + 1 : Nat) : ℝ) := by exact_mod_cast Nat.lt_floor_add_one q
      _ ≤ (((Nat.sqrt ⌊q⌋₊ + 1) ^ 2 : Nat) : ℝ) := by exact_mod_cast hlt
      _ = (((Nat.sqrt ⌊q⌋₊ : Int) : ℝ) + 1) ^ 2 := by push_cast; rfl

theorem toInt_of_negative {d : Surd} (h : d.negative = true) : d.toInt = -⌊-d.toReal⌋ := by
  unfold toInt toReal
  rw [if_pos h, if_pos h, neg_neg, natSqrt_floor d.square d.square_nonneg]

end Surd

/-- `cv::norm` of a point. -/
def norm (p : Point2f) : Surd := ⟨false, p.x ^ 2 + p.y ^ 2, by positivity⟩

/-- The distance the tracker gates on and minimises, as a real number. -/
noncomputable def distance (p q : Point2f) : ℝ := (norm (p - q)).toReal

/-- Distances in the cost matrix are in whole hundredths of a pixel. -/
noncomputable def quantised (p q : Point2f) : Int := ⌊100 * distance p q⌋

theorem distance_eq_sqrt (p q : Point2f) :
    distance p q = √((((p.x - q.x) ^ 2 + (p.y - q.y) ^ 2 : ℚ)) : ℝ) := rfl

theorem lt_distance_iff {p q : Point2f} {k : Nat} :
    (k : ℝ) < distance p q ↔ (k : ℚ) ^ 2 < (p.x - q.x) ^ 2 + (p.y - q.y) ^ 2 := by
  rw [distance_eq_sqrt, Real.lt_sqrt (Nat.cast_nonneg k), ← Rat.cast_lt (K := ℝ)]
  push_cast
  rfl

theorem distance_nonneg (p q : Point2f) : 0 ≤ distance p q := by
  rw [distance_eq_sqrt]
  exact Real.sqrt_nonneg _

@[simp] theorem distance_self (p : Point2f) : distance p p = 0 := by
  simp [distance_eq_sqrt]

theorem quantised_nonneg (p q : Point2f) : 0 ≤ quantised p q :=
  Int.floor_nonneg.mpr (mul_nonneg (by norm_num) (distance_nonneg p q))

@[simp] theorem quantised_self (p : Point2f) : quantised p p = 0 := by
  simp [quantised]

theorem norm_exceeds_iff (p q : Point2f) (k : Int) :
    (norm (p - q)).exceeds k = true ↔ (k : ℝ) < distance p q :=
  Surd.exceeds_iff _ k

/-- The cast in `distance_matrix`, `(int)(-100*norm(p - q))`. -/
theorem toInt_scale_norm (p q : Point2f) :
    ((norm (p - q)).scale (-100)).toInt = -quantised p q := by
  rw [Surd.toInt_of_negative (by simp [Surd.scale, norm]), Surd.toReal_scale]
  simp [quantised, distance]

/-- A distance as the cost matrix stores it, cut to what the cast to `int` leaves of it. -/
noncomputable def quantised32 (p q : Point2f) : Int := min (quantised p q) (2 ^ 31)

theorem toInt32_scale_norm (p q : Point2f) :
    ((norm (p - q)).scale (-100)).toInt32 = -quantised32 p q := by
  have hnonneg := quantised_nonneg p q
  unfold Surd.toInt32 quantised32
  rw [toInt_scale_norm]
  split <;> omega

/-- How a quantised distance is evaluated. -/
theorem quantised_eq_natSqrt (p q : Point2f) :
    quantised p q = Nat.sqrt ⌊10000 * ((p.x - q.x) ^ 2 + (p.y - q.y) ^ 2)⌋₊ := by
  have h := toInt_scale_norm p q
  simp only [Surd.toInt, Surd.scale, norm, Point2f.sub_x, Point2f.sub_y] at h
  norm_num at h
  exact h.symm

/-- Between whole pixels a quantised distance is an integer square root. -/
theorem quantised_of_sq {p q : Point} {k : Nat}
    (hle : (k : Int) ^ 2 ≤ 10000 * ((p.x - q.x) ^ 2 + (p.y - q.y) ^ 2))
    (hlt : 10000 * ((p.x - q.x) ^ 2 + (p.y - q.y) ^ 2) < ((k : Int) + 1) ^ 2) :
    quantised p.toPoint2f q.toPoint2f = k := by
  have hcast : (10000 * ((p.toPoint2f.x - q.toPoint2f.x) ^ 2 +
      (p.toPoint2f.y - q.toPoint2f.y) ^ 2) : ℚ) =
        ((10000 * ((p.x - q.x) ^ 2 + (p.y - q.y) ^ 2) : Int) : ℚ) := by
    simp only [Point.toPoint2f_x, Point.toPoint2f_y]
    push_cast
    rfl
  obtain ⟨d, hd⟩ := Int.eq_ofNat_of_zero_le ((sq_nonneg (k : Int)).trans hle)
  rw [quantised_eq_natSqrt, hcast, hd]
  rw [hd] at hle hlt
  congr 1
  rw [Int.cast_natCast, Nat.floor_natCast]
  exact (Nat.eq_sqrt'.mpr ⟨by exact_mod_cast hle, by exact_mod_cast hlt⟩).symm

theorem quantised_horizontal (x x' y : Int) :
    quantised (Point.toPoint2f ⟨x, y⟩) (Point.toPoint2f ⟨x', y⟩) = 100 * |x - x'| := by
  have hroot : (((100 * |x - x'|).toNat : Nat) : Int) = 100 * |x - x'| :=
    Int.toNat_of_nonneg (by positivity)
  have hsq : (100 * |x - x'|) ^ 2 = 10000 * ((x - x') ^ 2 + (y - y) ^ 2) := by
    rw [mul_pow, sq_abs]
    ring
  have hpos : 0 ≤ 100 * |x - x'| := by positivity
  rw [← hroot]
  exact quantised_of_sq (by rw [hroot, hsq]) (by rw [hroot, ← hsq]; nlinarith)

end BlobTracking.OpenCV
