import BlobTracking.Tracking.TotalDistance

/-! How the counter of `distance_matrix` enters the total of a permutation. Every
permutation meets equally many real entries, so only the rows and columns it leaves
to the padding are charged. -/
namespace BlobTracking.Tracking
open Dlib OpenCV Library.PaddedAssignment

section Padding
variable {m n : Nat} (cost : Nat → Nat → Int) (s : Equiv.Perm (Fin (max m n)))

theorem sum_padding_paddedMatrix :
    ∑ i with m ≤ i.val ∨ n ≤ (s i).val, (Tracker.paddedMatrix m n cost).entry i (s i) =
      ((if m < n then n * (n - m).choose 2 + (n - m) else (m - n + 1).choose 2 : Nat) : Int) +
        if n < m then ((m : Int) - n) * ∑ i with n ≤ (s i).val, (i.val : Int)
        else if m < n then ∑ i with m ≤ i.val, ((s i).val : Int) else 0 := by
  have hpadding : ∑ i with m ≤ i.val ∨ n ≤ (s i).val,
      (Tracker.paddedMatrix m n cost).entry i (s i) =
        ∑ i with m ≤ i.val ∨ n ≤ (s i).val, padding m n i.val (s i).val := by
    apply Finset.sum_congr rfl
    intro i hi
    have hpadded := (Finset.mem_filter.mp hi).2
    rw [Tracker.entry_paddedMatrix, padded, if_neg (by omega)]
  rw [hpadding, sum_padding, paddingBase_eq, add_assoc]
  congr 1
  rcases lt_trichotomy m n with hless | heq | hmore
  · rw [if_neg hless.asymm, if_pos hless, Nat.sub_eq_zero_of_le hless.le,
      Nat.cast_zero, zero_mul, zero_add]
  · simp [heq]
  · rw [if_pos hmore, if_neg hmore.asymm, add_zero, Nat.cast_sub hmore.le]

end Padding

theorem realEntry_nonpos (moments : List Point → Moments) (cv : KalmanOps)
    (measurements : List Point2f) (objects : List (TrackObj κ MKalman Point2f)) (i j : Nat) :
    Tracker.realEntry (exactPlatform moments cv) measurements objects i j ≤ 0 := by
  rw [realEntry_eq_neg_quantisedCost, Int.neg_nonpos_iff]
  unfold quantisedCost
  split
  · exact quantised_nonneg _ _
  · exact Int.le_refl 0

/-- The padding charges a constant and the indices that a permutation leaves over; the
real entries are as many for every permutation and none of them is positive. -/
theorem padding_effect (moments : List Point → Moments) (cv : KalmanOps)
    (measurements : List Point2f) (objects : List (TrackObj κ MKalman Point2f))
    (hobjects : ∀ obj ∈ objects, obj.history ≠ []) :
    ∃ dMatrix, Tracker.distanceMatrix (exactPlatform moments cv) measurements objects =
        some dMatrix ∧
      dMatrix.nr = max measurements.length objects.length ∧
      dMatrix.nc = max measurements.length objects.length ∧
      ∀ s : Equiv.Perm (Fin (max measurements.length objects.length)),
        ∑ i with measurements.length ≤ i.val ∨ objects.length ≤ (s i).val,
            dMatrix.entry i (s i) =
          ((if measurements.length < objects.length then
              objects.length * (objects.length - measurements.length).choose 2 +
                (objects.length - measurements.length)
            else (measurements.length - objects.length + 1).choose 2 : Nat) : Int) +
            (if objects.length < measurements.length then
              ((measurements.length : Int) - objects.length) *
                ∑ i with objects.length ≤ (s i).val, (i.val : Int)
            else if measurements.length < objects.length then
              ∑ i with measurements.length ≤ i.val, ((s i).val : Int)
            else 0) ∧
        (Finset.univ.filter fun i =>
            i.val < measurements.length ∧ (s i).val < objects.length).card =
          min measurements.length objects.length ∧
        ∀ i, i.val < measurements.length → (s i).val < objects.length →
          dMatrix.entry i (s i) ≤ 0 := by
  refine ⟨_, Tracker.distanceMatrix_eq _ hobjects, rfl, rfl, fun s => ⟨?_, card_real s, ?_⟩⟩
  · exact sum_padding_paddedMatrix _ s
  · intro i hrow hcolumn
    rw [Tracker.entry_paddedMatrix, padded, if_pos ⟨hrow, hcolumn⟩]
    exact realEntry_nonpos moments cv measurements objects i (s i)

theorem padding_effect_row :
    ∃ dMatrix, Tracker.distanceMatrix (exactPlatform polygonMoments exactKalman)
        [Point.toPoint2f ⟨0, 0⟩] rowOfThree = some dMatrix ∧
      dMatrix.nr = 3 ∧ dMatrix.nc = 3 ∧
      ∀ s : Equiv.Perm (Fin (max 1 3)),
        ∑ i with 1 ≤ i.val ∨ 3 ≤ (s i).val, dMatrix.entry i (s i) =
          ((if 1 < 3 then 3 * (3 - 1).choose 2 + (3 - 1) else (1 - 3 + 1).choose 2 : Nat) : Int) +
            (if 3 < 1 then (((1 : Nat) : Int) - (3 : Nat)) * ∑ i with 3 ≤ (s i).val, (i.val : Int)
            else if 1 < 3 then ∑ i with 1 ≤ i.val, ((s i).val : Int)
            else 0) ∧
        (Finset.univ.filter fun i => i.val < 1 ∧ (s i).val < 3).card = min 1 3 ∧
        ∀ i, i.val < 1 → (s i).val < 3 → dMatrix.entry i (s i) ≤ 0 :=
  padding_effect polygonMoments exactKalman [Point.toPoint2f ⟨0, 0⟩] rowOfThree
    rowOfThree_history

end BlobTracking.Tracking
