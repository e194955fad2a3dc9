import BlobTracking.Dlib.HungarianOptimal
import BlobTracking.Tracking.Bounds
import BlobTracking.Tracking.Lifetime
import BlobTracking.Tracking.TotalDistance

/-! The tracker with the integers and the assignment algorithm it is built with.
Inside an image of at most `2 ^ 20` pixels the casts to `int` change nothing in any
run. Over frames of at most 2000 blobs there, every matrix of a run, its padding
included, leaves the labels and slacks their room in `int`. So no call of the
algorithm faults, and the run is one of a solver that keeps the documented promise
for every matrix. -/
namespace BlobTracking.Tracking
open Dlib OpenCV Library.PaddedAssignment

/-- The cast is for the matrix only. -/
theorem Tracker.track_withToInt {pf : Platform P D φ} {toInt : D → Int} {t : Tracker κ φ P}
    {f : Frame κ} (h : distanceMatrix { pf with toInt := toInt } (f.measurements pf)
      (t.predicted pf) = distanceMatrix pf (f.measurements pf) (t.predicted pf)) :
    t.track { pf with toInt := toInt } f = t.track pf f := by
  rw [track_eq_bind, track_eq_bind, ← h]
  rfl

section Casts
variable {moments : List Point → Moments} {cv : KalmanOps} {L : ℚ} {f : Frame κ}
  {t : Tracker κ MKalman Point2f}

theorem castsFit_of_reachable (hcv : cv.Exact) (hL : 0 ≤ L) (hL' : L ≤ 2 ^ 20)
    (ht : Reachable (exactPlatform moments cv) (InImage moments L) t)
    (hf : InImage moments L f) :
    CastsFit (f.measurements (exactPlatform moments cv))
      (t.predicted (exactPlatform moments cv)) := by
  apply castsFit_of_lt
  intro i j hi hj
  have hrange := (realEntry_range hcv hL hL' ht hf (by simpa using hi) (by simpa using hj)).1
  rw [realEntry_eq_neg_quantisedCost] at hrange
  dsimp only at hrange
  omega

theorem track_intPlatform (hfit : CastsFit (f.measurements (exactPlatform moments cv))
    (t.predicted (exactPlatform moments cv))) :
    t.track (intPlatform moments cv) f = t.track (exactPlatform moments cv) f := by
  apply Tracker.track_withToInt
  change Tracker.distanceMatrix (intPlatform moments cv) _ _ = _
  rw [Tracker.distanceMatrix_eq _ Tracker.predicted_history_ne_nil,
    Tracker.distanceMatrix_eq _ Tracker.predicted_history_ne_nil,
    realEntry_of_castsFit moments cv hfit, realEntry_eq_neg_quantisedCost]

end Casts

/-- `numeric_limits<int>::max()`. -/
def intMax : Int := 2147483647

/-- What a frame of a camera gives, whatever solver comes with it. -/
structure OrdinaryFrame (moments : List Point → Moments) (f : Frame κ) : Prop where
  few : f.blobs.length ≤ 2000
  centroids : ∀ blob ∈ f.blobs, ∃ z : Point2f, getBlobCentroid moments blob = some z ∧
    (0 ≤ z.x ∧ z.x ≤ 2 ^ 20) ∧ 0 ≤ z.y ∧ z.y ≤ 2 ^ 20

def Frame.withSolver (f : Frame κ) (solve : Solver) : Frame κ :=
  { f with maxCostAssignment := solve }

/-- The counter stays below the number of entries, so it never passes the size squared. -/
theorem padding_range {m n i j : Nat} (hi : i < max m n) (hj : j < max m n) :
    0 ≤ padding m n i j ∧ padding m n i j ≤ ((max m n * max m n : Nat) : Int) := by
  have hrow : (i + 1) * max m n ≤ max m n * max m n := Nat.mul_le_mul_right _ hi
  have hbefore : min i m * (max m n - n) + (i - m) * max m n ≤ i * max m n := by
    calc min i m * (max m n - n) + (i - m) * max m n
        ≤ min i m * max m n + (i - m) * max m n :=
          Nat.add_le_add_right (Nat.mul_le_mul_left _ (Nat.sub_le _ _)) _
      _ = i * max m n := by rw [← Nat.add_mul]; congr 1; omega
  rw [Nat.succ_mul] at hrow
  unfold padding
  constructor
  · exact Int.natCast_nonneg _
  · apply Int.ofNat_le.mpr
    split <;> omega

section Fits
variable {moments : List Point → Moments} {cv : KalmanOps}

theorem fits_paddedMatrix {m n : Nat} {cost : Nat → Nat → Int} (hsize : max m n ≤ 8000)
    (hcost : ∀ i j, i < m → j < n → -10 ^ 9 ≤ cost i j ∧ cost i j ≤ 0) :
    (Tracker.paddedMatrix m n cost).Fits intMax (-10 ^ 9) (8000 * 8000) := by
  have hentry : ∀ i j, i < max m n → j < max m n →
      -10 ^ 9 ≤ (Tracker.paddedMatrix m n cost).entry i j ∧
        (Tracker.paddedMatrix m n cost).entry i j ≤ 8000 * 8000 := by
    intro i j hi hj
    have hpadded : (Tracker.paddedMatrix m n cost).entry i j = padded m n cost i j :=
      Tracker.entry_paddedMatrix cost ⟨i, hi⟩ ⟨j, hj⟩
    rw [hpadded, padded]
    by_cases hreal : i < m ∧ j < n
    · rw [if_pos hreal]
      have := hcost i j hreal.1 hreal.2
      omega
    · rw [if_neg hreal]
      have hrange := padding_range hi hj
      have hsquare : max m n * max m n ≤ 8000 * 8000 := Nat.mul_le_mul hsize hsize
      omega
  exact ⟨rfl, fun i j hi hj => (hentry i j hi hj).1, fun i j hi hj => (hentry i j hi hj).2,
    by decide, by decide, by decide⟩

theorem OrdinaryFrame.inImage {f : Frame κ} (h : OrdinaryFrame moments f) {solve : Solver}
    (hsolve : solve.Permutes) : InImage moments ((2 ^ 20 : ℚ) : ℝ) (f.withSolver solve) where
  permutes := hsolve
  centroids blob hblob := by
    obtain ⟨z, hz, ⟨hx, hx'⟩, hy, hy'⟩ := h.centroids blob hblob
    exact ⟨z, hz, ⟨hx, by exact_mod_cast hx'⟩, hy, by exact_mod_cast hy'⟩

/-- Every object was seen in one of the last four frames. -/
theorem objects_length_le (pf : Platform P D φ) (frames : Nat → Frame κ)
    (hsolve : ∀ k, (frames k).maxCostAssignment.Permutes) {N : Nat}
    (hfew : ∀ k, (frames k).blobs.length ≤ N) {k : Nat} {t : Tracker κ φ P}
    (h : after pf frames k = some t) : t.objects.length ≤ 4 * N := by
  obtain ⟨t', ht', hages⟩ := exists_framesUnseen_eq pf hsolve k
  obtain rfl : t = t' := Option.some.inj (h.symm.trans ht')
  have hlength := congrArg List.length hages
  rw [List.length_map, List.length_map, Library.AgeingPool.length_eq_sum_countP_age _
    fun e he => Library.AgeingPool.age_le_of_mem_run he] at hlength
  have hage : ∀ u ∈ Finset.range (3 + 1), (Library.AgeingPool.run 3 (touchedIn pf frames)
      (bornIn pf frames) k).countP (fun e => e.age == u) ≤ N := by
    intro u _
    refine (countP_run_le pf hsolve k u).trans ?_
    unfold blobCount
    split
    · exact Nat.zero_le N
    · exact hfew _
  have hsum := Finset.sum_le_card_nsmul _ _ _ hage
  rw [Finset.card_range, smul_eq_mul] at hsum
  omega

end Fits

open Classical in
/-- The algorithm where its arithmetic has room, and some solver that keeps the promise elsewhere. -/
noncomputable def contractSolver : Solver := fun cost =>
  if cost.Fits intMax (-10 ^ 9) (8000 * 8000) then dlibSolver intMax cost else bruteForce cost

theorem contractSolver_maximises : contractSolver.Maximises := by
  intro cost hsquare
  unfold contractSolver
  split
  · exact dlibSolver_isOptimal (by assumption)
  · exact bruteForce_maximises cost hsquare

theorem contractSolver_of_fits {cost : CostMatrix}
    (h : cost.Fits intMax (-10 ^ 9) (8000 * 8000)) : contractSolver cost = dlibSolver intMax cost :=
  if_pos h

/-- `track` asks the solver for one matrix only. -/
theorem Tracker.track_withSolver {pf : Platform P D φ} {t : Tracker κ φ P} {f : Frame κ}
    {cost : CostMatrix} (hmatrix : distanceMatrix pf (f.measurements pf) (t.predicted pf) = some cost)
    {solve solve' : Solver} (heq : solve cost = solve' cost) :
    t.track pf (f.withSolver solve) = t.track pf (f.withSolver solve') := by
  have hmatrix' : distanceMatrix pf (f.blobs.map pf.getBlobCentroid)
      (t.objects.map (TrackObj.predict pf.toFilterOps)) = some cost := hmatrix
  unfold track Frame.withSolver
  dsimp only
  rw [hmatrix']
  simp only [Option.bind_eq_bind, Option.bind_some, heq]
  rfl

section Runs
variable {moments : List Point → Moments} {cv : KalmanOps} {frames : Nat → Frame κ}

/-- The matrix that an ordinary frame leads to, in any state of an ordinary run. -/
theorem exists_fitting_matrix (hcv : cv.Exact) (hframes : ∀ k, OrdinaryFrame moments (frames k))
    {solve : Solver} (hsolve : solve.Permutes) {k : Nat} {t : Tracker κ MKalman Point2f}
    (ht : after (exactPlatform moments cv) (fun i => (frames i).withSolver solve) k = some t)
    {f : Frame κ} (hf : OrdinaryFrame moments f) :
    ∃ cost, Tracker.distanceMatrix (exactPlatform moments cv)
        (f.measurements (exactPlatform moments cv)) (t.predicted (exactPlatform moments cv)) =
          some cost ∧ cost.Fits intMax (-10 ^ 9) (8000 * 8000) := by
  refine ⟨_, Tracker.distanceMatrix_predicted, fits_paddedMatrix ?_ ?_⟩
  · have hcount := objects_length_le (exactPlatform moments cv)
      (fun i => (frames i).withSolver solve) (fun _ => hsolve) (fun i => (hframes i).few) ht
    have hfew := hf.few
    omega
  · intro i j hi hj
    exact realEntry_range hcv (by norm_num) le_rfl
      (reachable_of_after (fun i => (hframes i).inImage hsolve) ht) (hf.inImage hsolve) hi hj

theorem exists_after_contract (pf : Platform P D φ) (frames : Nat → Frame κ) (k : Nat) :
    ∃ t, after pf (fun i => (frames i).withSolver contractSolver) k = some t :=
  exists_after pf (fun _ => contractSolver_maximises.permutes) k

/-- The run with the algorithm and the run with a solver that keeps the promise agree. -/
theorem after_dlib_eq (hcv : cv.Exact) (hframes : ∀ k, OrdinaryFrame moments (frames k)) (k : Nat) :
    after (exactPlatform moments cv) (fun i => (frames i).withSolver (dlibSolver intMax)) k =
      after (exactPlatform moments cv) (fun i => (frames i).withSolver contractSolver) k := by
  induction k with
  | zero => rfl
  | succ k ih =>
    obtain ⟨t, ht⟩ := exists_after_contract (exactPlatform moments cv) frames k
    obtain ⟨cost, hmatrix, hfits⟩ := exists_fitting_matrix hcv hframes
      contractSolver_maximises.permutes ht (hframes (k + 1))
    rw [after, after, ih, ht, Option.bind_some, Option.bind_some]
    exact Tracker.track_withSolver hmatrix (contractSolver_of_fits hfits).symm

/-- The casts to `int` change nothing in an ordinary run. -/
theorem after_intPlatform (hcv : cv.Exact) (hframes : ∀ k, OrdinaryFrame moments (frames k))
    (k : Nat) :
    after (intPlatform moments cv) (fun i => (frames i).withSolver (dlibSolver intMax)) k =
      after (exactPlatform moments cv) (fun i => (frames i).withSolver (dlibSolver intMax)) k := by
  have hlegal := fun i => (hframes i).inImage contractSolver_maximises.permutes
  induction k with
  | zero => rfl
  | succ k ih =>
    obtain ⟨t, ht⟩ := exists_after_contract (exactPlatform moments cv) frames k
    have hfit := castsFit_of_reachable hcv (by norm_num) le_rfl (reachable_of_after hlegal ht)
      (hlegal (k + 1))
    rw [after, after, ih, after_dlib_eq hcv hframes, ht, Option.bind_some, Option.bind_some]
    exact track_intPlatform hfit

/-- With the Hungarian algorithm as it is, no ordinary run faults: in every state the matrix for
any further frame fits `int`, and the algorithm returns an optimal assignment of it. -/
theorem dlib_run_optimal (moments : List Point → Moments) (cv : KalmanOps) (hcv : cv.Exact)
    (frames : Nat → Frame κ) (hframes : ∀ k, OrdinaryFrame moments (frames k)) (k : Nat) :
    ∃ t, mainLoop (exactPlatform moments cv)
        (fun i => (frames i).withSolver (dlibSolver intMax)) k = some t ∧
      ∀ f : Frame κ, OrdinaryFrame moments f → ∃ dMatrix a,
        Tracker.distanceMatrix (exactPlatform moments cv)
          (f.measurements (exactPlatform moments cv)) (t.predicted (exactPlatform moments cv)) =
            some dMatrix ∧
        maxCostAssignment intMax dMatrix = some a ∧ IsOptimal dMatrix a := by
  obtain ⟨t, ht⟩ := exists_after_contract (exactPlatform moments cv) frames k
  refine ⟨t, ?_, fun f hf => ?_⟩
  · rw [mainLoop_eq_after, after_dlib_eq hcv hframes, ht]
  · obtain ⟨cost, hmatrix, hfits⟩ := exists_fitting_matrix hcv hframes
      contractSolver_maximises.permutes ht hf
    obtain ⟨a, ha, hoptimal⟩ := hfits.exists_optimal
    exact ⟨cost, a, hmatrix, ha, hoptimal⟩

/-- An ordinary run of the program is a run with a solver that keeps the documented promise for
every matrix, so whatever holds of all those runs holds of the program. -/
theorem dlib_run_refines (moments : List Point → Moments) (cv : KalmanOps) (hcv : cv.Exact)
    (frames : Nat → Frame κ) (hframes : ∀ k, OrdinaryFrame moments (frames k)) :
    ∃ solve : Solver, solve.Maximises ∧ ∀ k, ∃ t,
      mainLoop (exactPlatform moments cv)
        (fun i => (frames i).withSolver (dlibSolver intMax)) k = some t ∧
      mainLoop (exactPlatform moments cv) (fun i => (frames i).withSolver solve) k = some t ∧
      Reachable (exactPlatform moments cv) (fun f => f.maxCostAssignment.Maximises) t := by
  refine ⟨contractSolver, contractSolver_maximises, fun k => ?_⟩
  obtain ⟨t, ht⟩ := exists_after_contract (exactPlatform moments cv) frames k
  rw [mainLoop_eq_after, mainLoop_eq_after, after_dlib_eq hcv hframes, ht]
  exact ⟨t, rfl, rfl, reachable_of_after (fun _ => contractSolver_maximises) ht⟩

end Runs

/-- Two squares, none and three, over and over. -/
def blinkingSquares (k : Nat) : List (Nat × Nat) :=
  if k % 3 = 0 then [(3, 4), (300, 4)]
  else if k % 3 = 1 then []
  else [(5, 4), (310, 4), (600, 600)]

def blinking (k : Nat) : Frame Unit :=
  plainFrame identitySolver ((blinkingSquares k).map fun spot => square spot.1 spot.2)

theorem ordinaryFrame_blinking (k : Nat) : OrdinaryFrame polygonMoments (blinking k) := by
  have hspots : (blinkingSquares k).length ≤ 2000 ∧
      ∀ spot ∈ blinkingSquares k, spot.1 ≤ 2 ^ 20 ∧ spot.2 ≤ 2 ^ 20 := by
    unfold blinkingSquares
    split
    · decide
    · split
      · decide
      · decide
  constructor
  · exact (List.length_map _).trans_le hspots.1
  · intro blob hblob
    rcases List.mem_map.mp hblob with ⟨spot, hspot, rfl⟩
    have hx : ((spot.1 : Int) : ℚ) ≤ 2 ^ 20 := by exact_mod_cast (hspots.2 spot hspot).1
    have hy : ((spot.2 : Int) : ℚ) ≤ 2 ^ 20 := by exact_mod_cast (hspots.2 spot hspot).2
    exact ⟨⟨spot.1, spot.2⟩, getBlobCentroid_square spot.1 spot.2, ⟨by positivity, hx⟩,
      by positivity, hy⟩

theorem dlib_run_optimal_blinking :
    ∃ t, mainLoop (exactPlatform polygonMoments exactKalman)
        (fun i => (blinking i).withSolver (dlibSolver intMax)) 5 = some t ∧
      ∀ f : Frame Unit, OrdinaryFrame polygonMoments f → ∃ dMatrix a,
        Tracker.distanceMatrix (exactPlatform polygonMoments exactKalman)
          (f.measurements (exactPlatform polygonMoments exactKalman))
          (t.predicted (exactPlatform polygonMoments exactKalman)) = some dMatrix ∧
        maxCostAssignment intMax dMatrix = some a ∧ IsOptimal dMatrix a :=
  dlib_run_optimal polygonMoments exactKalman exactKalman_exact blinking ordinaryFrame_blinking 5

theorem dlib_run_refines_blinking :
    ∃ solve : Solver, solve.Maximises ∧ ∀ k, ∃ t,
      mainLoop (exactPlatform polygonMoments exactKalman)
        (fun i => (blinking i).withSolver (dlibSolver intMax)) k = some t ∧
      mainLoop (exactPlatform polygonMoments exactKalman)
        (fun i => (blinking i).withSolver solve) k = some t ∧
      Reachable (exactPlatform polygonMoments exactKalman)
        (fun f => f.maxCostAssignment.Maximises) t :=
  dlib_run_refines polygonMoments exactKalman exactKalman_exact blinking ordinaryFrame_blinking

end BlobTracking.Tracking
