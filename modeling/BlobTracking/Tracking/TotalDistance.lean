import BlobTracking.Library.BiasSpread
import BlobTracking.Tracking.ExactPlatform

/-! Which total the assignment really minimises. The counter in the padding adds an
index bias to every real pair: the object's index when there are more objects, the
measurement's index times the surplus when there are more measurements. So the pairs
are the shortest only up to the spread of that bias, and exactly the shortest for
every scene only where there is no spread. -/
namespace BlobTracking.Tracking
open Dlib OpenCV Library.PaddedAssignment

/-- The quantised distance of measurement `i` and object `j`. -/
noncomputable def quantisedCost (measurements : List Point2f)
    (objects : List (TrackObj κ φ Point2f)) (i j : Nat) : Int :=
  match measurements[i]?, lastPosition objects j with
  | some z, some p => quantised z p
  | _, _ => 0

theorem quantisedCost_eq {measurements : List Point2f} {objects : List (TrackObj κ φ Point2f)}
    {i j : Nat} {z p : Point2f} (hz : measurements[i]? = some z)
    (hp : lastPosition objects j = some p) :
    quantisedCost measurements objects i j = quantised z p := by
  rw [quantisedCost, hz, hp]

theorem realEntry_eq_neg_quantisedCost (moments : List Point → Moments) (cv : KalmanOps)
    (measurements : List Point2f) (objects : List (TrackObj κ MKalman Point2f)) :
    Tracker.realEntry (exactPlatform moments cv) measurements objects =
      fun i j => -quantisedCost measurements objects i j := by
  funext i j
  cases hz : measurements[i]? with
  | none => simp [Tracker.realEntry, quantisedCost, hz]
  | some z =>
    cases hp : lastPosition objects j with
    | none => simp [Tracker.realEntry, quantisedCost, hp]
    | some p => rw [realEntry_eq_neg_quantised hz hp, quantisedCost_eq hz hp]

/-- Every cast in `distance_matrix` is in the range of `int`. -/
def CastsFit (measurements : List Point2f) (objects : List (TrackObj κ φ Point2f)) : Prop :=
  ∀ i j, quantisedCost measurements objects i j ≤ 2 ^ 31

theorem castsFit_of_lt {measurements : List Point2f} {objects : List (TrackObj κ φ Point2f)}
    (h : ∀ i j, i < measurements.length → j < objects.length →
      quantisedCost measurements objects i j ≤ 2 ^ 31) : CastsFit measurements objects := by
  intro i j
  by_cases hi : i < measurements.length
  · by_cases hj : j < objects.length
    · exact h i j hi hj
    · simp [quantisedCost, lastPosition, not_lt.mp hj]
  · simp [quantisedCost, not_lt.mp hi]

theorem realEntry_of_castsFit (moments : List Point → Moments) (cv : KalmanOps)
    {measurements : List Point2f} {objects : List (TrackObj κ MKalman Point2f)}
    (hfit : CastsFit measurements objects) :
    Tracker.realEntry (intPlatform moments cv) measurements objects =
      fun i j => -quantisedCost measurements objects i j := by
  funext i j
  cases hz : measurements[i]? with
  | none => simp [Tracker.realEntry, quantisedCost, hz]
  | some z =>
    cases hp : lastPosition objects j with
    | none => simp [Tracker.realEntry, quantisedCost, hp]
    | some p =>
      have hle := hfit i j
      rw [quantisedCost_eq hz hp] at hle ⊢
      rw [realEntry_eq_neg_quantised32 hz hp, quantised32, min_eq_left hle]

def matched (m n : Nat) (a : List Int) : Finset (Fin m × Fin n) :=
  Finset.univ.filter fun p => a[p.1.val]? = some (p.2.val : Int)

section Optimal
variable {m n : Nat}

theorem matched_ofPerm (σ : Equiv.Perm (Fin (max m n))) :
    matched m n (ofPerm σ) = (realPairing σ).pairs := by
  ext p
  have hrow : p.1.val < max m n := lt_of_lt_of_le p.1.isLt (le_max_left m n)
  have hentry : (ofPerm σ)[p.1.val]? = some ((σ (toRow p.1)).val : Int) := by
    simp [ofPerm, hrow, toRow]
    rfl
  change _ ↔ p ∈ realPairs σ
  rw [matched, Finset.mem_filter, hentry, mem_realPairs, Fin.ext_iff]
  simp [toColumn]

/-- A permutation is optimal for the padded matrix exactly when its real pairs are
optimal for the biased distances. -/
theorem isOptimal_ofPerm_iff (q : Nat → Nat → Int) (σ : Equiv.Perm (Fin (max m n))) :
    IsOptimal (Tracker.paddedMatrix m n fun i j => -q i j) (ofPerm σ) ↔
      ∀ R : Pairing m n, (realPairing σ).total (biased m n q) ≤ R.total (biased m n q) := by
  rw [← maximal_iff]
  have hcost : ∀ τ : Equiv.Perm (Fin (max m n)),
      permCost (Tracker.paddedMatrix m n fun i j => -q i j) τ =
        ∑ i, padded m n (fun i j => -q i j) i.val (τ i).val :=
    Tracker.permCost_paddedMatrix m n fun i j => -q i j
  have hassign : ∀ τ : Equiv.Perm (Fin (max m n)),
      assignmentCost (Tracker.paddedMatrix m n fun i j => -q i j) (ofPerm τ) =
        ∑ i, padded m n (fun i j => -q i j) i.val (τ i).val :=
    fun τ => (assignmentCost_ofPerm _ _).trans (hcost τ)
  refine ⟨?_, ?_⟩
  · intro h τ
    rw [← hassign, ← hassign]
    exact h.maximal (ofPerm τ) (isAssignment_ofPerm τ)
  · intro h
    apply isOptimal_ofPerm
    intro τ
    exact (hcost τ).trans_le ((h τ).trans_eq (hcost σ).symm)

end Optimal

/-- `m` measurements and `n` objects, none of them too far apart for the casts. -/
structure Scene (m n : Nat) (measurements : List Point2f)
    (objects : List (TrackObj κ MKalman Point2f)) : Prop where
  length_measurements : measurements.length = m
  length_objects : objects.length = n
  history_ne_nil : ∀ obj ∈ objects, obj.history ≠ []
  castsFit : CastsFit measurements objects

/-- Every optimal assignment of the matrix pairs measurements and objects at the least total
distance, in hundredths of a pixel, except for the slack. -/
def LeastUpTo (slack : Nat) (moments : List Point → Moments) (cv : KalmanOps)
    (measurements : List Point2f) (objects : List (TrackObj κ MKalman Point2f)) : Prop :=
  ∃ dMatrix, Tracker.distanceMatrix (intPlatform moments cv) measurements objects = some dMatrix ∧
    ∀ a, IsOptimal dMatrix a → ∀ R : Pairing measurements.length objects.length,
      ∑ p ∈ matched measurements.length objects.length a,
          quantisedCost measurements objects p.1 p.2 ≤
        R.total (quantisedCost measurements objects) + slack

section Scenes
variable {moments : List Point → Moments} {cv : KalmanOps} {m n : Nat}
  {measurements : List Point2f} {objects : List (TrackObj κ MKalman Point2f)}

theorem leastUpTo_iff (h : Scene m n measurements objects) {slack : Nat} :
    LeastUpTo slack moments cv measurements objects ↔
      ∀ P R : Pairing m n, (∀ S : Pairing m n,
        P.total (biased m n (quantisedCost measurements objects)) ≤
          S.total (biased m n (quantisedCost measurements objects))) →
        P.total (quantisedCost measurements objects) ≤
          R.total (quantisedCost measurements objects) + slack := by
  obtain ⟨rfl, rfl, hobjects, hfit⟩ := h
  have hmatrix : Tracker.distanceMatrix (intPlatform moments cv) measurements objects =
      some _ := Tracker.distanceMatrix_eq _ hobjects
  rw [realEntry_of_castsFit moments cv hfit] at hmatrix
  constructor
  · intro ⟨dMatrix, hsome, hleast⟩ P R hP
    obtain rfl := Option.some.inj (hmatrix.symm.trans hsome)
    obtain ⟨σ, rfl⟩ := exists_realPairing_eq P
    have hle := hleast (ofPerm σ) ((isOptimal_ofPerm_iff _ σ).mpr hP) R
    rw [matched_ofPerm] at hle
    exact hle
  · intro hleast
    refine ⟨_, hmatrix, fun a ha R => ?_⟩
    let σ : Equiv.Perm (Fin (max measurements.length objects.length)) := ha.isAssignment.toPerm
    have hσ : ofPerm σ = a := ha.isAssignment.ofPerm_toPerm
    rw [← hσ] at ha ⊢
    rw [matched_ofPerm]
    exact hleast (realPairing σ) R ((isOptimal_ofPerm_iff _ σ).mp ha)

theorem Scene.leastUpTo (h : Scene m n measurements objects) :
    LeastUpTo (biasSpread m n) moments cv measurements objects :=
  (leastUpTo_iff h).mpr fun _ R hP => total_le_add_biasSpread hP R

theorem Scene.leastUpTo_zero (h : Scene m n measurements objects) {K r : Int}
    (hK : (biasSpread m n : Int) < K)
    (hq : ∀ i j, i < m → j < n → quantisedCost measurements objects i j ≡ r [ZMOD K]) :
    LeastUpTo 0 moments cv measurements objects := by
  rw [leastUpTo_iff h]
  intro P R hP
  rw [Nat.cast_zero, add_zero]
  exact total_le_of_modEq hP hK hq R

end Scenes

/-! ## A scene for every shape that fails -/

/-- The origin, or a hundredth of a pixel aside of it. -/
def nearOrigin (aside : Prop) [Decidable aside] : Point2f := ⟨if aside then 1 / 100 else 0, 0⟩

theorem quantised_nearOrigin (aside aside' : Prop) [Decidable aside] [Decidable aside'] :
    quantised (nearOrigin aside) (nearOrigin aside') =
      if (aside ∧ ¬aside') ∨ (¬aside ∧ aside') then 1 else 0 := by
  unfold nearOrigin
  rw [quantised_eq_natSqrt]
  by_cases h : aside <;> by_cases h' : aside' <;> simp [h, h'] <;> norm_num

section Failing
variable [Inhabited κ]

def asideMeasurements (m n : Nat) : List Point2f :=
  (List.range m).map fun i => nearOrigin (¬m < n ∧ i + 1 = min m n)

def asideObjects (cv : KalmanOps) (m n : Nat) : List (TrackObj κ MKalman Point2f) :=
  (List.range n).map fun j =>
    TrackObj.construct (MKalman.ops cv) default (nearOrigin (m < n ∧ j + 1 = min m n))

theorem quantisedCost_aside (cv : KalmanOps) {m n i j : Nat} (hi : i < m) (hj : j < n) :
    quantisedCost (asideMeasurements m n) (asideObjects (κ := κ) cv m n) i j =
      lastCosts m n i j := by
  have hz : (asideMeasurements m n)[i]? = some (nearOrigin (¬m < n ∧ i + 1 = min m n)) := by
    simp [asideMeasurements, hi]
  have hp : lastPosition (asideObjects (κ := κ) cv m n) j =
      some (nearOrigin (m < n ∧ j + 1 = min m n)) := by
    simp [lastPosition, asideObjects, hj, TrackObj.lastHistory]
  rw [quantisedCost_eq hz hp, quantised_nearOrigin, lastCosts, surplusIndex]
  by_cases hmn : m < n <;> simp [hmn]

theorem scene_aside (cv : KalmanOps) (m n : Nat) :
    Scene m n (asideMeasurements m n) (asideObjects (κ := κ) cv m n) where
  length_measurements := by simp [asideMeasurements]
  length_objects := by simp [asideObjects]
  history_ne_nil := by simp [asideObjects]
  castsFit := castsFit_of_lt fun i j hi hj => by
    rw [quantisedCost_aside cv (by simpa [asideMeasurements] using hi)
      (by simpa [asideObjects] using hj), lastCosts]
    split <;> norm_num

/-- In the scene at hand an optimum pairs the object aside, though another is at the origin. -/
theorem not_leastUpTo_aside (moments : List Point → Moments) (cv : KalmanOps) {m n : Nat}
    (hne : m ≠ n) (hm : 0 < m) (hn : 0 < n) :
    ¬LeastUpTo 0 moments cv (asideMeasurements m n) (asideObjects (κ := κ) cv m n) := by
  have hcosts : ∀ i j, i < m → j < n →
      quantisedCost (asideMeasurements m n) (asideObjects (κ := κ) cv m n) i j =
        lastCosts m n i j := fun i j => quantisedCost_aside cv
  obtain ⟨P, R, hoptimal, hlonger⟩ := exists_longer_optimum hne hm hn
  rw [leastUpTo_iff (scene_aside cv m n)]
  intro hleast
  have hle := hleast P R fun S => by
    rw [Pairing.total_biased, Pairing.total_biased, P.total_congr hcosts, S.total_congr hcosts,
      ← Pairing.total_biased, ← Pairing.total_biased]
    exact hoptimal S
  rw [P.total_congr hcosts, R.total_congr hcosts, Nat.cast_zero, add_zero] at hle
  exact absurd hlonger (not_lt.mpr hle)

end Failing

/-- The pairs are of least total distance in every scene of a shape exactly if its two sides are
equally long or one of them is empty. In any other scene they exceed the least by no more than
the spread of the bias, and not at all if all distances leave one remainder on division by more
than that. -/
theorem optimal_minimises_distance_iff [Inhabited κ] (moments : List Point → Moments)
    (cv : KalmanOps) (m n : Nat) :
    ((∀ (measurements : List Point2f) (objects : List (TrackObj κ MKalman Point2f)),
        Scene m n measurements objects → LeastUpTo 0 moments cv measurements objects) ↔
      m = n ∨ m = 0 ∨ n = 0) ∧
    ∀ (measurements : List Point2f) (objects : List (TrackObj κ MKalman Point2f)),
      Scene m n measurements objects →
      LeastUpTo (biasSpread m n) moments cv measurements objects ∧
      ∀ K r : Int, (biasSpread m n : Int) < K →
        (∀ i j, i < m → j < n → quantisedCost measurements objects i j ≡ r [ZMOD K]) →
        LeastUpTo 0 moments cv measurements objects := by
  refine ⟨⟨fun hleast => ?_, fun hshape measurements objects hscene => ?_⟩,
    fun measurements objects hscene => ⟨hscene.leastUpTo, fun K r => hscene.leastUpTo_zero⟩⟩
  · by_contra hfail
    simp only [not_or] at hfail
    exact not_leastUpTo_aside moments cv hfail.1 (Nat.pos_of_ne_zero hfail.2.1)
      (Nat.pos_of_ne_zero hfail.2.2) (hleast _ (asideObjects (κ := κ) cv m n) (scene_aside cv m n))
  · have hspread : LeastUpTo _ moments cv measurements objects := hscene.leastUpTo
    rwa [biasSpread_eq_zero_iff.mpr hshape] at hspread

/-! ## Scenes of whole pixels -/

def objectAt (p : Point) : TrackObj Unit MKalman Point2f :=
  TrackObj.construct (MKalman.ops exactKalman) () p.toPoint2f

def measuredAt (points : List Point) : List Point2f := points.map Point.toPoint2f

theorem quantisedCost_pixels {zs ps : List Point} {i j : Nat} {z p : Point}
    (hz : zs[i]? = some z) (hp : ps[j]? = some p) :
    quantisedCost (measuredAt zs) (ps.map objectAt) i j = quantised z.toPoint2f p.toPoint2f := by
  apply quantisedCost_eq
  · rw [measuredAt, List.getElem?_map, hz, Option.map_some]
  · rw [lastPosition, List.getElem?_map, hp, Option.map_some]
    rfl

theorem scene_pixels {zs ps : List Point}
    (h : ∀ z ∈ zs, ∀ p ∈ ps, quantised z.toPoint2f p.toPoint2f ≤ 2 ^ 31) :
    Scene zs.length ps.length (measuredAt zs) (ps.map objectAt) where
  length_measurements := List.length_map ..
  length_objects := List.length_map ..
  history_ne_nil := by simp [objectAt]
  castsFit := castsFit_of_lt fun i j hi hj => by
    rw [measuredAt, List.length_map] at hi
    rw [List.length_map] at hj
    rw [quantisedCost_pixels (List.getElem?_eq_getElem hi) (List.getElem?_eq_getElem hj)]
    exact h _ (List.getElem_mem hi) _ (List.getElem_mem hj)

/-- Two measurements and four objects in one row of pixels. -/
def lineMeasured : List Point := [⟨0, 0⟩, ⟨100, 0⟩]
def lineObjects : List Point := [⟨30, 0⟩, ⟨170, 0⟩, ⟨90, 0⟩, ⟨10, 0⟩]

theorem quantised_line {z p : Point} (hz : z ∈ lineMeasured) (hp : p ∈ lineObjects) :
    quantised z.toPoint2f p.toPoint2f = 100 * |z.x - p.x| := by
  have hrows : ∀ z ∈ lineMeasured, z.y = 0 := by decide
  have hrows' : ∀ p ∈ lineObjects, p.y = 0 := by decide
  have hpixel : p = ⟨p.x, z.y⟩ := Point.ext rfl ((hrows' p hp).trans (hrows z hz).symm)
  rw [hpixel]
  exact quantised_horizontal z.x p.x z.y

/-- Between whole pixels of one row all distances are multiples of a hundred. -/
theorem optimal_minimises_distance_line :
    LeastUpTo 0 polygonMoments exactKalman (measuredAt lineMeasured)
      (lineObjects.map objectAt) := by
  have hscene : Scene 2 4 (measuredAt lineMeasured) (lineObjects.map objectAt) := by
    refine @scene_pixels lineMeasured lineObjects fun z hz p hp => ?_
    have hnear : ∀ z ∈ lineMeasured, ∀ p ∈ lineObjects, 100 * |z.x - p.x| ≤ 2 ^ 31 := by decide
    rw [quantised_line hz hp]
    exact hnear z hz p hp
  refine ((optimal_minimises_distance_iff polygonMoments exactKalman 2 4).2 _ _ hscene).2 100 0
    (by decide) fun i j hi hj => ?_
  have hmem := List.getElem_mem (l := lineMeasured) hi
  have hmem' := List.getElem_mem (l := lineObjects) hj
  rw [quantisedCost_pixels (List.getElem?_eq_getElem hi) (List.getElem?_eq_getElem hj),
    quantised_line hmem hmem']
  exact Int.modEq_zero_iff_dvd.mpr (Dvd.intro _ rfl)

/-- One measurement at the origin and three objects, the first of them a hundredth of a
pixel further away than the last. -/
def rowOfThree : List (TrackObj Unit MKalman Point2f) :=
  [⟨25, 1⟩, ⟨1000, 0⟩, ⟨25, 0⟩].map objectAt

theorem rowOfThree_history : ∀ obj ∈ rowOfThree, obj.history ≠ [] := by
  simp [rowOfThree, objectAt]

theorem quantised_rowOfThree :
    quantised (Point.toPoint2f ⟨0, 0⟩) (Point.toPoint2f ⟨25, 1⟩) = (2501 : Nat) ∧
      quantised (Point.toPoint2f ⟨0, 0⟩) (Point.toPoint2f ⟨1000, 0⟩) = (100000 : Nat) ∧
      quantised (Point.toPoint2f ⟨0, 0⟩) (Point.toPoint2f ⟨25, 0⟩) = (2500 : Nat) :=
  ⟨quantised_of_sq (by norm_num) (by norm_num), quantised_of_sq (by norm_num) (by norm_num),
    quantised_of_sq (by norm_num) (by norm_num)⟩

theorem exists_pairs_eq_singleton {n : Nat} (R : Pairing 1 n) (hn : 0 < n) :
    ∃ j, R.pairs = {(0, j)} := by
  have hcard := R.card_eq
  rw [min_eq_left hn] at hcard
  rcases Finset.card_eq_one.mp hcard with ⟨⟨i, j⟩, hp⟩
  exact ⟨j, by rw [hp, Subsingleton.elim i 0]⟩

/-- The index bias of two hundredths of a pixel makes the longer pair optimal. -/
theorem longer_pair_optimal :
    ¬∀ (m n : Nat) (measurements : List Point2f) (objects : List (TrackObj Unit MKalman Point2f)),
      Scene m n measurements objects →
      LeastUpTo 0 polygonMoments exactKalman measurements objects := by
  intro h
  obtain ⟨h0, h1, h2⟩ := quantised_rowOfThree
  have hscene : Scene 1 3 (measuredAt [⟨0, 0⟩]) rowOfThree := by
    refine @scene_pixels [⟨0, 0⟩] [⟨25, 1⟩, ⟨1000, 0⟩, ⟨25, 0⟩] ?_
    simp only [List.mem_singleton, forall_eq, List.forall_mem_cons, h0, h1, h2]
    norm_num
  have hcost : ∀ j : Fin 3, quantisedCost (measuredAt [⟨0, 0⟩]) rowOfThree 0 j.val =
      ![2501, 100000, 2500] j := by
    intro j
    fin_cases j
    · exact (quantisedCost_pixels rfl rfl).trans h0
    · exact (quantisedCost_pixels rfl rfl).trans h1
    · exact (quantisedCost_pixels rfl rfl).trans h2
  have htotal : ∀ (j : Fin 3) (f : Nat → Nat → Int), Pairing.total f
      (⟨{((0 : Fin 1), j)}, by simp, by simp, by simp⟩ : Pairing 1 3) = f 0 j.val := by
    intro j f
    exact Finset.sum_singleton _ _
  have hleast := (leastUpTo_iff hscene).mp (h 1 3 _ _ hscene)
    ⟨{((0 : Fin 1), (0 : Fin 3))}, by simp, by simp, by simp⟩
    ⟨{((0 : Fin 1), (2 : Fin 3))}, by simp, by simp, by simp⟩ (by
      intro S
      rcases exists_pairs_eq_singleton S (by norm_num) with ⟨j, hj⟩
      rw [htotal 0, Pairing.total, hj, Finset.sum_singleton, biased, biased, hcost 0]
      dsimp only
      rw [show ((0 : Fin 1) : Nat) = 0 from rfl, hcost j]
      fin_cases j <;> simp [bias])
  rw [htotal 0, htotal 2, hcost 0, hcost 2] at hleast
  change (2501 : Int) ≤ 2500 + 0 at hleast
  norm_num at hleast

end BlobTracking.Tracking
