import BlobTracking.Tracking.PlaneFilter

/-! What a correction does to the estimate of one object. The constructor leaves
the covariance before the correction at zero and the first prediction bypasses
the filter, so a correction in an object's first frame has gain zero. From the
second frame on the gain is positive. -/
namespace BlobTracking.Tracking
open Library.ConstantVelocity OpenCV

/-- One frame of an object: `predict`, then `correct` if a measurement was accepted. -/
def TrackObj.frame (ops : FilterOps P φ) (obj : TrackObj κ φ P) : Option P → TrackObj κ φ P
  | none => obj.predict ops
  | some z => (obj.predict ops).correct ops z

def TrackObj.life (ops : FilterOps P φ) (colorA : κ) (iniP : P) (frames : List (Option P)) :
    TrackObj κ φ P :=
  frames.foldl (TrackObj.frame ops) (TrackObj.construct ops colorA iniP)

theorem TrackObj.life_concat (ops : FilterOps P φ) (colorA : κ) (iniP : P)
    (frames : List (Option P)) (m : Option P) :
    life ops colorA iniP (frames ++ [m]) = (life ops colorA iniP frames).frame ops m := by
  rw [life, List.foldl_append]
  rfl

theorem TrackObj.length_history_life (ops : FilterOps P φ) (colorA : κ) (iniP : P)
    (frames : List (Option P)) :
    (life ops colorA iniP frames).history.length = 1 + frames.length := by
  induction frames using List.reverseRecOn with
  | nil => rfl
  | append_singleton frames m ih =>
    rw [life_concat, List.length_append, List.length_singleton, ← Nat.add_assoc, ← ih]
    cases m with
    | none => exact TrackObj.predict_history_length ..
    | some z => exact TrackObj.predict_history_length ..

section Exact
variable {cv : KalmanOps} (hcv : cv.Exact)
include hcv

theorem predict_filter_plane {obj : TrackObj κ MKalman Point2f} {x y : Axis ℚ}
    (h : obj.filter = plane x y) :
    (obj.predict (MKalman.ops cv)).filter =
      if obj.history.length = 1 then plane x y else plane (x.predict noise) (y.predict noise) := by
  split
  · rename_i hfresh
    rw [TrackObj.predict, dif_pos hfresh]
    exact h
  · rename_i hlater
    rw [TrackObj.predict_of_length_ne _ _ hlater]
    change (obj.filter.predict cv).2 = _
    rw [h, MKalman.predict_plane x y hcv]

theorem correct_filter_plane {obj : TrackObj κ MKalman Point2f} {x y : Axis ℚ}
    (h : obj.filter = plane x y) (z : Point2f) :
    (obj.correct (MKalman.ops cv) z).filter =
      plane (x.correct noise z.x) (y.correct noise z.y) := by
  change obj.filter.correct cv z = _
  rw [h, MKalman.correct_plane x y hcv]

theorem exists_plane_life (colorA : κ) (iniP : Point2f) (frames : List (Option Point2f)) :
    ∃ x y, (TrackObj.life (MKalman.ops cv) colorA iniP frames).filter = plane x y := by
  induction frames using List.reverseRecOn with
  | nil => exact ⟨_, _, MKalman.construct_eq hcv _ _⟩
  | append_singleton frames m ih =>
    rcases ih with ⟨x, y, h⟩
    have hpredict : ∃ x y, ((TrackObj.life (MKalman.ops cv) colorA iniP frames).predict
        (MKalman.ops cv)).filter = plane x y := by
      have := predict_filter_plane hcv h
      split at this
      · exact ⟨_, _, this⟩
      · exact ⟨_, _, this⟩
    rw [TrackObj.life_concat]
    cases m with
    | none => exact hpredict
    | some z =>
      rcases hpredict with ⟨x', y', h'⟩
      exact ⟨_, _, correct_filter_plane hcv h' z⟩

end Exact

theorem distance_lt_distance {z p q : Point2f}
    (h : (z.x - p.x) ^ 2 + (z.y - p.y) ^ 2 < (z.x - q.x) ^ 2 + (z.y - q.y) ^ 2) :
    distance z p < distance z q := by
  rw [distance_eq_sqrt, distance_eq_sqrt]
  apply Real.sqrt_lt_sqrt
  · exact_mod_cast (by positivity : 0 ≤ (z.x - p.x) ^ 2 + (z.y - p.y) ^ 2)
  · exact_mod_cast h

/-- What an accepted measurement should do to an object that has predicted. -/
structure MovesCloser (cv : KalmanOps) (obj : TrackObj κ MKalman Point2f) (z : Point2f) :
    Prop where
  closer : distance z (obj.correct (MKalman.ops cv) z).filter.positionPost <
    distance z obj.filter.positionPre
  nonsingular : IsUnit obj.filter.KF.innovationCov.det

section Gain
variable {cv : KalmanOps} {obj : TrackObj κ MKalman Point2f} {x y : Axis ℚ} {z : Point2f}

theorem movesCloser_of_pos (hcv : cv.Exact) (h : obj.filter = plane x y) (hx : 0 < x.preCov.pos)
    (hy : 0 < y.preCov.pos) (hz : z ≠ obj.filter.positionPre) : MovesCloser cv obj z := by
  refine ⟨?_, h ▸ MKalman.isUnit_det_innovationCov_plane x y⟩
  rw [correct_filter_plane hcv h]
  rw [h] at hz ⊢
  have hxle := sq_le_sq.mpr (x.pre.abs_correct_residual_le noise x.preCov z.x)
  have hyle := sq_le_sq.mpr (y.pre.abs_correct_residual_le noise y.preCov z.y)
  apply distance_lt_distance
  change (z.x - (x.pre.correct noise x.preCov z.x).pos) ^ 2 +
    (z.y - (y.pre.correct noise y.preCov z.y).pos) ^ 2 <
      (z.x - x.pre.pos) ^ 2 + (z.y - y.pre.pos) ^ 2
  by_cases hzx : z.x = x.pre.pos
  · have hzy : z.y ≠ y.pre.pos := fun hzy => hz (Point2f.ext hzx hzy)
    exact add_lt_add_of_le_of_lt hxle
      (sq_lt_sq.mpr (Motion.abs_correct_residual_lt noise y.preCov hy hzy))
  · exact add_lt_add_of_lt_of_le
      (sq_lt_sq.mpr (Motion.abs_correct_residual_lt noise x.preCov hx hzx)) hyle

theorem not_movesCloser_of_zero (hcv : cv.Exact) (h : obj.filter = plane x y)
    (hx : x.preCov.pos = 0) (hy : y.preCov.pos = 0) : ¬MovesCloser cv obj z := by
  intro hcloser
  have hsame : (obj.correct (MKalman.ops cv) z).filter.positionPost = obj.filter.positionPre := by
    rw [correct_filter_plane hcv h, h]
    apply Point2f.ext
    · change x.pre.pos + x.preCov.posGain noise * (z.x - x.pre.pos) = x.pre.pos
      rw [x.preCov.posGain_of_zero noise hx, zero_mul, add_zero]
    · change y.pre.pos + y.preCov.posGain noise * (z.y - y.pre.pos) = y.pre.pos
      rw [y.preCov.posGain_of_zero noise hy, zero_mul, add_zero]
  have := hcloser.closer
  rw [hsame] at this
  exact lt_irrefl _ this

end Gain

/-- The object that frame `i` corrects, once it has predicted. -/
def beforeCorrect (cv : KalmanOps) (colorA : κ) (iniP : Point2f) (frames : List (Option Point2f))
    (i : Nat) : TrackObj κ MKalman Point2f :=
  (TrackObj.life (MKalman.ops cv) colorA iniP (frames.take i)).predict (MKalman.ops cv)

theorem correct_movesCloser_iff (cv : KalmanOps) (hcv : cv.Exact) (colorA : κ) (iniP : Point2f)
    (frames : List (Option Point2f)) (i : Nat) (z : Point2f) (hframe : frames[i]? = some (some z))
    (hz : z ≠ (beforeCorrect cv colorA iniP frames i).filter.positionPre) :
    MovesCloser cv (beforeCorrect cv colorA iniP frames i) z ↔ 0 < i := by
  have hi : i < frames.length := (List.getElem?_eq_some_iff.mp hframe).1
  rcases exists_plane_life hcv colorA iniP (frames.take i) with ⟨x, y, h⟩
  have hpredict := predict_filter_plane hcv h
  rw [TrackObj.length_history_life, List.length_take_of_le hi.le] at hpredict
  cases i with
  | zero =>
    have hfilter : (beforeCorrect cv colorA iniP frames 0).filter =
        plane (seeded (truncate iniP.x)) (seeded (truncate iniP.y)) :=
      MKalman.construct_eq hcv _ _
    exact iff_of_false (not_movesCloser_of_zero hcv hfilter rfl rfl) (Nat.lt_irrefl 0)
  | succ i =>
    rw [if_neg (by omega)] at hpredict
    exact iff_of_true (movesCloser_of_pos hcv hpredict (Cov.predict_pos_pos ..)
      (Cov.predict_pos_pos ..) hz) (Nat.succ_pos i)

theorem correct_movesCloser_second_frame :
    MovesCloser exactKalman (beforeCorrect exactKalman () ⟨0, 0⟩ [none, some ⟨1, 0⟩] 1) ⟨1, 0⟩ ↔
      0 < 1 :=
  correct_movesCloser_iff exactKalman exactKalman_exact () ⟨0, 0⟩ [none, some ⟨1, 0⟩] 1 ⟨1, 0⟩
    rfl (by decide +kernel)

/-- An object created at the origin and measured at `(1,0)` in its first frame. -/
theorem first_correct_ignored :
    ¬∀ (iniP : Point2f) (frames : List (Option Point2f)) (i : Nat) (z : Point2f),
      frames[i]? = some (some z) →
      z ≠ (beforeCorrect exactKalman () iniP frames i).filter.positionPre →
      MovesCloser exactKalman (beforeCorrect exactKalman () iniP frames i) z := by
  intro h
  have hcloser := h ⟨0, 0⟩ [some ⟨1, 0⟩] 0 ⟨1, 0⟩ rfl (by decide +kernel)
  exact not_movesCloser_of_zero exactKalman_exact
    (MKalman.construct_eq exactKalman_exact _ _) rfl rfl hcloser

end BlobTracking.Tracking
