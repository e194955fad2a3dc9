import BlobTracking.Tracking.Accounting
import BlobTracking.Tracking.FilterGain

/-! How far a prediction can leave the image. Since its last correction an object
has coasted for at most three frames from a position near the image, at a speed
that two successive corrections inside the gate allow. The bound holds in every
run, whatever the solver returns, and keeps the integer costs in range. -/
namespace BlobTracking.Tracking
open Dlib Library.ConstantVelocity OpenCV

theorem Reachable.mono {pf : Platform P D φ} {legal legal' : Frame κ → Prop}
    (hle : ∀ f, legal f → legal' f) {t : Tracker κ φ P} (ht : Reachable pf legal t) :
    Reachable pf legal' t := by
  induction ht with
  | construct => exact Reachable.construct
  | init f hlegal _ ih => exact Reachable.init f (hle f hlegal) ih
  | track f hlegal _ hrun ih => exact Reachable.track f (hle f hlegal) ih hrun

/-- What an object can go through in one call keeps `Q`. -/
structure KeptByFrame (pf : Platform P D φ) (f : Frame κ) (Q : TrackObj κ φ P → Prop) :
    Prop where
  new : ∀ c, ∀ z ∈ f.measurements pf, Q (TrackObj.construct pf.toFilterOps c z)
  missed : ∀ obj, Q obj → obj.nFramesUnseen < 3 → Q (obj.predict pf.toFilterOps)
  hit : ∀ obj p, ∀ z ∈ f.measurements pf, Q obj →
    (obj.predict pf.toFilterOps).lastHistory = some p →
    pf.exceeds (pf.norm (pf.sub p z)) Tracker.tresh = false →
    Q ((obj.predict pf.toFilterOps).correct pf.toFilterOps z)

theorem KeptByFrame.init {pf : Platform P D φ} {f : Frame κ} {Q : TrackObj κ φ P → Prop}
    (h : KeptByFrame pf f Q) {t : Tracker κ φ P} (ht : ∀ obj ∈ t.objects, Q obj) :
    ∀ obj ∈ (t.init pf f).objects, Q obj := by
  intro obj hobj
  rcases List.mem_append.mp hobj with hold | hnew
  · exact ht obj hold
  · rcases List.mem_mapIdx.mp hnew with ⟨i, hi, rfl⟩
    exact h.new _ _ (List.mem_map_of_mem (List.getElem_mem hi))

theorem KeptByFrame.track {pf : Platform P D φ} {f : Frame κ} {Q : TrackObj κ φ P → Prop}
    (h : KeptByFrame pf f Q) (hsolve : f.maxCostAssignment.Permutes) {t t' : Tracker κ φ P}
    (hrun : t.track pf f = some t') (ht : ∀ obj ∈ t.objects, Q obj) :
    ∀ obj ∈ t'.objects, Q obj := by
  rw [Tracker.track_eq hsolve] at hrun
  cases hrun
  intro obj hobj
  rcases List.mem_append.mp hobj with hold | hnew
  · rw [Tracker.survivors_eq] at hold
    rcases List.mem_map.mp hold with ⟨j, hj, rfl⟩
    have hbefore := ht _ (List.get_mem t.objects j)
    by_cases hhit : ∃ i, t.corrects pf f i = some j.val
    · rcases hhit with ⟨i, hi⟩
      rcases Tracker.corrects_gate hi with ⟨z, p, hz, hp, hgate⟩
      rw [Tracker.correctedAt_of_corrects hsolve hi hz]
      exact h.hit _ p z (List.mem_of_getElem? hz) hbefore hp hgate
    · rw [Tracker.correctedAt_of_not_corrects (not_exists.mp hhit)]
      exact h.missed _ hbefore (((Tracker.mem_kept_iff hsolve j).mp hj).resolve_left hhit)
  · rcases List.mem_filterMap.mp hnew with ⟨i, _, hi⟩
    unfold Tracker.createdFor at hi
    split at hi
    · rcases Option.map_eq_some_iff.mp hi with ⟨z, hz, rfl⟩
      exact h.new _ _ (List.mem_of_getElem? hz)
    · cases hi

theorem Reachable.forall_objects {pf : Platform P D φ} {legal : Frame κ → Prop}
    {Q : TrackObj κ φ P → Prop}
    (hstep : ∀ f, legal f → f.maxCostAssignment.Permutes ∧ KeptByFrame pf f Q)
    {t : Tracker κ φ P} (ht : Reachable pf legal t) : ∀ obj ∈ t.objects, Q obj := by
  induction ht with
  | construct => exact fun obj hobj => absurd hobj List.not_mem_nil
  | init f hlegal _ ih => exact (hstep f hlegal).2.init ih
  | track f hlegal _ hrun ih => exact (hstep f hlegal).2.track (hstep f hlegal).1 hrun ih

def Inside (L : ℚ) (p : Point2f) : Prop := (0 ≤ p.x ∧ p.x ≤ L) ∧ 0 ≤ p.y ∧ p.y ≤ L

def Within (b : ℚ) (p : Point2f) : Prop := |p.x| ≤ b ∧ |p.y| ≤ b

/-- The state of one coordinate after a frame, `u` frames after the last correction. -/
abbrev CoastingIn (L : ℚ) (u : Nat) (m : Motion ℚ) : Prop :=
  Coasting (-101) (L + 101) (L + 303) u m

/-- Either the object is new, or both coordinates have coasted since its last correction. -/
structure Confined (cv : KalmanOps) (L : ℚ) (obj : TrackObj κ MKalman Point2f) : Prop where
  unseen_le : obj.nFramesUnseen ≤ 3
  history_within : ∀ p ∈ obj.history, Within (5 * L + 1313) p
  filter_eq : (∃ p, Inside L p ∧ obj.history = [p] ∧ obj.nFramesUnseen = 0 ∧
      obj.filter = (MKalman.ops cv).construct p) ∨
    1 < obj.history.length ∧ ∃ x y : Axis ℚ, obj.filter = plane x y ∧
      CoastingIn L obj.nFramesUnseen x.post ∧ CoastingIn L obj.nFramesUnseen y.post

section Coordinates
variable {L : ℚ}

theorem truncate_nonneg {q : ℚ} (h : 0 ≤ q) : (0 : ℚ) ≤ truncate q := by
  rw [truncate_of_nonneg h]
  exact_mod_cast Int.floor_nonneg.mpr h

theorem truncate_le {q : ℚ} (h : 0 ≤ q) : (truncate q : ℚ) ≤ q := by
  rw [truncate_of_nonneg h]
  exact Int.floor_le q

theorem coastingIn_zero (hL : 0 ≤ L) (u : Nat) : CoastingIn L u ⟨0, 0⟩ :=
  ⟨⟨0, by simp, by norm_num, by linarith⟩, by simpa using by linarith⟩

theorem coastingIn_seed {q : ℚ} (hL : 0 ≤ L) (h : 0 ≤ q) (h' : q ≤ L) :
    CoastingIn L 0 ⟨truncate q, 0⟩ :=
  ⟨⟨truncate q, by simp, by linarith [truncate_nonneg h], by linarith [truncate_le h]⟩,
    by simpa using by linarith⟩

theorem seeded_correct_post (k : Int) (z : ℚ) :
    ((seeded k).correct noise z).post = ⟨k, 0⟩ := by
  apply Motion.ext
  · change (k : ℚ) + Cov.zero.posGain noise * (z - k) = k
    rw [Cov.posGain_of_zero noise _ rfl, zero_mul, add_zero]
  · change (0 : ℚ) + Cov.zero.cross / Cov.zero.innovation noise * (z - k) = 0
    simp [Cov.zero]

theorem abs_pos_le_of_coastingIn {u : Nat} {m : Motion ℚ} (hL : 0 ≤ L) (h : CoastingIn L u m)
    (hu : u ≤ 4) : |m.pos| ≤ 5 * L + 1313 := by
  have hu' : (u : ℚ) ≤ 4 := by exact_mod_cast hu
  calc |m.pos| ≤ (L + 101) + u * (L + 303) := h.abs_pos_le (by linarith) le_rfl
    _ ≤ (L + 101) + 4 * (L + 303) := by gcongr
    _ = 5 * L + 1313 := by ring

/-- A measurement that passes the gate against the truncated prediction. -/
theorem coastingIn_correct {u : Nat} {a : Axis ℚ} {z : ℚ} (h : CoastingIn L (u + 1) a.pre)
    (hcross : a.preCov.cross ≤ a.preCov.pos) (hz : 0 ≤ z) (hz' : z ≤ L)
    (hgate : |truncate a.pre.pos - z| ≤ 100) : CoastingIn L 0 (a.correct noise z).post := by
  have hfraction := abs_sub_truncate_lt a.pre.pos
  have hnear : |z - a.pre.pos| ≤ 101 := by
    rw [abs_le] at hgate ⊢
    rw [abs_lt] at hfraction
    exact ⟨by linarith, by linarith⟩
  exact Coasting.correct h hcross hnear hz hz' rfl rfl (by ring)

theorem abs_sub_le_of_distance_le {p z : Point2f} (h : distance p z ≤ 100) :
    |p.x - z.x| ≤ 100 ∧ |p.y - z.y| ≤ 100 := by
  rw [distance_eq_sqrt, Real.sqrt_le_left (by norm_num)] at h
  have hsq : (p.x - z.x) ^ 2 + (p.y - z.y) ^ 2 ≤ 100 ^ 2 := by exact_mod_cast h
  refine ⟨abs_le_of_sq_le_sq ?_ (by norm_num), abs_le_of_sq_le_sq ?_ (by norm_num)⟩
  · linarith [sq_nonneg (p.y - z.y)]
  · linarith [sq_nonneg (p.x - z.x)]

end Coordinates

section Object
variable {cv : KalmanOps} {L : ℚ} {obj : TrackObj κ MKalman Point2f}

theorem Inside.within {p : Point2f} (h : Inside L p) : Within (5 * L + 1313) p := by
  rcases h with ⟨⟨hx, hx'⟩, hy, hy'⟩
  exact ⟨by rw [abs_of_nonneg hx]; linarith, by rw [abs_of_nonneg hy]; linarith⟩

theorem confined_construct {p : Point2f} (c : κ) (hp : Inside L p) :
    Confined cv L (TrackObj.construct (MKalman.ops cv) c p) where
  unseen_le := Nat.zero_le 3
  history_within q hq := by
    rw [TrackObj.construct_history, List.mem_singleton] at hq
    exact hq ▸ hp.within
  filter_eq := Or.inl ⟨p, hp, rfl, rfl, rfl⟩

/-- The object after `predict`: what was appended, and where a correction inside the
gate would take the filter. -/
structure Predicted (L : ℚ) (before obj : TrackObj κ MKalman Point2f) (p : Point2f)
    (x y : Axis ℚ) : Prop where
  history_eq : obj.history = before.history ++ [p]
  history_ne_nil : before.history ≠ []
  within : Within (5 * L + 1313) p
  filter_eq : obj.filter = plane x y
  coasting : CoastingIn L obj.nFramesUnseen x.post ∧ CoastingIn L obj.nFramesUnseen y.post
  correct : ∀ z, Inside L z → distance p z ≤ 100 →
    CoastingIn L 0 (x.correct noise z.x).post ∧ CoastingIn L 0 (y.correct noise z.y).post

theorem Confined.exists_predicted (hcv : cv.Exact) (hL : 0 ≤ L) (h : Confined cv L obj) :
    ∃ p x y, Predicted L obj (obj.predict (MKalman.ops cv)) p x y := by
  rcases h.filter_eq with ⟨p, hp, hhistory, hunseen, hfilter⟩ | ⟨hlater, x, y, hplane, hx, hy⟩
  · have hpredict := TrackObj.predict_of_single (MKalman.ops cv) obj p hhistory
    have hseed : obj.filter = plane (seeded (truncate p.x)) (seeded (truncate p.y)) := by
      rw [hfilter]
      exact MKalman.construct_eq hcv _ _
    refine ⟨p, seeded (truncate p.x), seeded (truncate p.y), ?_, by simp [hhistory], hp.within,
      ?_, ?_, ?_⟩
    · rw [hpredict, hhistory]
      rfl
    · rw [hpredict]
      exact hseed
    · exact ⟨coastingIn_zero hL _, coastingIn_zero hL _⟩
    · intro z _ _
      rw [seeded_correct_post, seeded_correct_post]
      exact ⟨coastingIn_seed hL hp.1.1 hp.1.2, coastingIn_seed hL hp.2.1 hp.2.2⟩
  · have hpredict := TrackObj.predict_of_length_ne (MKalman.ops cv) obj (Nat.ne_of_gt hlater)
    have hfilter := MKalman.predict_plane x y hcv
    rw [← hplane] at hfilter
    have hx' := hx.advance
    have hy' := hy.advance
    have hunseen : obj.nFramesUnseen + 1 ≤ 4 := Nat.succ_le_succ h.unseen_le
    refine ⟨⟨truncate x.post.advance.pos, truncate y.post.advance.pos⟩, x.predict noise,
      y.predict noise, ?_, ?_, ?_, ?_, ?_, ?_⟩
    · rw [hpredict]
      change obj.history ++ [(obj.filter.predict cv).1.toPoint2f] = _
      rw [hfilter]
      rfl
    · exact List.length_pos_iff.mp (by omega)
    · exact ⟨(abs_truncate_le _).trans (abs_pos_le_of_coastingIn hL hx' hunseen),
        (abs_truncate_le _).trans (abs_pos_le_of_coastingIn hL hy' hunseen)⟩
    · rw [hpredict]
      change (obj.filter.predict cv).2 = _
      rw [hfilter]
    · rw [TrackObj.predict_nFramesUnseen]
      exact ⟨hx', hy'⟩
    · intro z hz hgate
      have hnear := abs_sub_le_of_distance_le hgate
      exact ⟨coastingIn_correct hx' (Cov.predict_cross_le_pos ..) hz.1.1 hz.1.2 hnear.1,
        coastingIn_correct hy' (Cov.predict_cross_le_pos ..) hz.2.1 hz.2.2 hnear.2⟩

theorem Predicted.history_within {before after : TrackObj κ MKalman Point2f} {p : Point2f}
    {x y : Axis ℚ} (h : Predicted L before after p x y)
    (hbefore : ∀ q ∈ before.history, Within (5 * L + 1313) q) :
    ∀ q ∈ after.history, Within (5 * L + 1313) q := by
  intro q hq
  rw [h.history_eq] at hq
  rcases List.mem_append.mp hq with hold | hlast
  · exact hbefore q hold
  · exact List.mem_singleton.mp hlast ▸ h.within

theorem Predicted.one_lt_length {before after : TrackObj κ MKalman Point2f} {p : Point2f}
    {x y : Axis ℚ} (h : Predicted L before after p x y) : 1 < after.history.length := by
  have := List.length_pos_iff.mpr h.history_ne_nil
  rw [h.history_eq, List.length_append, List.length_singleton]
  omega

theorem confined_predict (hcv : cv.Exact) (hL : 0 ≤ L) (h : Confined cv L obj)
    (hunseen : obj.nFramesUnseen < 3) : Confined cv L (obj.predict (MKalman.ops cv)) := by
  rcases h.exists_predicted hcv hL with ⟨p, x, y, hp⟩
  exact ⟨by rw [TrackObj.predict_nFramesUnseen]; omega, hp.history_within h.history_within,
    Or.inr ⟨hp.one_lt_length, x, y, hp.filter_eq, hp.coasting⟩⟩

theorem confined_correct (hcv : cv.Exact) (hL : 0 ≤ L) (h : Confined cv L obj) {p z : Point2f}
    (hz : Inside L z) (hlast : (obj.predict (MKalman.ops cv)).lastHistory = some p)
    (hgate : distance p z ≤ 100) :
    Confined cv L ((obj.predict (MKalman.ops cv)).correct (MKalman.ops cv) z) := by
  rcases h.exists_predicted hcv hL with ⟨q, x, y, hq⟩
  have hpq : q = p := by
    rw [TrackObj.lastHistory_of_append _ hq.history_eq] at hlast
    exact Option.some.inj hlast
  exact ⟨Nat.zero_le 3, hq.history_within h.history_within,
    Or.inr ⟨hq.one_lt_length, _, _, correct_filter_plane hcv hq.filter_eq z,
      hq.correct z hz (hpq ▸ hgate)⟩⟩

end Object

/-- The solver returns permutations and every blob has a centroid in `[0, L]²`. -/
structure InImage (moments : List Point → Moments) (L : ℝ) (f : Frame κ) : Prop where
  permutes : f.maxCostAssignment.Permutes
  centroids : ∀ blob ∈ f.blobs, ∃ z : Point2f, getBlobCentroid moments blob = some z ∧
    (0 ≤ z.x ∧ (z.x : ℝ) ≤ L) ∧ 0 ≤ z.y ∧ (z.y : ℝ) ≤ L

section Runs
variable {moments : List Point → Moments} {cv : KalmanOps}

theorem InImage.mono {L L' : ℝ} (hle : L ≤ L') {f : Frame κ} (h : InImage moments L f) :
    InImage moments L' f where
  permutes := h.permutes
  centroids blob hblob := by
    rcases h.centroids blob hblob with ⟨z, hz, ⟨hx, hx'⟩, hy, hy'⟩
    exact ⟨z, hz, ⟨hx, hx'.trans hle⟩, hy, hy'.trans hle⟩

theorem InImage.inside {L : ℚ} {f : Frame κ} (h : InImage moments L f) :
    ∀ z ∈ f.measurements (exactPlatform moments cv), Inside L z := by
  intro z hz
  rcases List.mem_map.mp hz with ⟨blob, hblob, rfl⟩
  rcases h.centroids blob hblob with ⟨z, hcentroid, ⟨hx, hx'⟩, hy, hy'⟩
  change Inside L ((getBlobCentroid moments blob).getD ⟨0, 0⟩)
  rw [hcentroid]
  exact ⟨⟨hx, by exact_mod_cast hx'⟩, hy, by exact_mod_cast hy'⟩

theorem keptByFrame_confined (hcv : cv.Exact) {L : ℚ} (hL : 0 ≤ L) {f : Frame κ}
    (h : InImage moments L f) : KeptByFrame (exactPlatform moments cv) f (Confined cv L) where
  new c z hz := confined_construct c (h.inside z hz)
  missed _ hobj hunseen := confined_predict hcv hL hobj hunseen
  hit _ p z hz hobj hlast hgate :=
    confined_correct hcv hL hobj (h.inside z hz) hlast ((exceeds_tresh_eq_false_iff p z).mp hgate)

theorem confined_of_reachable (hcv : cv.Exact) {L : ℚ} (hL : 0 ≤ L)
    {t : Tracker κ MKalman Point2f}
    (ht : Reachable (exactPlatform moments cv) (InImage moments L) t) :
    ∀ obj ∈ t.objects, Confined cv L obj :=
  ht.forall_objects fun _ hlegal => ⟨hlegal.permutes, keptByFrame_confined hcv hL hlegal⟩

theorem history_within_of_reachable (hcv : cv.Exact) {L : ℚ} (hL : 0 ≤ L)
    {t : Tracker κ MKalman Point2f}
    (ht : Reachable (exactPlatform moments cv) (InImage moments L) t) :
    ∀ obj ∈ t.predicted (exactPlatform moments cv), ∀ p ∈ obj.history,
      Within (5 * L + 1313) p := by
  intro obj hobj
  rcases List.mem_map.mp hobj with ⟨before, hbefore, rfl⟩
  have hconfined := confined_of_reachable hcv hL ht before hbefore
  rcases hconfined.exists_predicted hcv hL with ⟨p, x, y, hp⟩
  exact hp.history_within hconfined.history_within

theorem quantised_le {L : ℚ} (hL' : L ≤ 2 ^ 20) {z p : Point2f}
    (hz : Inside L z) (hp : Within (5 * L + 1313) p) : quantised z p ≤ 10 ^ 9 := by
  have hx := abs_le.mp hp.1
  have hy := abs_le.mp hp.2
  have hdx : (z.x - p.x) ^ 2 ≤ 6292769 ^ 2 :=
    sq_le_sq' (by linarith [hz.1.1]) (by linarith [hz.1.2])
  have hdy : (z.y - p.y) ^ 2 ≤ 6292769 ^ 2 :=
    sq_le_sq' (by linarith [hz.2.1]) (by linarith [hz.2.2])
  have hsum : (z.x - p.x) ^ 2 + (z.y - p.y) ^ 2 ≤ (10 ^ 7) ^ 2 :=
    (add_le_add hdx hdy).trans (by norm_num)
  have hdistance : distance z p ≤ 10 ^ 7 := by
    rw [distance_eq_sqrt, Real.sqrt_le_left (by norm_num)]
    exact_mod_cast hsum
  rw [quantised, Int.floor_le_iff]
  push_cast
  linarith

/-- The real entries of the matrix in any state, for an image of at most `2 ^ 20` pixels. -/
theorem realEntry_range (hcv : cv.Exact) {L : ℚ} (hL : 0 ≤ L) (hL' : L ≤ 2 ^ 20)
    {t : Tracker κ MKalman Point2f}
    (ht : Reachable (exactPlatform moments cv) (InImage moments L) t) {f : Frame κ}
    (hf : InImage moments L f) {i j : Nat} (hi : i < f.blobs.length) (hj : j < t.objects.length) :
    -10 ^ 9 ≤ Tracker.realEntry (exactPlatform moments cv)
        (f.measurements (exactPlatform moments cv)) (t.predicted (exactPlatform moments cv)) i j ∧
      Tracker.realEntry (exactPlatform moments cv)
        (f.measurements (exactPlatform moments cv)) (t.predicted (exactPlatform moments cv)) i j ≤
          0 := by
  have hz : (f.measurements (exactPlatform moments cv))[i]? = some _ :=
    List.getElem?_eq_getElem (by simpa using hi)
  rcases Tracker.exists_lastPosition Tracker.predicted_history_ne_nil
    (show j < (t.predicted (exactPlatform moments cv)).length by simpa using hj) with
      ⟨obj, p, hobj, hlast, hposition⟩
  have hp := history_within_of_reachable hcv hL ht obj (List.mem_of_getElem? hobj) p
    (obj.mem_history_of_lastHistory hlast)
  have hinside := hf.inside _ (List.mem_of_getElem? hz)
  rw [realEntry_eq_neg_quantised hz hposition]
  have hle := quantised_le hL' hinside hp
  have hnonneg := quantised_nonneg ((f.measurements (exactPlatform moments cv)).get
    ⟨i, by simpa using hi⟩) p
  exact ⟨neg_le_neg hle, neg_nonpos.mpr hnonneg⟩

theorem real_le_of_rat {x L a b : ℝ} (ha : 0 < a) (h : ∀ q : ℚ, L ≤ q → x ≤ a * q + b) :
    x ≤ a * L + b := by
  by_contra hlt
  rcases exists_rat_btwn (show L < (x - b) / a by rw [lt_div_iff₀ ha]; linarith) with
    ⟨q, hLq, hq⟩
  have := h q hLq.le
  rw [lt_div_iff₀ ha] at hq
  linarith

theorem history_bounded (moments : List Point → Moments) (cv : KalmanOps) (hcv : cv.Exact)
    (L : ℝ) (hL : 0 ≤ L) (t : Tracker κ MKalman Point2f)
    (ht : Reachable (exactPlatform moments cv) (InImage moments L) t) :
    (∀ obj ∈ t.objects ++ t.predicted (exactPlatform moments cv), ∀ p ∈ obj.history,
      |(p.x : ℝ)| ≤ 5 * L + 1313 ∧ |(p.y : ℝ)| ≤ 5 * L + 1313) ∧
    (L ≤ 2 ^ 20 → ∀ f : Frame κ, InImage moments L f → ∃ dMatrix,
      Tracker.distanceMatrix (exactPlatform moments cv)
        (f.measurements (exactPlatform moments cv)) (t.predicted (exactPlatform moments cv)) =
          some dMatrix ∧
      ∀ i j, i < f.blobs.length → j < t.objects.length →
        -2 ^ 31 ≤ dMatrix.entry i j ∧ dMatrix.entry i j < 2 ^ 31) := by
  refine ⟨?_, ?_⟩
  · intro obj hobj p hp
    have hwithin : ∀ q : ℚ, L ≤ q → Within (5 * q + 1313) p := by
      intro q hq
      have hq0 : 0 ≤ q := by exact_mod_cast hL.trans hq
      have htq := ht.mono fun f hf => InImage.mono hq hf
      rcases List.mem_append.mp hobj with hold | hnew
      · exact (confined_of_reachable hcv hq0 htq obj hold).history_within p hp
      · exact history_within_of_reachable hcv hq0 htq obj hnew p hp
    exact ⟨real_le_of_rat (by norm_num) fun q hq => by exact_mod_cast (hwithin q hq).1,
      real_le_of_rat (by norm_num) fun q hq => by exact_mod_cast (hwithin q hq).2⟩
  · intro hsmall f hf
    have hcast : L ≤ ((2 ^ 20 : ℚ) : ℝ) := by exact_mod_cast hsmall
    refine ⟨_, Tracker.distanceMatrix_predicted, ?_⟩
    intro i j hi hj
    have hrange := realEntry_range hcv (by norm_num) le_rfl
      (ht.mono fun f hf => InImage.mono hcast hf) (hf.mono hcast) hi hj
    have hentry : (Tracker.paddedMatrix f.blobs.length t.objects.length
        (Tracker.realEntry (exactPlatform moments cv)
          (f.measurements (exactPlatform moments cv))
          (t.predicted (exactPlatform moments cv)))).entry i j =
        Tracker.realEntry (exactPlatform moments cv)
          (f.measurements (exactPlatform moments cv))
          (t.predicted (exactPlatform moments cv)) i j := by
      dsimp only [Tracker.paddedMatrix]
      rw [if_pos (by omega), Library.PaddedAssignment.padded, if_pos ⟨hi, hj⟩]
    rw [hentry]
    omega

end Runs

/-! ## A lone square -/

def loneSquare (x y : Nat) : Frame Unit := plainFrame identitySolver [square x y]

theorem loneSquare_measurements (cv : KalmanOps) (x y : Nat) :
    (loneSquare x y).measurements (exactPlatform polygonMoments cv) = [⟨x, y⟩] := by
  apply measurements_of_centroids
  simp [loneSquare, plainFrame, getBlobCentroid_square]

theorem init_loneSquare (cv : KalmanOps) (x y : Nat) :
    Tracker.construct.init (exactPlatform polygonMoments cv) (loneSquare x y) =
      ⟨true, [TrackObj.construct (MKalman.ops cv) () ⟨x, y⟩]⟩ := by
  simp [Tracker.init, Tracker.construct, loneSquare, plainFrame, exactPlatform,
    getBlobCentroid_square]

theorem corrects_loneSquare {cv : KalmanOps} {obj : TrackObj Unit MKalman Point2f} {p : Point2f}
    (x y : Nat) (hp : (obj.predict (MKalman.ops cv)).lastHistory = some p)
    (hnear : (p.x - x) ^ 2 + (p.y - y) ^ 2 ≤ (100 : Nat) ^ 2) :
    (⟨true, [obj]⟩ : Tracker Unit MKalman Point2f).corrects (exactPlatform polygonMoments cv)
      (loneSquare x y) 0 = some 0 := by
  apply Tracker.corrects_single identitySolver_permutes (loneSquare_measurements cv x y) hp
  rw [exceeds_tresh_eq_false_iff]
  have hdistance := mt (@lt_distance_iff p ⟨x, y⟩ 100).mp (not_lt.mpr hnear)
  exact_mod_cast not_lt.mp hdistance

theorem inImage_loneSquare (L : ℝ) (x y : Nat) (hx : (x : ℝ) ≤ L) (hy : (y : ℝ) ≤ L) :
    InImage polygonMoments L (loneSquare x y) where
  permutes := identitySolver_permutes
  centroids blob hblob := by
    rw [List.mem_singleton.mp hblob]
    exact ⟨⟨x, y⟩, getBlobCentroid_square x y, ⟨by positivity, by exact_mod_cast hx⟩,
      by positivity, by exact_mod_cast hy⟩

theorem inImage_noBlobs (L : ℝ) : InImage polygonMoments L (plainFrame identitySolver []) where
  permutes := identitySolver_permutes
  centroids _ hblob := absurd hblob List.not_mem_nil

/-- An object that was corrected once and then missed. -/
def hitThenMissed : TrackObj Unit MKalman Point2f :=
  TrackObj.life (MKalman.ops exactKalman) () ⟨3, 4⟩ [some ⟨5, 4⟩, none]

theorem reachable_hitThenMissed :
    Reachable (exactPlatform polygonMoments exactKalman) (InImage polygonMoments 10)
      ⟨true, [hitThenMissed]⟩ := by
  have hseen : Reachable (exactPlatform polygonMoments exactKalman) (InImage polygonMoments 10)
      (Tracker.construct.init (exactPlatform polygonMoments exactKalman) (loneSquare 3 4)) :=
    Reachable.init _ (inImage_loneSquare 10 3 4 (by norm_num) (by norm_num)) Reachable.construct
  rw [init_loneSquare] at hseen
  have hcorrects := @corrects_loneSquare exactKalman
    (TrackObj.construct (MKalman.ops exactKalman) () ⟨3, 4⟩) ⟨3, 4⟩ 5 4 rfl (by norm_num)
  have hhit := Reachable.track _ (inImage_loneSquare 10 5 4 (by norm_num) (by norm_num)) hseen
    (Tracker.track_single identitySolver_permutes (loneSquare_measurements _ 5 4) hcorrects)
  apply Reachable.track _ (inImage_noBlobs 10) hhit
  rw [Tracker.track_of_no_blobs identitySolver_permutes rfl]
  simp [Tracker.predicted, Tracker.objectIsLost, TrackObj.framesUnseen, hitThenMissed,
    TrackObj.life, TrackObj.frame]

theorem history_bounded_hitThenMissed :
    (∀ obj ∈ [hitThenMissed] ++ [hitThenMissed.predict (MKalman.ops exactKalman)],
      ∀ p ∈ obj.history, |(p.x : ℝ)| ≤ 5 * 10 + 1313 ∧ |(p.y : ℝ)| ≤ 5 * 10 + 1313) ∧
    ∃ dMatrix, Tracker.distanceMatrix (exactPlatform polygonMoments exactKalman)
        ((loneSquare 7 4).measurements (exactPlatform polygonMoments exactKalman))
        [hitThenMissed.predict (MKalman.ops exactKalman)] = some dMatrix ∧
      ∀ i j, i < 1 → j < 1 → -2 ^ 31 ≤ dMatrix.entry i j ∧ dMatrix.entry i j < 2 ^ 31 := by
  have hbounded := history_bounded polygonMoments exactKalman exactKalman_exact 10 (by norm_num) _
    reachable_hitThenMissed
  exact ⟨hbounded.1, hbounded.2 (by norm_num) _
    (inImage_loneSquare 10 7 4 (by norm_num) (by norm_num))⟩

end BlobTracking.Tracking
