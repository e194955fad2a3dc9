import BlobTracking.Library.SteadyTarget
import BlobTracking.Tracking.Bounds

/-! A target with constant velocity. The record of an object holds the measurement
that corrected it in each call of its run. It never has four misses in a row, so
the predictions of its filter close in on a target that moves steadily and is
measured exactly, even though the filter starts without the object's position. -/
namespace BlobTracking.Tracking
open Dlib Library.ConstantVelocity OpenCV

/-- Frame `i` of an object corrects it. -/
def hitAt (frames : List (Option P)) (i : Nat) : Bool :=
  match frames[i]? with
  | some (some _) => true
  | _ => false

/-- Where a target that left `start` with the object's creation is in frame `i`. -/
def steadyAt (start velocity : Point2f) (i : Nat) : Point2f :=
  ⟨start.x + (i + 1) * velocity.x, start.y + (i + 1) * velocity.y⟩

def squaredDistance (p q : Point2f) : ℚ := (p.x - q.x) ^ 2 + (p.y - q.y) ^ 2

/-- The position in `statePost` after the first frame, which does not predict. Without
a correction the seed is lost. -/
def firstEstimate (frames : List (Option Point2f)) (start : Point2f) : Point2f :=
  if hitAt frames 0 then ⟨truncate start.x, truncate start.y⟩ else ⟨0, 0⟩

/-- An object that went through `frames`; the last hit was `nFramesUnseen` frames ago. -/
structure Lived (ops : FilterOps P φ) (obj : TrackObj κ φ P) (colorA : κ) (iniP : P)
    (frames : List (Option P)) : Prop where
  eq_life : obj = TrackObj.life ops colorA iniP frames
  alive : Alive (hitAt frames) frames.length
  unseen_le : obj.nFramesUnseen ≤ frames.length
  last_hit : obj.nFramesUnseen < frames.length →
    hitAt frames (frames.length - 1 - obj.nFramesUnseen) = true

section Lives
variable {ops : FilterOps P φ} {obj : TrackObj κ φ P} {colorA : κ} {iniP : P}
  {frames : List (Option P)}

theorem hitAt_append_of_lt {m : Option P} {i : Nat} (hi : i < frames.length) :
    hitAt (frames ++ [m]) i = hitAt frames i := by
  unfold hitAt
  rw [List.getElem?_append_left hi]

theorem hitAt_append_last (frames : List (Option P)) (m : Option P) :
    hitAt (frames ++ [m]) frames.length = m.isSome := by
  unfold hitAt
  rw [List.getElem?_concat_length]
  cases m <;> rfl

theorem lived_construct (ops : FilterOps P φ) (colorA : κ) (iniP : P) :
    Lived ops (TrackObj.construct ops colorA iniP) colorA iniP [] where
  eq_life := rfl
  alive _ hi := absurd hi (Nat.not_succ_le_zero _)
  unseen_le := le_rfl
  last_hit h := absurd h (Nat.lt_irrefl 0)

theorem Lived.missed (h : Lived ops obj colorA iniP frames) (hunseen : obj.nFramesUnseen < 3) :
    Lived ops (obj.predict ops) colorA iniP (frames ++ [none]) := by
  have hlength : (frames ++ [(none : Option P)]).length = frames.length + 1 := by simp
  constructor
  · rw [TrackObj.life_concat, ← h.eq_life]
    rfl
  · intro i hi
    rw [hlength] at hi
    by_cases hold : i + 4 ≤ frames.length
    · obtain ⟨j, hj, hj', hhit⟩ := h.alive i hold
      exact ⟨j, hj, hj', (hitAt_append_of_lt (by omega)).trans hhit⟩
    · -- the window ends with the miss, and the last hit is not far before it
      have hhit := h.last_hit (by omega)
      exact ⟨_, by omega, by omega, (hitAt_append_of_lt (by omega)).trans hhit⟩
  · have hle := h.unseen_le
    rw [TrackObj.predict_nFramesUnseen, hlength]
    omega
  · intro hlt
    rw [TrackObj.predict_nFramesUnseen, hlength] at hlt ⊢
    have hhit := h.last_hit (by omega)
    rw [show frames.length + 1 - 1 - (obj.nFramesUnseen + 1) =
      frames.length - 1 - obj.nFramesUnseen by omega]
    exact (hitAt_append_of_lt (by omega)).trans hhit

theorem Lived.hit (h : Lived ops obj colorA iniP frames) (z : P) :
    Lived ops ((obj.predict ops).correct ops z) colorA iniP (frames ++ [some z]) := by
  have hlength : (frames ++ [some z]).length = frames.length + 1 := by simp
  have hlast : hitAt (frames ++ [some z]) frames.length = true := hitAt_append_last frames (some z)
  constructor
  · rw [TrackObj.life_concat, ← h.eq_life]
    rfl
  · intro i hi
    rw [hlength] at hi
    by_cases hold : i + 4 ≤ frames.length
    · obtain ⟨j, hj, hj', hhit⟩ := h.alive i hold
      exact ⟨j, hj, hj', (hitAt_append_of_lt (by omega)).trans hhit⟩
    · exact ⟨frames.length, by omega, by omega, hlast⟩
  · exact Nat.zero_le _
  · intro _
    rw [hlength]
    exact hlast

end Lives

/-- In some run that ends in `t`, object `j` was created with `colorA` and `iniP`, and `frames`
are the calls of `track` since, each with the measurement that corrected it there. -/
inductive Recorded (pf : Platform P D φ) (legal : Frame κ → Prop) :
    Tracker κ φ P → Nat → κ → P → List (Option P) → Prop where
  | seen (hlegal : legal f) (ht : Reachable pf legal t) (hz : (f.measurements pf)[i]? = some z) :
      Recorded pf legal (t.init pf f) (t.objects.length + i) (f.randomColor i) z []
  | again (hlegal : legal f) (h : Recorded pf legal t j colorA iniP frames) :
      Recorded pf legal (t.init pf f) j colorA iniP frames
  | hit (hlegal : legal f) (hrun : t.track pf f = some t')
      (h : Recorded pf legal t j.val colorA iniP frames) (hkept : (t.kept pf f)[k]? = some j)
      (hi : t.corrects pf f i = some j.val) (hz : (f.measurements pf)[i]? = some z) :
      Recorded pf legal t' k colorA iniP (frames ++ [some z])
  | missed (hlegal : legal f) (hrun : t.track pf f = some t')
      (h : Recorded pf legal t j.val colorA iniP frames) (hkept : (t.kept pf f)[k]? = some j)
      (hmissed : ∀ i, t.corrects pf f i ≠ some j.val) :
      Recorded pf legal t' k colorA iniP (frames ++ [none])
  | new (hlegal : legal f) (ht : Reachable pf legal t) (hrun : t.track pf f = some t')
      (hnew : (t.newcomers pf f)[k]? = some i) (hz : (f.measurements pf)[i]? = some z) :
      Recorded pf legal t' ((t.kept pf f).length + k) (f.randomColor i) z []

section Records
variable {pf : Platform P D φ} {f : Frame κ} {t t' : Tracker κ φ P}

theorem init_objects_getElem? (t : Tracker κ φ P) {i : Nat} {z : P}
    (hz : (f.measurements pf)[i]? = some z) :
    (t.init pf f).objects[t.objects.length + i]? =
      some (TrackObj.construct pf.toFilterOps (f.randomColor i) z) := by
  rw [Frame.measurements, List.getElem?_map] at hz
  rcases Option.map_eq_some_iff.mp hz with ⟨blob, hblob, rfl⟩
  rw [Tracker.init, List.getElem?_append_right (Nat.le_add_right _ _), Nat.add_sub_cancel_left,
    List.getElem?_mapIdx, hblob, Option.map_some]

theorem track_objects_of_kept (hsolve : f.maxCostAssignment.Permutes)
    (hrun : t.track pf f = some t') {k : Nat} {j : Fin t.objects.length}
    (hkept : (t.kept pf f)[k]? = some j) : t'.objects[k]? = some (t.correctedAt pf f j) := by
  have hk : k < (t.kept pf f).length := (List.getElem?_eq_some_iff.mp hkept).1
  rw [Tracker.track_eq hsolve] at hrun
  cases hrun
  rw [Tracker.survivors_eq, List.getElem?_append_left (by simpa using hk), List.getElem?_map,
    hkept, Option.map_some]

theorem track_objects_of_newcomer (hsolve : f.maxCostAssignment.Permutes)
    (hrun : t.track pf f = some t') {k i : Nat} {z : P}
    (hnew : (t.newcomers pf f)[k]? = some i) (hz : (f.measurements pf)[i]? = some z) :
    t'.objects[(t.kept pf f).length + k]? =
      some (TrackObj.construct pf.toFilterOps (f.randomColor i) z) := by
  have hlength : (t.survivors pf f).length = (t.kept pf f).length := by
    rw [Tracker.survivors_eq, List.length_map]
  rw [Tracker.track_eq hsolve] at hrun
  cases hrun
  rw [← hlength, List.getElem?_append_right (Nat.le_add_right _ _), Nat.add_sub_cancel_left]
  rcases List.getElem?_eq_some_iff.mp hnew with ⟨hk, rfl⟩
  have hk' : k < (t.created pf f).length := by
    rw [Tracker.length_created]
    exact hk
  have hall : List.Forall₂ _ (t.newcomers pf f) (t.created pf f) := Tracker.created_forall₂
  rcases hall.get hk hk' with ⟨z', hz', hcreated⟩
  cases hz.symm.trans hz'
  rw [List.getElem?_eq_getElem hk']
  exact congrArg some hcreated

/-- A record tells the whole state of its object. -/
theorem Recorded.exists_lived {j : Nat} {colorA : κ} {iniP : P} {frames : List (Option P)}
    (h : Recorded pf (fun f => f.maxCostAssignment.Permutes) t j colorA iniP frames) :
    ∃ obj, t.objects[j]? = some obj ∧ Lived pf.toFilterOps obj colorA iniP frames := by
  induction h with
  | seen _ _ hz => exact ⟨_, init_objects_getElem? _ hz, lived_construct _ _ _⟩
  | again _ _ ih =>
    rcases ih with ⟨obj, hobj, hlived⟩
    exact ⟨obj, (List.getElem?_append_left (List.getElem?_eq_some_iff.mp hobj).1).trans hobj,
      hlived⟩
  | hit hsolve hrun _ hkept hi hz ih =>
    rcases ih with ⟨obj, hobj, hlived⟩
    rcases List.getElem?_eq_some_iff.mp hobj with ⟨_, rfl⟩
    refine ⟨_, track_objects_of_kept hsolve hrun hkept, ?_⟩
    rw [Tracker.correctedAt_of_corrects hsolve hi hz]
    exact hlived.hit _
  | missed hsolve hrun _ hkept hmissed ih =>
    rcases ih with ⟨obj, hobj, hlived⟩
    rcases List.getElem?_eq_some_iff.mp hobj with ⟨_, rfl⟩
    refine ⟨_, track_objects_of_kept hsolve hrun hkept, ?_⟩
    rw [Tracker.correctedAt_of_not_corrects hmissed]
    -- an object that was kept without a correction has not been missed too often
    have hunseen := (Tracker.mem_kept_iff hsolve _).mp (List.mem_of_getElem? hkept)
    exact hlived.missed (hunseen.resolve_left (not_exists.mpr hmissed))
  | new hsolve _ hrun hnew hz =>
    exact ⟨_, track_objects_of_newcomer hsolve hrun hnew hz, lived_construct _ _ _⟩

theorem Recorded.reachable {legal : Frame κ → Prop} {j : Nat} {colorA : κ} {iniP : P}
    {frames : List (Option P)} (h : Recorded pf legal t j colorA iniP frames) :
    Reachable pf legal t := by
  induction h with
  | seen hf ht _ => exact ht.init _ hf
  | again hf _ ih => exact ih.init _ hf
  | hit hf hrun _ _ _ _ ih => exact ih.track _ hf hrun
  | missed hf hrun _ _ _ ih => exact ih.track _ hf hrun
  | new hf ht hrun _ _ => exact ht.track _ hf hrun

theorem Reachable.exists_recorded {legal : Frame κ → Prop}
    (hlegal : ∀ f, legal f → f.maxCostAssignment.Permutes) (ht : Reachable pf legal t) :
    ∀ j, j < t.objects.length → ∃ colorA iniP frames,
      Recorded pf legal t j colorA iniP frames := by
  induction ht with
  | construct => exact fun j hj => absurd hj (Nat.not_lt_zero j)
  | @init t f hf ht ih =>
    intro j hj
    by_cases hold : j < t.objects.length
    · rcases ih j hold with ⟨colorA, iniP, frames, h⟩
      exact ⟨_, _, _, h.again hf⟩
    · rcases Nat.exists_eq_add_of_le (Nat.le_of_not_lt hold) with ⟨i, rfl⟩
      have hi : i < (f.measurements pf).length := by
        rw [Tracker.init, List.length_append, List.length_mapIdx] at hj
        rw [Frame.length_measurements]
        omega
      exact ⟨_, _, _, Recorded.seen hf ht (List.getElem?_eq_getElem hi)⟩
  | @track t t' f hf ht hrun ih =>
    intro k hk
    by_cases hold : k < (t.kept pf f).length
    · have hkept := List.getElem?_eq_getElem hold
      rcases ih _ (t.kept pf f)[k].isLt with ⟨colorA, iniP, frames, h⟩
      by_cases hhit : ∃ i, t.corrects pf f i = some (t.kept pf f)[k].val
      · rcases hhit with ⟨i, hi⟩
        rcases Tracker.corrects_gate hi with ⟨z, _, hz, _⟩
        exact ⟨_, _, _, Recorded.hit hf hrun h hkept hi hz⟩
      · exact ⟨_, _, _, Recorded.missed hf hrun h hkept (not_exists.mp hhit)⟩
    · rcases Nat.exists_eq_add_of_le (Nat.le_of_not_lt hold) with ⟨i, rfl⟩
      have hi : i < (t.newcomers pf f).length := by
        rw [Tracker.track_eq (hlegal f hf)] at hrun
        cases hrun
        rw [List.length_append, Tracker.survivors_eq, List.length_map, Tracker.length_created] at hk
        omega
      have hmem : (t.newcomers pf f)[i] < (f.measurements pf).length := by
        have := (List.mem_filter.mp (List.getElem_mem hi)).1
        simpa using this
      exact ⟨_, _, _, Recorded.new hf ht hrun (List.getElem?_eq_getElem hi)
        (List.getElem?_eq_getElem hmem)⟩

end Records

/-- One coordinate after the first frame. -/
def firstAxis (hit : Bool) (k : Int) (z : ℚ) : Axis ℚ :=
  if hit then (seeded k).correct noise z else seeded k

theorem firstAxis_post (hit : Bool) (k : Int) (z : ℚ) :
    (firstAxis hit k z).post = ⟨if hit then k else 0, 0⟩ := by
  cases hit with
  | false => rfl
  | true => exact seeded_correct_post k z

theorem settled_firstAxis (hit : Bool) (k : Int) (z : ℚ) :
    Settled noise (firstAxis hit k z).postCov := by
  cases hit with
  | false =>
    constructor
    · change (1 / 10 : ℚ) ≤ 1 / 10
      exact le_rfl
    · change (1 / 10 : ℚ) ≤ 2 * (1 / 10) + 3 * (1 / 10000)
      norm_num
  | true =>
    -- the covariance before the correction is zero, and stays so
    apply Settled.mk
    · simp [firstAxis, seeded, Axis.correct, Cov.correct, Cov.zero, noise]
    · simp [firstAxis, seeded, Axis.correct, Cov.correct, Cov.zero, noise]
      norm_num

theorem hitAt_eq {frames : List (Option P)} {i : Nat} {m : Option P} (h : frames[i]? = some m) :
    hitAt frames i = m.isSome := by
  unfold hitAt
  rw [h]
  cases m <;> rfl

section Steady
variable {cv : KalmanOps} (hcv : cv.Exact) {colorA : κ} {start velocity : Point2f}
  {frames : List (Option Point2f)}

/-- One coordinate after frame `i`, for a target measured exactly. -/
def steadyAxis (frames : List (Option Point2f)) (start velocity : ℚ) (i : Nat) : Axis ℚ :=
  Axis.track noise ⟨start + velocity, velocity⟩ (fun j => hitAt frames (j + 1))
    (firstAxis (hitAt frames 0) (truncate start) (start + velocity)) i

/-- The error of the prediction in frame `i + 1`. -/
def steadyError (frames : List (Option Point2f)) (start velocity : ℚ) (i : Nat) : Motion ℚ :=
  predictionError noise ⟨start + velocity, velocity⟩ (fun j => hitAt frames (j + 1))
    (firstAxis (hitAt frames 0) (truncate start) (start + velocity)) i

theorem sum_steadyError_le {N : Nat} (halive : Alive (hitAt frames) (N + 1)) (start velocity : ℚ) :
    (∑ i ∈ Finset.range N, if hitAt frames (i + 1) then
        (steadyError frames start velocity i).pos ^ 2 else 0) ≤
      50090 * ((start + 2 * velocity - if hitAt frames 0 then (truncate start : ℚ) else 0) ^ 2 +
        velocity ^ 2) := by
  have hsum := sum_residual_sq_le ⟨start + velocity, velocity⟩
    (settled_firstAxis (hitAt frames 0) (truncate start) (start + velocity)) halive.tail
  apply hsum.trans_eq
  simp only [firstEnergy, predictionError, Motion.minus, Motion.steady, Axis.track, Axis.predict,
    Motion.advance, firstAxis_post, noise]
  push_cast
  ring

include hcv

theorem frame_filter_plane {obj : TrackObj κ MKalman Point2f} {x y : Axis ℚ} {m : Option Point2f}
    {p : Point2f} (h : (obj.predict (MKalman.ops cv)).filter = plane x y)
    (hm : ∀ z, m = some z → z = p) :
    (obj.frame (MKalman.ops cv) m).filter =
      plane (if m.isSome then x.correct noise p.x else x)
        (if m.isSome then y.correct noise p.y else y) := by
  cases m with
  | none => exact h
  | some z =>
    rw [← hm z rfl]
    exact correct_filter_plane hcv h z

theorem life_filter_plane (colorA : κ)
    (hsteady : ∀ i z, frames[i]? = some (some z) → z = steadyAt start velocity i) {i : Nat}
    (hi : i < frames.length) :
    (TrackObj.life (MKalman.ops cv) colorA start (frames.take (i + 1))).filter =
      plane (steadyAxis frames start.x velocity.x i) (steadyAxis frames start.y velocity.y i) := by
  have hget : ∀ j (hj : j < frames.length), frames[j]? = some frames[j] :=
    fun j hj => List.getElem?_eq_getElem hj
  induction i with
  | zero =>
    have hfirst : (TrackObj.construct (MKalman.ops cv) colorA start).filter =
        plane (seeded (truncate start.x)) (seeded (truncate start.y)) :=
      MKalman.construct_eq hcv _ _
    have hpredict := (predict_filter_plane hcv hfirst).trans (if_pos rfl)
    have htake : frames.take (0 + 1) = [] ++ [frames[0]] := by
      rw [List.take_add_one, List.take_zero, hget 0 hi]
      rfl
    rw [htake, TrackObj.life_concat]
    have hframe := frame_filter_plane hcv (p := ⟨start.x + velocity.x, start.y + velocity.y⟩)
      (m := frames[0]) hpredict (fun z hz => by
        rw [hsteady 0 z (by rw [hget 0 hi, hz])]
        simp [steadyAt])
    rw [← hitAt_eq (hget 0 hi)] at hframe
    exact hframe
  | succ i ih =>
    have hpredict := predict_filter_plane hcv (ih (Nat.lt_of_succ_lt hi))
    rw [TrackObj.length_history_life, List.length_take_of_le hi.le, if_neg (by omega)] at hpredict
    have htake : frames.take (i + 1 + 1) = frames.take (i + 1) ++ [frames[i + 1]] := by
      rw [List.take_add_one, hget (i + 1) hi]
      rfl
    rw [htake, TrackObj.life_concat]
    have hframe := frame_filter_plane hcv (p := steadyAt start velocity (i + 1))
      (m := frames[i + 1]) hpredict
      (fun z hz => hsteady (i + 1) z (by rw [hget (i + 1) hi, hz]))
    rw [← hitAt_eq (hget (i + 1) hi)] at hframe
    have hsame : ∀ s v : ℚ, s + ((i + 1 : Nat) + 1) * v = s + v + (i + 1 : Nat) * v := by
      intro s v
      ring
    rw [hframe]
    simp only [steadyAxis, Axis.track, Motion.steady, steadyAt, hsame]

theorem squaredDistance_positionPre
    (hsteady : ∀ i z, frames[i]? = some (some z) → z = steadyAt start velocity i) {i : Nat}
    (hi : i < frames.length) :
    squaredDistance (steadyAt start velocity (i + 1))
        (beforeCorrect cv colorA start frames (i + 1)).filter.positionPre =
      (steadyError frames start.x velocity.x i).pos ^ 2 +
        (steadyError frames start.y velocity.y i).pos ^ 2 := by
  have hpredict := predict_filter_plane hcv (life_filter_plane hcv colorA hsteady hi)
  rw [TrackObj.length_history_life, List.length_take_of_le hi, if_neg (by omega)] at hpredict
  have hpre : (beforeCorrect cv colorA start frames (i + 1)).filter.positionPre =
      ⟨((steadyAxis frames start.x velocity.x i).predict noise).pre.pos,
        ((steadyAxis frames start.y velocity.y i).predict noise).pre.pos⟩ := by
    unfold beforeCorrect
    rw [hpredict]
    rfl
  rw [hpre]
  simp only [squaredDistance, steadyAt, steadyError, predictionError, Motion.minus, Motion.steady,
    steadyAxis]
  push_cast
  ring

theorem sum_squaredDistance_le (halive : Alive (hitAt frames) frames.length)
    (hsteady : ∀ i z, frames[i]? = some (some z) → z = steadyAt start velocity i) :
    ∑ i ∈ Finset.range frames.length with 0 < i ∧ hitAt frames i = true,
        squaredDistance (steadyAt start velocity i)
          (beforeCorrect cv colorA start frames i).filter.positionPre ≤
      50090 * (squaredDistance (steadyAt start velocity 1) (firstEstimate frames start) +
        squaredDistance velocity ⟨0, 0⟩) := by
  have hbound : 50090 * (squaredDistance (steadyAt start velocity 1) (firstEstimate frames start) +
      squaredDistance velocity ⟨0, 0⟩) =
      50090 * ((start.x + 2 * velocity.x -
          if hitAt frames 0 then (truncate start.x : ℚ) else 0) ^ 2 + velocity.x ^ 2) +
        50090 * ((start.y + 2 * velocity.y -
          if hitAt frames 0 then (truncate start.y : ℚ) else 0) ^ 2 + velocity.y ^ 2) := by
    unfold firstEstimate squaredDistance steadyAt
    split <;> push_cast <;> ring
  rw [hbound, Finset.sum_filter]
  generalize hN : frames.length = N at halive ⊢
  cases N with
  | zero =>
    rw [Finset.sum_range_zero]
    positivity
  | succ N =>
    -- the first frame does not count
    rw [Finset.sum_range_succ', if_neg (by simp), add_zero]
    apply le_trans _ (add_le_add (sum_steadyError_le halive start.x velocity.x)
      (sum_steadyError_le halive start.y velocity.y))
    rw [← Finset.sum_add_distrib]
    apply Finset.sum_le_sum
    intro i hi
    have hi' : i < frames.length := by
      have := Finset.mem_range.mp hi
      omega
    rw [squaredDistance_positionPre hcv hsteady hi']
    cases hitAt frames (i + 1) <;> simp

end Steady

/-- Every object has a record, and whatever run it is of: a target that the record measures
exactly is never far from the predictions for long, as their squared errors add up to a bound
that does not depend on the number of frames. -/
theorem steady_target (moments : List Point → Moments) (cv : KalmanOps) (hcv : cv.Exact)
    (t : Tracker κ MKalman Point2f)
    (ht : Reachable (exactPlatform moments cv)
      (fun f : Frame κ => f.maxCostAssignment.Permutes) t) :
    (∀ j, j < t.objects.length → ∃ colorA start frames,
      Recorded (exactPlatform moments cv) (fun f => f.maxCostAssignment.Permutes) t j colorA start
        frames) ∧
    ∀ j colorA start frames,
      Recorded (exactPlatform moments cv) (fun f => f.maxCostAssignment.Permutes) t j colorA start
        frames →
      t.objects[j]? = some (TrackObj.life (MKalman.ops cv) colorA start frames) ∧
      Alive (hitAt frames) frames.length ∧
      ∀ velocity, (∀ i z, frames[i]? = some (some z) → z = steadyAt start velocity i) →
        ∑ i ∈ Finset.range frames.length with 0 < i ∧ hitAt frames i = true,
            squaredDistance (steadyAt start velocity i)
              (beforeCorrect cv colorA start frames i).filter.positionPre ≤
          50090 * (squaredDistance (steadyAt start velocity 1) (firstEstimate frames start) +
            squaredDistance velocity ⟨0, 0⟩) := by
  refine ⟨ht.exists_recorded fun _ hsolve => hsolve, ?_⟩
  intro j colorA start frames hrecorded
  rcases hrecorded.exists_lived with ⟨obj, hobj, hlived⟩
  refine ⟨hlived.eq_life ▸ hobj, hlived.alive, ?_⟩
  intro velocity hsteady
  exact sum_squaredDistance_le hcv hlived.alive hsteady

/-- The first correction has gain zero, so the second prediction is the seed. -/
theorem lastHistory_predict_life {cv : KalmanOps} (hcv : cv.Exact) (colorA : κ)
    (start z : Point2f) :
    ((TrackObj.life (MKalman.ops cv) colorA start [some z]).predict (MKalman.ops cv)).lastHistory =
      some ⟨truncate start.x, truncate start.y⟩ := by
  have hseed : (TrackObj.construct (MKalman.ops cv) colorA start).filter =
      plane (seeded (truncate start.x)) (seeded (truncate start.y)) := MKalman.construct_eq hcv _ _
  have hfilter : (TrackObj.life (MKalman.ops cv) colorA start [some z]).filter =
      plane ((seeded (truncate start.x)).correct noise z.x)
        ((seeded (truncate start.y)).correct noise z.y) :=
    correct_filter_plane hcv ((predict_filter_plane hcv hseed).trans (if_pos rfl)) z
  have hpredict := MKalman.predict_plane ((seeded (truncate start.x)).correct noise z.x)
    ((seeded (truncate start.y)).correct noise z.y) hcv
  rw [seeded_correct_post, seeded_correct_post, ← hfilter] at hpredict
  rw [TrackObj.predict_of_length_ne _ _ (by simp [TrackObj.length_history_life])]
  apply (TrackObj.lastHistory_of_append _ rfl).trans
  change some (Point.toPoint2f (MKalman.predict cv _).1) = _
  rw [hpredict]
  simp [Motion.advance, Point.toPoint2f]

/-- A square that moves by two pixels a frame and is measured twice. -/
def measuredTwice : List (Option Point2f) := [some ⟨5, 4⟩, some ⟨7, 4⟩]

theorem Recorded.hit_loneSquare {cv : KalmanOps} {start : Point2f} {frames : List (Option Point2f)}
    (p : Point2f) (x y : Nat)
    (h : Recorded (exactPlatform polygonMoments cv) (fun f => f.maxCostAssignment.Permutes)
      ⟨true, [TrackObj.life (MKalman.ops cv) () start frames]⟩ 0 () start frames)
    (hp : ((TrackObj.life (MKalman.ops cv) () start frames).predict
      (MKalman.ops cv)).lastHistory = some p)
    (hnear : (p.x - x) ^ 2 + (p.y - y) ^ 2 ≤ (100 : Nat) ^ 2) :
    Recorded (exactPlatform polygonMoments cv) (fun f => f.maxCostAssignment.Permutes)
      ⟨true, [TrackObj.life (MKalman.ops cv) () start (frames ++ [some ⟨x, y⟩])]⟩ 0 () start
        (frames ++ [some ⟨x, y⟩]) := by
  have hcorrects := corrects_loneSquare x y hp hnear
  have hrun := Tracker.track_single identitySolver_permutes (loneSquare_measurements cv x y)
    hcorrects
  have hkept := congrArg (fun kept => kept[0]?)
    (Tracker.kept_single identitySolver_permutes hcorrects)
  rw [TrackObj.life_concat]
  apply Recorded.hit identitySolver_permutes hrun _ hkept hcorrects
  · rw [loneSquare_measurements]
    rfl
  · exact h

theorem recorded_measuredTwice :
    Recorded (exactPlatform polygonMoments exactKalman) (fun f => f.maxCostAssignment.Permutes)
      ⟨true, [TrackObj.life (MKalman.ops exactKalman) () ⟨3, 4⟩ measuredTwice]⟩ 0 () ⟨3, 4⟩
        measuredTwice := by
  have hseen : Recorded (exactPlatform polygonMoments exactKalman)
      (fun f => f.maxCostAssignment.Permutes)
      (Tracker.construct.init (exactPlatform polygonMoments exactKalman) (loneSquare 3 4)) 0 ()
        ⟨3, 4⟩ [] := by
    apply Recorded.seen (i := 0) identitySolver_permutes Reachable.construct
    rw [loneSquare_measurements]
    rfl
  rw [init_loneSquare] at hseen
  have hfirst := @Recorded.hit_loneSquare exactKalman ⟨3, 4⟩ [] ⟨3, 4⟩ 5 4 hseen rfl (by norm_num)
  have hpredict := lastHistory_predict_life exactKalman_exact () ⟨3, 4⟩ ⟨5, 4⟩
  exact Recorded.hit_loneSquare _ 7 4 hfirst hpredict (by norm_num [truncate])

theorem steady_target_measuredTwice :
    Alive (hitAt measuredTwice) 2 ∧
      ∑ i ∈ Finset.range 2 with 0 < i ∧ hitAt measuredTwice i = true,
          squaredDistance (steadyAt ⟨3, 4⟩ ⟨2, 0⟩ i)
            (beforeCorrect exactKalman () ⟨3, 4⟩ measuredTwice i).filter.positionPre ≤
        50090 * (squaredDistance (steadyAt ⟨3, 4⟩ ⟨2, 0⟩ 1) (firstEstimate measuredTwice ⟨3, 4⟩) +
          squaredDistance ⟨2, 0⟩ ⟨0, 0⟩) := by
  have hsteady := (steady_target polygonMoments exactKalman exactKalman_exact _
    recorded_measuredTwice.reachable).2 _ _ _ _ recorded_measuredTwice
  refine ⟨hsteady.2.1, hsteady.2.2 ⟨2, 0⟩ ?_⟩
  intro i z hz
  rcases i with _ | _ | i
  · cases hz
    norm_num [steadyAt]
  · cases hz
    norm_num [steadyAt]
  · cases hz

end BlobTracking.Tracking
