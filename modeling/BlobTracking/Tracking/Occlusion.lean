import BlobTracking.Tracking.Bounds
import BlobTracking.Tracking.Gate
import BlobTracking.Tracking.Lifetime

/-! Stationary blobs that are hidden for a few frames at a time. An object at rest is
predicted where it stands, so the assignment keeps every visible blob on its own
object and the counters alone decide what is dropped. This needs the filter to have
received its seed, which a blob hidden in the first frame prevents, and it needs the
index bias of the padding to be worth less than any detour over other blobs. -/
namespace BlobTracking.Tracking
open Dlib Library OpenCV Library.ConstantVelocity Library.PaddedAssignment

/-- `obj` has only ever been at `p`, and its filter will keep predicting `p`. -/
structure AtRest (cv : KalmanOps) (p : Point) (obj : TrackObj κ MKalman Point2f) : Prop where
  history_eq : ∀ q ∈ obj.history, q = p.toPoint2f
  filter_eq : (obj.history = [p.toPoint2f] ∧
      obj.filter = (MKalman.ops cv).construct p.toPoint2f) ∨
    1 < obj.history.length ∧ ∃ x y : Axis ℚ, obj.filter = plane x y ∧
      x.post = ⟨p.x, 0⟩ ∧ y.post = ⟨p.y, 0⟩

section Object
variable {cv : KalmanOps} {p : Point} {obj : TrackObj κ MKalman Point2f}

theorem atRest_construct (c : κ) :
    AtRest cv p (TrackObj.construct (MKalman.ops cv) c p.toPoint2f) where
  history_eq _ hq := List.mem_singleton.mp hq
  filter_eq := Or.inl ⟨rfl, rfl⟩

theorem seed_plane (hcv : cv.Exact) (p : Point) :
    (MKalman.ops cv).construct p.toPoint2f = plane (seeded p.x) (seeded p.y) := by
  change MKalman.construct cv (truncate p.toPoint2f.x) (truncate p.toPoint2f.y) = _
  rw [Point.toPoint2f_x, Point.toPoint2f_y, truncate_intCast, truncate_intCast,
    MKalman.construct_eq hcv]

theorem AtRest.exists_predicted (hcv : cv.Exact) (h : AtRest cv p obj) :
    ∃ x y : Axis ℚ, (obj.predict (MKalman.ops cv)).history = obj.history ++ [p.toPoint2f] ∧
      obj.history ≠ [] ∧ (obj.predict (MKalman.ops cv)).filter = plane x y ∧
      (1 < obj.history.length ∨ p = ⟨0, 0⟩ → x.post = ⟨p.x, 0⟩ ∧ y.post = ⟨p.y, 0⟩) ∧
      (x.correct noise p.x).post = ⟨p.x, 0⟩ ∧ (y.correct noise p.y).post = ⟨p.y, 0⟩ := by
  rcases h.filter_eq with ⟨hhistory, hfilter⟩ | ⟨hlater, x, y, hplane, hx, hy⟩
  · rw [TrackObj.predict_of_single _ _ _ hhistory]
    refine ⟨seeded p.x, seeded p.y, by rw [hhistory]; rfl, by simp [hhistory],
      hfilter.trans (seed_plane hcv p), ?_, seeded_correct_post _ _, seeded_correct_post _ _⟩
    rintro (hlater | rfl)
    · rw [hhistory] at hlater
      exact absurd hlater (lt_irrefl 1)
    · exact ⟨by simp [seeded], by simp [seeded]⟩
  · have hadvance : ∀ k : Int, (⟨(k : ℚ), 0⟩ : Motion ℚ).advance = ⟨k, 0⟩ := by
      intro k
      simp [Motion.advance]
    have hstay : ∀ (a : Axis ℚ) (k : Int), a.pre = ⟨k, 0⟩ → (a.correct noise k).post = ⟨k, 0⟩ := by
      intro a k ha
      simp [Axis.correct, Motion.correct, ha]
    have hpredict := MKalman.predict_plane x y hcv
    rw [hx, hy, hadvance, hadvance] at hpredict
    have hpre : (x.predict noise).pre = ⟨p.x, 0⟩ ∧ (y.predict noise).pre = ⟨p.y, 0⟩ := by
      refine ⟨?_, ?_⟩
      · rw [← hadvance, ← hx]
        rfl
      · rw [← hadvance, ← hy]
        rfl
    rw [TrackObj.predict_of_length_ne _ _ (Nat.ne_of_gt hlater)]
    refine ⟨x.predict noise, y.predict noise, ?_, List.length_pos_iff.mp (by omega), ?_,
      fun _ => hpre, hstay _ _ hpre.1, hstay _ _ hpre.2⟩
    · change obj.history ++ [(obj.filter.predict cv).1.toPoint2f] = _
      rw [hplane, hpredict]
      simp [Point.toPoint2f]
    · change (obj.filter.predict cv).2 = _
      rw [hplane, hpredict]

theorem AtRest.predict_lastHistory (hcv : cv.Exact) (h : AtRest cv p obj) :
    (obj.predict (MKalman.ops cv)).lastHistory = some p.toPoint2f := by
  rcases h.exists_predicted hcv with ⟨_, _, hhistory, _⟩
  exact TrackObj.lastHistory_of_append _ hhistory

theorem AtRest.predict_history (hcv : cv.Exact) (h : AtRest cv p obj) :
    ∀ q ∈ (obj.predict (MKalman.ops cv)).history, q = p.toPoint2f := by
  rcases h.exists_predicted hcv with ⟨_, _, hhistory, _⟩
  intro q hq
  rw [hhistory] at hq
  rcases List.mem_append.mp hq with hold | hnew
  · exact h.history_eq q hold
  · exact List.mem_singleton.mp hnew

theorem AtRest.one_lt_length_predict (hcv : cv.Exact) (h : AtRest cv p obj) :
    1 < (obj.predict (MKalman.ops cv)).history.length := by
  rcases h.exists_predicted hcv with ⟨_, _, hhistory, hne, _⟩
  have := List.length_pos_iff.mpr hne
  rw [hhistory, List.length_append, List.length_singleton]
  omega

/-- A missed frame leaves an object at rest, unless the filter still lacks its seed. -/
theorem AtRest.predict (hcv : cv.Exact) (h : AtRest cv p obj)
    (hseed : 1 < obj.history.length ∨ p = ⟨0, 0⟩) : AtRest cv p (obj.predict (MKalman.ops cv)) := by
  rcases h.exists_predicted hcv with ⟨x, y, _, _, hfilter, hpost, _⟩
  exact ⟨h.predict_history hcv, Or.inr ⟨h.one_lt_length_predict hcv, x, y, hfilter, hpost hseed⟩⟩

theorem AtRest.correct (hcv : cv.Exact) (h : AtRest cv p obj) :
    AtRest cv p ((obj.predict (MKalman.ops cv)).correct (MKalman.ops cv) p.toPoint2f) := by
  rcases h.exists_predicted hcv with ⟨x, y, _, _, hfilter, _, hpost⟩
  exact ⟨h.predict_history hcv, Or.inr ⟨h.one_lt_length_predict hcv, _, _,
    correct_filter_plane hcv hfilter p.toPoint2f, hpost⟩⟩

end Object

noncomputable def spotCost (spots : List Point) (a b : Fin spots.length) : Int :=
  quantised (spots.get a).toPoint2f (spots.get b).toPoint2f

/-- Every two blobs are more than 200 pixels apart. -/
def Apart (spots : List Point) : Prop :=
  ∀ a b : Fin spots.length, a ≠ b → 200 < distance (spots.get a).toPoint2f (spots.get b).toPoint2f

theorem Apart.spotCost_ge {spots : List Point} (h : Apart spots) {a b : Fin spots.length}
    (hab : a ≠ b) : 20000 ≤ spotCost spots a b := by
  rw [spotCost, quantised, Int.le_floor]
  push_cast
  linarith [h a b hab]

/-- The blobs visible in a frame, by index and in the order they are measured. -/
structure Shows (moments : List Point → Moments) (spots : List Point)
    (seen : List (Fin spots.length)) (f : Frame κ) : Prop where
  nodup : seen.Nodup
  centroids : f.blobs.map (getBlobCentroid moments) =
    seen.map fun i => some (spots.get i).toPoint2f

/-- One object for every blob, in order, all of them at rest. -/
structure AllAtRest (cv : KalmanOps) (spots : List Point) (t : Tracker κ MKalman Point2f) :
    Prop where
  length_eq : t.objects.length = spots.length
  atRest : ∀ (i : Fin spots.length) obj, t.objects[i.val]? = some obj → AtRest cv (spots.get i) obj

section Step
variable {moments : List Point → Moments} {cv : KalmanOps} {spots : List Point}
  {seen : List (Fin spots.length)} {f : Frame κ} {t : Tracker κ MKalman Point2f}

theorem Shows.measurements_eq (h : Shows moments spots seen f) :
    f.measurements (exactPlatform moments cv) = seen.map fun i => (spots.get i).toPoint2f :=
  measurements_of_centroids (by rw [h.centroids, List.map_map]; rfl)

theorem Shows.length_blobs (h : Shows moments spots seen f) : f.blobs.length = seen.length := by
  simpa using congrArg List.length h.centroids

theorem AllAtRest.lastPosition_predicted (hcv : cv.Exact) (h : AllAtRest cv spots t)
    (i : Fin spots.length) :
    lastPosition (t.predicted (exactPlatform moments cv)) i.val =
      some (spots.get i).toPoint2f := by
  have hi : i.val < t.objects.length := h.length_eq.symm ▸ i.isLt
  have hrest := h.atRest i _ (List.getElem?_eq_getElem hi)
  exact (Tracker.lastPosition_predicted ⟨i.val, hi⟩).trans (hrest.predict_lastHistory hcv)

theorem AllAtRest.assignments_eq (hcv : cv.Exact) (hapart : Apart spots)
    (h : AllAtRest cv spots t) (hshows : Shows moments spots seen f)
    (hsolve : f.maxCostAssignment.Maximises)
    (hshort : NoShortDetour (fun i => i ∈ seen) (spotCost spots)) {r : Nat} {i : Fin spots.length}
    (hr : seen[r]? = some i) :
    (t.assignments (exactPlatform moments cv) f)[r]? = some (i.val : Int) := by
  let q := quantisedCost (f.measurements (exactPlatform moments cv))
    (t.predicted (exactPlatform moments cv))
  have hoptimal : IsOptimal (Tracker.paddedMatrix seen.length spots.length fun i j => -q i j)
      (t.assignments (exactPlatform moments cv) f) := by
    rw [Tracker.assignments_eq, hshows.length_blobs, h.length_eq, realEntry_eq_neg_quantisedCost]
    exact hsolve _ rfl
  have hassign : IsAssignment (max seen.length spots.length)
      (t.assignments (exactPlatform moments cv) f) := hoptimal.isAssignment
  have hlength : seen.length ≤ spots.length := by
    simpa using hshows.nodup.length_le_card
  have hv : Function.Injective seen.get := List.nodup_iff_injective_get.mp hshows.nodup
  have hq : ∀ (a : Fin seen.length) (b : Fin spots.length),
      q a.val b.val = spotCost spots (seen.get a) b := by
    intro a b
    apply quantisedCost_eq _ (h.lastPosition_predicted hcv b)
    rw [hshows.measurements_eq]
    simp
  have hrange : (fun i => i ∈ Set.range seen.get) = fun i => i ∈ seen := by
    funext i
    rw [List.mem_iff_get]
    rfl
  have hminimal : ∀ R : Pairing seen.length spots.length,
      (realPairing hassign.toPerm).total (biased seen.length spots.length q) ≤
        R.total (biased seen.length spots.length q) := by
    apply (isOptimal_ofPerm_iff q hassign.toPerm).mp
    rw [hassign.ofPerm_toPerm]
    exact hoptimal
  have hcolumns := realColumn_eq_of_minimal hlength hv hq (fun a => quantised_self _)
    (fun a b hab => lt_of_lt_of_le (by norm_num) (hapart.spotCost_ge hab)) (hrange ▸ hshort)
    hminimal
  rcases List.getElem?_eq_some_iff.mp hr with ⟨hlt, hget⟩
  have hcolumn := congrArg Fin.val (congrFun hcolumns ⟨r, hlt⟩)
  have hentry := hassign.getElem?_eq (toRow ⟨r, hlt⟩)
  change _ = some (((realColumn hlength hassign.toPerm ⟨r, hlt⟩).val : Nat) : Int) at hentry
  rw [hcolumn] at hentry
  rw [← hget]
  exact hentry

theorem AllAtRest.corrects_iff (hcv : cv.Exact) (hapart : Apart spots)
    (h : AllAtRest cv spots t) (hshows : Shows moments spots seen f)
    (hsolve : f.maxCostAssignment.Maximises)
    (hshort : NoShortDetour (fun i => i ∈ seen) (spotCost spots)) (r : Nat) (i : Fin spots.length) :
    t.corrects (exactPlatform moments cv) f r = some i.val ↔ seen[r]? = some i := by
  refine ⟨?_, ?_⟩
  · intro hcorrects
    have hr := (Tracker.corrects_lt hcorrects).1
    rw [hshows.length_blobs] at hr
    have hseen : seen[r]? = some seen[r] := List.getElem?_eq_getElem hr
    have hassigned := (Tracker.hit_eq_some_iff.mp hcorrects).1
    rw [h.assignments_eq hcv hapart hshows hsolve hshort hseen] at hassigned
    rw [hseen, Option.some.injEq, Fin.ext_iff]
    exact_mod_cast Option.some.inj hassigned
  · intro hr
    apply Tracker.hit_eq_some_iff.mpr
    refine ⟨h.assignments_eq hcv hapart hshows hsolve hshort hr, (spots.get i).toPoint2f,
      (spots.get i).toPoint2f, ?_, h.lastPosition_predicted hcv i, ?_⟩
    · rw [hshows.measurements_eq, List.getElem?_map, hr]
      rfl
    · rw [exceeds_tresh_eq_false_iff, distance_self]
      norm_num

/-- A frame without new objects and without losses. -/
theorem AllAtRest.track_objects (hcv : cv.Exact) (hapart : Apart spots)
    (h : AllAtRest cv spots t) (hshows : Shows moments spots seen f)
    (hsolve : f.maxCostAssignment.Maximises)
    (hshort : NoShortDetour (fun i => i ∈ seen) (spotCost spots))
    (hunseen : ∀ (i : Fin spots.length) obj, t.objects[i.val]? = some obj → i ∉ seen →
      obj.nFramesUnseen < 3) :
    t.track (exactPlatform moments cv) f =
      some { t with
        objects := (List.finRange t.objects.length).map
          (t.correctedAt (exactPlatform moments cv) f) } := by
  have hcorrects := h.corrects_iff hcv hapart hshows hsolve hshort
  have hkept : t.kept (exactPlatform moments cv) f = List.finRange t.objects.length := by
    have hall : ∀ j, j ∈ t.kept (exactPlatform moments cv) f := by
      intro j
      let i : Fin spots.length := ⟨j.val, h.length_eq ▸ j.isLt⟩
      rw [Tracker.mem_kept_iff hsolve.permutes]
      by_cases hi : i ∈ seen
      · rcases List.getElem?_of_mem hi with ⟨r, hr⟩
        exact Or.inl ⟨r, (hcorrects r i).mpr hr⟩
      · exact Or.inr (hunseen i _ (List.getElem?_eq_getElem j.isLt) hi)
    unfold Tracker.kept at hall ⊢
    rw [List.filter_eq_self]
    intro j _
    exact (List.mem_filter.mp (hall j)).2
  have hnewcomers : t.newcomers (exactPlatform moments cv) f = [] := by
    unfold Tracker.newcomers
    rw [List.filter_eq_nil_iff]
    intro r hr
    rw [List.mem_range, hshows.length_blobs] at hr
    rw [(hcorrects r seen[r]).mpr (List.getElem?_eq_getElem hr)]
    simp
  have hcreated : t.created (exactPlatform moments cv) f = [] := by
    rw [← List.length_eq_zero_iff, Tracker.length_created, hnewcomers]
    rfl
  rw [Tracker.track_eq hsolve.permutes, hcreated, List.append_nil, Tracker.survivors_eq, hkept]

theorem AllAtRest.correctedAt_eq (hcv : cv.Exact) (hapart : Apart spots)
    (h : AllAtRest cv spots t) (hshows : Shows moments spots seen f)
    (hsolve : f.maxCostAssignment.Maximises)
    (hshort : NoShortDetour (fun i => i ∈ seen) (spotCost spots)) (j : Fin t.objects.length)
    (i : Fin spots.length) (hij : i.val = j.val) :
    t.correctedAt (exactPlatform moments cv) f j =
      if i ∈ seen then ((t.objects.get j).predict (MKalman.ops cv)).correct (MKalman.ops cv)
        (spots.get i).toPoint2f
      else (t.objects.get j).predict (MKalman.ops cv) := by
  have hcorrects := h.corrects_iff hcv hapart hshows hsolve hshort
  split
  · rename_i hi
    rcases List.getElem?_of_mem hi with ⟨r, hr⟩
    have hz : (f.measurements (exactPlatform moments cv))[r]? =
        some (spots.get i).toPoint2f := by
      rw [hshows.measurements_eq, List.getElem?_map, hr]
      rfl
    exact Tracker.correctedAt_of_corrects hsolve.permutes
      (hij ▸ (hcorrects r i).mpr hr) hz
  · rename_i hi
    apply Tracker.correctedAt_of_not_corrects
    intro r hr
    rw [← hij, hcorrects r i] at hr
    exact hi (List.mem_of_getElem? hr)

/-- Every object after the frame is the old object of the same blob, one frame on. -/
theorem AllAtRest.exists_old (hcv : cv.Exact) (hapart : Apart spots)
    (h : AllAtRest cv spots t) (hshows : Shows moments spots seen f)
    (hsolve : f.maxCostAssignment.Maximises)
    (hshort : NoShortDetour (fun i => i ∈ seen) (spotCost spots)) (i : Fin spots.length)
    (obj' : TrackObj κ MKalman Point2f) (hobj' : ((List.finRange t.objects.length).map
      (t.correctedAt (exactPlatform moments cv) f))[i.val]? = some obj') :
    ∃ obj, t.objects[i.val]? = some obj ∧ obj' =
      if i ∈ seen then (obj.predict (MKalman.ops cv)).correct (MKalman.ops cv)
        (spots.get i).toPoint2f
      else obj.predict (MKalman.ops cv) := by
  have hi : i.val < t.objects.length := h.length_eq.symm ▸ i.isLt
  refine ⟨t.objects.get ⟨i.val, hi⟩, List.getElem?_eq_getElem hi, ?_⟩
  rw [← h.correctedAt_eq hcv hapart hshows hsolve hshort ⟨i.val, hi⟩ i rfl]
  simpa [hi] using hobj'.symm

end Step

/-- A run of `K` calls of `track` over stationary blobs. `init` sees all of them, and
none is hidden in four consecutive frames. -/
structure OcclusionRun (moments : List Point → Moments) (spots : List Point)
    (seen : Nat → List (Fin spots.length)) (frames : Nat → Frame κ) (K : Nat) : Prop where
  apart : Apart spots
  init_sees : seen 0 = List.finRange spots.length
  shows : ∀ k, k ≤ K → Shows moments spots (seen k) (frames k)
  solves : ∀ k, (frames k).maxCostAssignment.Maximises
  brief : ∀ i, ¬∃ s, 0 < s ∧ s + 3 ≤ K ∧ ∀ r, r ≤ 3 → i ∉ seen (s + r)

/-- The tracker after frame `k`: the objects of `init` in their order, none of which ever
moved. -/
structure Unmoved (cv : KalmanOps) (spots : List Point) (seen : Nat → List (Fin spots.length))
    (colors : Nat → κ) (k K : Nat) (t : Tracker κ MKalman Point2f) : Prop where
  colors_eq : t.objects.map TrackObj.color = (List.range spots.length).map colors
  history_eq : ∀ (i : Fin spots.length) obj, t.objects[i.val]? = some obj →
    ∀ q ∈ obj.history, q = (spots.get i).toPoint2f
  history_length : ∀ (i : Fin spots.length) obj, t.objects[i.val]? = some obj →
    obj.history.length = k + 1
  unseen_eq : ∀ (i : Fin spots.length) obj, t.objects[i.val]? = some obj →
    obj.nFramesUnseen = AgeingPool.quiet (fun r => decide (i ∈ seen r)) 0 k
  atRest : k < K → ∀ (i : Fin spots.length) obj, t.objects[i.val]? = some obj →
    AtRest cv (spots.get i) obj

section Run
variable {moments : List Point → Moments} {cv : KalmanOps} {spots : List Point}
  {seen : Nat → List (Fin spots.length)} {frames : Nat → Frame κ} {K k : Nat}
  {t : Tracker κ MKalman Point2f} {colors : Nat → κ}

theorem Unmoved.allAtRest (h : Unmoved cv spots seen colors k K t) (hk : k < K) :
    AllAtRest cv spots t where
  length_eq := by simpa using congrArg List.length h.colors_eq
  atRest := h.atRest hk

theorem OcclusionRun.quiet_le (hrun : OcclusionRun moments spots seen frames K) (hk : k ≤ K)
    (i : Fin spots.length) : AgeingPool.quiet (fun r => decide (i ∈ seen r)) 0 k ≤ 3 := by
  have hbrief := hrun.brief i
  have hquiet := (AgeingPool.quiet_le_iff 3 (fun r => decide (i ∈ seen r)) 0 K).mpr (by
    simpa using hbrief)
  exact hquiet k hk

theorem unmoved_init (hrun : OcclusionRun moments spots seen frames K) :
    Unmoved cv spots seen (frames 0).randomColor 0 K
      (Tracker.construct.init (exactPlatform moments cv) (frames 0)) := by
  have hshows := hrun.shows 0 (Nat.zero_le K)
  rw [hrun.init_sees] at hshows
  have hlength : (frames 0).blobs.length = spots.length := by
    simpa using hshows.length_blobs
  have hobject : ∀ (i : Fin spots.length) obj,
      (Tracker.construct.init (exactPlatform moments cv) (frames 0)).objects[i.val]? =
        some obj → obj = TrackObj.construct (MKalman.ops cv) ((frames 0).randomColor i.val)
          (spots.get i).toPoint2f := by
    intro i obj hobj
    have hcentroid : ((frames 0).blobs.map (exactPlatform moments cv).getBlobCentroid)[i.val]? =
        some (spots.get i).toPoint2f := by
      have hmeasured : (frames 0).blobs.map (exactPlatform moments cv).getBlobCentroid = _ :=
        hshows.measurements_eq
      rw [hmeasured]
      simp
    rw [List.getElem?_map, Option.map_eq_some_iff] at hcentroid
    rcases hcentroid with ⟨blob, hblob, hpoint⟩
    simp only [Tracker.init, Tracker.construct, List.nil_append, List.getElem?_mapIdx, hblob,
      Option.map_some, Option.some.injEq, hpoint] at hobj
    exact hobj.symm
  refine ⟨?_, ?_, ?_, ?_, ?_⟩
  · apply List.ext_getElem?
    intro i
    by_cases hi : i < spots.length
    · simp [Tracker.init, Tracker.construct, hlength, hi]
    · simp [Tracker.init, Tracker.construct, hlength, hi]
  · intro i obj hobj q hq
    rw [hobject i obj hobj] at hq
    exact List.mem_singleton.mp hq
  · intro i obj hobj
    rw [hobject i obj hobj]
    rfl
  · intro i obj hobj
    rw [hobject i obj hobj]
    rfl
  · intro _ i obj hobj
    rw [hobject i obj hobj]
    exact atRest_construct _

theorem Unmoved.unseen_lt (hrun : OcclusionRun moments spots seen frames K) (hk : k < K)
    (h : Unmoved cv spots seen colors k K t) (i : Fin spots.length)
    (obj : TrackObj κ MKalman Point2f) (hobj : t.objects[i.val]? = some obj)
    (hi : i ∉ seen (k + 1)) : obj.nFramesUnseen < 3 := by
  have hquiet := hrun.quiet_le hk i
  rw [AgeingPool.quiet, Nat.zero_add, if_neg (by simpa using hi)] at hquiet
  rw [h.unseen_eq i obj hobj]
  omega

theorem Unmoved.track (hcv : cv.Exact) (hrun : OcclusionRun moments spots seen frames K)
    (hseed : 2 ≤ K → ∀ i, i ∈ seen 1 ∨ spots.get i = ⟨0, 0⟩) (hk : k < K)
    (hshort : NoShortDetour (fun i => i ∈ seen (k + 1)) (spotCost spots))
    (h : Unmoved cv spots seen colors k K t) :
    ∃ t', t.track (exactPlatform moments cv) (frames (k + 1)) = some t' ∧
      Unmoved cv spots seen colors (k + 1) K t' := by
  have hrest := h.allAtRest hk
  have hshows := hrun.shows (k + 1) hk
  have hsolve := hrun.solves (k + 1)
  have hobject := hrest.exists_old hcv hrun.apart hshows hsolve hshort
  refine ⟨_, hrest.track_objects hcv hrun.apart hshows hsolve hshort (h.unseen_lt hrun hk), ?_⟩
  refine ⟨?_, ?_, ?_, ?_, ?_⟩
  · rw [← h.colors_eq, List.map_map]
    have hcolor : TrackObj.color ∘ t.correctedAt (exactPlatform moments cv) (frames (k + 1)) =
        TrackObj.color ∘ t.objects.get := by
      funext j
      exact Tracker.correctedAt_color j
    rw [hcolor, ← List.map_map, List.map_get_finRange]
  · intro i obj' hobj'
    rcases hobject i obj' hobj' with ⟨obj, hobj, rfl⟩
    have hhistory := (hrest.atRest i obj hobj).predict_history hcv
    split
    · exact hhistory
    · exact hhistory
  · intro i obj' hobj'
    rcases hobject i obj' hobj' with ⟨obj, hobj, rfl⟩
    have hlength := TrackObj.predict_history_length (MKalman.ops cv) obj
    rw [h.history_length i obj hobj] at hlength
    split
    · exact hlength
    · exact hlength
  · intro i obj' hobj'
    rcases hobject i obj' hobj' with ⟨obj, hobj, rfl⟩
    rw [AgeingPool.quiet, Nat.zero_add, ← h.unseen_eq i obj hobj]
    by_cases hi : i ∈ seen (k + 1)
    · simp [hi]
    · simp [hi]
  · intro hlater i obj' hobj'
    rcases hobject i obj' hobj' with ⟨obj, hobj, rfl⟩
    have hobjrest := hrest.atRest i obj hobj
    split
    · exact hobjrest.correct hcv
    · rename_i hi
      apply hobjrest.predict hcv
      -- a miss in the first frame loses the seed, unless the seed is what a lost one predicts
      cases k with
      | zero => exact Or.inr ((hseed hlater i).resolve_left hi)
      | succ k =>
        rw [h.history_length i obj hobj]
        exact Or.inl (by omega)

theorem exists_unmoved (hcv : cv.Exact) (hrun : OcclusionRun moments spots seen frames K)
    (hseed : 2 ≤ K → ∀ i, i ∈ seen 1 ∨ spots.get i = ⟨0, 0⟩)
    (hshort : ∀ k, 0 < k → k ≤ K → NoShortDetour (fun i => i ∈ seen k) (spotCost spots))
    (hk : k ≤ K) : ∃ t, after (exactPlatform moments cv) frames k = some t ∧
      Unmoved cv spots seen (frames 0).randomColor k K t := by
  induction k with
  | zero => exact ⟨_, rfl, unmoved_init hrun⟩
  | succ k ih =>
    rcases ih (Nat.le_of_succ_le hk) with ⟨t, ht, hunmoved⟩
    rcases hunmoved.track hcv hrun hseed hk (hshort (k + 1) (Nat.succ_pos k) hk) with
      ⟨t', ht', hunmoved'⟩
    exact ⟨t', by rw [after, ht, Option.bind_some, ht'], hunmoved'⟩

theorem OcclusionRun.identified (hrun : OcclusionRun moments spots seen frames K) :
    OcclusionRun moments spots seen (identified frames) K :=
  ⟨hrun.apart, hrun.init_sees, fun k hk => ⟨(hrun.shows k hk).nodup, (hrun.shows k hk).centroids⟩,
    hrun.solves, hrun.brief⟩

/-- A filter whose seed was lost predicts the corner of the image. -/
theorem predict_of_seeded (hcv : cv.Exact) {obj : TrackObj κ MKalman Point2f} {x y : Int}
    (hlater : obj.history.length ≠ 1) (hfilter : obj.filter = plane (seeded x) (seeded y)) :
    (obj.predict (MKalman.ops cv)).history = obj.history ++ [⟨0, 0⟩] := by
  rw [TrackObj.predict_of_length_ne _ _ hlater]
  change obj.history ++ [(obj.filter.predict cv).1.toPoint2f] = _
  rw [hfilter, MKalman.predict_plane _ _ hcv]
  have hcorner : truncate ((0 : ℚ) + 0) = 0 := by
    rw [add_zero]
    exact truncate_intCast 0
  change obj.history ++ [Point.toPoint2f ⟨truncate (0 + 0), truncate (0 + 0)⟩] = _
  rw [hcorner]
  rfl

/-- A blob hidden in the first frame is predicted in the corner in the second. -/
theorem exists_seed_lost (hcv : cv.Exact) (hrun : OcclusionRun moments spots seen frames K)
    (hshort : NoShortDetour (fun i => i ∈ seen 1) (spotCost spots)) (hK : 2 ≤ K)
    {i : Fin spots.length} (hi : i ∉ seen 1) :
    ∃ t obj, after (exactPlatform moments cv) frames 2 = some t ∧ obj ∈ t.objects ∧
      (spots.get i).toPoint2f ∈ obj.history ∧ (⟨0, 0⟩ : Point2f) ∈ obj.history := by
  let p := spots.get i
  let pf := exactPlatform moments cv
  let start := Tracker.construct.init pf (frames 0)
  have hunmoved : Unmoved cv spots seen (frames 0).randomColor 0 K start := unmoved_init hrun
  have hrest := hunmoved.allAtRest (by omega)
  let j : Fin start.objects.length := ⟨i.val, hrest.length_eq.symm ▸ i.isLt⟩
  have hget : start.objects[i.val]? = some (start.objects.get j) := List.getElem?_eq_getElem j.isLt
  have hzero : (start.objects.get j).nFramesUnseen = 0 := hunmoved.unseen_eq i _ hget
  have hfresh : (start.objects.get j).history = [p.toPoint2f] ∧
      (start.objects.get j).filter = plane (seeded p.x) (seeded p.y) := by
    rcases (hrest.atRest i _ hget).filter_eq with ⟨hhistory, hfilter⟩ | ⟨hlater, _⟩
    · exact ⟨hhistory, hfilter.trans (seed_plane hcv p)⟩
    · rw [hunmoved.history_length i _ hget] at hlater
      exact absurd hlater (lt_irrefl 1)
  have hmissed : start.correctedAt pf (frames 1) j =
      { start.objects.get j with
        history := [p.toPoint2f, p.toPoint2f]
        nFramesUnseen := (start.objects.get j).nFramesUnseen + 1 } := by
    rw [Tracker.correctedAt_of_not_corrects, exactPlatform_toFilterOps,
      TrackObj.predict_of_single _ _ _ hfresh.1]
    intro r hr
    exact hi (List.mem_of_getElem? ((hrest.corrects_iff hcv hrun.apart (hrun.shows 1 (by omega))
      (hrun.solves 1) hshort r i).mp hr))
  have hfirst : ∃ t, start.track pf (frames 1) = some t ∧
      start.correctedAt pf (frames 1) j ∈ t.objects :=
    Tracker.exists_correctedAt_mem (hrun.solves 1).permutes (by omega)
  rcases hfirst with ⟨t, ht, hmem⟩
  rcases List.mem_iff_get.mp hmem with ⟨j', hj'⟩
  have hsecond : ∃ t', t.track pf (frames 2) = some t' ∧
      t.correctedAt pf (frames 2) j' ∈ t'.objects := by
    apply Tracker.exists_correctedAt_mem (hrun.solves 2).permutes
    rw [hj', hmissed]
    dsimp only
    omega
  rcases hsecond with ⟨t', ht', hmem'⟩
  have hhistory : (t.correctedAt pf (frames 2) j').history =
      [p.toPoint2f, p.toPoint2f] ++ [⟨0, 0⟩] := by
    rw [Tracker.correctedAt_history, hj', hmissed]
    exact predict_of_seeded hcv (by simp) hfresh.2
  refine ⟨t', _, ?_, hmem', by rw [hhistory]; simp [p], by rw [hhistory]; simp⟩
  rw [after, after, after, Option.bind_some, ht, Option.bind_some, ht']

end Run

/-- The tracker after frame `k` holds the objects of `init` and no others, in their order,
and each of them was never anywhere but at its blob. Objects are told apart by stamps
that the tracker never reads. -/
def KeepsIdentity (moments : List Point → Moments) (cv : KalmanOps) (spots : List Point)
    (frames : Nat → Frame κ) (k : Nat) : Prop :=
  ∃ t, after (exactPlatform moments cv) (identified frames) k = some t ∧
    after (exactPlatform moments cv) frames k = some (t.recolor Prod.snd) ∧
    t.objects.map TrackObj.ident = (List.range spots.length).map (fun i => (0, i)) ∧
    ∀ (i : Fin spots.length) obj, t.objects[i.val]? = some obj →
      ∀ q ∈ obj.history, q = (spots.get i).toPoint2f

theorem not_keepsIdentity_of_hidden {moments : List Point → Moments} {cv : KalmanOps}
    (hcv : cv.Exact) {spots : List Point} {seen : Nat → List (Fin spots.length)}
    {frames : Nat → Frame κ} {K : Nat} (hrun : OcclusionRun moments spots seen frames K)
    (hshort : NoShortDetour (fun i => i ∈ seen 1) (spotCost spots)) (hK : 2 ≤ K)
    {i : Fin spots.length} (hi : i ∉ seen 1) (hcorner : spots.get i ≠ ⟨0, 0⟩) :
    ¬KeepsIdentity moments cv spots frames 2 := by
  rintro ⟨t, ht, _, hidents, hhistory⟩
  rcases exists_seed_lost hcv hrun.identified hshort hK hi with ⟨t', obj, ht', hobj, hp, hzero⟩
  rw [ht] at ht'
  cases ht'
  rcases List.getElem?_of_mem hobj with ⟨j, hj⟩
  have hlength : t.objects.length = spots.length := by simpa using congrArg List.length hidents
  have hlt : j < spots.length := hlength ▸ (List.getElem?_eq_some_iff.mp hj).1
  have hsame := (hhistory ⟨j, hlt⟩ obj hj _ hp).trans (hhistory ⟨j, hlt⟩ obj hj _ hzero).symm
  have hx : ((spots.get i).x : ℚ) = 0 := congrArg Point2f.x hsame
  have hy : ((spots.get i).y : ℚ) = 0 := congrArg Point2f.y hsame
  exact hcorner (Point.ext (by exact_mod_cast hx) (by exact_mod_cast hy))

theorem occlusion_keeps_identity (moments : List Point → Moments) (cv : KalmanOps)
    (hcv : cv.Exact) (spots : List Point) (seen : Nat → List (Fin spots.length))
    (frames : Nat → Frame κ) (K : Nat) (hrun : OcclusionRun moments spots seen frames K)
    (hshort : ∀ k, 0 < k → k ≤ K → NoShortDetour (fun i => i ∈ seen k) (spotCost spots)) :
    (∀ k, k ≤ K → KeepsIdentity moments cv spots frames k) ↔
      (2 ≤ K → ∀ i, i ∈ seen 1 ∨ spots.get i = ⟨0, 0⟩) := by
  refine ⟨?_, ?_⟩
  · intro hkeeps hK i
    by_contra hneither
    push Not at hneither
    exact not_keepsIdentity_of_hidden hcv hrun (hshort 1 Nat.one_pos (by omega)) hK hneither.1
      hneither.2 (hkeeps 2 hK)
  · intro hseed k hk
    rcases exists_unmoved hcv hrun.identified hseed hshort hk with ⟨t, ht, hunmoved⟩
    have hpermutes : ∀ k, (frames k).maxCostAssignment.Permutes := fun k => (hrun.solves k).permutes
    refine ⟨t, ht, by rw [after_identified _ hpermutes, ht, Option.map_some], ?_,
      hunmoved.history_eq⟩
    have hcolors := congrArg (List.map Prod.fst) hunmoved.colors_eq
    rw [List.map_map, List.map_map] at hcolors
    exact hcolors

/-- With at most 20000 blobs the index bias never pays. -/
theorem Apart.noShortDetour {spots : List Point} (h : Apart spots) (hfew : spots.length ≤ 20000)
    (seen : Fin spots.length → Prop) : NoShortDetour seen (spotCost spots) := by
  apply noShortDetour_of_le
  · intro a b hab
    have := h.spotCost_ge hab
    omega
  · exact fun a b => quantised_nonneg _ _

def visible (spots : List Point) (seen : Nat → List (Fin spots.length)) (k : Nat) : Frame Unit :=
  plainFrame bruteForce ((seen k).map fun i => square (spots.get i).x (spots.get i).y)

theorem shows_visible {spots : List Point} {seen : Nat → List (Fin spots.length)} {k : Nat}
    (h : (seen k).Nodup) : Shows polygonMoments spots (seen k) (visible spots seen k) where
  nodup := h
  centroids := by
    simp only [visible, plainFrame, List.map_map]
    apply List.map_congr_left
    intro i _
    exact getBlobCentroid_square _ _

theorem apart_of_sq {spots : List Point}
    (h : ∀ a b : Fin spots.length, a ≠ b → 200 ^ 2 <
      ((spots.get a).x - (spots.get b).x) ^ 2 + ((spots.get a).y - (spots.get b).y) ^ 2) :
    Apart spots := by
  intro a b hab
  have hfar : ((200 : Nat) : ℝ) < distance (spots.get a).toPoint2f (spots.get b).toPoint2f := by
    rw [lt_distance_iff]
    simp only [Point.toPoint2f_x, Point.toPoint2f_y]
    exact_mod_cast h a b hab
  exact_mod_cast hfar

theorem occlusionRun_visible {spots : List Point} {seen : Nat → List (Fin spots.length)} {K : Nat}
    (hapart : Apart spots) (hinit : seen 0 = List.finRange spots.length)
    (hnodup : ∀ k, (seen k).Nodup)
    (hbrief : ∀ i, ¬∃ s, 0 < s ∧ s + 3 ≤ K ∧ ∀ r, r ≤ 3 → i ∉ seen (s + r)) :
    OcclusionRun polygonMoments spots seen (visible spots seen) K :=
  ⟨hapart, hinit, fun k _ => shows_visible (hnodup k), fun _ => bruteForce_maximises, hbrief⟩

abbrev twoSpots : List Point := [⟨500, 500⟩, ⟨900, 500⟩]

/-- The second blob is measured first in frame 1, and the first is hidden from then on. -/
def twoSeen : Nat → List (Fin twoSpots.length)
  | 0 => [⟨0, by decide⟩, ⟨1, by decide⟩]
  | 1 => [⟨1, by decide⟩, ⟨0, by decide⟩]
  | _ => [⟨1, by decide⟩]

theorem twoSeen_run : OcclusionRun polygonMoments twoSpots twoSeen (visible twoSpots twoSeen) 2 := by
  apply occlusionRun_visible (apart_of_sq (by decide)) (by decide)
  · intro k
    rcases k with _ | _ | k <;> simp [twoSeen]
  · omega

theorem occlusion_keeps_identity_two :
    (∀ k, k ≤ 2 →
      KeepsIdentity polygonMoments exactKalman twoSpots (visible twoSpots twoSeen) k) ↔
      (2 ≤ 2 → ∀ i, i ∈ twoSeen 1 ∨ twoSpots.get i = ⟨0, 0⟩) :=
  occlusion_keeps_identity polygonMoments exactKalman exactKalman_exact twoSpots twoSeen _ 2
    twoSeen_run fun _ _ _ => twoSeen_run.apart.noShortDetour (by decide) _

abbrev oneSpot : List Point := [⟨500, 500⟩]

/-- The only blob is hidden in the first frame. -/
def hiddenFirst : Nat → List (Fin oneSpot.length)
  | 1 => []
  | _ => [⟨0, by decide⟩]

theorem hiddenFirst_run :
    OcclusionRun polygonMoments oneSpot hiddenFirst (visible oneSpot hiddenFirst) 2 := by
  apply occlusionRun_visible (apart_of_sq (by decide)) (by decide)
  · intro k
    rcases k with _ | _ | k <;> simp [hiddenFirst]
  · omega

theorem hidden_seed_lost :
    ¬∀ (spots : List Point) (seen : Nat → List (Fin spots.length)) (frames : Nat → Frame Unit)
      (K : Nat), OcclusionRun polygonMoments spots seen frames K →
      ∀ k, k ≤ K → KeepsIdentity polygonMoments exactKalman spots frames k := by
  intro h
  have hshort := hiddenFirst_run.apart.noShortDetour (by decide) fun i => i ∈ hiddenFirst 1
  have hhidden : (⟨0, by decide⟩ : Fin oneSpot.length) ∉ hiddenFirst 1 := List.not_mem_nil
  exact not_keepsIdentity_of_hidden exactKalman_exact hiddenFirst_run hshort le_rfl hhidden
    (by decide) (h _ _ _ 2 hiddenFirst_run 2 le_rfl)

end BlobTracking.Tracking
