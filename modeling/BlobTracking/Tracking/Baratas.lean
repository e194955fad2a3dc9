import BlobTracking.Proc.CameraLoop
import BlobTracking.Tracking.Centroid
import BlobTracking.Tracking.IntegerCosts

/-! The tracking program as a whole: the camera loop around the detector, the
tracker and the assignment algorithm. The first frame handed over only creates
objects, and `continue` skips the key that comes with it. No later adaptation
resets the tracker: it sees the frames before and after as neighbours. -/
namespace BlobTracking.Tracking
open Dlib OpenCV Proc

/-- What the camera and the colours contribute to one iteration: the contours that
`findContours` finds in the foreground, and the random colours drawn. -/
structure Sight (κ : Type) where
  contours : List (List Point)
  randomColor : Nat → κ

/-- The variables of `main` that an iteration leaves to the next. -/
structure Baratas (κ φ P : Type) where
  detector : BlobDetector
  tracker : Tracker κ φ P

namespace Baratas

section Main
variable (pf : Platform P D φ) (solve : Solver) (convexHull : List Point → List Point)
  (minArea maxArea : Int)

/-- `minArea` and `maxArea` are read from the standard input. -/
def start : Baratas κ φ P := ⟨BlobDetector.construct minArea maxArea, Tracker.construct⟩

/-- One frame, once the camera has adapted, with true for `continue`. -/
def process (sight : Sight κ) (s : Baratas κ φ P) : Option (Baratas κ φ P × Bool) :=
  let detector := s.detector.findBlobs convexHull sight.contours
  let f : Frame κ := ⟨detector.getBlobs, sight.randomColor, solve⟩
  if !s.tracker.wasInitialized then some (⟨detector, s.tracker.init pf f⟩, true)
  else (s.tracker.track pf f).map fun tracker => (⟨detector, tracker⟩, false)

def program : Program (Baratas κ φ P) (Sight κ) where
  process := process pf solve convexHull
  finished _ := false
  conversion := .d

/-- The program after `r` frames that were handed over. -/
def run (sights : Nat → Sight κ) : Nat → Option (Baratas κ φ P)
  | 0 => some (start minArea maxArea)
  | r + 1 => (run sights r).bind fun s =>
      (process pf solve convexHull (sights r) s).map Prod.fst

/-- What the tracker gets of a frame. -/
def seen (sight : Sight κ) : Frame κ :=
  ⟨((BlobDetector.construct minArea maxArea).findBlobs convexHull sight.contours).getBlobs,
    sight.randomColor, solve⟩

end Main

theorem findBlobs_findBlobs (convexHull : List Point → List Point) (detector : BlobDetector)
    (contours contours' : List (List Point)) :
    (detector.findBlobs convexHull contours).findBlobs convexHull contours' =
      detector.findBlobs convexHull contours' := by
  have hlimits : detector.findBlobs convexHull contours = { detector with
      hulls := (detector.findBlobs convexHull contours).hulls } := by
    unfold BlobDetector.findBlobs
    rw [BlobDetector.foldl_findBlob]
  rw [hlimits]
  rfl

section Runs
variable {pf : Platform P D φ} {solve : Solver} {convexHull : List Point → List Point}
  {minArea maxArea : Int}

/-- The tracker goes through the rounds of `mainLoop`, one for each frame handed over. -/
theorem run_succ_eq (pf : Platform P D φ) (solve : Solver)
    (convexHull : List Point → List Point) (minArea maxArea : Int) (sights : Nat → Sight κ)
    (k : Nat) : run pf solve convexHull minArea maxArea sights (k + 1) =
      (mainLoop pf (fun i => seen solve convexHull minArea maxArea (sights i)) k).map fun t =>
        ⟨(BlobDetector.construct minArea maxArea).findBlobs convexHull (sights k).contours, t⟩ := by
  induction k with
  | zero => rfl
  | succ k ih =>
    rw [run, ih, mainLoop]
    cases mainLoop pf (fun i => seen solve convexHull minArea maxArea (sights i)) k with
    | none => rfl
    | some t =>
      rw [Option.map_some, Option.bind_some, Option.bind_some, process, mainRound]
      dsimp only
      rw [findBlobs_findBlobs]
      split
      · rfl
      · rw [Option.map_map]
        rfl

theorem work_eq_run (pf : Platform P D φ) (solve : Solver)
    (convexHull : List Point → List Point) (minArea maxArea : Int) (sights : Nat → Sight κ)
    (r : Nat) : (program pf solve convexHull).work (start minArea maxArea)
      ((List.range r).map sights) = run pf solve convexHull minArea maxArea sights r :=
  Program.work_range (program pf solve convexHull) (start minArea maxArea) sights
    (run pf solve convexHull minArea maxArea sights) rfl (fun _ => rfl) r

end Runs

section Loop
variable {pf : Platform P D φ} {solve : Solver} {convexHull : List Point → List Point}
  {minArea maxArea begin : Int} {its : Nat → Iteration (Sight κ)} {n : Nat}

theorem app_eq {outcome : Outcome (Baratas κ φ P)}
    (h : runLoop (program pf solve convexHull) begin (start minArea maxArea) its n = some outcome) :
    run pf solve convexHull minArea maxArea
      (handed (program pf solve convexHull) begin (start minArea maxArea) its n)
      (processed (program pf solve convexHull) begin (start minArea maxArea) its n).length =
        some outcome.app := by
  have hwork := runLoop_app h
  rw [processed_eq_map, work_eq_run] at hwork
  exact hwork

theorem tracker_of_none {outcome : Outcome (Baratas κ φ P)}
    (h : runLoop (program pf solve convexHull) begin (start minArea maxArea) its n = some outcome)
    (hnone : processed (program pf solve convexHull) begin (start minArea maxArea) its n = []) :
    outcome.app.tracker = Tracker.construct := by
  have happ := app_eq h
  rw [hnone, List.length_nil] at happ
  rw [← Option.some.inj happ]
  rfl

theorem tracker_of_succ {outcome : Outcome (Baratas κ φ P)}
    (h : runLoop (program pf solve convexHull) begin (start minArea maxArea) its n = some outcome)
    {k : Nat} (hlength : (processed (program pf solve convexHull) begin (start minArea maxArea)
      its n).length = k + 1) :
    mainLoop pf (fun i => seen solve convexHull minArea maxArea
      (handed (program pf solve convexHull) begin (start minArea maxArea) its n i)) k =
        some outcome.app.tracker := by
  have happ := app_eq h
  rw [hlength, run_succ_eq] at happ
  obtain ⟨t, ht, hstate⟩ := Option.map_eq_some_iff.mp happ
  rw [ht, ← hstate]

theorem wasInitialized_iff {outcome : Outcome (Baratas κ φ P)}
    (h : runLoop (program pf solve convexHull) begin (start minArea maxArea) its n =
      some outcome) : outcome.app.tracker.wasInitialized = true ↔
        processed (program pf solve convexHull) begin (start minArea maxArea) its n ≠ [] := by
  cases hlength : (processed (program pf solve convexHull) begin (start minArea maxArea)
      its n).length with
  | zero =>
    have hnone := List.length_eq_zero_iff.mp hlength
    rw [tracker_of_none h hnone]
    exact iff_of_false Bool.false_ne_true (not_not_intro hnone)
  | succ k =>
    have hafter := tracker_of_succ h hlength
    rw [mainLoop_eq_after] at hafter
    refine iff_of_true (initialized_of_after hafter) fun hnone => ?_
    rw [hnone] at hlength
    cases hlength

theorem process_continues_iff (pf : Platform P D φ) (solve : Solver)
    (convexHull : List Point → List Point) (sight : Sight κ) (s : Baratas κ φ P) :
    ((process pf solve convexHull sight s).any fun result => result.2) = true ↔
      s.tracker.wasInitialized = false := by
  unfold process
  dsimp only
  cases s.tracker.wasInitialized with
  | false => exact iff_of_true rfl rfl
  | true =>
    rw [Bool.not_true, if_neg Bool.false_ne_true, Option.any_map]
    refine iff_of_false ?_ Bool.noConfusion
    cases s.tracker.track pf _ with
    | none => exact Bool.false_ne_true
    | some t => exact Bool.false_ne_true

/-- In every run, for any solver and any arithmetic: the tracker is as it was constructed until
the first frame is handed over, then it is that of `mainLoop` over all frames handed over since,
whatever adaptations came between them; and the key is skipped with that first frame only. -/
theorem main_tracker (pf : Platform P D φ) (solve : Solver)
    (convexHull : List Point → List Point) (minArea maxArea begin : Int)
    (its : Nat → Iteration (Sight κ)) (n : Nat) :
    (∀ outcome, runLoop (program pf solve convexHull) begin (start minArea maxArea) its n =
        some outcome →
      (processed (program pf solve convexHull) begin (start minArea maxArea) its n = [] →
        outcome.app.tracker = Tracker.construct) ∧
      ∀ k, (processed (program pf solve convexHull) begin (start minArea maxArea) its n).length =
          k + 1 →
        mainLoop pf (fun i => seen solve convexHull minArea maxArea
          (handed (program pf solve convexHull) begin (start minArea maxArea) its n i)) k =
            some outcome.app.tracker) ∧
    ∀ camera, runLoop (program pf solve convexHull) begin (start minArea maxArea) its n =
        some (.running camera) →
      (continued (program pf solve convexHull) begin (start minArea maxArea) its n = true ↔
        camera.camAdapted = true ∧
          processed (program pf solve convexHull) begin (start minArea maxArea) its n = []) := by
  refine ⟨fun outcome h => ⟨tracker_of_none h, fun k => tracker_of_succ h⟩, fun camera h => ?_⟩
  have hnone : camera.app.tracker.wasInitialized = false ↔
      processed (program pf solve convexHull) begin (start minArea maxArea) its n = [] := by
    rw [← Bool.not_eq_true, not_iff_comm]
    exact (wasInitialized_iff h).symm
  unfold continued
  rw [h, Bool.and_eq_true]
  exact and_congr_right fun _ =>
    (process_continues_iff pf solve convexHull (its n).frame camera.app).trans hnone

end Loop

/-- What the contract of `findContours` and `convexHull` and an image of `L` pixels give. -/
structure Clear (L : Nat) (convexHull : List Point → List Point) (minArea maxArea : Int)
    (sight : Sight κ) : Prop where
  few : sight.contours.length ≤ 2000
  convex : ∀ contour ∈ sight.contours, IsConvexHull contour (convexHull contour)
  inImage : ∀ contour ∈ sight.contours, ∀ p ∈ contour,
    (0 ≤ p.x ∧ p.x ≤ L) ∧ 0 ≤ p.y ∧ p.y ≤ L
  excludes : ExcludesFlat minArea maxArea sight.contours

section Safety
variable {L : Nat} {convexHull : List Point → List Point} {minArea maxArea : Int}
  {cv : KalmanOps}

theorem Clear.few_blobs {sight : Sight κ} (h : Clear L convexHull minArea maxArea sight)
    (solve : Solver) : (seen solve convexHull minArea maxArea sight).blobs.length ≤ 2000 := by
  have hblobs : (seen solve convexHull minArea maxArea sight).blobs =
      [] ++ (sight.contours.map convexHull).filter
        (BlobDetector.construct minArea maxArea).Keeps := by
    unfold seen BlobDetector.getBlobs BlobDetector.findBlobs
    rw [BlobDetector.foldl_findBlob]
    rfl
  rw [hblobs, List.nil_append]
  calc ((sight.contours.map convexHull).filter _).length
      ≤ (sight.contours.map convexHull).length := List.length_filter_le _ _
    _ = sight.contours.length := List.length_map _
    _ ≤ 2000 := h.few

theorem Clear.detected {sight : Sight κ} (h : Clear L convexHull minArea maxArea sight)
    {solve : Solver} (hsolve : solve.Permutes) :
    Detected convexHull minArea maxArea ((L : ℚ) : ℝ)
      (seen solve convexHull minArea maxArea sight) := by
  refine ⟨hsolve, sight.contours, h.convex, ?_, h.excludes, rfl⟩
  intro contour hcontour p hp
  have hbound := h.inImage contour hcontour p hp
  exact ⟨⟨hbound.1.1, by exact_mod_cast hbound.1.2⟩, hbound.2.1, by exact_mod_cast hbound.2.2⟩

theorem Clear.ordinaryFrame {sight : Sight κ} (h : Clear L convexHull minArea maxArea sight)
    (hL : L ≤ 2 ^ 20) (solve : Solver) :
    OrdinaryFrame polygonMoments (seen solve convexHull minArea maxArea sight) where
  few := h.few_blobs solve
  centroids blob hblob := by
    have hwidth : (L : ℚ) ≤ 2 ^ 20 := by exact_mod_cast hL
    obtain ⟨z, hz, ⟨hx, hx'⟩, hy, hy'⟩ :=
      (h.detected identitySolver_permutes).inImage.centroids blob hblob
    have hx : z.x ≤ L := by exact_mod_cast hx'
    have hy : z.y ≤ L := by exact_mod_cast hy'
    exact ⟨z, hz, ⟨by assumption, hx.trans hwidth⟩, by assumption, hy.trans hwidth⟩

/-- With clear sights the tracker goes on, and its objects stay near the image. -/
theorem exists_mainLoop (hcv : cv.Exact) (hL : L ≤ 2 ^ 20) {sights : Nat → Sight κ}
    (hclear : ∀ i, Clear L convexHull minArea maxArea (sights i)) (k : Nat) :
    ∃ t, mainLoop (intPlatform polygonMoments cv)
        (fun i => seen (dlibSolver intMax) convexHull minArea maxArea (sights i)) k = some t ∧
      ∀ obj ∈ t.objects, Confined cv L obj := by
  obtain ⟨t, ht, hconfined⟩ := main_confined hcv (Nat.cast_nonneg L)
    (fun i => (hclear i).detected contractSolver_maximises.permutes) k
  have hordinary := fun i => (hclear i).ordinaryFrame hL (dlibSolver intMax)
  refine ⟨t, ?_, hconfined⟩
  rw [mainLoop_eq_after] at ht ⊢
  rw [← ht]
  exact (after_intPlatform hcv hordinary k).trans (after_dlib_eq hcv hordinary k)

theorem exists_run (hcv : cv.Exact) (hL : L ≤ 2 ^ 20) {sights : Nat → Sight κ}
    (hclear : ∀ i, Clear L convexHull minArea maxArea (sights i)) (r : Nat) :
    ∃ s, run (intPlatform polygonMoments cv) (dlibSolver intMax) convexHull minArea maxArea
        sights r = some s ∧ ∀ obj ∈ s.tracker.objects, Confined cv L obj := by
  cases r with
  | zero => exact ⟨_, rfl, fun obj hobj => absurd hobj List.not_mem_nil⟩
  | succ k =>
    obtain ⟨t, ht, hconfined⟩ := exists_mainLoop hcv hL hclear k
    rw [run_succ_eq, ht]
    exact ⟨_, rfl, hconfined⟩

/-- The whole program, with its casts to `int` and the Hungarian algorithm on `int`: whatever
the clock, the keys, the area interval and the contours are, as long as flat hulls are kept out,
an iteration faults only by its countdown, and all objects have been seen lately and stay near
the image. -/
theorem main_safe (L : Nat) (hL : L ≤ 2 ^ 20) (convexHull : List Point → List Point)
    (minArea maxArea : Int) (cv : KalmanOps) (hcv : cv.Exact) (begin : Int)
    (its : Nat → Iteration (Sight κ))
    (hclear : ∀ i, Clear L convexHull minArea maxArea (its i).frame) (n : Nat) :
    (∀ camera, runLoop (program (intPlatform polygonMoments cv) (dlibSolver intMax) convexHull)
        begin (start minArea maxArea) its n = some (.running camera) →
      (runLoop (program (intPlatform polygonMoments cv) (dlibSolver intMax) convexHull)
          begin (start minArea maxArea) its (n + 1) = none ↔
        camera.camAdapted = false ∧
          (its n).checkTime - camera.camAdaptationStartTime ≤ adaptationTimeSec ∧
          OverlongCountdown .d ((its n).textTime - camera.camAdaptationStartTime))) ∧
    ∀ outcome, runLoop (program (intPlatform polygonMoments cv) (dlibSolver intMax) convexHull)
        begin (start minArea maxArea) its n = some outcome →
      ∀ obj ∈ outcome.app.tracker.objects, obj.framesUnseen ≤ 3 ∧
        ∀ p ∈ obj.history, |p.x| ≤ 5 * L + 1313 ∧ |p.y| ≤ 5 * L + 1313 := by
  have hhanded : ∀ n i, Clear L convexHull minArea maxArea
      (handed (program (intPlatform polygonMoments cv) (dlibSolver intMax) convexHull)
        begin (start minArea maxArea) its n i) := by
    intro n i
    obtain ⟨m, hm⟩ := exists_handed_eq
      (program (intPlatform polygonMoments cv) (dlibSolver intMax) convexHull)
      begin (start minArea maxArea) its n i
    rw [hm]
    exact hclear m
  refine ⟨fun camera h => ?_, fun outcome h => ?_⟩
  · by_cases hadapted : camera.camAdapted = true
    · obtain ⟨s, hs, _⟩ := exists_run hcv hL (hhanded (n + 1))
        (processed (program (intPlatform polygonMoments cv) (dlibSolver intMax) convexHull)
          begin (start minArea maxArea) its (n + 1)).length
      rw [runLoop_succ_eq_none_iff_work h hadapted, processed_eq_map, work_eq_run, hs, hadapted]
      exact iff_of_false (Option.some_ne_none s) fun hidle => Bool.noConfusion hidle.1
    · have hidle : camera.camAdapted = false := Bool.not_eq_true _ ▸ hadapted
      rw [runLoop_succ_eq_none_iff_of_idle h hidle, hidle]
      exact (and_iff_right rfl).symm
  · obtain ⟨s, hs, hconfined⟩ := exists_run hcv hL (hhanded n)
      (processed (program (intPlatform polygonMoments cv) (dlibSolver intMax) convexHull)
        begin (start minArea maxArea) its n).length
    obtain rfl : s = outcome.app := Option.some.inj (hs.symm.trans (app_eq h))
    intro obj hobj
    exact ⟨(hconfined obj hobj).unseen_le, (hconfined obj hobj).history_within⟩

end Safety

/-- A square that moves by ten pixels a frame, and starts anew after twenty. -/
def movingCamera (i : Nat) : Iteration (Sight Unit) :=
  ⟨⟨[square (500 + 10 * (i % 20 : Nat)) 500], fun _ => ()⟩, 104, 104, 104, -1⟩

theorem clear_movingCamera (i : Nat) : Clear 1000 id 0 1000000 (movingCamera i).frame where
  few := show 1 ≤ 2000 by decide
  convex contour hcontour := by
    rw [List.mem_singleton.mp hcontour]
    exact isConvexHull_square _ 500
  inImage contour hcontour p hp := by
    rw [List.mem_singleton.mp hcontour] at hp
    simp only [square, List.mem_cons, List.not_mem_nil, or_false] at hp
    rcases hp with rfl | rfl | rfl | rfl <;> dsimp only <;> omega
  excludes := Or.inl le_rfl

theorem runLoop_movingCamera_succ {solve : Solver} {app app' : Baratas Unit φ P} {n : Nat}
    (h : runLoop (program pf solve id) 100 app movingCamera n = some (.running ⟨true, 100, app'⟩))
    (hsome : runLoop (program pf solve id) 100 app movingCamera (n + 1) ≠ none) :
    ∃ app'', runLoop (program pf solve id) 100 app movingCamera (n + 1) =
      some (.running ⟨true, 100, app''⟩) := by
  have hiterate : runLoop (program pf solve id) 100 app movingCamera (n + 1) =
      iterate (program pf solve id) (movingCamera n) ⟨true, 100, app'⟩ := by
    rw [runLoop, h]
    rfl
  rw [hiterate, iterate, if_pos rfl] at hsome ⊢
  cases hprocess : (program pf solve id).process (movingCamera n).frame app' with
  | none =>
    rw [hprocess] at hsome
    exact absurd rfl hsome
  | some result =>
    use result.1
    rw [Option.map_some]
    split
    · rfl
    · rfl

theorem main_safe_movingCamera :
    ∃ camera, runLoop (program (intPlatform polygonMoments exactKalman) (dlibSolver intMax) id)
        100 (start 0 1000000) movingCamera 30 = some (.running camera) ∧
      ∀ obj ∈ camera.app.tracker.objects, obj.framesUnseen ≤ 3 ∧
        ∀ p ∈ obj.history, |p.x| ≤ 5 * (1000 : Nat) + 1313 ∧ |p.y| ≤ 5 * (1000 : Nat) + 1313 := by
  have hsafe := main_safe 1000 (by norm_num) id 0 1000000 exactKalman exactKalman_exact 100
    movingCamera clear_movingCamera
  have hrun : ∀ n, ∃ app,
      runLoop (program (intPlatform polygonMoments exactKalman) (dlibSolver intMax) id) 100
        (start 0 1000000) movingCamera (n + 1) = some (.running ⟨true, 100, app⟩) := by
    intro n
    induction n with
    | zero => exact ⟨start 0 1000000, rfl⟩
    | succ n ih =>
      obtain ⟨app, happ⟩ := ih
      apply runLoop_movingCamera_succ happ
      intro hnone
      cases (((hsafe (n + 1)).1 _ happ).mp hnone).1
  obtain ⟨app, happ⟩ := hrun 29
  exact ⟨_, happ, (hsafe 30).2 _ happ⟩

end Baratas

end BlobTracking.Tracking
