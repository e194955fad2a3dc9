import BlobTracking.Dlib.MaxCostAssignment
import BlobTracking.Library.ForLoop
import BlobTracking.OpenCV.Points
import BlobTracking.Tracking.TrackObj

/-! The tracker itself. Every vector and matrix access is checked: a run that
would read or write out of range has no result. The floating-point arithmetic,
the filter, the colours and the assignment solver are parameters, so a fact
proved here holds for single precision, NaNs included, as well as for exact
numbers. -/
namespace BlobTracking.Tracking
open Dlib Library OpenCV

/-- The point arithmetic of `Tracker.cpp`: `P` is `Point2f`, `D` is `double`. -/
structure Platform (P D φ : Type) extends FilterOps P φ where
  /-- `getBlobCentroid(blob)`. -/
  getBlobCentroid : List Point → P
  /-- `p - q`. -/
  sub : P → P → P
  norm : P → D
  /-- `k * d`. -/
  scale : Int → D → D
  /-- `(int) d`. -/
  toInt : D → Int
  /-- `d > k`. -/
  exceeds : D → Int → Bool

@[ext] structure Tracker (κ φ P : Type) where
  initialized : Bool
  objects : List (TrackObj κ φ P)

/-- What one call of `init` or `track` is given. `randomColor i` is the colour
drawn in iteration `i` of the loop that creates objects. -/
structure Frame (κ : Type) where
  blobs : List (List Point)
  randomColor : Nat → κ
  maxCostAssignment : Solver

namespace Tracker

def construct : Tracker κ φ P := ⟨false, []⟩

def wasInitialized (t : Tracker κ φ P) : Bool := t.initialized

def objectIsLost (obj : TrackObj κ φ P) : Bool := obj.framesUnseen > 3

/-- The gate, in pixels. -/
def tresh : Int := 100

section Operations
variable (pf : Platform P D φ)

def init (f : Frame κ) (t : Tracker κ φ P) : Tracker κ φ P where
  initialized := true
  objects := t.objects ++ f.blobs.mapIdx fun i blob =>
    TrackObj.construct pf.toFilterOps (f.randomColor i) (pf.getBlobCentroid blob)

/-- The body of the two nested loops of `distance_matrix`. -/
def fillEntry (measurements : List P) (objects : List (TrackObj κ φ P)) (i j : Nat)
    (s : CostMatrix × Int) : Option (CostMatrix × Int) :=
  if i ≥ measurements.length || j ≥ objects.length then do
    let dMatrix ← s.1.write i j s.2
    some (dMatrix, s.2 + 1)
  else do
    let measurement ← measurements[i]?
    let obj ← objects[j]?
    let last ← obj.lastHistory
    let dMatrix ← s.1.write i j (pf.toInt (pf.scale (-100) (pf.norm (pf.sub measurement last))))
    some (dMatrix, s.2)

def distanceMatrix (measurements : List P) (objects : List (TrackObj κ φ P)) :
    Option CostMatrix := do
  let maxLin := measurements.length
  let maxCol := objects.length
  let max := if maxLin > maxCol then maxLin else maxCol
  let s ← forLoop max (fun i => forLoop max (fillEntry pf measurements objects i))
    (CostMatrix.create max max, 1)
  some s.1

/-- The loop state while measurements are handed to objects. -/
@[ext] structure Pass (κ φ P : Type) where
  objects : List (TrackObj κ φ P)
  msNotAssigned : List Bool

/-- A negative `assig` is compared with the unsigned size and counts as large. -/
def assignOne (measurements : List P) (assignments : List Int) (i : Nat) (s : Pass κ φ P) :
    Option (Pass κ φ P) := do
  let assig ← assignments[i]?
  if assig < 0 || assig ≥ s.objects.length then
    let msNotAssigned ← write s.msNotAssigned i true
    some { s with msNotAssigned := msNotAssigned }
  else
    let obj ← s.objects[assig.toNat]?
    let last ← obj.lastHistory
    let measurement ← measurements[i]?
    if pf.exceeds (pf.norm (pf.sub last measurement)) tresh then
      let msNotAssigned ← write s.msNotAssigned i true
      some { s with msNotAssigned := msNotAssigned }
    else
      let objects ← write s.objects assig.toNat (obj.correct pf.toFilterOps measurement)
      some { s with objects := objects }

def createOne (f : Frame κ) (measurements : List P) (msNotAssigned : List Bool) (i : Nat)
    (objects : List (TrackObj κ φ P)) : Option (List (TrackObj κ φ P)) := do
  let notAssigned ← msNotAssigned[i]?
  if notAssigned then
    let measurement ← measurements[i]?
    some (objects ++ [TrackObj.construct pf.toFilterOps (f.randomColor i) measurement])
  else
    some objects

def track (f : Frame κ) (t : Tracker κ φ P) : Option (Tracker κ φ P) := do
  let measurements := f.blobs.map pf.getBlobCentroid
  let predicted := t.objects.map (TrackObj.predict pf.toFilterOps)
  let costMatrix ← distanceMatrix pf measurements predicted
  let assignments := f.maxCostAssignment costMatrix
  let pass ← forLoop measurements.length (assignOne pf measurements assignments)
    ⟨predicted, List.replicate measurements.length false⟩
  let remaining := pass.objects.filter fun obj => !objectIsLost obj
  let objects ← forLoop pass.msNotAssigned.length
    (createOne pf f measurements pass.msNotAssigned) remaining
  some { t with objects := objects }

end Operations

end Tracker

/-- The trackers that calls of `init` and `track` with legal frames lead to. -/
inductive Reachable (pf : Platform P D φ) (legal : Frame κ → Prop) : Tracker κ φ P → Prop where
  | construct : Reachable pf legal Tracker.construct
  | init (f : Frame κ) (hlegal : legal f) (ht : Reachable pf legal t) :
      Reachable pf legal (t.init pf f)
  | track (f : Frame κ) (hlegal : legal f) (ht : Reachable pf legal t)
      (hrun : t.track pf f = some t') : Reachable pf legal t'

/-- One round of the loop in `main`, once the camera has adapted. -/
def mainRound (pf : Platform P D φ) (f : Frame κ) (t : Tracker κ φ P) : Option (Tracker κ φ P) :=
  if !t.wasInitialized then some (t.init pf f) else t.track pf f

/-- The tracker after round `k` of the loop in `main`. -/
def mainLoop (pf : Platform P D φ) (frames : Nat → Frame κ) : Nat → Option (Tracker κ φ P)
  | 0 => mainRound pf (frames 0) Tracker.construct
  | k + 1 => (mainLoop pf frames k).bind (mainRound pf (frames (k + 1)))

/-- The tracker after frame `k` of the run `init(frames 0)`, `track(frames 1)`, … -/
def after (pf : Platform P D φ) (frames : Nat → Frame κ) : Nat → Option (Tracker κ φ P)
  | 0 => some (Tracker.construct.init pf (frames 0))
  | k + 1 => (after pf frames k).bind fun t => t.track pf (frames (k + 1))

section Main
variable {pf : Platform P D φ} {frames : Nat → Frame κ} {t : Tracker κ φ P} {k : Nat}

theorem Tracker.track_initialized {f : Frame κ} {t' : Tracker κ φ P} (h : t.track pf f = some t') :
    t'.initialized = t.initialized := by
  unfold track at h
  simp only [Option.bind_eq_bind, Option.bind_eq_some_iff] at h
  rcases h with ⟨_, _, _, _, _, _, hresult⟩
  exact (Option.some.inj hresult) ▸ rfl

theorem initialized_of_after (h : after pf frames k = some t) : t.initialized = true := by
  induction k generalizing t with
  | zero =>
    cases h
    rfl
  | succ k ih =>
    rcases Option.bind_eq_some_iff.mp h with ⟨before, hbefore, htrack⟩
    exact (Tracker.track_initialized htrack).trans (ih hbefore)

/-- `main` calls `init` in its first round and `track` in all later ones. -/
theorem mainLoop_eq_after (pf : Platform P D φ) (frames : Nat → Frame κ) (k : Nat) :
    mainLoop pf frames k = after pf frames k := by
  induction k with
  | zero => rfl
  | succ k ih =>
    rw [mainLoop, after, ih]
    cases hafter : after pf frames k with
    | none => rfl
    | some t =>
      have hround : mainRound pf (frames (k + 1)) t = t.track pf (frames (k + 1)) := by
        unfold mainRound Tracker.wasInitialized
        rw [initialized_of_after hafter]
        rfl
      exact hround

theorem reachable_of_after {legal : Frame κ → Prop} (hlegal : ∀ k, legal (frames k))
    (h : after pf frames k = some t) : Reachable pf legal t := by
  induction k generalizing t with
  | zero =>
    cases h
    exact Reachable.init _ (hlegal 0) Reachable.construct
  | succ k ih =>
    rcases Option.bind_eq_some_iff.mp h with ⟨before, hbefore, htrack⟩
    exact Reachable.track _ (hlegal (k + 1)) (ih hbefore) htrack

end Main

end BlobTracking.Tracking
