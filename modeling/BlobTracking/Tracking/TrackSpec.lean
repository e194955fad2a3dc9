import BlobTracking.Tracking.AssignLoop

/-! One call of `track` in closed form: the predicted objects with their
corrections, less the lost ones, followed by one new object for each measurement
that hit none. The solver is only assumed to return some permutation. -/
namespace BlobTracking.Tracking
open Dlib Library OpenCV PaddedAssignment

def Frame.measurements (pf : Platform P D φ) (f : Frame κ) : List P :=
  f.blobs.map pf.getBlobCentroid

@[simp] theorem Frame.length_measurements (pf : Platform P D φ) (f : Frame κ) :
    (f.measurements pf).length = f.blobs.length := List.length_map ..

namespace Tracker

section Views
variable (pf : Platform P D φ) (f : Frame κ) (t : Tracker κ φ P)

def predicted : List (TrackObj κ φ P) := t.objects.map (TrackObj.predict pf.toFilterOps)

/-- What the solver returns for the matrix of this call. -/
def assignments : List Int :=
  ((distanceMatrix pf (f.measurements pf) (t.predicted pf)).map f.maxCostAssignment).getD []

/-- The object that measurement `i` corrects in this call. -/
def corrects (i : Nat) : Option Nat :=
  hit pf (f.measurements pf) (t.predicted pf) (t.assignments pf f) i

def corrected : List (TrackObj κ φ P) :=
  (t.predicted pf).mapIdx fun j obj =>
    correctedObject pf (f.measurements pf) (t.predicted pf) (t.assignments pf f)
      f.blobs.length j obj

def survivors : List (TrackObj κ φ P) := (t.corrected pf f).filter fun obj => !objectIsLost obj

/-- The object created for measurement `i`, if it corrected none. -/
def createdFor (i : Nat) : Option (TrackObj κ φ P) :=
  if t.corrects pf f i = none then
    ((f.measurements pf)[i]?).map (TrackObj.construct pf.toFilterOps (f.randomColor i))
  else none

def created : List (TrackObj κ φ P) := (List.range f.blobs.length).filterMap (t.createdFor pf f)

end Views

section Closed
variable {pf : Platform P D φ} {f : Frame κ} {t : Tracker κ φ P}

theorem predicted_history_ne_nil : ∀ obj ∈ t.predicted pf, obj.history ≠ [] := by
  intro obj hobj
  obtain ⟨before, _, rfl⟩ := List.mem_map.mp hobj
  exact before.predict_history_ne_nil pf.toFilterOps

@[simp] theorem length_predicted : (t.predicted pf).length = t.objects.length :=
  List.length_map ..

@[simp] theorem length_corrected : (t.corrected pf f).length = t.objects.length := by
  simp [corrected]

theorem distanceMatrix_predicted :
    distanceMatrix pf (f.measurements pf) (t.predicted pf) =
      some (paddedMatrix f.blobs.length t.objects.length
        (realEntry pf (f.measurements pf) (t.predicted pf))) := by
  rw [distanceMatrix_eq pf predicted_history_ne_nil, Frame.length_measurements, length_predicted]

theorem assignments_eq : t.assignments pf f =
    f.maxCostAssignment (paddedMatrix f.blobs.length t.objects.length
      (realEntry pf (f.measurements pf) (t.predicted pf))) := by
  rw [assignments, distanceMatrix_predicted]
  rfl

theorem isAssignment_assignments (hsolve : f.maxCostAssignment.Permutes) :
    IsAssignment (max f.blobs.length t.objects.length) (t.assignments pf f) := by
  rw [assignments_eq]
  exact hsolve (paddedMatrix f.blobs.length t.objects.length
    (realEntry pf (f.measurements pf) (t.predicted pf))) rfl

theorem createdFor_eq_none_of_corrects {i j : Nat} (h : t.corrects pf f i = some j) :
    t.createdFor pf f i = none := by
  rw [createdFor, h]
  exact if_neg (by rintro ⟨⟩)

theorem createLoop_eq (remaining : List (TrackObj κ φ P)) :
    forLoop f.blobs.length
        (createOne pf f (f.measurements pf)
          ((List.range f.blobs.length).map fun i =>
            decide (i < f.blobs.length) && (t.corrects pf f i).isNone)) remaining =
      some (remaining ++ t.created pf f) := by
  let flags := (List.range f.blobs.length).map fun i =>
    decide (i < f.blobs.length) && (t.corrects pf f i).isNone
  let after : Nat → List (TrackObj κ φ P) := fun k =>
    remaining ++ (List.range k).filterMap (t.createdFor pf f)
  have hstep : ∀ i, i < f.blobs.length →
      createOne pf f (f.measurements pf) flags i (after i) = some (after (i + 1)) := by
    intro i hi
    have hz : (f.measurements pf)[i]? =
        some ((f.measurements pf).get ⟨i, by simpa using hi⟩) := by simp
    have hflag : flags[i]? = some (t.corrects pf f i).isNone := by simp [flags, hi]
    unfold createOne
    simp only [hflag, Option.bind_eq_bind, Option.bind_some, after, List.range_succ,
      List.filterMap_append, ← List.append_assoc]
    cases hcorrects : t.corrects pf f i with
    | none =>
      have hcreated : t.createdFor pf f i = some (TrackObj.construct pf.toFilterOps
          (f.randomColor i) ((f.measurements pf).get ⟨i, by simpa using hi⟩)) := by
        rw [createdFor, if_pos hcorrects, hz, Option.map_some]
      simp only [hz, Option.isNone_none, if_true, Option.bind_some]
      simp [hcreated]
    | some j =>
      simp [createdFor_eq_none_of_corrects hcorrects]
  have hloop := forLoop_eq_of_step after f.blobs.length hstep
  simpa [after, created] using hloop

theorem track_eq_bind : t.track pf f =
    (distanceMatrix pf (f.measurements pf) (t.predicted pf)).bind fun costMatrix =>
      (forLoop (f.measurements pf).length
        (assignOne pf (f.measurements pf) (f.maxCostAssignment costMatrix))
        ⟨t.predicted pf, List.replicate (f.measurements pf).length false⟩).bind fun pass =>
      (forLoop pass.msNotAssigned.length
        (createOne pf f (f.measurements pf) pass.msNotAssigned)
        (pass.objects.filter fun obj => !objectIsLost obj)).bind fun objects =>
      some { t with objects := objects } := rfl

/-- What one call of `track` does, on every path and for every permutation. -/
theorem track_eq (hsolve : f.maxCostAssignment.Permutes) :
    t.track pf f = some { t with objects := t.survivors pf f ++ t.created pf f } := by
  have hassign : forLoop (f.measurements pf).length
      (assignOne pf (f.measurements pf) (t.assignments pf f))
      ⟨t.predicted pf, List.replicate (f.measurements pf).length false⟩ =
        some (passAfter pf (f.measurements pf) (t.predicted pf) (t.assignments pf f)
          (f.measurements pf).length) :=
    assignLoop_eq predicted_history_ne_nil (by simpa using isAssignment_assignments hsolve)
  rw [assignments_eq] at hassign
  rw [track_eq_bind, distanceMatrix_predicted, Option.bind_some, hassign, Option.bind_some,
    ← assignments_eq]
  dsimp only [passAfter]
  rw [List.length_map, List.length_range, Frame.length_measurements]
  change (forLoop f.blobs.length (createOne pf f (f.measurements pf)
    ((List.range f.blobs.length).map fun i =>
      decide (i < f.blobs.length) && (t.corrects pf f i).isNone)) (t.survivors pf f)).bind _ = _
  rw [createLoop_eq]
  rfl

end Closed

end Tracker

end BlobTracking.Tracking
