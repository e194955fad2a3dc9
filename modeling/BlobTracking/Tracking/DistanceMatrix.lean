import BlobTracking.Library.BiasedOptimum
import BlobTracking.Tracking.Tracker

/-! The result of the two nested loops of `distance_matrix`, in closed form: the
scaled distances padded to a square with the running counter. The loops fault
on no input whose objects have a history. -/
namespace BlobTracking.Tracking
open Dlib Library OpenCV PaddedAssignment

/-- The last position of object `j`, which is its prediction once `predict` ran. -/
def lastPosition (objects : List (TrackObj κ φ P)) (j : Nat) : Option P :=
  objects[j]?.bind TrackObj.lastHistory

namespace Tracker

section ClosedForm
variable (pf : Platform P D φ)

def realEntry (measurements : List P) (objects : List (TrackObj κ φ P)) (i j : Nat) : Int :=
  match measurements[i]?, lastPosition objects j with
  | some z, some p => pf.toInt (pf.scale (-100) (pf.norm (pf.sub z p)))
  | _, _ => 0

/-- The matrix of `m` measurements and `n` objects with the given real entries. -/
def paddedMatrix (m n : Nat) (cost : Nat → Nat → Int) : CostMatrix :=
  ⟨max m n, max m n, fun i j =>
    if i < max m n ∧ j < max m n then padded m n cost i j else 0⟩

/-- The matrix when the loops have reached `(i,j)`. -/
def partialMatrix (max : Nat) (full : Nat → Nat → Int) (i j : Nat) : CostMatrix :=
  ⟨max, max, fun a b => if b < max ∧ (a < i ∨ a = i ∧ b < j) then full a b else 0⟩

theorem write_partialMatrix {max i j : Nat} (full : Nat → Nat → Int) (hi : i < max)
    (hj : j < max) :
    (partialMatrix max full i j).write i j (full i j) =
      some (partialMatrix max full i (j + 1)) := by
  rw [CostMatrix.write, if_pos ⟨hi, hj⟩]
  unfold partialMatrix
  congr 2
  funext a b
  by_cases hab : a = i ∧ b = j
  · obtain ⟨rfl, rfl⟩ := hab
    simp [hj]
  · rw [if_neg hab]
    dsimp only
    congr 1
    apply propext
    omega

theorem partialMatrix_row_end (max : Nat) (full : Nat → Nat → Int) (i : Nat) :
    partialMatrix max full i max = partialMatrix max full (i + 1) 0 := by
  unfold partialMatrix
  congr 1
  funext a b
  congr 1
  apply propext
  omega

variable {measurements : List P} {objects : List (TrackObj κ φ P)}

theorem exists_lastPosition (hobjects : ∀ obj ∈ objects, obj.history ≠ []) {j : Nat}
    (hj : j < objects.length) : ∃ obj p, objects[j]? = some obj ∧
      obj.lastHistory = some p ∧ lastPosition objects j = some p := by
  obtain ⟨p, hp⟩ := (objects[j]).exists_lastHistory (hobjects _ (List.getElem_mem hj))
  refine ⟨objects[j], p, List.getElem?_eq_getElem hj, hp, ?_⟩
  rw [lastPosition, List.getElem?_eq_getElem hj]
  exact hp

theorem fillEntry_partialMatrix (hobjects : ∀ obj ∈ objects, obj.history ≠ []) {i j : Nat}
    (hi : i < max measurements.length objects.length)
    (hj : j < max measurements.length objects.length) :
    fillEntry pf measurements objects i j
        (partialMatrix (max measurements.length objects.length)
          (padded measurements.length objects.length (realEntry pf measurements objects)) i j,
          padding measurements.length objects.length i j) =
      some (partialMatrix (max measurements.length objects.length)
          (padded measurements.length objects.length (realEntry pf measurements objects))
          i (j + 1),
        padding measurements.length objects.length i (j + 1)) := by
  have hwrite := write_partialMatrix (padded measurements.length objects.length
    (realEntry pf measurements objects)) hi hj
  unfold fillEntry
  by_cases hpadded : measurements.length ≤ i ∨ objects.length ≤ j
  · have hvalue : padded measurements.length objects.length
        (realEntry pf measurements objects) i j =
          padding measurements.length objects.length i j := if_neg (by omega)
    rw [hvalue] at hwrite
    simp only [ge_iff_le, Bool.or_eq_true, decide_eq_true_eq, hpadded, if_true, hwrite,
      Option.bind_eq_bind, Option.bind_some, padding_succ_of_padded hpadded]
  · push Not at hpadded
    obtain ⟨obj, p, hobj, hlast, hposition⟩ := exists_lastPosition hobjects hpadded.2
    have hz : measurements[i]? = some measurements[i] := List.getElem?_eq_getElem hpadded.1
    have hvalue : padded measurements.length objects.length
        (realEntry pf measurements objects) i j =
          pf.toInt (pf.scale (-100) (pf.norm (pf.sub measurements[i] p))) := by
      rw [padded, if_pos hpadded, realEntry, hz, hposition]
    rw [hvalue] at hwrite
    have hreal : ¬(measurements.length ≤ i ∨ objects.length ≤ j) := by omega
    simp only [ge_iff_le, Bool.or_eq_true, decide_eq_true_eq, hreal, if_false, hz, hobj, hlast,
      hwrite, Option.bind_eq_bind, Option.bind_some,
      padding_succ_of_real hpadded.1 hpadded.2]

theorem distanceMatrix_eq (hobjects : ∀ obj ∈ objects, obj.history ≠ []) :
    distanceMatrix pf measurements objects =
      some (paddedMatrix measurements.length objects.length
        (realEntry pf measurements objects)) := by
  let m := measurements.length
  let n := objects.length
  let full := padded m n (realEntry pf measurements objects)
  let before : Nat → Nat → CostMatrix × Int := fun i j =>
    (partialMatrix (max m n) full i j, padding m n i j)
  have hinner : ∀ i, i < max m n →
      forLoop (max m n) (fillEntry pf measurements objects i) (before i 0) =
        some (before (i + 1) 0) := by
    intro i hi
    have hrow := forLoop_eq_of_step (before i) (max m n) fun j hj =>
      fillEntry_partialMatrix pf hobjects hi hj
    rw [hrow]
    simp only [before, partialMatrix_row_end, padding_row_end]
  have houter := forLoop_eq_of_step (fun i => before i 0) (max m n) hinner
  have hstart : before 0 0 = (CostMatrix.create (max m n) (max m n), 1) := by
    simp [before, partialMatrix, CostMatrix.create, padding_zero]
  have hend : partialMatrix (max m n) full (max m n) 0 =
      paddedMatrix m n (realEntry pf measurements objects) := by
    unfold partialMatrix paddedMatrix
    congr 1
    funext a b
    congr 1
    apply propext
    omega
  have hmax : (if m > n then m else n) = max m n := by
    split <;> omega
  rw [hstart] at houter
  simp only [before, hend] at houter
  change (forLoop (if m > n then m else n)
    (fun i => forLoop (if m > n then m else n) (fillEntry pf measurements objects i))
    (CostMatrix.create (if m > n then m else n) (if m > n then m else n), 1)).bind
      (fun s => some s.1) = _
  rw [hmax, houter]
  rfl

theorem entry_paddedMatrix {m n : Nat} (cost : Nat → Nat → Int) (i j : Fin (max m n)) :
    (paddedMatrix m n cost).entry i j = padded m n cost i j :=
  if_pos ⟨i.isLt, j.isLt⟩

theorem permCost_paddedMatrix (m n : Nat) (cost : Nat → Nat → Int)
    (σ : Equiv.Perm (Fin (max m n))) :
    permCost (paddedMatrix m n cost) σ = ∑ i, padded m n cost i.val (σ i).val := by
  apply Finset.sum_congr rfl
  intro i _
  exact entry_paddedMatrix cost i (σ i)

end ClosedForm

end Tracker

end BlobTracking.Tracking
