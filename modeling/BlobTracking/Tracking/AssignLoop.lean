import BlobTracking.Tracking.DistanceMatrix

/-! The loop of `track` that hands measurements to objects. A measurement hits the
object it is assigned to when that is a real one inside the gate. Columns are
distinct, so an object is hit at most once, and the state after `k` iterations
is the predicted objects with the hits of the first `k` measurements. -/
namespace BlobTracking.Tracking
open Dlib Library OpenCV PaddedAssignment

namespace Tracker

section Assigned
variable (pf : Platform P D φ) (measurements : List P) (objects : List (TrackObj κ φ P))
  (assignments : List Int)

/-- The object that measurement `i` corrects, if any. -/
def hit (i : Nat) : Option Nat := do
  let assig ← assignments[i]?
  let measurement ← measurements[i]?
  let last ← lastPosition objects assig.toNat
  if assig < 0 || pf.exceeds (pf.norm (pf.sub last measurement)) tresh then none
  else some assig.toNat

def hitBy (k j : Nat) : Option Nat :=
  (List.range k).find? fun i => hit pf measurements objects assignments i == some j

/-- Object `j` after the first `k` measurements. -/
def correctedObject (k j : Nat) (obj : TrackObj κ φ P) : TrackObj κ φ P :=
  match (hitBy pf measurements objects assignments k j).bind fun i => measurements[i]? with
  | some z => obj.correct pf.toFilterOps z
  | none => obj

/-- The loop state after the first `k` measurements. -/
def passAfter (k : Nat) : Pass κ φ P where
  objects := objects.mapIdx fun j obj =>
    correctedObject pf measurements objects assignments k j obj
  msNotAssigned := (List.range measurements.length).map fun i =>
    decide (i < k) && (hit pf measurements objects assignments i).isNone

end Assigned

section AssignLoop
variable {pf : Platform P D φ} {measurements : List P} {objects : List (TrackObj κ φ P)}
  {assignments : List Int}

theorem hit_eq_some_iff {i j : Nat} :
    hit pf measurements objects assignments i = some j ↔
      assignments[i]? = some (j : Int) ∧ ∃ z p, measurements[i]? = some z ∧
        lastPosition objects j = some p ∧
        pf.exceeds (pf.norm (pf.sub p z)) tresh = false := by
  unfold hit
  simp only [Option.bind_eq_bind, Option.bind_eq_some_iff]
  constructor
  · rintro ⟨assig, hassig, z, hz, p, hp, hif⟩
    split at hif
    · cases hif
    · rename_i hcond
      simp only [Bool.or_eq_true, decide_eq_true_eq, not_or, not_lt, Bool.not_eq_true] at hcond
      cases hif
      have hnat : ((assig.toNat : Nat) : Int) = assig := Int.toNat_of_nonneg hcond.1
      exact ⟨by rw [hassig, hnat], z, p, hz, hp, hcond.2⟩
  · rintro ⟨hassig, z, p, hz, hp, hgate⟩
    refine ⟨j, hassig, z, hz, p, by simpa using hp, ?_⟩
    rw [if_neg (by simp [hgate])]
    simp

theorem lt_of_hit {i j : Nat} (h : hit pf measurements objects assignments i = some j) :
    i < measurements.length ∧ j < objects.length := by
  obtain ⟨_, z, p, hz, hp, _⟩ := hit_eq_some_iff.mp h
  have hobj := (Option.bind_eq_some_iff.mp hp).choose_spec.1
  exact ⟨(List.getElem?_eq_some_iff.mp hz).1, (List.getElem?_eq_some_iff.mp hobj).1⟩

theorem hit_injective (hnodup : assignments.Nodup) {i i' j : Nat}
    (h : hit pf measurements objects assignments i = some j)
    (h' : hit pf measurements objects assignments i' = some j) : i = i' := by
  have hi := (hit_eq_some_iff.mp h).1
  have hi' := (hit_eq_some_iff.mp h').1
  exact (List.getElem?_inj (List.getElem?_eq_some_iff.mp hi).1 hnodup).mp (hi.trans hi'.symm)

theorem hitBy_succ (k j : Nat) :
    hitBy pf measurements objects assignments (k + 1) j =
      (hitBy pf measurements objects assignments k j).or
        (if hit pf measurements objects assignments k = some j then some k else none) := by
  unfold hitBy
  rw [List.range_succ, List.find?_append, List.find?_singleton]
  simp only [beq_iff_eq]

theorem hitBy_eq_some (hnodup : assignments.Nodup) {k i j : Nat} :
    hitBy pf measurements objects assignments k j = some i ↔
      i < k ∧ hit pf measurements objects assignments i = some j := by
  constructor
  · intro h
    have hmem := List.mem_range.mp (List.mem_of_find?_eq_some h)
    exact ⟨hmem, by simpa using List.find?_some h⟩
  · rintro ⟨hik, hhit⟩
    cases hfind : hitBy pf measurements objects assignments k j with
    | none =>
      have hnone := List.find?_eq_none.mp hfind i (List.mem_range.mpr hik)
      simp [hhit] at hnone
    | some i' =>
      have hhit' : hit pf measurements objects assignments i' = some j := by
        simpa using List.find?_some hfind
      rw [hit_injective hnodup hhit' hhit]

theorem correctedObject_succ_of_ne {k j : Nat} (obj : TrackObj κ φ P)
    (h : hit pf measurements objects assignments k ≠ some j) :
    correctedObject pf measurements objects assignments (k + 1) j obj =
      correctedObject pf measurements objects assignments k j obj := by
  unfold correctedObject
  rw [hitBy_succ, if_neg h, Option.or_none]

theorem correctedObject_of_hit (hnodup : assignments.Nodup) {k i j : Nat} {z : P}
    (obj : TrackObj κ φ P) (h : hit pf measurements objects assignments i = some j)
    (hik : i < k) (hz : measurements[i]? = some z) :
    correctedObject pf measurements objects assignments k j obj =
      obj.correct pf.toFilterOps z := by
  unfold correctedObject
  rw [(hitBy_eq_some hnodup).mpr ⟨hik, h⟩, Option.bind_some, hz]

theorem correctedObject_of_no_hit {k j : Nat} (obj : TrackObj κ φ P)
    (h : ∀ i, i < k → hit pf measurements objects assignments i ≠ some j) :
    correctedObject pf measurements objects assignments k j obj = obj := by
  have hnone : hitBy pf measurements objects assignments k j = none := by
    apply List.find?_eq_none.mpr
    intro i hi
    simpa using h i (List.mem_range.mp hi)
  unfold correctedObject
  rw [hnone, Option.bind_none]

@[simp] theorem correctedObject_history (k j : Nat) (obj : TrackObj κ φ P) :
    (correctedObject pf measurements objects assignments k j obj).history = obj.history := by
  unfold correctedObject
  split <;> rfl

@[simp] theorem correctedObject_lastHistory (k j : Nat) (obj : TrackObj κ φ P) :
    (correctedObject pf measurements objects assignments k j obj).lastHistory =
      obj.lastHistory := by
  unfold correctedObject
  split <;> rfl

@[simp] theorem correctedObject_color (k j : Nat) (obj : TrackObj κ φ P) :
    (correctedObject pf measurements objects assignments k j obj).color = obj.color := by
  unfold correctedObject
  split <;> rfl

theorem passAfter_zero : passAfter pf measurements objects assignments 0 =
    ⟨objects, List.replicate measurements.length false⟩ := by
  have hobjects : ∀ (j : Nat) (obj : TrackObj κ φ P),
      correctedObject pf measurements objects assignments 0 j obj = obj :=
    fun j obj => correctedObject_of_no_hit obj fun i hi => absurd hi (Nat.not_lt_zero i)
  apply Pass.ext
  · apply List.ext_getElem?
    intro j
    simp [passAfter, hobjects]
  · simp [passAfter, List.map_const']

theorem write_msNotAssigned {i : Nat} (hi : i < measurements.length)
    (hnone : hit pf measurements objects assignments i = none) :
    write (passAfter pf measurements objects assignments i).msNotAssigned i true =
      some (passAfter pf measurements objects assignments (i + 1)).msNotAssigned := by
  rw [write_of_lt (by simpa [passAfter] using hi)]
  congr 1
  apply List.ext_getElem
  · simp [passAfter]
  · intro k hk hk'
    simp only [passAfter, List.getElem_set, List.getElem_map, List.getElem_range]
    by_cases hik : i = k
    · subst hik
      simp [hnone]
    · rw [if_neg hik]
      congr 1
      simp only [decide_eq_decide]
      omega

theorem passAfter_succ_of_no_hit {i : Nat}
    (hnone : hit pf measurements objects assignments i = none) :
    passAfter pf measurements objects assignments (i + 1) =
      { passAfter pf measurements objects assignments i with
        msNotAssigned := (passAfter pf measurements objects assignments (i + 1)).msNotAssigned } := by
  apply Pass.ext
  · apply List.ext_getElem?
    intro j
    simp only [passAfter, List.getElem?_mapIdx]
    congr 1
    funext obj
    exact correctedObject_succ_of_ne obj (by rw [hnone]; rintro ⟨⟩)
  · rfl

theorem passAfter_succ_of_hit (hnodup : assignments.Nodup) {i j : Nat} {z : P}
    {obj : TrackObj κ φ P} (hobj : objects[j]? = some obj)
    (hhit : hit pf measurements objects assignments i = some j)
    (hz : measurements[i]? = some z) :
    passAfter pf measurements objects assignments (i + 1) =
      { passAfter pf measurements objects assignments i with
        objects := (passAfter pf measurements objects assignments i).objects.set j
          (obj.correct pf.toFilterOps z) } := by
  apply Pass.ext
  · apply List.ext_getElem?
    intro k
    simp only [passAfter, List.getElem?_set, List.getElem?_mapIdx, List.length_mapIdx]
    by_cases hjk : j = k
    · subst hjk
      rw [if_pos rfl, if_pos (List.getElem?_eq_some_iff.mp hobj).1, hobj, Option.map_some,
        correctedObject_of_hit hnodup obj hhit (Nat.lt_succ_self i) hz]
    · rw [if_neg hjk]
      congr 1
      funext other
      apply correctedObject_succ_of_ne
      rw [hhit]
      simpa using hjk
  · apply List.map_congr_left
    intro k _
    by_cases hik : i = k
    · subst hik
      simp [hhit]
    · congr 1
      simp only [decide_eq_decide]
      omega

/-- A measurement whose column is padding hits nothing. -/
theorem hit_eq_none_of_padding {i column : Nat} (hassig : assignments[i]? = some (column : Int))
    (hlarge : objects.length ≤ column) : hit pf measurements objects assignments i = none := by
  rw [Option.eq_none_iff_forall_not_mem]
  intro j hj
  have hcol := (hit_eq_some_iff.mp hj).1
  have hlt := (lt_of_hit hj).2
  rw [hassig] at hcol
  simp only [Option.some.injEq, Nat.cast_inj] at hcol
  omega

/-- A measurement outside the gate of its object hits nothing. -/
theorem hit_eq_none_of_far {i column : Nat} {z p : P}
    (hassig : assignments[i]? = some (column : Int)) (hz : measurements[i]? = some z)
    (hp : lastPosition objects column = some p)
    (hfar : pf.exceeds (pf.norm (pf.sub p z)) tresh = true) :
    hit pf measurements objects assignments i = none := by
  rw [Option.eq_none_iff_forall_not_mem]
  intro j hj
  rcases hit_eq_some_iff.mp hj with ⟨hcol, z', q, hz', hq, hnear⟩
  rw [hassig] at hcol
  simp only [Option.some.injEq, Nat.cast_inj] at hcol
  rw [← hcol, hp] at hq
  rw [hz] at hz'
  cases hq
  cases hz'
  rw [hfar] at hnear
  cases hnear

theorem assignOne_passAfter (hobjects : ∀ obj ∈ objects, obj.history ≠ [])
    (hassign : IsAssignment (max measurements.length objects.length) assignments) {i : Nat}
    (hi : i < measurements.length) :
    assignOne pf measurements assignments i (passAfter pf measurements objects assignments i) =
      some (passAfter pf measurements objects assignments (i + 1)) := by
  let column := hassign.toPerm ⟨i, by omega⟩
  have hassig : assignments[i]? = some (column.val : Int) := hassign.getElem?_eq ⟨i, by omega⟩
  have hz : measurements[i]? = some measurements[i] := List.getElem?_eq_getElem hi
  have hsize : (passAfter pf measurements objects assignments i).objects.length =
      objects.length := by simp [passAfter]
  unfold assignOne
  simp only [hassig, Option.bind_eq_bind, Option.bind_some, hsize, Int.toNat_natCast, hz]
  have hsign : ¬ (column.val : Int) < 0 := by omega
  by_cases hlarge : objects.length ≤ column.val
  · have hnone : hit pf measurements objects assignments i = none :=
      hit_eq_none_of_padding hassig hlarge
    rw [if_pos (by simpa using Or.inr hlarge), write_msNotAssigned hi hnone, Option.bind_some,
      ← passAfter_succ_of_no_hit hnone]
  · rcases exists_lastPosition hobjects (Nat.lt_of_not_le hlarge) with
      ⟨obj, p, hobj, hlast, hposition⟩
    have hcurrent : (passAfter pf measurements objects assignments i).objects[column.val]? =
        some (correctedObject pf measurements objects assignments i column.val obj) := by
      simp [passAfter, hobj]
    rw [if_neg (by simpa [hsign] using Nat.lt_of_not_le hlarge)]
    simp only [hcurrent, Option.bind_some, correctedObject_lastHistory, hlast]
    by_cases hgate : pf.exceeds (pf.norm (pf.sub p measurements[i])) tresh = true
    · have hnone := hit_eq_none_of_far hassig hz hposition hgate
      rw [if_pos hgate, write_msNotAssigned hi hnone, Option.bind_some,
        ← passAfter_succ_of_no_hit hnone]
    · have hhit : hit pf measurements objects assignments i = some column.val :=
        hit_eq_some_iff.mpr ⟨hassig, _, p, hz, hposition, by simpa using hgate⟩
      -- nobody has corrected this object before: assignments do not repeat a column
      have hfresh : correctedObject pf measurements objects assignments i column.val obj =
          obj := by
        apply correctedObject_of_no_hit
        intro k hk hhit'
        exact absurd (hit_injective hassign.nodup hhit' hhit) (by omega)
      rw [if_neg hgate, hfresh, write_of_lt (by omega), Option.bind_some,
        ← passAfter_succ_of_hit hassign.nodup hobj hhit hz]

theorem assignLoop_eq (hobjects : ∀ obj ∈ objects, obj.history ≠ [])
    (hassign : IsAssignment (max measurements.length objects.length) assignments) :
    forLoop measurements.length (assignOne pf measurements assignments)
        ⟨objects, List.replicate measurements.length false⟩ =
      some (passAfter pf measurements objects assignments measurements.length) := by
  have hloop := forLoop_eq_of_step (passAfter pf measurements objects assignments) _ fun i hi =>
    assignOne_passAfter hobjects hassign hi
  rw [passAfter_zero] at hloop
  exact hloop

end AssignLoop

end Tracker

end BlobTracking.Tracking
