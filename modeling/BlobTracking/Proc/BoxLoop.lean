import BlobTracking.Proc.CameraLoop
import BlobTracking.Proc.ExclusiveBoxes

/-! The boxes of a program under the camera loop: they see exactly the frames that
are handed over, so an iteration presses at most one of them, and none while the
camera adapts. -/
namespace BlobTracking.Proc
open Library

section Defs
variable (program : Program σ (BoxFrame m)) (boxes : Fin m → InteractiveObject) (begin : Int)
  (app : σ) (its : Nat → Iteration (BoxFrame m))

/-- The boxes before iteration `n`, as the frames handed over leave them. -/
def boxesAt (n : Nat) : Fin m → InteractiveObject :=
  boxesAfter boxes (handed program begin app its n) (processed program begin app its n).length

/-- The boxes pressed before iteration `n`, in order. -/
def pressed (n : Nat) : List (Fin m) :=
  presses boxes (handed program begin app its n) (processed program begin app its n).length

end Defs

section Steps
variable {program : Program σ (BoxFrame m)} {boxes : Fin m → InteractiveObject} {begin : Int}
  {app : σ} {its : Nat → Iteration (BoxFrame m)} {n : Nat} {camera : Camera σ}

theorem pressed_isPrefix (program : Program σ (BoxFrame m)) (boxes : Fin m → InteractiveObject)
    (begin : Int) (app : σ) (its : Nat → Iteration (BoxFrame m)) {n n' : Nat} (h : n ≤ n') :
    pressed program boxes begin app its n <+: pressed program boxes begin app its n' := by
  have hlength := (processed_isPrefix program begin app its h).length_le
  unfold pressed
  rw [presses_congr fun i hi => handed_eq_of_le program begin app its h hi]
  exact presses_isPrefix boxes _ hlength

theorem boxesAt_succ_of_adapted (h : runLoop program begin app its n = some (.running camera))
    (hadapted : camera.camAdapted = true) :
    boxesAt program boxes begin app its (n + 1) =
        boxMember.round (boxesAt program boxes begin app its n) (its n).frame.inputs ∧
      pressed program boxes begin app its (n + 1) = pressed program boxes begin app its n ++
        boxMember.announced (boxesAt program boxes begin app its n) (its n).frame.inputs := by
  have hlength : (processed program begin app its (n + 1)).length =
      (processed program begin app its n).length + 1 := by
    rw [processed_succ_of_adapted h hadapted, List.length_append, List.length_singleton]
  have hlast : handed program begin app its (n + 1)
      (processed program begin app its n).length = (its n).frame := by
    unfold handed
    rw [processed_succ_of_adapted h hadapted]
    simp
  have hbefore : ∀ i, i < (processed program begin app its n).length →
      handed program begin app its (n + 1) i = handed program begin app its n i := fun i hi =>
    (handed_eq_of_le program begin app its n.le_succ hi).symm
  have hboxes : boxesAfter boxes (handed program begin app its (n + 1))
      (processed program begin app its n).length =
        boxesAfter boxes (handed program begin app its n)
          (processed program begin app its n).length := boxesAfter_congr hbefore
  constructor
  · funext k
    unfold boxesAt
    rw [hlength, boxesAfter_succ, hboxes, hlast]
    rfl
  · unfold pressed boxesAt
    rw [hlength, presses_succ, presses_congr hbefore, hboxes, hlast]

theorem boxesAt_succ_cases (program : Program σ (BoxFrame m)) (boxes : Fin m → InteractiveObject)
    (begin : Int) (app : σ) (its : Nat → Iteration (BoxFrame m)) (n : Nat) :
    (boxesAt program boxes begin app its (n + 1) = boxesAt program boxes begin app its n ∧
        pressed program boxes begin app its (n + 1) = pressed program boxes begin app its n) ∨
      ∃ camera, runLoop program begin app its n = some (.running camera) ∧
        camera.camAdapted = true := by
  refine (processed_succ_cases program begin app its n).imp_left fun hsame => ?_
  unfold boxesAt pressed handed
  rw [hsame]
  exact ⟨rfl, rfl⟩

theorem activeCount_boxesAt (hboxes : boxMember.activeCount boxes ≤ 1) (n : Nat) :
    boxMember.activeCount (boxesAt program boxes begin app its n) ≤ 1 :=
  Member.activeCount_after_le hboxes _

theorem length_pressed_succ_le (hboxes : boxMember.activeCount boxes ≤ 1) (n : Nat) :
    (pressed program boxes begin app its (n + 1)).length ≤
      (pressed program boxes begin app its n).length + 1 := by
  cases boxesAt_succ_cases program boxes begin app its n with
  | inl hsame =>
    rw [hsame.2]
    exact Nat.le_succ _
  | inr hadapted =>
    obtain ⟨camera, h, hadapted⟩ := hadapted
    rw [(boxesAt_succ_of_adapted h hadapted).2, List.length_append]
    exact Nat.add_le_add_left (Member.length_announced_le (activeCount_boxesAt hboxes n) _) _

end Steps

end BlobTracking.Proc
