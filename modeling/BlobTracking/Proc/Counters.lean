import BlobTracking.Proc.BlobDetector
import BlobTracking.Proc.CameraLoop
import BlobTracking.Proc.InteractiveObject

/-! The two programs that only print a number: hands above a line, or circles in
the image. Both have eleven characters for their text, which is one short for a
thousand hands and for a hundred circles. -/
namespace BlobTracking.Proc
open OpenCV

/-- A program that prints one text for each frame handed to it, if the frame has the part that
it looks at. -/
structure Display (ι : Type) where
  cropped : ι → Bool
  text : ι → List Char
  conversion : Conversion

namespace Display

/-- The state is the text that was printed last. -/
def program (display : Display ι) : Program (Option (List Char)) ι where
  process frame _ :=
    if display.cropped frame then
      (sprintf 11 (display.text frame)).map fun shown => (some shown, false)
    else none
  finished _ := false
  conversion := display.conversion

section Runs
variable {display : Display ι} {begin : Int} {its : Nat → Iteration ι} {n : Nat}

theorem process_eq_none_iff {frame : ι} {shown : Option (List Char)} :
    display.program.process frame shown = none ↔
      display.cropped frame = false ∨ ¬(display.text frame).length < 11 := by
  unfold program
  dsimp only
  cases display.cropped frame with
  | true => simp [sprintf_eq_none_iff]
  | false => simp

theorem process_eq_some {frame : ι} {shown : Option (List Char)}
    {result : Option (List Char) × Bool}
    (h : display.program.process frame shown = some result) :
    result = (some (display.text frame), false) := by
  unfold program at h
  dsimp only at h
  split at h
  · obtain ⟨printed, hprinted, hresult⟩ := Option.map_eq_some_iff.mp h
    unfold sprintf at hprinted
    split at hprinted
    · rw [← hresult, ← Option.some.inj hprinted]
    · cases hprinted
  · cases h

theorem work_eq {frames : List ι} {before after : Option (List Char)}
    (h : display.program.work before frames = some after) :
    after = (frames.getLast?.map display.text).or before := by
  unfold Program.work at h
  induction frames generalizing before with
  | nil =>
    cases h
    rfl
  | cons frame rest ih =>
    rw [List.foldlM_cons] at h
    obtain ⟨shown, hprocess, hrest⟩ := Option.bind_eq_some_iff.mp h
    obtain ⟨result, hresult, hshown⟩ := Option.map_eq_some_iff.mp hprocess
    rw [process_eq_some hresult] at hshown
    rw [ih hrest, List.getLast?_cons, ← hshown]
    cases rest.getLast? with
    | none => rfl
    | some last => rfl

/-- The text of the last frame handed over was printed last, and a frame faults exactly if it
cannot be cropped or its own text does not fit. -/
theorem run (display : Display ι) (begin : Int) (its : Nat → Iteration ι) (n : Nat) :
    (∀ outcome, runLoop display.program begin none its n = some outcome →
      outcome.app = (processed display.program begin none its n).getLast?.map display.text) ∧
    ∀ camera, runLoop display.program begin none its n = some (.running camera) →
      (runLoop display.program begin none its (n + 1) = none ↔
        camera.camAdapted = true ∧
          (display.cropped (its n).frame = false ∨ ¬(display.text (its n).frame).length < 11) ∨
        camera.camAdapted = false ∧
          (its n).checkTime - camera.camAdaptationStartTime ≤ adaptationTimeSec ∧
          OverlongCountdown display.conversion
            ((its n).textTime - camera.camAdaptationStartTime)) := by
  refine ⟨fun outcome h => ?_, fun camera h => ?_⟩
  · have hlast := work_eq (runLoop_app h)
    rw [Option.or_none] at hlast
    exact hlast
  · cases hadapted : camera.camAdapted with
    | true =>
      rw [runLoop_succ_eq_none_iff_of_adapted h hadapted, process_eq_none_iff]
      simp
    | false =>
      rw [runLoop_succ_eq_none_iff_of_idle h hadapted]
      simp [program]

end Runs

end Display

namespace HandCounter

/-- A frame, and the contours that are found in its upper strip. -/
structure Frame where
  size : Size
  contours : List (List Point)

/-- The hulls of a frame, as the detector keeps them. -/
def hands (convexHull : List Point → List Point) (contours : List (List Point)) : Nat :=
  ((BlobDetector.construct 600).findBlobs convexHull contours).getBlobs.length

/-- `"Votos: %02d"` of a `size_t`. -/
def text (convexHull : List Point → List Point) (contours : List (List Point)) : List Char :=
  "Votos: ".toList ++ twoDigits (Conversion.d.read (hands convexHull contours))

def display (convexHull : List Point → List Point) : Display Frame where
  cropped frame := (Rect.upperStrip frame.size).within frame.size
  text frame := text convexHull frame.contours
  conversion := .d

end HandCounter

namespace ObjectCounter

/-- `"%lu objetos"` of the number of circles. -/
def text (circles : UInt64) : List Char := decimal circles.toNat ++ " objetos".toList

/-- This program looks at the whole image, and prints its countdown with `%ld`. -/
def display : Display UInt64 := ⟨fun _ => true, text, .ld⟩

/-- A camera that adapts in its first iteration and again after the second, while the clock goes
wrong. -/
def restartedCamera : Nat → Iteration UInt64
  | 0 => ⟨7, 104, 104, 104, -1⟩
  | 1 => ⟨7, 105, 105, 106, 32⟩
  | _ => ⟨7, 107, 130, 130, -1⟩

/-- The space key starts the three seconds again, and the next countdown is too long. -/
theorem camera_adaptation_restarted :
    (∃ m,
      (Library.WarmUp.lastStart 100 (restart display.program 100 none restartedCamera) 1).1 ≤ m ∧
      m < 1 ∧ adaptationTimeSec < (restartedCamera m).checkTime -
        (Library.WarmUp.lastStart 100 (restart display.program 100 none restartedCamera) 1).2) ∧
    runLoop display.program 100 none restartedCamera 3 = none :=
  ⟨(camera_adaptation display.program 100 none restartedCamera 1 ⟨true, 100, none⟩ rfl).1.mp rfl,
    ((camera_adaptation display.program 100 none restartedCamera 2
      ⟨false, 106, some (text 7)⟩ rfl).2 rfl).mpr (by decide)⟩

end ObjectCounter

end BlobTracking.Proc
