import BlobTracking.OpenCV.Polygon
import BlobTracking.Proc.Text

/-! The hand counter without a camera adaptation: a line that two keys move up and
down, and the large hulls that reach it from above. The line starts at row 150 and
never leaves the image, unless the image ends above it from the start. -/
namespace BlobTracking.Proc
open OpenCV

/-- What one iteration reads: the height of the frame, the contours above the line, a key. -/
structure BgIteration where
  rows : Int
  contoursActual : List (List Point)
  key : Int

structure BgRemoval where
  height : Int
  /-- The number that was shown last. -/
  id : List Char

namespace BgRemoval

inductive Outcome where
  | running (s : BgRemoval)
  | exited

section Iterate
variable (convexHull : List Point → List Point)

def hullActual (contours : List (List Point)) : List (List Point) :=
  contours.map fun contour => if polygonArea contour > 500 then convexHull contour else []

/-- The inner loop, which is left at the first point near the line. -/
def reaches (height : Int) (hull : List Point) : Bool :=
  hull.any fun point => point.y < height && point.y > height - 10

def counter (height : Int) (hulls : List (List Point)) : Nat :=
  hulls.foldl (fun counter hull => if reaches height hull then counter + 1 else counter) 0

/-- The arrow keys. -/
def moveLine (rows key height : Int) : Int :=
  let height := if key % 65536 = 0xFF52 then
      if height - 3 < 0 then 0 else height - 3
    else height
  if key % 65536 = 0xFF54 then
    if height + 4 > rows then rows else height + 4
  else height

/-- The part of the image above the line must lie in the image. -/
def iterate (it : BgIteration) (s : BgRemoval) : Option Outcome :=
  if 0 ≤ s.height ∧ s.height ≤ it.rows then do
    let id ← sprintf 10 (twoDigits (Conversion.d.read
      (counter s.height (hullActual convexHull it.contoursActual))))
    if it.key % 256 = 27 then some .exited
    else some (.running ⟨moveLine it.rows it.key s.height, id⟩)
  else none

def run (its : Nat → BgIteration) : Nat → Option Outcome
  | 0 => some (.running ⟨150, []⟩)
  | n + 1 => (run its n).bind fun outcome => match outcome with
    | .running s => iterate convexHull (its n) s
    | .exited => some .exited

end Iterate

/-- The hulls with a point near the line. -/
theorem counter_eq (height : Int) (hulls : List (List Point)) :
    counter height hulls = hulls.countP (reaches height) := by
  have hfold : ∀ start, hulls.foldl (fun counter hull =>
      if reaches height hull then counter + 1 else counter) start =
        start + hulls.countP (reaches height) := by
    induction hulls with
    | nil => exact fun start => rfl
    | cons hull rest ih =>
      intro start
      rw [List.foldl_cons, ih, List.countP_cons]
      split <;> omega
  unfold counter
  rw [hfold, Nat.zero_add]

theorem moveLine_between {rows height : Int} (h : 0 ≤ height ∧ height ≤ rows) (key : Int) :
    0 ≤ moveLine rows key height ∧ moveLine rows key height ≤ rows := by
  unfold moveLine
  dsimp only
  split <;> split <;> (try split) <;> omega

section Runs
variable {convexHull : List Point → List Point} {rows : Int} {contours : Nat → List (List Point)}
  {keys : Nat → Int} {n : Nat} {s : BgRemoval}

/-- A camera whose frames all have `rows` rows. -/
def camera (rows : Int) (contours : Nat → List (List Point)) (keys : Nat → Int) (i : Nat) :
    BgIteration :=
  ⟨rows, contours i, keys i⟩

/-- What the number on the screen stands for. -/
def near (convexHull : List Point → List Point) (height : Int) (contours : List (List Point)) :
    Int :=
  Conversion.d.read ((hullActual convexHull contours).countP (reaches height))

theorem iterate_eq_none_iff {it : BgIteration} : iterate convexHull it s = none ↔
    ¬(0 ≤ s.height ∧ s.height ≤ it.rows) ∨
      ¬(-10 ^ 8 < near convexHull s.height it.contoursActual ∧
        near convexHull s.height it.contoursActual < 10 ^ 9) := by
  have hlength : (twoDigits (near convexHull s.height it.contoursActual)).length < 8 + 2 ↔ _ :=
    length_twoDigits_lt_iff (by decide)
  unfold iterate
  rw [counter_eq]
  change (if _ then (do
    let id ← sprintf 10 (twoDigits (near convexHull s.height it.contoursActual))
    _) else _) = none ↔ _
  by_cases hinside : 0 ≤ s.height ∧ s.height ≤ it.rows
  · rw [if_pos hinside, or_iff_right (not_not_intro hinside), ← hlength]
    unfold sprintf
    split
    case isTrue hroom =>
      refine iff_of_false ?_ (not_not_intro hroom)
      rw [Option.bind_eq_bind, Option.bind_some]
      split <;> exact Option.some_ne_none _
    case isFalse hlong => exact iff_of_true rfl hlong
  · rw [if_neg hinside]
    exact iff_of_true rfl (Or.inl hinside)

theorem iterate_running {it : BgIteration} {next : BgRemoval}
    (h : iterate convexHull it s = some (.running next)) :
    (0 ≤ s.height ∧ s.height ≤ it.rows) ∧ next.height = moveLine it.rows it.key s.height ∧
      next.id = twoDigits (near convexHull s.height it.contoursActual) := by
  unfold iterate at h
  rw [counter_eq] at h
  split at h
  case isTrue hinside =>
    obtain ⟨id, hid, hnext⟩ := Option.bind_eq_some_iff.mp h
    unfold sprintf at hid
    split at hid
    · split at hnext
      · cases hnext
      · cases hnext
        exact ⟨hinside, rfl, (Option.some.inj hid).symm⟩
    · cases hid
  case isFalse => cases h

theorem height_of_running
    (h : run convexHull (camera rows contours keys) n = some (.running s)) :
    n = 0 ∧ s.height = 150 ∨ 0 ≤ s.height ∧ s.height ≤ rows ∧ 150 ≤ rows := by
  induction n generalizing s with
  | zero =>
    cases h
    exact Or.inl ⟨rfl, rfl⟩
  | succ n ih =>
    obtain ⟨outcome, hbefore, hstep⟩ := Option.bind_eq_some_iff.mp h
    cases outcome with
    | exited => cases hstep
    | running before =>
      have hiterate := iterate_running hstep
      have hbetween : 0 ≤ moveLine rows (keys n) before.height ∧
          moveLine rows (keys n) before.height ≤ rows := moveLine_between hiterate.1 (keys n)
      have hrows : before.height ≤ rows := hiterate.1.2
      have hheight : s.height = moveLine rows (keys n) before.height := hiterate.2.1
      rw [hheight]
      cases ih hbefore with
      | inl hstart => exact Or.inr ⟨hbetween.1, hbetween.2, hstart.2 ▸ hrows⟩
      | inr hinside => exact Or.inr ⟨hbetween.1, hbetween.2, hinside.2.2⟩

/-- In every run over frames of one size, whatever is seen and whichever keys are hit: the line
stays in the image if it is there at the start, else the first frame faults; no later frame
faults unless its number is too long; and the number is that of the hulls near the line. -/
theorem line_in_image (convexHull : List Point → List Point) (rows : Int)
    (contours : Nat → List (List Point)) (keys : Nat → Int) (n : Nat) :
    ∀ s, run convexHull (camera rows contours keys) n = some (.running s) →
      (150 ≤ rows → 0 ≤ s.height ∧ s.height ≤ rows) ∧
      (run convexHull (camera rows contours keys) (n + 1) = none ↔
        rows < 150 ∨ ¬(-10 ^ 8 < near convexHull s.height (contours n) ∧
          near convexHull s.height (contours n) < 10 ^ 9)) ∧
      ∀ next, run convexHull (camera rows contours keys) (n + 1) = some (.running next) →
        next.id = twoDigits (near convexHull s.height (contours n)) := by
  intro s h
  have hheight := height_of_running h
  have hstep : run convexHull (camera rows contours keys) (n + 1) =
      iterate convexHull (camera rows contours keys n) s := by
    rw [run, h]
    rfl
  have hinside : 0 ≤ s.height ∧ s.height ≤ rows ↔ 150 ≤ rows := by
    omega
  refine ⟨hinside.mpr, ?_, fun next hnext => ?_⟩
  · rw [hstep, iterate_eq_none_iff]
    change ¬(0 ≤ s.height ∧ s.height ≤ rows) ∨ _ ↔ _
    rw [hinside, not_le]
    rfl
  · rw [hstep] at hnext
    exact (iterate_running hnext).2.2

theorem run_down : run List.reverse (camera 480 (fun _ => []) fun _ => 0xFF54) 1 =
    some (.running ⟨154, ['0', '0']⟩) := by
  have hnumber : sprintf 10 (twoDigits (Conversion.d.read ((counter 150
      (hullActual List.reverse []) : Nat) : Int))) = some ['0', '0'] := by decide
  have hmove : moveLine 480 0xFF54 150 = 154 := by decide
  rw [run, run, Option.bind_some]
  dsimp only
  unfold iterate camera
  dsimp only
  rw [hnumber, hmove, if_pos ⟨by decide, by decide⟩, Option.bind_eq_bind, Option.bind_some,
    if_neg (by decide)]

theorem line_in_image_down :
    (150 ≤ (480 : Int) → 0 ≤ (154 : Int) ∧ (154 : Int) ≤ 480) ∧
    (run List.reverse (camera 480 (fun _ => []) fun _ => 0xFF54) (1 + 1) = none ↔
      (480 : Int) < 150 ∨ ¬(-10 ^ 8 < near List.reverse 154 [] ∧ near List.reverse 154 [] < 10 ^ 9)) ∧
    ∀ next, run List.reverse (camera 480 (fun _ => []) fun _ => 0xFF54) (1 + 1) =
        some (.running next) → next.id = twoDigits (near List.reverse 154 []) :=
  line_in_image List.reverse 480 (fun _ => []) (fun _ => 0xFF54) 1 ⟨154, ['0', '0']⟩ run_down

end Runs

end BgRemoval

end BlobTracking.Proc
