import BlobTracking.Library.ForLoop
import BlobTracking.Proc.BoxLoop

/-! The dial: ten boxes in a row, whose presses are written to the screen as
digits. A press advances the loop's label twice, so the digit of a second press in
one frame would be wrong; but a frame has at most one press, and every digit is
the position of the box that was pressed. -/
namespace BlobTracking.Proc
open Library OpenCV InteractiveObject

structure Dial where
  boxes : Fin 10 → InteractiveObject
  numbers : List Char

/-- The variables of the loop that processes the boxes. -/
structure DialPass where
  boxes : Fin 10 → InteractiveObject
  i : Nat
  activeBoxes : Nat
  numbers : List Char

namespace Dial

def squareSize : Int := 50
def squareMargin : Int := 12

def boxRect (i : Fin 10) : Rect where
  x := (squareSize + squareMargin) * i.val + squareMargin
  y := squareMargin
  width := squareSize
  height := squareSize
  inInt := by
    rw [Rect.inInt_iff]
    unfold squareSize squareMargin
    omega

def boxes₀ (i : Fin 10) : InteractiveObject := construct (boxRect i)

def start : Dial := ⟨boxes₀, []⟩

def pressBox (frame : BoxFrame 10) (k : Fin 10) (s : DialPass) : Option DialPass :=
  let result := (s.boxes k).processHulls frame.hulls (frame.now k)
  let boxes := Function.update s.boxes k result.1
  let activeBoxes := if result.1.active then s.activeBoxes + 1 else s.activeBoxes
  if result.2 then do
    let buff ← sprintf 3 (decimal s.i)
    let numbers ← strcat 80 s.numbers buff
    some ⟨boxes, s.i + 1 + 1, activeBoxes, numbers⟩
  else some ⟨boxes, s.i + 1, activeBoxes, s.numbers⟩

/-- The work on the hulls of one frame. -/
def processBoxes (frame : BoxFrame 10) (d : Dial) : Option Dial := do
  let pass ← forEach 10 (pressBox frame) ⟨d.boxes, 0, 0, d.numbers⟩
  if pass.activeBoxes > 1 then
    some ⟨fun k => (pass.boxes k).deactivate, pass.numbers⟩
  else some ⟨pass.boxes, pass.numbers⟩

/-- One frame, once the camera has adapted. The hulls are those of `frame(roi)`. -/
def processFrame (frame : BoxFrame 10) (d : Dial) : Option Dial :=
  if (Rect.upperStrip frame.size).within frame.size then processBoxes frame d else none

/-- The dial after `r` processed frames. -/
def run (frames : Nat → BoxFrame 10) : Nat → Option Dial
  | 0 => some start
  | r + 1 => (run frames r).bind (processFrame (frames r))

def digit (k : Fin 10) : Char := Nat.digitChar k.val

theorem decimal_eq_digit : ∀ k : Fin 10, decimal (k.val : Int) = [digit k] := by
  decide

theorem digit_injective : Function.Injective digit := by
  decide

theorem digits_eq_iff (pressed : List (Fin 10)) :
    pressed.map digit = ['1', '2', '3', '4'] ↔ pressed.map Fin.val = [1, 2, 3, 4] := by
  have hdigit : pressed.map digit = ([1, 2, 3, 4] : List (Fin 10)).map digit ↔ _ :=
    (List.map_injective_iff.mpr digit_injective).eq_iff
  have hval : pressed.map Fin.val = ([1, 2, 3, 4] : List (Fin 10)).map Fin.val ↔ _ :=
    (List.map_injective_iff.mpr Fin.val_injective).eq_iff
  exact hdigit.trans hval.symm

/-- The loop before box `k`, in terms of the boxes pressed in this frame. -/
def passAt (frame : BoxFrame 10) (d : Dial) (pressed : List (Fin 10)) (k : Nat) : DialPass where
  boxes j := if j.val < k then boxMember.updated d.boxes frame.inputs j else d.boxes j
  i := k + (pressed.filter fun j => j.val < k).length
  activeBoxes := (Finset.univ.filter fun j : Fin 10 =>
    j.val < k ∧ (boxMember.updated d.boxes frame.inputs j).active = true).card
  numbers := d.numbers ++ (pressed.filter fun j => j.val < k).map digit

section Pass
variable {frame : BoxFrame 10} {d : Dial} {pressed : List (Fin 10)} {k : Fin 10}

theorem pressBox_passAt (frame : BoxFrame 10) (d : Dial) (pressed : List (Fin 10)) (k : Fin 10) :
    pressBox frame k (passAt frame d pressed k.val) =
      if boxMember.announces d.boxes frame.inputs k then do
        let buff ← sprintf 3 (decimal (passAt frame d pressed k.val).i)
        let numbers ← strcat 80 (passAt frame d pressed k.val).numbers buff
        some ⟨(passAt frame d pressed (k.val + 1)).boxes, (passAt frame d pressed k.val).i + 1 + 1,
          (passAt frame d pressed (k.val + 1)).activeBoxes, numbers⟩
      else some ⟨(passAt frame d pressed (k.val + 1)).boxes, (passAt frame d pressed k.val).i + 1,
        (passAt frame d pressed (k.val + 1)).activeBoxes,
        (passAt frame d pressed k.val).numbers⟩ := by
  have hbox : (passAt frame d pressed k.val).boxes k = d.boxes k := if_neg (lt_irrefl _)
  have hboxes : Function.update (passAt frame d pressed k.val).boxes k
      (boxMember.updated d.boxes frame.inputs k) = (passAt frame d pressed (k.val + 1)).boxes :=
    update_prefix _ _ k
  have hactive : (passAt frame d pressed (k.val + 1)).activeBoxes =
      if (boxMember.updated d.boxes frame.inputs k).active then
        (passAt frame d pressed k.val).activeBoxes + 1
      else (passAt frame d pressed k.val).activeBoxes :=
    card_prefix (fun j => (boxMember.updated d.boxes frame.inputs j).active) k
  unfold pressBox
  rw [hbox, hactive, ← hboxes]
  rfl

theorem passAt_zero (frame : BoxFrame 10) (d : Dial) (pressed : List (Fin 10)) :
    passAt frame d pressed 0 = ⟨d.boxes, 0, 0, d.numbers⟩ := by
  simp [passAt]

theorem passAt_ten (frame : BoxFrame 10) (d : Dial) (pressed : List (Fin 10)) :
    passAt frame d pressed 10 = ⟨boxMember.updated d.boxes frame.inputs, 10 + pressed.length,
      boxMember.activeCount (boxMember.updated d.boxes frame.inputs),
      d.numbers ++ pressed.map digit⟩ := by
  have hfilter : (pressed.filter fun j => j.val < 10) = pressed :=
    List.filter_eq_self.mpr fun j _ => decide_eq_true j.isLt
  unfold passAt
  rw [hfilter]
  simp only [Fin.is_lt, if_true, true_and]
  rfl

theorem pressBox_quiet (hquiet : boxMember.announces d.boxes frame.inputs k = false)
    (hk : k ∉ pressed) :
    pressBox frame k (passAt frame d pressed k.val) = some (passAt frame d pressed (k.val + 1)) := by
  have hfilter : (pressed.filter fun j => j.val < k.val + 1) =
      pressed.filter fun j => j.val < k.val := by
    apply List.filter_congr
    intro j hj
    have hne : j.val ≠ k.val := fun h => hk (Fin.ext h ▸ hj)
    rw [decide_eq_decide]
    omega
  rw [pressBox_passAt, hquiet]
  unfold passAt
  rw [hfilter]
  simp [Nat.add_right_comm]

/-- The first press of a frame finds the label at the position of its box. -/
theorem pressBox_pressed (hpress : boxMember.announces d.boxes frame.inputs k = true) :
    pressBox frame k (passAt frame d [k] k.val) =
      if d.numbers.length + 1 < 80 then some (passAt frame d [k] (k.val + 1)) else none := by
  have hbefore : ([k].filter fun j => j.val < k.val) = [] := by simp
  have hafter : ([k].filter fun j => j.val < k.val + 1) = [k] := by simp
  have hlabel : (passAt frame d [k] k.val).i = k.val := by
    unfold passAt
    rw [hbefore]
    rfl
  have hnumbers : (passAt frame d [k] k.val).numbers = d.numbers := by
    unfold passAt
    rw [hbefore, List.map_nil, List.append_nil]
  have hbuff : sprintf 3 (decimal (k.val : Int)) = some [digit k] := by
    rw [decimal_eq_digit]
    rfl
  rw [pressBox_passAt, hpress, if_pos rfl, hlabel, hnumbers, hbuff]
  simp only [Option.bind_eq_bind, Option.bind_some, strcat, List.length_singleton]
  by_cases hroom : d.numbers.length + 1 < 80
  · rw [if_pos hroom, if_pos hroom, Option.bind_some]
    unfold passAt
    rw [hafter]
    rfl
  · rw [if_neg hroom, if_neg hroom]
    rfl

/-- A frame clears the boxes of a clash and writes down the box that was pressed, if any. -/
theorem processBoxes_eq (hd : boxMember.activeCount d.boxes ≤ 1) (hroom : d.numbers.length < 80)
    (frame : BoxFrame 10) :
    processBoxes frame d =
      if d.numbers.length + (boxMember.announced d.boxes frame.inputs).length < 80 then
        some ⟨boxMember.round d.boxes frame.inputs,
          d.numbers ++ (boxMember.announced d.boxes frame.inputs).map digit⟩
      else none := by
  have hend : ∀ pressed, (do
      let pass ← some (passAt frame d pressed 10)
      if pass.activeBoxes > 1 then some (⟨fun k => (pass.boxes k).deactivate, pass.numbers⟩ : Dial)
      else some ⟨pass.boxes, pass.numbers⟩) =
        some ⟨boxMember.round d.boxes frame.inputs, d.numbers ++ pressed.map digit⟩ := by
    intro pressed
    rw [passAt_ten]
    change (if boxMember.activeCount (boxMember.updated d.boxes frame.inputs) > 1 then _ else _) = _
    split
    case isTrue hclash =>
      congr 2
      funext k
      exact (if_pos (decide_eq_true hclash)).symm
    case isFalse hclear =>
      congr 2
      funext k
      exact (if_neg fun hclash => hclear (of_decide_eq_true hclash)).symm
  unfold processBoxes
  cases Member.announced_cases hd frame.inputs with
  | inl hnone =>
    have hloop := forEach_eq_of_step (passAt frame d []) fun k : Fin 10 =>
      pressBox_quiet (hnone.2 k) List.not_mem_nil
    rw [hnone.1, ← passAt_zero, hloop, hend]
    simp [hroom]
  | inr hone =>
    obtain ⟨p, hp, hiff⟩ := hone
    have hquiet : ∀ k, k ≠ p → boxMember.announces d.boxes frame.inputs k = false := fun k hk =>
      Bool.not_eq_true _ ▸ mt (hiff k).mp hk
    rw [hp, List.length_singleton]
    by_cases hfits : d.numbers.length + 1 < 80
    · have hloop := forEach_eq_of_step (passAt frame d [p]) fun k : Fin 10 => by
        by_cases hkp : k = p
        · subst hkp
          exact (pressBox_pressed ((hiff k).mpr rfl)).trans (if_pos hfits)
        · exact pressBox_quiet (hquiet k hkp) (by simpa using hkp)
      rw [← passAt_zero, hloop, hend, if_pos hfits]
    · have hloop := forEach_eq_none_of_step (passAt frame d [p]) p
        (fun k hk => pressBox_quiet (hquiet k fun h => by omega) (by simp; omega))
        ((pressBox_pressed ((hiff p).mpr rfl)).trans (if_neg hfits))
      rw [← passAt_zero, hloop, if_neg hfits]
      rfl

/-- A frame of fewer than 150 rows has no upper strip. -/
theorem processFrame_eq (hd : boxMember.activeCount d.boxes ≤ 1) (hroom : d.numbers.length < 80)
    (frame : BoxFrame 10) :
    processFrame frame d =
      if 150 ≤ frame.size.height.val ∧
          d.numbers.length + (boxMember.announced d.boxes frame.inputs).length < 80 then
        some ⟨boxMember.round d.boxes frame.inputs,
          d.numbers ++ (boxMember.announced d.boxes frame.inputs).map digit⟩
      else none := by
  unfold processFrame
  rw [processBoxes_eq hd hroom, ite_and]
  simp only [Rect.upperStrip_within_iff]

end Pass

theorem activeCount_boxes₀ : boxMember.activeCount boxes₀ ≤ 1 := by
  decide

/-- The display after any number of frames: the presses so far, and they fit. -/
theorem run_eq_some {frames : Nat → BoxFrame 10} {r : Nat} {d : Dial}
    (h : run frames r = some d) : (presses boxes₀ frames r).length < 80 ∧
      d = ⟨boxesAfter boxes₀ frames r, (presses boxes₀ frames r).map digit⟩ := by
  induction r generalizing d with
  | zero =>
    cases h
    exact ⟨Nat.succ_pos 79, rfl⟩
  | succ r ih =>
    obtain ⟨before, hbefore, hframe⟩ := Option.bind_eq_some_iff.mp h
    obtain ⟨hroom, rfl⟩ := ih hbefore
    have hexclusive : boxMember.activeCount (boxesAfter boxes₀ frames r) ≤ 1 :=
      Member.activeCount_after_le activeCount_boxes₀ r
    rw [processFrame_eq hexclusive (by simpa using hroom)] at hframe
    split at hframe
    case isTrue hfits =>
      rw [List.length_map, ← List.length_append] at hfits
      rw [presses_succ, List.map_append]
      exact ⟨hfits.2, (Option.some.inj hframe).symm⟩
    case isFalse => cases hframe

/-- The loop's `strcmp(numbers, "1234") == 0` comes after the frame, and `continue` never. -/
def program : Program Dial (BoxFrame 10) where
  process frame d := (processFrame frame d).map fun d => (d, false)
  finished d := d.numbers = ['1', '2', '3', '4']
  conversion := .d

theorem work_eq_run (frames : Nat → BoxFrame 10) (r : Nat) :
    program.work start ((List.range r).map frames) = run frames r := by
  apply Program.work_range program start frames (run frames) rfl
  intro r
  rw [run]
  congr 1
  funext d
  simp only [program, Option.map_map]
  exact Option.map_id'.symm

/-- The boxes pressed before iteration `n` of the program. -/
def dialled (begin : Int) (its : Nat → Iteration (BoxFrame 10)) (n : Nat) : List (Fin 10) :=
  pressed program boxes₀ begin start its n

section Run
variable {begin : Int} {its : Nat → Iteration (BoxFrame 10)}

theorem app_eq {n : Nat} {outcome : Outcome Dial}
    (h : runLoop program begin start its n = some outcome) :
    (dialled begin its n).length < 80 ∧ outcome.app =
      ⟨boxesAt program boxes₀ begin start its n, (dialled begin its n).map digit⟩ := by
  have hwork := runLoop_app h
  rw [processed_eq_map, work_eq_run] at hwork
  exact run_eq_some hwork

theorem program_reads (frame : BoxFrame 10) (d next : Dial) :
    program.process frame d ≠ some (next, true) := by
  intro h
  obtain ⟨_, _, hfalse⟩ := Option.map_eq_some_iff.mp h
  cases hfalse

theorem finished_app {n : Nat} {outcome : Outcome Dial}
    (h : runLoop program begin start its n = some outcome) :
    program.finished outcome.app = decide ((dialled begin its n).map Fin.val = [1, 2, 3, 4]) := by
  rw [(app_eq h).2]
  exact decide_eq_decide.mpr (digits_eq_iff _)

/-- A frame faults exactly if it is too low, or if its press would be the eightieth. -/
theorem runLoop_succ_eq_none_iff {n : Nat} {camera : Camera Dial}
    (h : runLoop program begin start its n = some (.running camera))
    (hadapted : camera.camAdapted = true) : runLoop program begin start its (n + 1) = none ↔
      (its n).frame.size.height.val < 150 ∨ (dialled begin its (n + 1)).length = 80 := by
  obtain ⟨hroom, happ⟩ := app_eq h
  have happ : camera.app =
      ⟨boxesAt program boxes₀ begin start its n, (dialled begin its n).map digit⟩ := happ
  have hexclusive : boxMember.activeCount (boxesAt program boxes₀ begin start its n) ≤ 1 :=
    activeCount_boxesAt activeCount_boxes₀ n
  have hone := Member.length_announced_le hexclusive (its n).frame.inputs
  have hnext : (dialled begin its (n + 1)).length = (dialled begin its n).length +
      (boxMember.announced (boxesAt program boxes₀ begin start its n)
        (its n).frame.inputs).length := by
    unfold dialled
    rw [(boxesAt_succ_of_adapted h hadapted).2, List.length_append]
  have hframe := processFrame_eq (d := camera.app) (by rw [happ]; exact hexclusive)
    (by rw [happ]; simpa using hroom) (its n).frame
  rw [happ, List.length_map] at hframe
  dsimp only at hframe
  rw [runLoop_succ_eq_none_iff_of_adapted h hadapted, program, Option.map_eq_none_iff, happ,
    hframe, hnext]
  split
  case isTrue hfits =>
    simp only [reduceCtorEq, false_iff]
    omega
  case isFalse hfull =>
    simp only [true_iff]
    omega

/-- In every run of the dial, under any clock, keys and frames: at most one box is active after
a frame, the display shows the boxes pressed so far, in order and each by its position, the
counters agree with it, and the eightieth press is the first that does not fit. Only a frame
of fewer than 150 rows faults for another reason. -/
theorem dial_display (begin : Int) (its : Nat → Iteration (BoxFrame 10)) (n : Nat) :
    (∀ outcome, runLoop program begin start its n = some outcome →
      outcome.app.numbers = (dialled begin its n).map digit ∧
      (∀ j k, (outcome.app.boxes j).active = true → (outcome.app.boxes k).active = true → j = k) ∧
      ∀ k, (outcome.app.boxes k).getCount.toNat = (dialled begin its n).count k) ∧
    (∀ camera, runLoop program begin start its n = some (.running camera) →
      camera.camAdapted = true → (runLoop program begin start its (n + 1) = none ↔
        (its n).frame.size.height.val < 150 ∨ (dialled begin its (n + 1)).length = 80)) ∧
    (dialled begin its (n + 1)).length ≤ (dialled begin its n).length + 1 := by
  refine ⟨fun outcome h => ?_, fun camera h hadapted => runLoop_succ_eq_none_iff h hadapted,
    length_pressed_succ_le activeCount_boxes₀ n⟩
  obtain ⟨hroom, happ⟩ := app_eq h
  rw [happ]
  refine ⟨rfl, fun j k hj hk => active_unique activeCount_boxes₀ hj hk, fun k => ?_⟩
  have hcount : (boxesAt program boxes₀ begin start its n k).count.toNat =
      (0 + (dialled begin its n).count k) % 2 ^ 32 := count_boxesAfter activeCount_boxes₀ k _
  have hle : (dialled begin its n).count k ≤ (dialled begin its n).length := List.count_le_length
  change (boxesAt program boxes₀ begin start its n k).count.toNat = _
  omega

/-- The program runs on until a fault, or until it exits on the digits 1234 or an escape key, and
once the digits have gone wrong no later press can put them right. -/
theorem dial_unlock (begin : Int) (its : Nat → Iteration (BoxFrame 10)) (n : Nat) :
    (∀ camera, runLoop program begin start its n = some (.running camera) →
      (dialled begin its n).map Fin.val ≠ [1, 2, 3, 4]) ∧
    (∀ d, runLoop program begin start its n = some (.exited d) →
      (dialled begin its n).map Fin.val = [1, 2, 3, 4] ∨
        ∃ m, m < n ∧ (its m).key % 256 = 27) ∧
    ∀ m, m ≤ n → ¬(dialled begin its m).map Fin.val <+: [1, 2, 3, 4] →
      (dialled begin its n).map Fin.val ≠ [1, 2, 3, 4] := by
  refine ⟨fun camera h => ?_, fun d h => ?_, fun m hm hwrong hright => ?_⟩
  · have hunfinished : program.finished (Outcome.running camera).app = false :=
      finished_of_running (by decide) program_reads h
    rw [finished_app h, decide_eq_false_iff_not] at hunfinished
    exact hunfinished
  · have hended : program.finished (Outcome.exited d).app = true ∨
        ∃ m, m < n ∧ (its m).key % 256 = 27 := finished_or_escape h
    rw [finished_app h, decide_eq_true_eq] at hended
    exact hended
  · apply hwrong
    rw [← hright]
    exact (pressed_isPrefix program boxes₀ begin start its hm).map Fin.val

end Run

end Dial

end BlobTracking.Proc
