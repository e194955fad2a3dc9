import BlobTracking.Proc.BoxLoop

/-! The poll: one box at each upper corner of the screen, and the votes of both
below. The counters are unsigned and printed as signed numbers, so the text of the
2^31st vote of a side is the first that is wrong, and the first that its buffer has
no room for. -/
namespace BlobTracking.Proc
open Library OpenCV InteractiveObject

/-- What a frame shows of the votes, and which pictures are in colour. -/
structure VoteScreen where
  leftText : List Char
  rightText : List Char
  leftColoured : Bool
  rightColoured : Bool
deriving DecidableEq

structure Vote where
  left : InteractiveObject
  right : InteractiveObject
  /-- The last frame that was processed shows nothing after a clash. -/
  screen : Option VoteScreen

namespace Vote

def squareSize : Int := 150
def squareMargin : Int := 10

def leftSide : Fin 2 := ⟨0, Nat.succ_pos 1⟩
def rightSide : Fin 2 := ⟨1, Nat.lt_succ_self 1⟩

def leftRect : Rect := ⟨squareMargin, squareMargin, squareSize, squareSize, by decide⟩

/-- `width` is that of the frame read before the loop. -/
def rightRect (width : Fin (2 ^ 31)) : Rect where
  x := width.val - squareSize - squareMargin
  y := squareMargin
  width := squareSize
  height := squareSize
  inInt := by
    have hwidth := width.isLt
    rw [Rect.inInt_iff]
    unfold squareSize squareMargin
    omega

def start (width : Fin (2 ^ 31)) : Vote := ⟨construct leftRect, construct (rightRect width), none⟩

/-- `sprintf(buff, "%02d", GetCount())`, into eleven characters. -/
def countText (box : InteractiveObject) : Option (List Char) :=
  sprintf 11 (twoDigits (Conversion.d.read box.getCount.toNat))

/-- The work on the hulls of one frame. The pictures are copied to the places of the boxes. -/
def processBoxes (width : Fin (2 ^ 31)) (frame : BoxFrame 2) (v : Vote) : Option Vote :=
  let left := (v.left.processHulls frame.hulls (frame.now leftSide)).1
  let right := (v.right.processHulls frame.hulls (frame.now rightSide)).1
  if !(left.active && right.active) then do
    let leftText ← countText left
    let rightText ← countText right
    if (rightRect width).within frame.size && leftRect.within frame.size then
      some ⟨left, right, some ⟨leftText, rightText, left.counted, right.counted⟩⟩
    else none
  else some ⟨left.deactivate, right.deactivate, none⟩

/-- One frame, once the camera has adapted. The hulls are those of `frame(roi)`. -/
def processFrame (width : Fin (2 ^ 31)) (frame : BoxFrame 2) (v : Vote) : Option Vote :=
  if (Rect.upperStrip frame.size).within frame.size then processBoxes width frame v else none

/-- The poll after `r` processed frames. -/
def run (width : Fin (2 ^ 31)) (frames : Nat → BoxFrame 2) : Nat → Option Vote
  | 0 => some (start width)
  | r + 1 => (run width frames r).bind (processFrame width (frames r))

/-- The places of both pictures lie in the frame. -/
def PicturesFit (width : Fin (2 ^ 31)) (size : Size) : Prop :=
  (160 ≤ width.val ∧ width.val ≤ size.width.val + 10) ∧
    160 ≤ size.width.val ∧ 160 ≤ size.height.val

instance (width : Fin (2 ^ 31)) (size : Size) : Decidable (PicturesFit width size) :=
  inferInstanceAs (Decidable ((_ ∧ _) ∧ _ ∧ _))

theorem pictures_within_iff {width : Fin (2 ^ 31)} {size : Size} :
    ((rightRect width).within size && leftRect.within size) = true ↔ PicturesFit width size := by
  rw [Bool.and_eq_true, Rect.within_iff, Rect.within_iff]
  unfold PicturesFit
  dsimp only [rightRect, leftRect, squareSize, squareMargin]
  omega

def boxes (v : Vote) (k : Fin 2) : InteractiveObject := if k.val = 0 then v.left else v.right

def boxes₀ (width : Fin (2 ^ 31)) : Fin 2 → InteractiveObject := (start width).boxes

theorem side_cases : ∀ k : Fin 2, k = leftSide ∨ k = rightSide := by
  decide

theorem boxes_ext {group : Fin 2 → InteractiveObject} {v : Vote} (hleft : v.left = group leftSide)
    (hright : v.right = group rightSide) : v.boxes = group := by
  funext k
  cases side_cases k with
  | inl h =>
    rw [h]
    exact hleft
  | inr h =>
    rw [h]
    exact hright

theorem one_lt_activeCount_iff (group : Fin 2 → InteractiveObject) :
    1 < boxMember.activeCount group ↔
      (group leftSide).active = true ∧ (group rightSide).active = true := by
  have hcount : boxMember.activeCount group = (if (group leftSide).active = true then 1 else 0) +
      if (group rightSide).active = true then 1 else 0 := by
    unfold Member.activeCount
    rw [Finset.card_filter, Fin.sum_univ_two]
    rfl
  rw [hcount]
  by_cases hleft : (group leftSide).active = true
  · by_cases hright : (group rightSide).active = true
    · simp [hleft, hright]
    · simp [hleft, hright]
  · simp [hleft]
    split <;> omega

theorem activeCount_boxes₀ (width : Fin (2 ^ 31)) : boxMember.activeCount (boxes₀ width) ≤ 1 := by
  rw [← not_lt, one_lt_activeCount_iff]
  exact fun h => Bool.noConfusion h.1

theorem clash_iff_touched (width : Fin (2 ^ 31)) (frames : Nat → BoxFrame 2) (r : Nat) :
    boxMember.clash (boxesAfter (boxes₀ width) frames r) (frames r).inputs = true ↔
      Inside leftRect (frames r).hulls ∧ Inside (rightRect width) (frames r).hulls := by
  have hactive : ∀ k, (boxMember.updated (boxesAfter (boxes₀ width) frames r)
      (frames r).inputs k).active = true ↔
        Inside (boxes₀ width k).rectangle (frames r).hulls := by
    intro k
    rw [← (constants_boxesAfter (boxes₀ width) frames k r).1]
    exact active_processHulls_iff _ _ _
  have hleft : (boxes₀ width leftSide).rectangle = leftRect := rfl
  have hright : (boxes₀ width rightSide).rectangle = rightRect width := rfl
  unfold Member.clash
  rw [decide_eq_true_eq, one_lt_activeCount_iff, hactive, hactive, hleft, hright]

theorem processBoxes_eq (width : Fin (2 ^ 31)) (frame : BoxFrame 2) (v : Vote) :
    processBoxes width frame v =
    if boxMember.clash v.boxes frame.inputs then
      some ⟨(boxMember.updated v.boxes frame.inputs leftSide).deactivate,
        (boxMember.updated v.boxes frame.inputs rightSide).deactivate, none⟩
    else (do
      let leftText ← countText (boxMember.updated v.boxes frame.inputs leftSide)
      let rightText ← countText (boxMember.updated v.boxes frame.inputs rightSide)
      if (rightRect width).within frame.size && leftRect.within frame.size then
        some ⟨boxMember.updated v.boxes frame.inputs leftSide,
          boxMember.updated v.boxes frame.inputs rightSide, some ⟨leftText, rightText,
            (boxMember.updated v.boxes frame.inputs leftSide).counted,
            (boxMember.updated v.boxes frame.inputs rightSide).counted⟩⟩
      else none) := by
  have hclash : boxMember.clash v.boxes frame.inputs =
      ((boxMember.updated v.boxes frame.inputs leftSide).active &&
        (boxMember.updated v.boxes frame.inputs rightSide).active) := by
    rw [Bool.eq_iff_iff, Bool.and_eq_true, ← one_lt_activeCount_iff]
    exact decide_eq_true_iff
  have hleft : (v.left.processHulls frame.hulls (frame.now leftSide)).1 =
      boxMember.updated v.boxes frame.inputs leftSide := rfl
  have hright : (v.right.processHulls frame.hulls (frame.now rightSide)).1 =
      boxMember.updated v.boxes frame.inputs rightSide := rfl
  unfold processBoxes
  rw [hclash, hleft, hright]
  dsimp only
  cases (boxMember.updated v.boxes frame.inputs leftSide).active &&
      (boxMember.updated v.boxes frame.inputs rightSide).active with
  | true => rw [Bool.not_true, if_neg Bool.false_ne_true, if_pos rfl]
  | false => rw [Bool.not_false, if_pos rfl, if_neg Bool.false_ne_true]

/-- A count up to 2^31 is printed unless it is 2^31 itself. -/
theorem countText_eq {box : InteractiveObject} {votes : Nat} (hcount : box.count.toNat = votes)
    (hvotes : votes ≤ 2 ^ 31) :
    countText box = if votes = 2 ^ 31 then none else some (twoDigits votes) := by
  unfold countText getCount
  rw [hcount]
  by_cases hlast : votes = 2 ^ 31
  · have hread : Conversion.d.read ((2 ^ 31 : Nat) : Int) = -2 ^ 31 := by decide
    have hlong : ¬(twoDigits (-2 ^ 31)).length < 9 + 2 := by
      rw [length_twoDigits_lt_iff (by decide)]
      decide
    rw [if_pos hlast, hlast, hread, sprintf_eq_none_iff]
    exact hlong
  · have hread : Conversion.d.read (votes : Int) = votes :=
      Conversion.d.read_eq (by omega) (by omega)
    have hroom : (twoDigits (votes : Int)).length < 9 + 2 := by
      rw [length_twoDigits_lt_iff (by decide)]
      omega
    rw [if_neg hlast, hread]
    exact if_pos hroom

section Run
variable (width : Fin (2 ^ 31)) (frames : Nat → BoxFrame 2)

/-- The votes of a side before frame `r`. -/
def votes (r : Nat) (k : Fin 2) : Nat := (presses (boxes₀ width) frames r).count k

/-- What the last of `r` frames shows. -/
def screenAfter : Nat → Option VoteScreen
  | 0 => none
  | r + 1 =>
    if boxMember.clash (boxesAfter (boxes₀ width) frames r) (frames r).inputs then none
    else some ⟨twoDigits (votes width frames (r + 1) leftSide),
      twoDigits (votes width frames (r + 1) rightSide),
      (boxesAfter (boxes₀ width) frames (r + 1) leftSide).counted,
      (boxesAfter (boxes₀ width) frames (r + 1) rightSide).counted⟩

/-- Frame `r` shows the votes, but it has no room for the pictures, or one of the sides has got
its 2^31st vote. -/
def Spoilt (r : Nat) : Prop :=
  ¬(Inside leftRect (frames r).hulls ∧ Inside (rightRect width) (frames r).hulls) ∧
    (¬PicturesFit width (frames r).size ∨ ∃ k, votes width frames (r + 1) k = 2 ^ 31)

/-- A side reaches its 2^31st vote only in a clash, and then both boxes rest. -/
structure Counted (r : Nat) (v : Vote) : Prop where
  boxes_eq : v.boxes = boxesAfter (boxes₀ width) frames r
  votes_le : ∀ k, votes width frames r k ≤ 2 ^ 31
  resting : ∀ k, votes width frames r k = 2 ^ 31 →
    ∀ j, (boxesAfter (boxes₀ width) frames r j).active = false
  screen_eq : v.screen = screenAfter width frames r

variable {width frames} {r : Nat} {v : Vote}

theorem votes_succ (width : Fin (2 ^ 31)) (frames : Nat → BoxFrame 2) (r : Nat) (k : Fin 2) :
    votes width frames (r + 1) k = votes width frames r k +
      (boxMember.announced (boxesAfter (boxes₀ width) frames r) (frames r).inputs).count k := by
  unfold votes
  rw [presses_succ, List.count_append]

theorem count_eq_votes {k : Fin 2} (h : votes width frames r k ≤ 2 ^ 31) :
    (boxesAfter (boxes₀ width) frames r k).count.toNat = votes width frames r k := by
  have hzero : (boxes₀ width k).count = 0 := by
    unfold boxes₀ boxes
    split <;> rfl
  have hcount : (boxesAfter (boxes₀ width) frames r k).count.toNat =
      ((boxes₀ width k).count.toNat + votes width frames r k) % 2 ^ 32 :=
    count_boxesAfter (activeCount_boxes₀ width) k r
  rw [hzero, UInt32.toNat_zero] at hcount
  omega

theorem counted_start (width : Fin (2 ^ 31)) (frames : Nat → BoxFrame 2) :
    Counted width frames 0 (start width) where
  boxes_eq := rfl
  votes_le _ := Nat.zero_le _
  resting _ h := by
    change 0 = 2 ^ 31 at h
    omega
  screen_eq := rfl

theorem Counted.votes_succ_le (h : Counted width frames r v) (k : Fin 2) :
    votes width frames (r + 1) k ≤ 2 ^ 31 := by
  rw [votes_succ]
  by_cases hlast : votes width frames r k = 2 ^ 31
  · have hquiet : k ∉ boxMember.announced (boxesAfter (boxes₀ width) frames r)
        (frames r).inputs := by
      intro hmem
      have hactive := boxMember.active_of_announced _ _ (List.mem_filter.mp hmem).2
      exact Bool.noConfusion ((h.resting k hlast k).symm.trans hactive)
    rw [List.count_eq_zero.mpr hquiet]
    exact h.votes_le k
  · have hexclusive : boxMember.activeCount (boxesAfter (boxes₀ width) frames r) ≤ 1 :=
      Member.activeCount_after_le (activeCount_boxes₀ width) r
    have hone := Member.length_announced_le hexclusive (frames r).inputs
    have hcount : (boxMember.announced (boxesAfter (boxes₀ width) frames r)
        (frames r).inputs).count k ≤ 1 := List.count_le_length.trans hone
    have hle := h.votes_le k
    omega

theorem Counted.processBoxes_clash (h : Counted width frames r v)
    (hclash : boxMember.clash (boxesAfter (boxes₀ width) frames r) (frames r).inputs = true) :
    ∃ v', processBoxes width (frames r) v = some v' ∧ Counted width frames (r + 1) v' := by
  have hside : ∀ k, boxesAfter (boxes₀ width) frames (r + 1) k = (boxMember.updated
      (boxesAfter (boxes₀ width) frames r) (frames r).inputs k).deactivate := fun k =>
    if_pos hclash
  rw [processBoxes_eq, h.boxes_eq, if_pos hclash]
  exact ⟨_, rfl, boxes_ext (hside leftSide).symm (hside rightSide).symm, h.votes_succ_le,
    fun _ _ j => by rw [hside]; rfl, (if_pos hclash).symm⟩

theorem Counted.processBoxes_clear (h : Counted width frames r v)
    (hclear : ¬boxMember.clash (boxesAfter (boxes₀ width) frames r) (frames r).inputs = true) :
    if ¬PicturesFit width (frames r).size ∨ ∃ k, votes width frames (r + 1) k = 2 ^ 31 then
      processBoxes width (frames r) v = none
    else ∃ v', processBoxes width (frames r) v = some v' ∧ Counted width frames (r + 1) v' := by
  have hside : ∀ k, boxesAfter (boxes₀ width) frames (r + 1) k = boxMember.updated
      (boxesAfter (boxes₀ width) frames r) (frames r).inputs k := fun k => if_neg hclear
  have htext : ∀ k, countText (boxMember.updated (boxesAfter (boxes₀ width) frames r)
      (frames r).inputs k) = if votes width frames (r + 1) k = 2 ^ 31 then none
        else some (twoDigits (votes width frames (r + 1) k)) := by
    intro k
    rw [← hside]
    exact countText_eq (count_eq_votes (h.votes_succ_le k)) (h.votes_succ_le k)
  rw [processBoxes_eq, h.boxes_eq, if_neg hclear, htext, htext]
  by_cases hleft : votes width frames (r + 1) leftSide = 2 ^ 31
  · rw [if_pos (Or.inr ⟨leftSide, hleft⟩), if_pos hleft]
    rfl
  · by_cases hright : votes width frames (r + 1) rightSide = 2 ^ 31
    · rw [if_pos (Or.inr ⟨rightSide, hright⟩), if_pos hright, if_neg hleft]
      rfl
    · have hnone : ¬∃ k, votes width frames (r + 1) k = 2 ^ 31 := by
        intro ⟨k, hk⟩
        cases side_cases k with
        | inl h => exact hleft (h ▸ hk)
        | inr h => exact hright (h ▸ hk)
      rw [if_neg hleft, if_neg hright, Option.bind_eq_bind, Option.bind_some, Option.bind_some]
      by_cases hfit : PicturesFit width (frames r).size
      · rw [if_pos (pictures_within_iff.mpr hfit),
          if_neg (not_or_intro (not_not_intro hfit) hnone)]
        refine ⟨_, rfl, boxes_ext (hside leftSide).symm (hside rightSide).symm,
          h.votes_succ_le, fun k hk => absurd ⟨k, hk⟩ hnone, ?_⟩
        rw [screenAfter, if_neg hclear, hside, hside]
      · rw [if_neg (mt pictures_within_iff.mp hfit), if_pos (Or.inl hfit)]

/-- The work on the hulls faults exactly if the frame is spoilt. -/
theorem Counted.processBoxes (h : Counted width frames r v) :
    (Vote.processBoxes width (frames r) v = none ↔ Spoilt width frames r) ∧
      ∀ v', Vote.processBoxes width (frames r) v = some v' → Counted width frames (r + 1) v' := by
  unfold Spoilt
  rw [← clash_iff_touched]
  by_cases hclash :
      boxMember.clash (boxesAfter (boxes₀ width) frames r) (frames r).inputs = true
  · obtain ⟨next, hnext, hcounted⟩ := h.processBoxes_clash hclash
    rw [hnext]
    refine ⟨⟨fun hnone => absurd hnone (Option.some_ne_none _),
      fun hspoilt => absurd hclash hspoilt.1⟩, ?_⟩
    intro v' hv'
    exact Option.some.inj hv' ▸ hcounted
  · have hframe := h.processBoxes_clear hclash
    split at hframe
    case isTrue hlast =>
      rw [hframe]
      exact ⟨⟨fun _ => ⟨hclash, hlast⟩, fun _ => rfl⟩, fun _ hv' => nomatch hv'⟩
    case isFalse hroom =>
      obtain ⟨next, hnext, hcounted⟩ := hframe
      rw [hnext]
      refine ⟨⟨fun hnone => absurd hnone (Option.some_ne_none _),
        fun hspoilt => absurd hspoilt.2 hroom⟩, ?_⟩
      intro v' hv'
      exact Option.some.inj hv' ▸ hcounted

/-- A frame of fewer than 150 rows has no upper strip. -/
theorem Counted.processFrame (h : Counted width frames r v) :
    (Vote.processFrame width (frames r) v = none ↔
        (frames r).size.height.val < 150 ∨ Spoilt width frames r) ∧
      ∀ v', Vote.processFrame width (frames r) v = some v' → Counted width frames (r + 1) v' := by
  unfold Vote.processFrame
  simp only [Rect.upperStrip_within_iff]
  by_cases hstrip : 150 ≤ (frames r).size.height.val
  · rw [if_pos hstrip, or_iff_right (not_lt.mpr hstrip)]
    exact h.processBoxes
  · rw [if_neg hstrip]
    refine ⟨iff_of_true rfl (Or.inl (not_le.mp hstrip)), fun v' hv' => ?_⟩
    cases hv'

/-- What is shown, in terms of the last frame. -/
theorem screenAfter_eq (width : Fin (2 ^ 31)) (frames : Nat → BoxFrame 2) (r : Nat) :
    screenAfter width frames r = ((List.range r).map frames).getLast?.bind fun frame =>
      if Inside leftRect frame.hulls ∧ Inside (rightRect width) frame.hulls then none
      else some ⟨twoDigits (votes width frames r leftSide),
        twoDigits (votes width frames r rightSide),
        (boxesAfter (boxes₀ width) frames r leftSide).counted,
        (boxesAfter (boxes₀ width) frames r rightSide).counted⟩ := by
  cases r with
  | zero => rfl
  | succ r =>
    rw [screenAfter, List.range_succ, List.map_append, List.map_singleton, List.getLast?_concat,
      Option.bind_some]
    simp only [clash_iff_touched]

theorem counted_run (h : run width frames r = some v) : Counted width frames r v := by
  induction r generalizing v with
  | zero => exact Option.some.inj h ▸ counted_start width frames
  | succ r ih =>
    obtain ⟨before, hbefore, hframe⟩ := Option.bind_eq_some_iff.mp h
    exact (ih hbefore).processFrame.2 v hframe

end Run

def program (width : Fin (2 ^ 31)) : Program Vote (BoxFrame 2) where
  process frame v := (processFrame width frame v).map fun v => (v, false)
  finished _ := false
  conversion := .d

theorem work_eq_run (width : Fin (2 ^ 31)) (frames : Nat → BoxFrame 2) (r : Nat) :
    (program width).work (start width) ((List.range r).map frames) = run width frames r := by
  apply Program.work_range (program width) (start width) frames (run width frames) rfl
  intro r
  rw [run]
  congr 1
  funext v
  simp only [program, Option.map_map]
  exact Option.map_id'.symm

/-- The votes before iteration `n` of the program, in order. -/
def voted (width : Fin (2 ^ 31)) (begin : Int) (its : Nat → Iteration (BoxFrame 2)) (n : Nat) :
    List (Fin 2) :=
  pressed (program width) (boxes₀ width) begin (start width) its n

section Program
variable {width : Fin (2 ^ 31)} {begin : Int} {its : Nat → Iteration (BoxFrame 2)}

theorem counted_app {n n' : Nat} (hle : n ≤ n') {outcome : Outcome Vote}
    (h : runLoop (program width) begin (start width) its n = some outcome) :
    Counted width (handed (program width) begin (start width) its n')
      (processed (program width) begin (start width) its n).length outcome.app := by
  have hwork := runLoop_app h
  rw [processed_eq_map_of_le _ _ _ _ hle, work_eq_run] at hwork
  exact counted_run hwork

theorem runLoop_succ_eq_none_iff {n : Nat} {camera : Camera Vote}
    (h : runLoop (program width) begin (start width) its n = some (.running camera))
    (hadapted : camera.camAdapted = true) :
    runLoop (program width) begin (start width) its (n + 1) = none ↔
      (its n).frame.size.height.val < 150 ∨
        ¬(Inside leftRect (its n).frame.hulls ∧ Inside (rightRect width) (its n).frame.hulls) ∧
          (¬PicturesFit width (its n).frame.size ∨
            ∃ k, (voted width begin its (n + 1)).count k = 2 ^ 31) := by
  have hnext := processed_succ_of_adapted h hadapted
  have hlast : handed (program width) begin (start width) its (n + 1)
      (processed (program width) begin (start width) its n).length = (its n).frame := by
    unfold handed
    rw [hnext]
    simp
  have hframe := (counted_app n.le_succ h).processFrame.1
  unfold Spoilt votes at hframe
  rw [hlast] at hframe
  rw [runLoop_succ_eq_none_iff_of_adapted h hadapted, program, Option.map_eq_none_iff]
  unfold voted pressed
  rw [hnext, List.length_append, List.length_singleton]
  exact hframe

/-- In every run of the poll, under any clock, keys and frames: the boxes are never both active
after a frame, both counters are the votes so far, and the last frame handed over shows these
numbers unless it touched both boxes. A frame has at most one vote, it faults exactly if it is
too small or shows a side's 2^31st, and the program exits only on an escape key. -/
theorem vote_display (width : Fin (2 ^ 31)) (begin : Int) (its : Nat → Iteration (BoxFrame 2))
    (n : Nat) :
    (∀ outcome, runLoop (program width) begin (start width) its n = some outcome →
      ¬(outcome.app.left.active = true ∧ outcome.app.right.active = true) ∧
      outcome.app.left.getCount.toNat = (voted width begin its n).count leftSide ∧
      outcome.app.right.getCount.toNat = (voted width begin its n).count rightSide ∧
      outcome.app.screen =
        (processed (program width) begin (start width) its n).getLast?.bind fun frame =>
          if Inside leftRect frame.hulls ∧ Inside (rightRect width) frame.hulls then none
          else some ⟨twoDigits ((voted width begin its n).count leftSide),
            twoDigits ((voted width begin its n).count rightSide),
            outcome.app.left.counted, outcome.app.right.counted⟩) ∧
    (∀ camera, runLoop (program width) begin (start width) its n = some (.running camera) →
      camera.camAdapted = true →
      (runLoop (program width) begin (start width) its (n + 1) = none ↔
        (its n).frame.size.height.val < 150 ∨
          ¬(Inside leftRect (its n).frame.hulls ∧
              Inside (rightRect width) (its n).frame.hulls) ∧
            (¬PicturesFit width (its n).frame.size ∨
              ∃ k, (voted width begin its (n + 1)).count k = 2 ^ 31))) ∧
    (voted width begin its (n + 1)).length ≤ (voted width begin its n).length + 1 ∧
    ∀ last, runLoop (program width) begin (start width) its n = some (.exited last) →
      ∃ m, m < n ∧ (its m).key % 256 = 27 := by
  refine ⟨fun outcome h => ?_, fun camera h hadapted => runLoop_succ_eq_none_iff h hadapted,
    length_pressed_succ_le (activeCount_boxes₀ width) n, fun last h => ?_⟩
  · have hcounted := counted_app le_rfl h
    have hleft : outcome.app.left = boxesAt (program width) (boxes₀ width) begin (start width) its
        n leftSide := congrFun hcounted.boxes_eq leftSide
    have hright : outcome.app.right = boxesAt (program width) (boxes₀ width) begin (start width)
        its n rightSide := congrFun hcounted.boxes_eq rightSide
    refine ⟨?_, ?_, ?_, ?_⟩
    · rw [hleft, hright, ← one_lt_activeCount_iff, not_lt]
      exact activeCount_boxesAt (activeCount_boxes₀ width) n
    · rw [hleft]
      exact count_eq_votes (hcounted.votes_le leftSide)
    · rw [hright]
      exact count_eq_votes (hcounted.votes_le rightSide)
    · rw [hcounted.screen_eq, screenAfter_eq, ← processed_eq_map, hleft, hright]
      rfl
  · exact (finished_or_escape h).resolve_left Bool.false_ne_true

end Program

end Vote

end BlobTracking.Proc
