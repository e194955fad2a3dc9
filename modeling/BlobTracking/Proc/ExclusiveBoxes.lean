import BlobTracking.Library.ExclusiveGroup
import BlobTracking.Proc.Dwell
import BlobTracking.Proc.Overlap

/-! Several interactive objects on one screen. Both programs that use them show
the same hulls to each box in turn and deactivate all boxes when more than one is
active, so the boxes are an exclusive group. A box is pressed where it has been
touched alone, from one frame on, for longer than its activation time. -/
namespace BlobTracking.Proc
open Library OpenCV InteractiveObject

/-- A call returns true only for a box that was active before. -/
theorem InteractiveObject.Effect.active_of_answer {obj next : InteractiveObject}
    {contact : Option Int} {answer : Bool} (h : obj.Effect contact next answer)
    (hanswer : answer = true) : obj.active = true := by
  cases h with
  | increment _ hactive => exact hactive
  | clear => cases hanswer
  | stayOut => cases hanswer
  | enter => cases hanswer
  | wait => cases hanswer

/-- The boxes of one screen: an input is the hulls and the clock of one call. -/
def boxMember : Member InteractiveObject (List (List Point) × Timeval) where
  update box input := box.processHulls input.1 input.2
  active box := box.active
  clear box := box.deactivate
  active_of_announced box input h :=
    (perform_effect box (.processHulls input.1 input.2)).active_of_answer h
  clear_inactive _ := rfl

/-- What one frame shows to the boxes: its hulls, and the clock during each call. The programs
read its size as well. -/
structure BoxFrame (n : Nat) where
  size : Size
  hulls : List (List Point)
  now : Fin n → Timeval

def BoxFrame.inputs (frame : BoxFrame n) (k : Fin n) : List (List Point) × Timeval :=
  (frame.hulls, frame.now k)

section Boxes
variable (boxes : Fin n → InteractiveObject) (frames : Nat → BoxFrame n)

/-- The boxes before frame `r`. -/
def boxesAfter (r : Nat) : Fin n → InteractiveObject :=
  boxMember.after boxes (fun i => (frames i).inputs) r

/-- The boxes whose `ProcessHulls` returned true before frame `r`, in that order. -/
def presses (r : Nat) : List (Fin n) :=
  boxMember.history boxes (fun i => (frames i).inputs) r

/-- Frame `i` has a hull point inside box `k`. -/
def Touched (k : Fin n) (i : Nat) : Prop := Inside (boxes k).rectangle (frames i).hulls

/-- Frame `i` touches box `k` and no other box. -/
def TouchedAlone (k : Fin n) (i : Nat) : Prop :=
  Touched boxes frames k i ∧ ∀ j, Touched boxes frames j i → j = k

instance : Decidable (Touched boxes frames k i) :=
  inferInstanceAs (Decidable (Inside (boxes k).rectangle (frames i).hulls))

instance : Decidable (TouchedAlone boxes frames k i) :=
  inferInstanceAs (Decidable (_ ∧ ∀ j, Touched boxes frames j i → j = k))

/-- The clock of box `k` in frame `i`, in milliseconds. -/
def millisOf (k : Fin n) (i : Nat) : Int := ((frames i).now k).millis

def touchContact (k : Fin n) (i : Nat) : Option Int :=
  if Touched boxes frames k i then some (millisOf frames k i) else none

def aloneContact (k : Fin n) (i : Nat) : Option Int :=
  if TouchedAlone boxes frames k i then some (millisOf frames k i) else none

/-- Box `k` is touched in frame `r`, and alone in all frames from `a` until then. -/
structure HeldSince (k : Fin n) (a r : Nat) : Prop where
  le : a ≤ r
  alone : ∀ i, a ≤ i → i < r → TouchedAlone boxes frames k i
  touched : Touched boxes frames k r

/-- Frame `r` is the first past the activation time in a stay that began with frame `a`. -/
structure PressDue (k : Fin n) (a r : Nat) : Prop extends HeldSince boxes frames k a r where
  first : ∀ i, i + 1 = a → ¬TouchedAlone boxes frames k i
  late : ((boxes k).activationTime.toNat : Int) < millisOf frames k r - millisOf frames k a
  early : ∀ i, a ≤ i → i < r →
    millisOf frames k i - millisOf frames k a ≤ ((boxes k).activationTime.toNat : Int)

end Boxes

section Histories
variable {boxes : Fin n → InteractiveObject} {frames : Nat → BoxFrame n} {k : Fin n}

theorem boxesAfter_succ (boxes : Fin n → InteractiveObject) (frames : Nat → BoxFrame n) (r : Nat)
    (k : Fin n) : boxesAfter boxes frames (r + 1) k =
      if boxMember.clash (boxesAfter boxes frames r) (frames r).inputs then
        ((boxesAfter boxes frames r k).perform
          (.processHulls (frames r).hulls ((frames r).now k))).1.deactivate
      else ((boxesAfter boxes frames r k).perform
        (.processHulls (frames r).hulls ((frames r).now k))).1 := rfl

theorem presses_succ (boxes : Fin n → InteractiveObject) (frames : Nat → BoxFrame n) (r : Nat) :
    presses boxes frames (r + 1) = presses boxes frames r ++
      boxMember.announced (boxesAfter boxes frames r) (frames r).inputs := rfl

/-- The counter of a box is the number of its presses, modulo 2^32. -/
theorem count_boxesAfter (hboxes : boxMember.activeCount boxes ≤ 1) (k : Fin n) (r : Nat) :
    (boxesAfter boxes frames r k).count.toNat =
      ((boxes k).count.toNat + (presses boxes frames r).count k) % 2 ^ 32 := by
  induction r with
  | zero =>
    have hword := (boxes k).count.toNat_lt
    change (boxes k).count.toNat = ((boxes k).count.toNat + 0) % 2 ^ 32
    omega
  | succ r ih =>
    have hexclusive : boxMember.activeCount (boxesAfter boxes frames r) ≤ 1 :=
      Member.activeCount_after_le hboxes r
    have heffect := perform_effect (boxesAfter boxes frames r k)
      (.processHulls (frames r).hulls ((frames r).now k))
    have hcount : (boxesAfter boxes frames (r + 1) k).count =
        (boxesAfter boxes frames r k).count + if boxMember.announces
          (boxesAfter boxes frames r) (frames r).inputs k then 1 else 0 := by
      rw [boxesAfter_succ]
      split
      · rw [deactivate_count]
        exact heffect.count_eq
      · exact heffect.count_eq
    have hpressed : (boxMember.announced (boxesAfter boxes frames r) (frames r).inputs).count k =
        if boxMember.announces (boxesAfter boxes frames r) (frames r).inputs k then 1 else 0 := by
      cases Member.announced_cases hexclusive (frames r).inputs with
      | inl hnone =>
        rw [hnone.1, hnone.2 k]
        rfl
      | inr hone =>
        obtain ⟨p, hp, hiff⟩ := hone
        rw [hp]
        by_cases hkp : k = p
        · simp [hkp, (hiff p).mpr rfl]
        · have hquiet := mt (hiff k).mp hkp
          simp [hquiet, Ne.symm hkp]
    rw [hcount, presses_succ, List.count_append, hpressed, UInt32.toNat_add, ih]
    split
    · simp [Nat.add_assoc]
    · simp

theorem presses_congr {frames' : Nat → BoxFrame n} {r : Nat}
    (h : ∀ i, i < r → frames i = frames' i) :
    presses boxes frames r = presses boxes frames' r :=
  Member.history_congr fun i hi => congrArg BoxFrame.inputs (h i hi)

theorem presses_isPrefix (boxes : Fin n → InteractiveObject) (frames : Nat → BoxFrame n)
    {r r' : Nat} (h : r ≤ r') : presses boxes frames r <+: presses boxes frames r' :=
  Member.history_isPrefix h

theorem boxesAfter_congr {frames' : Nat → BoxFrame n} {r : Nat}
    (h : ∀ i, i < r → frames i = frames' i) :
    boxesAfter boxes frames r = boxesAfter boxes frames' r :=
  Member.after_congr fun i hi => congrArg BoxFrame.inputs (h i hi)

theorem active_unique (hboxes : boxMember.activeCount boxes ≤ 1) {r : Nat} {j k : Fin n}
    (hj : (boxesAfter boxes frames r j).active = true)
    (hk : (boxesAfter boxes frames r k).active = true) : j = k := by
  have hone : boxMember.activeCount (boxesAfter boxes frames r) ≤ 1 :=
    Member.activeCount_after_le hboxes r
  exact Finset.card_le_one.mp hone j (Finset.mem_filter.mpr ⟨Finset.mem_univ j, hj⟩) k
    (Finset.mem_filter.mpr ⟨Finset.mem_univ k, hk⟩)

theorem constants_boxesAfter (boxes : Fin n → InteractiveObject) (frames : Nat → BoxFrame n)
    (k : Fin n) (r : Nat) : (boxesAfter boxes frames r k).rectangle = (boxes k).rectangle ∧
      (boxesAfter boxes frames r k).activationTime = (boxes k).activationTime := by
  induction r with
  | zero => exact ⟨rfl, rfl⟩
  | succ r ih =>
    have heffect := perform_effect (boxesAfter boxes frames r k)
      (.processHulls (frames r).hulls ((frames r).now k))
    rw [boxesAfter_succ]
    split
    · exact ⟨heffect.rectangle_eq.trans ih.1, heffect.activationTime_eq.trans ih.2⟩
    · exact ⟨heffect.rectangle_eq.trans ih.1, heffect.activationTime_eq.trans ih.2⟩

/-- A touched box takes part in a clash unless it is touched alone. -/
theorem clash_iff {r : Nat} (hk : Touched boxes frames k r) :
    boxMember.clash (boxesAfter boxes frames r) (frames r).inputs = true ↔
      ¬TouchedAlone boxes frames k r := by
  have hactive : ∀ j, boxMember.active
      (boxMember.updated (boxesAfter boxes frames r) (frames r).inputs j) = true ↔
        Touched boxes frames j r := by
    intro j
    unfold Touched
    rw [← (constants_boxesAfter boxes frames j r).1]
    exact active_processHulls_iff _ _ _
  unfold Member.clash Member.activeCount TouchedAlone
  rw [decide_eq_true_eq, Finset.one_lt_card]
  simp only [Finset.mem_filter, Finset.mem_univ, true_and, hactive]
  constructor
  · intro ⟨i, hi, j, hj, hne⟩ halone
    exact hne ((halone.2 i hi).trans (halone.2 j hj).symm)
  · intro hcrowd
    by_contra hsingle
    refine hcrowd ⟨hk, fun j hj => ?_⟩
    by_contra hne
    exact hsingle ⟨j, hj, k, hk, hne⟩

/-- Across a frame a box behaves as its timer does, for which a clash is a lost contact. -/
theorem refines_frame {r : Nat} {timer : DwellTimer Int}
    (h : (boxesAfter boxes frames r k).Refines timer)
    (hrange : InRange timer (touchContact boxes frames k r)) :
    (boxesAfter boxes frames (r + 1) k).Refines
        (timer.step ((boxes k).activationTime.toNat : Int) (aloneContact boxes frames k r)).1 ∧
      boxMember.announces (boxesAfter boxes frames r) (frames r).inputs k =
        (timer.step ((boxes k).activationTime.toNat : Int) (touchContact boxes frames k r)).2 := by
  obtain ⟨hrectangle, htime⟩ := constants_boxesAfter boxes frames k r
  have hcontact : contactOf (boxesAfter boxes frames r k).rectangle
      (.processHulls (frames r).hulls ((frames r).now k)) = touchContact boxes frames k r := by
    rw [hrectangle]
    rfl
  have hstep := (perform_effect (boxesAfter boxes frames r k)
    (.processHulls (frames r).hulls ((frames r).now k))).refines h (hcontact ▸ hrange)
  rw [hcontact, htime] at hstep
  refine ⟨?_, hstep.2⟩
  rw [boxesAfter_succ]
  by_cases halone : TouchedAlone boxes frames k r
  · have hclear : ¬boxMember.clash (boxesAfter boxes frames r) (frames r).inputs = true :=
      mt (clash_iff halone.1).mp (not_not_intro halone)
    have hsame : aloneContact boxes frames k r = touchContact boxes frames k r := by
      unfold aloneContact touchContact
      rw [if_pos halone, if_pos halone.1]
    rw [if_neg hclear, hsame]
    exact hstep.1
  · have hlost : aloneContact boxes frames k r = none := if_neg halone
    rw [hlost, DwellTimer.step_none]
    by_cases htouched : Touched boxes frames k r
    · rw [if_pos ((clash_iff htouched).mpr halone)]
      exact ⟨rfl, rfl, rfl⟩
    · have hnone : touchContact boxes frames k r = none := if_neg htouched
      rw [hnone, DwellTimer.step_none] at hstep
      split
      · exact ⟨rfl, rfl, rfl⟩
      · exact hstep.1

/-- The clock of box `k` never goes back. -/
def Forward (frames : Nat → BoxFrame n) (k : Fin n) : Prop :=
  ∀ i j, i ≤ j → millisOf frames k i ≤ millisOf frames k j

/-- No stay in box `k` outlasts the range of a stamp. -/
def BriefStays (boxes : Fin n → InteractiveObject) (frames : Nat → BoxFrame n) (k : Fin n) : Prop :=
  ∀ a r, HeldSince boxes frames k a r → millisOf frames k r - millisOf frames k a < 2 ^ 32

theorem contact_alone_iff {i : Nat} : DwellTimer.Contact (aloneContact boxes frames k) i ↔
    TouchedAlone boxes frames k i := by
  unfold DwellTimer.Contact aloneContact
  split
  · simp_all
  · simp_all

theorem inRange_frame (hforward : Forward frames k) (hbrief : BriefStays boxes frames k)
    {limit : Int} (hlimit : 0 ≤ limit) (r : Nat) :
    InRange (DwellTimer.after limit (aloneContact boxes frames k) r)
      (touchContact boxes frames k r) := by
  have hmemory := DwellTimer.remembers_after hlimit (aloneContact boxes frames k) r
  cases htimer : DwellTimer.after limit (aloneContact boxes frames k) r with
  | idle => trivial
  | running start fired =>
    rw [htimer] at hmemory
    obtain ⟨m, a, rfl, hsince, hstart, _⟩ := hmemory
    unfold touchContact
    split
    case isFalse => trivial
    case isTrue htouched =>
      have halone : ∀ i, a ≤ i → i < m + 1 → TouchedAlone boxes frames k i := fun i hle hlt =>
        contact_alone_iff.mp (hsince.holds i hle (Nat.lt_succ_iff.mp hlt))
      have hle : a ≤ m + 1 := hsince.le.trans m.le_succ
      have hstart' : start = millisOf frames k a := by
        unfold aloneContact at hstart
        rw [if_pos (halone a le_rfl (Nat.lt_succ_of_le hsince.le))] at hstart
        exact (Option.some.inj hstart).symm
      rw [hstart']
      exact ⟨hforward a (m + 1) hle, hbrief a (m + 1) ⟨hle, halone, htouched⟩⟩

theorem refines_boxesAfter (hforward : Forward frames k) (hbrief : BriefStays boxes frames k)
    (hnew : (boxes k).Refines .idle) (r : Nat) : (boxesAfter boxes frames r k).Refines
      (DwellTimer.after ((boxes k).activationTime.toNat : Int) (aloneContact boxes frames k) r) := by
  induction r with
  | zero => exact hnew
  | succ r ih =>
    exact (refines_frame ih
      (inRange_frame hforward hbrief (Int.natCast_nonneg _) r)).1

/-- What the timer of box `k` is shown until frame `r`: it announces a press in frame `r` before
a clash there can clear it. -/
def shown (boxes : Fin n → InteractiveObject) (frames : Nat → BoxFrame n) (k : Fin n)
    (r i : Nat) : Option Int :=
  if i < r then aloneContact boxes frames k i else touchContact boxes frames k i

theorem announces_eq_fires (hforward : Forward frames k) (hbrief : BriefStays boxes frames k)
    (hnew : (boxes k).Refines .idle) (r : Nat) :
    boxMember.announces (boxesAfter boxes frames r) (frames r).inputs k =
      DwellTimer.fires ((boxes k).activationTime.toNat : Int) (shown boxes frames k r) r := by
  have hpast : DwellTimer.after ((boxes k).activationTime.toNat : Int)
      (shown boxes frames k r) r = DwellTimer.after ((boxes k).activationTime.toNat : Int)
        (aloneContact boxes frames k) r := DwellTimer.after_congr fun i hi => if_pos hi
  have hnow : shown boxes frames k r r = touchContact boxes frames k r := if_neg (lt_irrefl r)
  unfold DwellTimer.fires
  rw [hpast, hnow]
  exact (refines_frame (refines_boxesAfter hforward hbrief hnew r)
    (inRange_frame hforward hbrief (Int.natCast_nonneg _) r)).2

theorem shown_before {r i : Nat} (hi : i < r) :
    DwellTimer.Contact (shown boxes frames k r) i ↔ TouchedAlone boxes frames k i := by
  unfold DwellTimer.Contact shown
  rw [if_pos hi]
  exact contact_alone_iff

theorem since_shown_iff {a r : Nat} :
    Since (DwellTimer.Contact (shown boxes frames k r)) a r ↔
      HeldSince boxes frames k a r ∧ ∀ i, i + 1 = a → ¬TouchedAlone boxes frames k i := by
  have hnow : DwellTimer.Contact (shown boxes frames k r) r ↔ Touched boxes frames k r := by
    unfold DwellTimer.Contact shown touchContact
    rw [if_neg (lt_irrefl r)]
    split
    case isTrue htouched => simp [htouched]
    case isFalse haway => simp [haway]
  constructor
  · intro hsince
    refine ⟨⟨hsince.le, fun i hle hlt => ?_, hnow.mp (hsince.holds r hsince.le le_rfl)⟩,
      fun i hi => ?_⟩
    · exact (shown_before hlt).mp (hsince.holds i hle hlt.le)
    · exact mt (shown_before (Nat.lt_of_succ_le (hi.trans_le hsince.le))).mpr (hsince.first i hi)
  · intro ⟨hheld, hfirst⟩
    refine ⟨hheld.le, fun i hle hge => ?_, fun i hi => ?_⟩
    · cases hge.eq_or_lt with
      | inl hlast => exact hlast ▸ hnow.mpr hheld.touched
      | inr hlt => exact (shown_before hlt).mpr (hheld.alone i hle hlt)
    · exact mt (shown_before (Nat.lt_of_succ_le (hi.trans_le hheld.le))).mp (hfirst i hi)

theorem HeldSince.shown_eq {a r i : Nat} (h : HeldSince boxes frames k a r) (hle : a ≤ i)
    (hge : i ≤ r) : shown boxes frames k r i = some (millisOf frames k i) := by
  unfold shown
  cases hge.eq_or_lt with
  | inl hlast =>
    rw [if_neg (hlast ▸ lt_irrefl r)]
    exact if_pos (hlast ▸ h.touched)
  | inr hlt =>
    rw [if_pos hlt]
    exact if_pos (h.alone i hle hlt)

theorem HeldSince.firstBeyond_iff {a r : Nat} (h : HeldSince boxes frames k a r) {limit : Int} :
    DwellTimer.FirstBeyond limit (shown boxes frames k r) a r ↔
      limit < millisOf frames k r - millisOf frames k a ∧
        ∀ i, a ≤ i → i < r → millisOf frames k i - millisOf frames k a ≤ limit := by
  have hbeyond : ∀ i, a ≤ i → i ≤ r → (DwellTimer.Beyond limit (shown boxes frames k r) a i ↔
      limit < millisOf frames k i - millisOf frames k a) := fun i hle hge =>
    DwellTimer.beyond_iff (h.shown_eq le_rfl h.le) (h.shown_eq hle hge)
  constructor
  · intro ⟨hlate, hearly⟩
    refine ⟨(hbeyond r h.le le_rfl).mp hlate, fun i hle hlt => ?_⟩
    exact not_lt.mp (mt (hbeyond i hle hlt.le).mpr (hearly i hle hlt))
  · intro ⟨hlate, hearly⟩
    refine ⟨(hbeyond r h.le le_rfl).mpr hlate, fun i hle hlt => ?_⟩
    exact mt (hbeyond i hle hlt.le).mp (not_lt.mpr (hearly i hle hlt))

theorem announces_iff (hforward : Forward frames k) (hbrief : BriefStays boxes frames k)
    (hnew : (boxes k).Refines .idle) (r : Nat) :
    boxMember.announces (boxesAfter boxes frames r) (frames r).inputs k = true ↔
      ∃ a, PressDue boxes frames k a r := by
  rw [announces_eq_fires hforward hbrief hnew, DwellTimer.fires_iff (Int.natCast_nonneg _)]
  constructor
  · intro ⟨a, hsince, hbeyond⟩
    obtain ⟨hheld, hfirst⟩ := since_shown_iff.mp hsince
    obtain ⟨hlate, hearly⟩ := hheld.firstBeyond_iff.mp hbeyond
    exact ⟨a, hheld, hfirst, hlate, hearly⟩
  · intro ⟨a, hdue⟩
    exact ⟨a, since_shown_iff.mpr ⟨hdue.toHeldSince, hdue.first⟩,
      hdue.toHeldSince.firstBeyond_iff.mpr ⟨hdue.late, hdue.early⟩⟩

end Histories

section Pressed
variable {rectangles : Fin n → Rect} {activationTimes : Fin n → UInt32}

def newBoxes (rectangles : Fin n → Rect) (activationTimes : Fin n → UInt32) (k : Fin n) :
    InteractiveObject :=
  construct (rectangles k) (activationTimes k)

theorem activeCount_newBoxes : boxMember.activeCount (newBoxes rectangles activationTimes) ≤ 1 := by
  have hnone : (Finset.univ.filter fun k =>
      boxMember.active (newBoxes rectangles activationTimes k) = true) = ∅ := by
    ext k
    simp [boxMember, newBoxes, construct]
  unfold Member.activeCount
  rw [hnone, Finset.card_empty]
  exact Nat.zero_le 1

/-- On any screen of new boxes, a frame presses box `k` exactly if it touches the box, the box
has been touched alone in every frame of a stay until then, and this is the first frame of the
stay past the activation time. A frame that touches two boxes ends the stays in both, but it
can still press one of them. -/
theorem box_pressed_iff (rectangles : Fin n → Rect) (activationTimes : Fin n → UInt32)
    (frames : Nat → BoxFrame n) (k : Fin n) (hforward : Forward frames k)
    (hbrief : BriefStays (newBoxes rectangles activationTimes) frames k) (r : Nat) :
    presses (newBoxes rectangles activationTimes) frames (r + 1) =
        presses (newBoxes rectangles activationTimes) frames r ++ [k] ↔
      ∃ a, PressDue (newBoxes rectangles activationTimes) frames k a r := by
  have hexclusive : boxMember.activeCount
      (boxesAfter (newBoxes rectangles activationTimes) frames r) ≤ 1 :=
    Member.activeCount_after_le activeCount_newBoxes r
  rw [presses_succ, List.append_cancel_left_eq,
    ← announces_iff hforward hbrief ⟨rfl, rfl, rfl⟩ r]
  cases Member.announced_cases hexclusive (frames r).inputs with
  | inl hnone =>
    rw [hnone.1, hnone.2 k]
    simp
  | inr hone =>
    obtain ⟨p, hp, hiff⟩ := hone
    rw [hp, hiff k, List.singleton_inj, eq_comm]

/-- Two boxes, and a hand that stays in the first of them for a second. -/
def twoRectangles (k : Fin 2) : Rect where
  x := 100 * k.val
  y := 0
  width := 90
  height := 90
  inInt := by
    rw [Rect.inInt_iff]
    omega

def handFrames : Nat → BoxFrame 2
  | 0 => ⟨⟨640, 480⟩, [[⟨5, 5⟩]], fun _ => ⟨0, 0, by decide, by decide⟩⟩
  | _ => ⟨⟨640, 480⟩, [[⟨5, 5⟩]], fun _ => ⟨1, 0, by decide, by decide⟩⟩

theorem millisOf_handFrames (k : Fin 2) (i : Nat) :
    millisOf handFrames k i = if i = 0 then 0 else 1000 := by
  cases i with
  | zero =>
    change (0 : Int64).toInt * 1000 + (0 : Int64).toInt / 1000 = 0
    decide
  | succ i =>
    rw [if_neg i.succ_ne_zero]
    change (1 : Int64).toInt * 1000 + (0 : Int64).toInt / 1000 = 1000
    decide

theorem briefStays_handFrames (boxes : Fin 2 → InteractiveObject) (k : Fin 2) :
    BriefStays boxes handFrames k := by
  intro a r _
  rw [millisOf_handFrames, millisOf_handFrames]
  split <;> split <;> omega

theorem pressDue_hand :
    PressDue (newBoxes twoRectangles fun _ => 500) handFrames 0 0 1 where
  le := Nat.zero_le 1
  alone i _ hi := by
    obtain rfl : i = 0 := Nat.lt_one_iff.mp hi
    decide
  touched := by decide
  first i hi := absurd hi i.succ_ne_zero
  late := by
    rw [millisOf_handFrames, millisOf_handFrames]
    decide
  early i _ hi := by
    obtain rfl : i = 0 := Nat.lt_one_iff.mp hi
    rw [sub_self]
    exact Int.natCast_nonneg _

/-- The second frame presses the first box. -/
theorem box_pressed_iff_hand :
    presses (newBoxes twoRectangles fun _ => 500) handFrames (1 + 1) =
      presses (newBoxes twoRectangles fun _ => 500) handFrames 1 ++ [0] := by
  have hforward : Forward handFrames 0 := by
    intro i j hle
    rw [millisOf_handFrames, millisOf_handFrames]
    split <;> split <;> omega
  exact (box_pressed_iff twoRectangles (fun _ => 500) handFrames 0 hforward
    (briefStays_handFrames _ 0) 1).mpr ⟨0, pressDue_hand⟩

end Pressed

end BlobTracking.Proc
