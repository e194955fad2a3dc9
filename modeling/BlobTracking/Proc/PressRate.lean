import BlobTracking.Proc.ExclusiveBoxes

/-! How fast a screen can be pressed. A press ends a stay in which no other box is
touched and nothing is pressed, so the stays of all presses lie one after another,
and each of them lasts for longer than an activation time. -/
namespace BlobTracking.Proc
open Library InteractiveObject

section Stays
variable {boxes : Fin n → InteractiveObject} {frames : Nat → BoxFrame n} {j k : Fin n}
  {a a' r s : Nat}

/-- One clock serves all boxes, and it never goes back from frame to frame. -/
def Clock (frames : Nat → BoxFrame n) : Prop :=
  ∀ i i' k k', i < i' → millisOf frames k i ≤ millisOf frames k' i'

theorem Clock.forward (h : Clock frames) (k : Fin n) : Forward frames k := by
  intro i i' hle
  cases hle.eq_or_lt with
  | inl heq => exact heq ▸ le_rfl
  | inr hlt => exact h i i' k k hlt

/-- Two stays of a box that share a frame begin with the same one. -/
theorem PressDue.start_eq (h : PressDue boxes frames k a r) (h' : PressDue boxes frames k a' s)
    (has : a ≤ s) (hsr : s < r) : a = a' := by
  have hnotbefore : ∀ {b b' t}, PressDue boxes frames k b t → b < b' → b' ≤ t →
      (∀ i, i + 1 = b' → ¬TouchedAlone boxes frames k i) → False := by
    intro b b' t hdue hlt hle hfirst
    exact hfirst (b' - 1) (by omega) (hdue.alone (b' - 1) (by omega) (by omega))
  rcases lt_trichotomy a a' with hlt | heq | hlt
  · exact (hnotbefore h hlt (h'.le.trans hsr.le) h'.first).elim
  · exact heq
  · exact (hnotbefore h' hlt has h.first).elim

/-- Nothing is pressed during a stay that ends with a press. -/
theorem PressDue.quiet (h : PressDue boxes frames k a r) (has : a ≤ s) (hsr : s < r) :
    ¬PressDue boxes frames j a' s := by
  intro h'
  have hjk : j = k := (h.alone s has hsr).2 j h'.touched
  subst hjk
  have hearly := h.early s has hsr
  rw [h.start_eq h' has hsr] at hearly
  exact absurd h'.late (not_lt.mpr hearly)

theorem PressDue.elapsed (h : PressDue boxes frames k a r) {T : Nat}
    (hT : T ≤ (boxes k).activationTime.toNat) :
    (T + 1 : Int) ≤ millisOf frames k r - millisOf frames k a := by
  have hlate := h.late
  omega

end Stays

section Rate
variable {rectangles : Fin n → Rect} {activationTimes : Fin n → UInt32}
  {frames : Nat → BoxFrame n}

theorem announced_due (hclock : Clock frames)
    (hbrief : ∀ k, BriefStays (newBoxes rectangles activationTimes) frames k) (r : Nat) :
    boxMember.announced (boxesAfter (newBoxes rectangles activationTimes) frames r)
        (frames r).inputs = [] ∨
      ∃ k a, boxMember.announced (boxesAfter (newBoxes rectangles activationTimes) frames r)
          (frames r).inputs = [k] ∧
        PressDue (newBoxes rectangles activationTimes) frames k a r := by
  have hexclusive : boxMember.activeCount
      (boxesAfter (newBoxes rectangles activationTimes) frames r) ≤ 1 :=
    Member.activeCount_after_le activeCount_newBoxes r
  refine (Member.announced_cases hexclusive (frames r).inputs).imp And.left fun ⟨k, hk, hiff⟩ => ?_
  have hdue := (announces_iff (hclock.forward k) (hbrief k) ⟨rfl, rfl, rfl⟩ r).mp
    ((hiff k).mpr rfl)
  exact ⟨k, hdue.choose, hk, hdue.choose_spec⟩

/-- The presses before a press are those before its stay. -/
theorem PressDue.presses_eq {k : Fin n} {a r : Nat}
    (h : PressDue (newBoxes rectangles activationTimes) frames k a r) (hclock : Clock frames)
    (hbrief : ∀ k, BriefStays (newBoxes rectangles activationTimes) frames k) :
    presses (newBoxes rectangles activationTimes) frames r =
      presses (newBoxes rectangles activationTimes) frames a := by
  have hsame : ∀ s, a ≤ s → s ≤ r → presses (newBoxes rectangles activationTimes) frames s =
      presses (newBoxes rectangles activationTimes) frames a := by
    intro s has
    induction s, has using Nat.le_induction with
    | base => exact fun _ => rfl
    | succ s has ih =>
      intro hsr
      rw [presses_succ, ih (Nat.le_of_succ_le hsr)]
      cases announced_due hclock hbrief s with
      | inl hnone => rw [hnone, List.append_nil]
      | inr hone =>
        obtain ⟨j, a', _, hdue⟩ := hone
        exact absurd hdue (h.quiet has hsr)
  exact hsame r h.le le_rfl

/-- On any screen of new boxes, under one clock: the presses so far, each with more than an
activation time, fit into the time that has passed. -/
theorem press_rate (rectangles : Fin n → Rect) (activationTimes : Fin n → UInt32)
    (frames : Nat → BoxFrame n) (hclock : Clock frames)
    (hbrief : ∀ k, BriefStays (newBoxes rectangles activationTimes) frames k) (T : Nat)
    (hT : ∀ k, T ≤ (activationTimes k).toNat) (begin : Int)
    (hbegin : ∀ k, begin ≤ millisOf frames k 0) (r : Nat) (k : Fin n) :
    ((presses (newBoxes rectangles activationTimes) frames r).length : Int) * (T + 1) ≤
      millisOf frames k r - begin := by
  induction r using Nat.strong_induction_on generalizing k with
  | _ r ih =>
    cases r with
    | zero =>
      have hstart := hbegin k
      change (0 : Int) * (T + 1) ≤ _
      omega
    | succ r =>
      have hforward : ∀ j, millisOf frames j r ≤ millisOf frames k (r + 1) := fun j =>
        hclock r (r + 1) j k r.lt_succ_self
      rw [presses_succ]
      cases announced_due hclock hbrief r with
      | inl hnone =>
        have hbefore := ih r r.lt_succ_self k
        rw [hnone, List.append_nil]
        exact hbefore.trans (sub_le_sub_right (hforward k) _)
      | inr hone =>
        obtain ⟨j, a, hj, hdue⟩ := hone
        have hbefore := ih a (Nat.lt_succ_of_le hdue.le) j
        have helapsed := hdue.elapsed (hT j)
        have hlater := hforward j
        rw [hj, hdue.presses_eq hclock hbrief, List.length_append, List.length_singleton,
          Nat.cast_add, Nat.cast_one, Int.add_mul]
        omega

theorem press_rate_hand :
    ((presses (newBoxes twoRectangles fun _ => 500) handFrames 2).length : Int) * (500 + 1) ≤
      millisOf handFrames 1 2 - 0 := by
  have hclock : Clock handFrames := by
    intro i i' k k' hlt
    rw [millisOf_handFrames, millisOf_handFrames]
    split <;> split <;> omega
  have hbegin : ∀ k, 0 ≤ millisOf handFrames k 0 := by
    intro k
    rw [millisOf_handFrames, if_pos rfl]
  exact press_rate twoRectangles (fun _ => 500) handFrames hclock (briefStays_handFrames _) 500
    (fun _ => le_rfl) 0 hbegin 2 1

end Rate

end BlobTracking.Proc
