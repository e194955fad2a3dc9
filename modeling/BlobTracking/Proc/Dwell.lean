import BlobTracking.Library.DwellTimer
import BlobTracking.Proc.InteractiveObject
import Mathlib.Data.List.Count
import Mathlib.Algebra.Order.Ring.Int

/-! Whole histories of an interactive object. It refines a one-shot timer over
unbounded milliseconds, as long as no stay in the rectangle outlasts a stamp. -/
namespace BlobTracking.Proc

open OpenCV Library

inductive Call where
  | processHulls (hulls : List (List Point)) (now : Timeval)
  | deactivate
deriving DecidableEq

namespace InteractiveObject

def perform (obj : InteractiveObject) : Call → InteractiveObject × Bool
  | .processHulls hulls now => obj.processHulls hulls now
  | .deactivate => (obj.deactivate, false)

def afterCalls (obj : InteractiveObject) (calls : List Call) (n : Nat) : InteractiveObject :=
  (calls.take n).foldl (fun obj call => (obj.perform call).1) obj

/-- What the call at position `n` returns. -/
def returns (obj : InteractiveObject) (calls : List Call) (n : Nat) : Bool :=
  match calls[n]? with
  | none => false
  | some call => ((obj.afterCalls calls n).perform call).2

def trueReturns (obj : InteractiveObject) (calls : List Call) (n : Nat) : Nat :=
  (List.range n).countP (obj.returns calls)

section Run
variable {obj : InteractiveObject} {calls : List Call} {n : Nat} {call : Call}

theorem afterCalls_succ (h : calls[n]? = some call) :
    obj.afterCalls calls (n + 1) = ((obj.afterCalls calls n).perform call).1 := by
  unfold afterCalls
  rw [List.take_add_one, h, List.foldl_append]
  rfl

theorem afterCalls_of_le (h : calls.length ≤ n) :
    obj.afterCalls calls (n + 1) = obj.afterCalls calls n := by
  unfold afterCalls
  rw [List.take_of_length_le h, List.take_of_length_le (h.trans n.le_succ)]

theorem returns_of_some (h : calls[n]? = some call) :
    obj.returns calls n = ((obj.afterCalls calls n).perform call).2 := by
  unfold returns
  rw [h]

theorem returns_of_le (h : calls.length ≤ n) : obj.returns calls n = false := by
  unfold returns
  rw [List.getElem?_eq_none h]

theorem afterCalls_induction {P : InteractiveObject → Prop} (hobj : P obj)
    (hstep : ∀ obj call, P obj → P (obj.perform call).1) (n : Nat) :
    P (obj.afterCalls calls n) := by
  unfold afterCalls
  generalize calls.take n = performed
  induction performed generalizing obj with
  | nil => exact hobj
  | cons call rest ih => exact ih (hstep obj call hobj)

end Run

/-! ## One call -/

instance (rectangle : Rect) (hulls : List (List Point)) : Decidable (Inside rectangle hulls) :=
  decidable_of_iff _ (searchHulls_iff (construct rectangle) hulls)

/-- When a call sees something inside the rectangle, if it does. -/
def contactOf (rectangle : Rect) : Call → Option Int
  | .processHulls hulls now => if Inside rectangle hulls then some now.millis else none
  | .deactivate => none

/-- The stamp of `now` is more than `activationTime` past the stored one. -/
def Late (obj : InteractiveObject) (now : Int) : Prop :=
  obj.activationTime < UInt32.ofInt now - obj.activeStamp

/-- Everything a call can do: the contact it sees, the object it leaves, its result. -/
inductive Effect (obj : InteractiveObject) : Option Int → InteractiveObject → Bool → Prop where
  | clear : Effect obj none obj.deactivate false
  | stayOut : obj.active = false → Effect obj none obj false
  | enter (now : Int) : obj.active = false →
      Effect obj (some now) { obj with active := true, activeStamp := UInt32.ofInt now } false
  | wait (now : Int) : obj.active = true → (obj.counted = true ∨ ¬obj.Late now) →
      Effect obj (some now) obj false
  | increment (now : Int) : obj.active = true → obj.counted = false → obj.Late now →
      Effect obj (some now) { obj with count := obj.count + 1, counted := true } true

theorem perform_effect (obj : InteractiveObject) (call : Call) :
    obj.Effect (contactOf obj.rectangle call) (obj.perform call).1 (obj.perform call).2 := by
  cases call with
  | deactivate => exact .clear
  | processHulls hulls now =>
    simp only [contactOf, perform, processHulls]
    by_cases hinside : Inside obj.rectangle hulls
    · rw [if_pos hinside, (obj.searchHulls_iff hulls).mpr hinside, getTimestamp_eq]
      by_cases hactive : obj.active = true
      · rw [if_pos hactive, if_neg (by simp)]
        by_cases hcount : obj.counted = false ∧ obj.Late now.millis
        · rw [if_pos (by simpa [Late] using hcount)]
          exact .increment now.millis hactive hcount.1 hcount.2
        · rw [if_neg (by simpa [Late] using hcount)]
          refine .wait now.millis hactive ?_
          rw [← Bool.not_eq_false]
          exact not_and_or.mp hcount
      · rw [if_neg hactive, if_pos rfl]
        exact .enter now.millis (Bool.eq_false_iff.mpr hactive)
    · rw [if_neg hinside, Bool.eq_false_iff.mpr (mt (obj.searchHulls_iff hulls).mp hinside)]
      by_cases hactive : obj.active = true
      · rw [if_pos hactive]
        exact .clear
      · rw [if_neg hactive]
        exact .stayOut (Bool.eq_false_iff.mpr hactive)

namespace Effect
variable {obj next : InteractiveObject} {contact : Option Int} {answer : Bool}

theorem rectangle_eq (h : obj.Effect contact next answer) : next.rectangle = obj.rectangle := by
  cases h <;> rfl

theorem activationTime_eq (h : obj.Effect contact next answer) :
    next.activationTime = obj.activationTime := by
  cases h <;> rfl

theorem count_eq (h : obj.Effect contact next answer) :
    next.count = obj.count + if answer then 1 else 0 := by
  cases h <;> simp

end Effect

structure Consistent (obj : InteractiveObject) : Prop where
  active_of_counted : obj.counted = true → obj.active = true
  stamp_of_inactive : ¬obj.active = true → obj.activeStamp = 0

theorem consistent_construct (rectangle : Rect) (activationTime : UInt32) :
    (construct rectangle activationTime).Consistent :=
  ⟨fun h => Bool.noConfusion h, fun _ => rfl⟩

theorem Effect.consistent {obj next : InteractiveObject} {contact : Option Int} {answer : Bool}
    (h : obj.Effect contact next answer) (hobj : obj.Consistent) : next.Consistent := by
  cases h with
  | clear => exact ⟨fun hcounted => Bool.noConfusion hcounted, fun _ => rfl⟩
  | stayOut => exact hobj
  | enter => exact ⟨fun _ => rfl, fun hinactive => absurd rfl hinactive⟩
  | wait => exact hobj
  | increment _ hactive => exact ⟨fun _ => hactive, fun hinactive => absurd hactive hinactive⟩

/-! ## The timer behind the object -/

/-- The object stores the start of the timer modulo 2^32. -/
def Refines (obj : InteractiveObject) : DwellTimer Int → Prop
  | .idle => obj.active = false ∧ obj.counted = false ∧ obj.activeStamp = 0
  | .running start fired =>
    obj.active = true ∧ obj.counted = fired ∧ obj.activeStamp = UInt32.ofInt start

/-- A contact comes within the range of a stamp after the start of a running timer. -/
def InRange : DwellTimer Int → Option Int → Prop
  | .running start _, some now => start ≤ now ∧ now - start < 2 ^ 32
  | _, _ => True

theorem Effect.refines {obj next : InteractiveObject} {contact : Option Int} {answer : Bool}
    {timer : DwellTimer Int} (h : obj.Effect contact next answer) (htimer : obj.Refines timer)
    (hrange : InRange timer contact) :
    next.Refines (timer.step (obj.activationTime.toNat : Int) contact).1 ∧
      answer = (timer.step (obj.activationTime.toNat : Int) contact).2 := by
  cases timer with
  | idle =>
    cases h with
    | clear => exact ⟨⟨rfl, rfl, rfl⟩, rfl⟩
    | stayOut => exact ⟨htimer, rfl⟩
    | enter now => exact ⟨⟨rfl, htimer.2.1, rfl⟩, rfl⟩
    | wait now hactive => exact absurd (hactive.symm.trans htimer.1) (by decide)
    | increment now hactive => exact absurd (hactive.symm.trans htimer.1) (by decide)
  | running start fired =>
    rcases htimer with ⟨hrunning, hcounted, hstamp⟩
    have hlate : ∀ now, start ≤ now ∧ now - start < 2 ^ 32 →
        (obj.Late now ↔ (obj.activationTime.toNat : Int) < now - start) := by
      intro now hnow
      unfold Late
      rw [hstamp]
      exact lt_elapsed_iff hnow.1 hnow.2 obj.activationTime
    cases h with
    | clear =>
      rw [DwellTimer.step_none]
      exact ⟨⟨rfl, rfl, rfl⟩, rfl⟩
    | stayOut hinactive => exact absurd (hrunning.symm.trans hinactive) (by decide)
    | enter now hinactive => exact absurd (hrunning.symm.trans hinactive) (by decide)
    | wait now _ hquiet =>
      cases fired with
      | true => exact ⟨⟨hrunning, hcounted, hstamp⟩, rfl⟩
      | false =>
        have hearly : ¬(obj.activationTime.toNat : Int) < now - start := by
          rw [← hlate now hrange]
          exact hquiet.resolve_left (by simp [hcounted])
        simp only [DwellTimer.step, if_neg hearly]
        exact ⟨⟨hrunning, hcounted, hstamp⟩, trivial⟩
    | increment now _ huncounted hnow =>
      rw [hcounted] at huncounted
      subst huncounted
      rw [hlate now hrange] at hnow
      simp only [DwellTimer.step, if_pos hnow]
      exact ⟨⟨hrunning, rfl, hstamp⟩, trivial⟩

/-! ## Runs -/

section Constants
variable (obj : InteractiveObject) (calls : List Call)

theorem afterCalls_rectangle (n : Nat) :
    (obj.afterCalls calls n).rectangle = obj.rectangle :=
  afterCalls_induction (P := fun next => next.rectangle = obj.rectangle) rfl
    (fun _ call h => (perform_effect _ call).rectangle_eq.trans h) n

theorem afterCalls_activationTime (n : Nat) :
    (obj.afterCalls calls n).activationTime = obj.activationTime :=
  afterCalls_induction (P := fun next => next.activationTime = obj.activationTime) rfl
    (fun _ call h => (perform_effect _ call).activationTime_eq.trans h) n

theorem consistent_afterCalls (hobj : obj.Consistent) (n : Nat) :
    (obj.afterCalls calls n).Consistent :=
  afterCalls_induction hobj (fun _ call h => (perform_effect _ call).consistent h) n

theorem trueReturns_succ (n : Nat) : obj.trueReturns calls (n + 1) =
    obj.trueReturns calls n + if obj.returns calls n then 1 else 0 := by
  unfold trueReturns
  rw [List.range_succ, List.countP_append, List.countP_singleton]

theorem count_afterCalls (n : Nat) : (obj.afterCalls calls n).count.toNat =
    (obj.count.toNat + obj.trueReturns calls n) % 2 ^ 32 := by
  induction n with
  | zero =>
    have hword := obj.count.toNat_lt
    change obj.count.toNat = (obj.count.toNat + 0) % 2 ^ 32
    omega
  | succ n ih =>
    rw [trueReturns_succ]
    cases hcall : calls[n]? with
    | none =>
      have hn := List.getElem?_eq_none_iff.mp hcall
      rw [afterCalls_of_le hn, returns_of_le hn, ih]
      rfl
    | some call =>
      rw [afterCalls_succ hcall, (perform_effect _ call).count_eq, returns_of_some hcall,
        UInt32.toNat_add, ih]
      cases ((obj.afterCalls calls n).perform call).2
      · simp
      · simp [Nat.add_assoc]

end Constants

end InteractiveObject

open InteractiveObject

def Call.now? : Call → Option Timeval
  | .processHulls _ now => some now
  | .deactivate => none

/-- The clock does not go back between calls. -/
def Ordered (calls : List Call) : Prop :=
  (calls.filterMap Call.now?).Pairwise (· ≤ ·)

instance (calls : List Call) : Decidable (Ordered calls) :=
  inferInstanceAs (Decidable ((calls.filterMap Call.now?).Pairwise (· ≤ ·)))

def millisAt (calls : List Call) (n : Nat) : Int :=
  match calls[n]? with
  | some (.processHulls _ now) => now.millis
  | _ => 0

/-- The call at position `n` is a `ProcessHulls` with something inside the rectangle. -/
def Touches (rectangle : Rect) (calls : List Call) (n : Nat) : Prop :=
  ∃ hulls now, calls[n]? = some (.processHulls hulls now) ∧ Inside rectangle hulls

abbrev Episode (rectangle : Rect) (calls : List Call) : Nat → Nat → Prop :=
  Block (Touches rectangle calls)

/-- Call `n` comes more than `activationTime` after call `a`. -/
def PastActivation (calls : List Call) (activationTime : UInt32) (a n : Nat) : Prop :=
  (activationTime.toNat : Int) < millisAt calls n - millisAt calls a

def contact (rectangle : Rect) (calls : List Call) (n : Nat) : Option Int :=
  calls[n]?.bind (contactOf rectangle)

section Contact
variable {rectangle : Rect} {calls : List Call} {a b n : Nat}

theorem contact_eq_some_iff {time : Int} :
    contact rectangle calls n = some time ↔
      Touches rectangle calls n ∧ time = millisAt calls n := by
  unfold contact Touches millisAt
  rcases calls[n]? with _ | ⟨hulls, now⟩ | _
  · simp
  · by_cases hinside : Inside rectangle hulls <;>
      simp [contactOf, hinside, eq_comm]
  · simp [contactOf]

theorem touches_iff : DwellTimer.Contact (contact rectangle calls) n ↔
    Touches rectangle calls n := by
  unfold DwellTimer.Contact
  rw [Option.isSome_iff_exists]
  simp [contact_eq_some_iff]

theorem contact_eq_touches :
    DwellTimer.Contact (contact rectangle calls) = Touches rectangle calls :=
  funext fun _ => propext touches_iff

theorem beyond_iff_pastActivation {activationTime : UInt32} (ha : Touches rectangle calls a)
    (hn : Touches rectangle calls n) :
    DwellTimer.Beyond (activationTime.toNat : Int) (contact rectangle calls) a n ↔
      PastActivation calls activationTime a n :=
  DwellTimer.beyond_iff (contact_eq_some_iff.mpr ⟨ha, rfl⟩) (contact_eq_some_iff.mpr ⟨hn, rfl⟩)

theorem not_touches_of_length_le (h : calls.length ≤ n) : ¬Touches rectangle calls n := by
  rintro ⟨hulls, now, hcall, -⟩
  rw [List.getElem?_eq_none h] at hcall
  cases hcall

theorem Ordered.millisAt_le (h : Ordered calls) (ha : Touches rectangle calls a)
    (hn : Touches rectangle calls n) (hle : a ≤ n) : millisAt calls a ≤ millisAt calls n := by
  rcases hle.eq_or_lt with rfl | hlt
  · exact le_rfl
  · rcases ha with ⟨hulls, now, hcall, -⟩
    rcases hn with ⟨hulls', now', hcall', -⟩
    rcases List.getElem?_eq_some_iff.mp hcall with ⟨hbound, heq⟩
    rcases List.getElem?_eq_some_iff.mp hcall' with ⟨hbound', heq'⟩
    have hpairs := List.pairwise_iff_getElem.mp (List.pairwise_filterMap.mp h) a n hbound hbound' hlt
    rw [heq, heq'] at hpairs
    simp only [millisAt, hcall, hcall']
    exact Timeval.millis_le (hpairs now rfl now' rfl)

end Contact

/-! ## Dwell counting -/

section Dwell
variable {obj : InteractiveObject} {calls : List Call}

def Brief (rectangle : Rect) (calls : List Call) : Prop :=
  ∀ a b, Episode rectangle calls a b → millisAt calls b - millisAt calls a < 2 ^ 32

theorem exists_episode {rectangle : Rect} {a n : Nat} (h : Since (Touches rectangle calls) a n) :
    ∃ b, n ≤ b ∧ Episode rectangle calls a b :=
  h.exists_block fun _ => not_touches_of_length_le

/-- While the timer runs, the current episode has lasted less than 2^32 milliseconds. -/
theorem inRange_after {rectangle : Rect} (hordered : Ordered calls)
    (hbrief : Brief rectangle calls) {limit : Int} (hlimit : 0 ≤ limit) (n : Nat) :
    InRange (DwellTimer.after limit (contact rectangle calls) n) (contact rectangle calls n) := by
  have hmemory := DwellTimer.remembers_after hlimit (contact rectangle calls) n
  cases htimer : DwellTimer.after limit (contact rectangle calls) n with
  | idle => trivial
  | running start fired =>
    cases hnow : contact rectangle calls n with
    | none => trivial
    | some now =>
      rw [htimer] at hmemory
      rcases hmemory with ⟨m, a, rfl, hsince, hstart, -⟩
      rw [contact_eq_touches] at hsince
      rw [contact_eq_some_iff] at hstart hnow
      rcases exists_episode (hsince.succ hnow.1) with ⟨b, hle, hepisode⟩
      have hfrom := hordered.millisAt_le hstart.1 hnow.1 (hsince.le.trans m.le_succ)
      have hto := hordered.millisAt_le hnow.1 (hepisode.holds b hepisode.le le_rfl) hle
      have hspan := hbrief a b hepisode
      rw [hstart.2, hnow.2]
      exact ⟨hfrom, by omega⟩

theorem refines_call (hordered : Ordered calls) (hbrief : Brief obj.rectangle calls) {n : Nat}
    (hn : n < calls.length) (h : (obj.afterCalls calls n).Refines
      (DwellTimer.after (obj.activationTime.toNat : Int) (contact obj.rectangle calls) n)) :
    (obj.afterCalls calls (n + 1)).Refines
        (DwellTimer.after (obj.activationTime.toNat : Int) (contact obj.rectangle calls) (n + 1)) ∧
      obj.returns calls n =
        DwellTimer.fires (obj.activationTime.toNat : Int) (contact obj.rectangle calls) n := by
  have hcall := List.getElem?_eq_getElem hn
  have hcontact : contact obj.rectangle calls n =
      contactOf (obj.afterCalls calls n).rectangle calls[n] := by
    unfold contact
    rw [hcall, afterCalls_rectangle obj calls n]
    rfl
  have hrange := inRange_after hordered hbrief (Int.natCast_nonneg obj.activationTime.toNat) n
  rw [hcontact] at hrange
  have hstep := (perform_effect _ calls[n]).refines h hrange
  rw [afterCalls_activationTime obj calls n, ← hcontact] at hstep
  rw [afterCalls_succ hcall, returns_of_some hcall]
  exact hstep

theorem refines_after (hordered : Ordered calls) (hbrief : Brief obj.rectangle calls)
    (hobj : obj.Refines .idle) {n : Nat} (hn : n ≤ calls.length) :
    (obj.afterCalls calls n).Refines
      (DwellTimer.after (obj.activationTime.toNat : Int) (contact obj.rectangle calls) n) := by
  induction n with
  | zero => exact hobj
  | succ n ih => exact (refines_call hordered hbrief hn (ih (Nat.le_of_succ_le hn))).1

theorem returns_eq_fires (hordered : Ordered calls) (hbrief : Brief obj.rectangle calls)
    (hobj : obj.Refines .idle) (n : Nat) : obj.returns calls n =
      DwellTimer.fires (obj.activationTime.toNat : Int) (contact obj.rectangle calls) n := by
  rcases Nat.lt_or_ge n calls.length with hn | hn
  · exact (refines_call hordered hbrief hn (refines_after hordered hbrief hobj hn.le)).2
  · rw [returns_of_le hn, eq_comm, ← Bool.not_eq_true,
      DwellTimer.fires_iff (Int.natCast_nonneg obj.activationTime.toNat)]
    rintro ⟨a, hsince, -⟩
    rw [contact_eq_touches] at hsince
    exact not_touches_of_length_le hn (hsince.holds n hsince.le le_rfl)

/-- Call `n` is the first of its episode past the activation time. -/
def FirstPast (rectangle : Rect) (calls : List Call) (activationTime : UInt32) (n : Nat) : Prop :=
  ∃ a b, Episode rectangle calls a b ∧ a ≤ n ∧ n ≤ b ∧
    PastActivation calls activationTime a n ∧
    ∀ i, a ≤ i → i < n → ¬PastActivation calls activationTime a i

theorem firstBeyond_iff {rectangle : Rect} {activationTime : UInt32} {a n : Nat}
    (h : Since (Touches rectangle calls) a n) :
    DwellTimer.FirstBeyond (activationTime.toNat : Int) (contact rectangle calls) a n ↔
      PastActivation calls activationTime a n ∧
        ∀ i, a ≤ i → i < n → ¬PastActivation calls activationTime a i := by
  have hpast : ∀ i, a ≤ i → i ≤ n →
      (DwellTimer.Beyond (activationTime.toNat : Int) (contact rectangle calls) a i ↔
        PastActivation calls activationTime a i) := fun i hle hge =>
    beyond_iff_pastActivation (h.holds a le_rfl h.le) (h.holds i hle hge)
  refine ⟨?_, ?_⟩
  · rintro ⟨hbeyond, hfirst⟩
    refine ⟨(hpast n h.le le_rfl).mp hbeyond, ?_⟩
    intro i hle hlt
    rw [← hpast i hle hlt.le]
    exact hfirst i hle hlt
  · rintro ⟨hlate, hfirst⟩
    refine ⟨(hpast n h.le le_rfl).mpr hlate, ?_⟩
    intro i hle hlt
    rw [hpast i hle hlt.le]
    exact hfirst i hle hlt

theorem fires_iff_firstPast (rectangle : Rect) (calls : List Call) (activationTime : UInt32)
    (n : Nat) :
    DwellTimer.fires (activationTime.toNat : Int) (contact rectangle calls) n = true ↔
      FirstPast rectangle calls activationTime n := by
  rw [DwellTimer.fires_iff (Int.natCast_nonneg activationTime.toNat), contact_eq_touches]
  refine ⟨?_, ?_⟩
  · rintro ⟨a, hsince, hfirst⟩
    rcases exists_episode hsince with ⟨b, hle, hepisode⟩
    exact ⟨a, b, hepisode, hsince.le, hle, (firstBeyond_iff hsince).mp hfirst⟩
  · rintro ⟨a, b, hepisode, hle, hge, hfirst⟩
    exact ⟨a, hepisode.since hle hge, (firstBeyond_iff (hepisode.since hle hge)).mpr hfirst⟩

end Dwell

/-- True exactly at the first call of an episode past the activation time, and at most once
in an episode. The counter and the flags agree with what was returned at any clock. -/
theorem dwell_counting (rectangle : Rect) (activationTime : UInt32) (calls : List Call) :
    (Ordered calls → Brief rectangle calls →
      (∀ n, (construct rectangle activationTime).returns calls n = true ↔
        FirstPast rectangle calls activationTime n) ∧
      ∀ a b n m, Episode rectangle calls a b → (a ≤ n ∧ n ≤ b) → (a ≤ m ∧ m ≤ b) →
        (construct rectangle activationTime).returns calls n = true →
        (construct rectangle activationTime).returns calls m = true → n = m) ∧
    (∀ n, ((construct rectangle activationTime).afterCalls calls n).getCount.toNat =
      (construct rectangle activationTime).trueReturns calls n % 2 ^ 32) ∧
    ∀ n, ((construct rectangle activationTime).afterCalls calls n).Consistent := by
  refine ⟨?_, ?_, ?_⟩
  · intro hordered hbrief
    have hreturns : ∀ n, (construct rectangle activationTime).returns calls n =
        DwellTimer.fires (activationTime.toNat : Int) (contact rectangle calls) n :=
      returns_eq_fires hordered hbrief ⟨rfl, rfl, rfl⟩
    refine ⟨?_, ?_⟩
    · intro n
      rw [hreturns]
      exact fires_iff_firstPast rectangle calls activationTime n
    · intro a b n m hepisode hn hm hfires hfires'
      rw [hreturns] at hfires hfires'
      refine DwellTimer.fires_once (Int.natCast_nonneg activationTime.toNat) ?_ hn hm hfires hfires'
      rw [contact_eq_touches]
      exact hepisode
  · intro n
    have hcount := count_afterCalls (construct rectangle activationTime) calls n
    rw [show (construct rectangle activationTime).count = 0 from rfl, UInt32.toNat_zero,
      Nat.zero_add] at hcount
    exact hcount
  · exact consistent_afterCalls _ calls (consistent_construct rectangle activationTime)

/-- A stay across the wrap of the stamp, which happens at 4294967.296 seconds. -/
def wrapCalls : List Call :=
  [.processHulls [[⟨5, 5⟩]] ⟨4294967, 200000, by decide, by decide⟩,
    .processHulls [[⟨5, 5⟩]] ⟨4294967, 900000, by decide, by decide⟩]

theorem dwell_counting_wrap : FirstPast ⟨0, 0, 10, 10, by decide⟩ wrapCalls 500 1 := by
  have hbrief : Brief ⟨0, 0, 10, 10, by decide⟩ wrapCalls := by
    intro a b hepisode
    have ha : a < 2 := by
      by_contra hlong
      exact not_touches_of_length_le (Nat.le_of_not_lt hlong) (hepisode.holds a le_rfl hepisode.le)
    have hb : b < 2 := by
      by_contra hlong
      exact not_touches_of_length_le (Nat.le_of_not_lt hlong) (hepisode.holds b hepisode.le le_rfl)
    have hspans : ∀ a < 2, ∀ b < 2, millisAt wrapCalls b - millisAt wrapCalls a < 2 ^ 32 := by
      decide
    exact hspans a ha b hb
  have hcounting := dwell_counting ⟨0, 0, 10, 10, by decide⟩ 500 wrapCalls
  exact ((hcounting.1 (by decide) hbrief).1 1).mp (by decide)

end BlobTracking.Proc
