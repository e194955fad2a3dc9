import Mathlib.Algebra.Order.Group.Defs
import Mathlib.Order.Nat
import Mathlib.Data.Nat.Find
import Mathlib.Tactic.Push

/-! Maximal blocks of a predicate on positions, and a one-shot timer over any
ordered group of instants: it starts with the first contact of a block, fires
once when a later contact of the same block is more than `limit` past the first,
and is idle again as soon as contact is lost. -/
namespace BlobTracking.Library

/-- The maximal block of `p` that reaches `n` starts at `a`. -/
structure Since (p : Nat → Prop) (a n : Nat) : Prop where
  le : a ≤ n
  holds : ∀ i, a ≤ i → i ≤ n → p i
  first : ∀ i, i + 1 = a → ¬p i

structure Block (p : Nat → Prop) (a b : Nat) : Prop extends Since p a b where
  last : ¬p (b + 1)

namespace Since
variable {p : Nat → Prop} {a a' n : Nat}

theorem refl (h : p n) (hfirst : ∀ i, i + 1 = n → ¬p i) : Since p n n where
  le := le_rfl
  holds _ hle hge := le_antisymm hge hle ▸ h
  first := hfirst

theorem succ (h : Since p a n) (hnext : p (n + 1)) : Since p a (n + 1) where
  le := h.le.trans (Nat.le_succ n)
  holds i hle hlt := by
    rcases Nat.le_succ_iff.mp hlt with hle' | rfl
    · exact h.holds i hle hle'
    · exact hnext
  first := h.first

theorem not_lt (h : Since p a n) (h' : Since p a' n) : ¬a < a' := by
  intro hlt
  rcases Nat.exists_eq_succ_of_ne_zero (Nat.ne_zero_of_lt hlt) with ⟨i, rfl⟩
  exact h'.first i rfl (h.holds i (Nat.lt_succ_iff.mp hlt) (i.le_succ.trans h'.le))

theorem unique (h : Since p a n) (h' : Since p a' n) : a = a' :=
  le_antisymm (Nat.le_of_not_lt (h'.not_lt h)) (Nat.le_of_not_lt (h.not_lt h'))

/-- A predicate that fails from some position on has no endless block. -/
theorem exists_block (h : Since p a n) {N : Nat} (hend : ∀ i, N ≤ i → ¬p i) :
    ∃ b, n ≤ b ∧ Block p a b := by
  classical
  have hstops : ∃ k, ¬p (n + k + 1) := ⟨N, hend _ (by omega)⟩
  let k := Nat.find hstops
  refine ⟨n + k, Nat.le_add_right n k, ⟨h.le.trans (Nat.le_add_right n k), ?_, h.first⟩,
    Nat.find_spec hstops⟩
  intro i hle hge
  rcases Nat.lt_or_ge n i with hlt | hge'
  · rcases Nat.exists_eq_add_of_lt hlt with ⟨j, rfl⟩
    exact not_not.mp (Nat.find_min hstops (by omega))
  · exact h.holds i hle hge'

end Since

theorem Block.since {p : Nat → Prop} {a b n : Nat} (h : Block p a b) (hle : a ≤ n) (hge : n ≤ b) :
    Since p a n :=
  ⟨hle, fun i hi hn => h.holds i hi (hn.trans hge), h.first⟩

/-- A timer that is not running has no start and has not fired. -/
inductive DwellTimer (T : Type*) where
  | idle
  | running (start : T) (fired : Bool)
deriving DecidableEq

namespace DwellTimer
variable {T : Type*} [AddGroup T] [LinearOrder T] (limit : T)

/-- One observation: contact at an instant, or none. -/
def step : DwellTimer T → Option T → DwellTimer T × Bool
  | _, none => (idle, false)
  | idle, some now => (running now false, false)
  | running start true, some _ => (running start true, false)
  | running start false, some now =>
    if limit < now - start then (running start true, true) else (running start false, false)

def after (contact : Nat → Option T) : Nat → DwellTimer T
  | 0 => idle
  | n + 1 => (step limit (after contact n) (contact n)).1

def fires (contact : Nat → Option T) (n : Nat) : Bool :=
  (step limit (after limit contact n) (contact n)).2

def Contact (contact : Nat → Option T) (n : Nat) : Prop := (contact n).isSome

/-- Position `n` is more than `limit` past position `a`. -/
def Beyond (contact : Nat → Option T) (a n : Nat) : Prop :=
  ∃ start now, contact a = some start ∧ contact n = some now ∧ limit < now - start

/-- `n` is the first position past `limit` in a block that starts at `a`. -/
structure FirstBeyond (contact : Nat → Option T) (a n : Nat) : Prop where
  beyond : Beyond limit contact a n
  first : ∀ i, a ≤ i → i < n → ¬Beyond limit contact a i

/-- What the timer remembers of the observations before `n`. -/
def Remembers (contact : Nat → Option T) (n : Nat) : DwellTimer T → Prop
  | idle => ∀ m, m + 1 = n → ¬Contact contact m
  | running start fired => ∃ m a, m + 1 = n ∧ Since (Contact contact) a m ∧
      contact a = some start ∧ (fired = true ↔ ∃ i, a ≤ i ∧ i ≤ m ∧ Beyond limit contact a i)

variable {limit} {contact : Nat → Option T} {a n : Nat}

theorem after_congr {contact' : Nat → Option T} (h : ∀ i, i < n → contact i = contact' i) :
    after limit contact n = after limit contact' n := by
  induction n with
  | zero => rfl
  | succ n ih =>
    rw [after, after, ih fun i hi => h i (hi.trans n.lt_succ_self), h n n.lt_succ_self]

theorem step_none (timer : DwellTimer T) : step limit timer none = (idle, false) := by
  cases timer with
  | idle => rfl
  | running start fired => cases fired <;> rfl

theorem step_running_fires {start now : T} {fired : Bool} :
    (step limit (running start fired) (some now)).2 = true ↔
      fired ≠ true ∧ limit < now - start := by
  cases fired with
  | true => simp [step]
  | false =>
    simp only [step]
    split
    case isTrue hlate => simp [hlate]
    case isFalse hearly => simp [hearly]

theorem beyond_iff {start now : T} (ha : contact a = some start) (hn : contact n = some now) :
    Beyond limit contact a n ↔ limit < now - start := by
  refine ⟨?_, fun h => ⟨start, now, ha, hn, h⟩⟩
  rintro ⟨start', now', ha', hn', h⟩
  rw [ha] at ha'
  rw [hn] at hn'
  cases ha'
  cases hn'
  exact h

theorem not_beyond_self (hlimit : 0 ≤ limit) : ¬Beyond limit contact a a := by
  rintro ⟨start, now, ha, hn, h⟩
  rw [ha] at hn
  cases hn
  rw [sub_self] at h
  exact not_lt_of_ge hlimit h

theorem remembers_start (hlimit : 0 ≤ limit) {now : T} (hn : contact n = some now)
    (hfirst : ∀ m, m + 1 = n → ¬Contact contact m) :
    Remembers limit contact (n + 1) (running now false) := by
  refine ⟨n, n, rfl, Since.refl (by simp [Contact, hn]) hfirst, hn, ?_⟩
  simp only [Bool.false_eq_true, false_iff]
  rintro ⟨i, hle, hge, hbeyond⟩
  rw [le_antisymm hge hle] at hbeyond
  exact not_beyond_self hlimit hbeyond

theorem remembers_hold {start now : T} {fired fired' : Bool}
    (h : Remembers limit contact n (running start fired)) (hn : contact n = some now)
    (hfired : fired' = true ↔ fired = true ∨ limit < now - start) :
    Remembers limit contact (n + 1) (running start fired') := by
  rcases h with ⟨m, a, rfl, hsince, ha, hpast⟩
  refine ⟨m + 1, a, rfl, hsince.succ (by simp [Contact, hn]), ha, ?_⟩
  rw [hfired, hpast, ← beyond_iff ha hn]
  refine ⟨?_, ?_⟩
  · rintro (⟨i, hle, hge, hi⟩ | hnow)
    · exact ⟨i, hle, hge.trans m.le_succ, hi⟩
    · exact ⟨m + 1, hsince.le.trans m.le_succ, le_rfl, hnow⟩
  · rintro ⟨i, hle, hge, hi⟩
    rcases Nat.le_succ_iff.mp hge with hge' | rfl
    · exact Or.inl ⟨i, hle, hge', hi⟩
    · exact Or.inr hi

theorem remembers_step (hlimit : 0 ≤ limit) {timer : DwellTimer T}
    (h : Remembers limit contact n timer) :
    Remembers limit contact (n + 1) (step limit timer (contact n)).1 := by
  cases hn : contact n with
  | none =>
    rw [step_none]
    intro m hm
    rw [Nat.succ_injective hm, Contact, hn]
    exact Bool.false_ne_true
  | some now =>
    cases timer with
    | idle => exact remembers_start hlimit hn h
    | running start fired =>
      cases fired with
      | true => exact remembers_hold h hn (by simp)
      | false =>
        simp only [step]
        split
        case isTrue hlate => exact remembers_hold h hn (by simp [hlate])
        case isFalse hearly => exact remembers_hold h hn (by simp [hearly])

theorem remembers_after (hlimit : 0 ≤ limit) (contact : Nat → Option T) (n : Nat) :
    Remembers limit contact n (after limit contact n) := by
  induction n with
  | zero => exact fun m hm => absurd hm m.succ_ne_zero
  | succ n ih => exact remembers_step hlimit ih

/-- The timer fires exactly where a block first goes past the limit. -/
theorem fires_iff (hlimit : 0 ≤ limit) (contact : Nat → Option T) (n : Nat) :
    fires limit contact n = true ↔
      ∃ a, Since (Contact contact) a n ∧ FirstBeyond limit contact a n := by
  have hmemory := remembers_after hlimit contact n
  unfold fires
  cases hn : contact n with
  | none =>
    have hlost : ¬Contact contact n := by simp [Contact, hn]
    rw [step_none]
    simp only [Bool.false_eq_true, false_iff]
    rintro ⟨a, hsince, -⟩
    exact hlost (hsince.holds n hsince.le le_rfl)
  | some now =>
    have hheld : Contact contact n := by simp [Contact, hn]
    cases htimer : after limit contact n with
    | idle =>
      -- `n` starts its block, and no position is past itself
      rw [htimer] at hmemory
      simp only [step, Bool.false_eq_true, false_iff]
      rintro ⟨a, hsince, hfirst⟩
      rw [hsince.unique (Since.refl hheld hmemory)] at hfirst
      exact not_beyond_self hlimit hfirst.beyond
    | running start fired =>
      rw [htimer] at hmemory
      rcases hmemory with ⟨m, a, rfl, hsince, ha, hpast⟩
      have hblock := hsince.succ hheld
      rw [step_running_fires, Ne, hpast, ← beyond_iff ha hn]
      refine ⟨?_, ?_⟩
      · rintro ⟨hnever, hbeyond⟩
        refine ⟨a, hblock, hbeyond, fun i hle hlt hi => hnever ⟨i, hle, ?_, hi⟩⟩
        exact Nat.lt_succ_iff.mp hlt
      · rintro ⟨a', hsince', hfirst⟩
        rw [hsince'.unique hblock] at hfirst
        refine ⟨?_, hfirst.beyond⟩
        rintro ⟨i, hle, hge, hi⟩
        exact hfirst.first i hle (Nat.lt_succ_of_le hge) hi

theorem fires_once (hlimit : 0 ≤ limit) {b m : Nat} (hblock : Block (Contact contact) a b)
    (hn : a ≤ n ∧ n ≤ b) (hm : a ≤ m ∧ m ≤ b) (hfires : fires limit contact n = true)
    (hfires' : fires limit contact m = true) : n = m := by
  have hfirst : ∀ i, a ≤ i ∧ i ≤ b → fires limit contact i = true →
      FirstBeyond limit contact a i := by
    intro i hi hfires
    rcases (fires_iff hlimit contact i).mp hfires with ⟨a', hsince, hfirst⟩
    rw [hsince.unique (hblock.since hi.1 hi.2)] at hfirst
    exact hfirst
  rcases lt_trichotomy n m with hlt | rfl | hlt
  · exact absurd (hfirst n hn hfires).beyond ((hfirst m hm hfires').first n hn.1 hlt)
  · rfl
  · exact absurd (hfirst m hm hfires').beyond ((hfirst n hn hfires).first m hm.1 hlt)

end DwellTimer

end BlobTracking.Library
