import Mathlib.Algebra.Order.Ring.Int
import Mathlib.Tactic.Linarith

/-! Numbers printed into the fixed buffers of the programs. A conversion reads as
many bits of its argument as its type has, and a text that leaves no room for the
terminator is a fault. -/
namespace BlobTracking.Proc

inductive Conversion where
  | d
  | ld
deriving DecidableEq

namespace Conversion

def modulus : Conversion → Nat
  | d => 2 ^ 32
  | ld => 2 ^ 64

/-- The number that the conversion takes for its argument, which may be wider or unsigned. -/
def read (conversion : Conversion) (argument : Int) : Int := Int.bmod argument conversion.modulus

theorem read_eq (conversion : Conversion) {argument : Int} (hlow : -2 ^ 31 ≤ argument)
    (hhigh : argument < 2 ^ 31) : conversion.read argument = argument := by
  unfold read
  cases conversion with
  | d => exact Int.bmod_eq_of_le (by simp [modulus]; omega) (by simp [modulus]; omega)
  | ld => exact Int.bmod_eq_of_le (by simp [modulus]; omega) (by simp [modulus]; omega)

end Conversion

/-- The digits of a number, after its sign. -/
def decimal (i : Int) : List Char :=
  if i < 0 then '-' :: Nat.toDigits 10 i.natAbs else Nat.toDigits 10 i.natAbs

/-- The text of `%02d` for the number `i`. -/
def twoDigits (i : Int) : List Char :=
  if (decimal i).length < 2 then '0' :: decimal i else decimal i

/-- `sprintf(buff, …)` of the given text, with room for `capacity` characters in `buff`, one of
them the terminator. -/
def sprintf (capacity : Nat) (text : List Char) : Option (List Char) :=
  if text.length < capacity then some text else none

/-- `strcat(dest, src)`, with room for `capacity` characters in `dest`. -/
def strcat (capacity : Nat) (dest src : List Char) : Option (List Char) :=
  if dest.length + src.length < capacity then some (dest ++ src) else none

theorem length_decimal_lt_iff {i : Int} {n : Nat} (hn : 0 < n) :
    (decimal i).length < n + 2 ↔ -10 ^ n < i ∧ i < 10 ^ (n + 1) := by
  have hshort : (Nat.toDigits 10 i.natAbs).length ≤ n ↔ i.natAbs < 10 ^ n :=
    Nat.length_toDigits_le_iff (by decide) hn
  have hlong : (Nat.toDigits 10 i.natAbs).length ≤ n + 1 ↔ i.natAbs < 10 ^ (n + 1) :=
    Nat.length_toDigits_le_iff (by decide) n.succ_pos
  have hpos : (0 : Int) < 10 ^ n ∧ (0 : Int) < 10 ^ (n + 1) := ⟨by positivity, by positivity⟩
  zify at hshort hlong
  unfold decimal
  by_cases hneg : i < 0
  · rw [if_pos hneg, List.length_cons]
    rw [abs_of_neg hneg] at hshort
    omega
  · rw [if_neg hneg]
    rw [abs_of_nonneg (not_lt.mp hneg)] at hlong
    omega

/-- Padding to two digits never makes a text longer than the shortest buffer with room for it. -/
theorem length_twoDigits_lt_iff {i : Int} {n : Nat} (hn : 0 < n) :
    (twoDigits i).length < n + 2 ↔ -10 ^ n < i ∧ i < 10 ^ (n + 1) := by
  rw [← length_decimal_lt_iff hn]
  unfold twoDigits
  split
  case isTrue hsingle =>
    rw [List.length_cons]
    omega
  case isFalse => rfl

theorem sprintf_eq_none_iff {capacity : Nat} {text : List Char} :
    sprintf capacity text = none ↔ ¬text.length < capacity := by
  unfold sprintf
  rw [ite_eq_right_iff]
  simp

/-- A countdown from three fits two digits until it is more than twelve off, as far as the
conversion can tell. -/
theorem sprintf_countdown_eq_none_iff (conversion : Conversion) (elapsed : Int) :
    sprintf 3 (decimal (conversion.read (3 - elapsed))) = none ↔
      12 < elapsed % conversion.modulus ∧
        elapsed % conversion.modulus < conversion.modulus - 96 := by
  have hlength : (decimal (conversion.read (3 - elapsed))).length < 1 + 2 ↔ _ :=
    length_decimal_lt_iff Nat.one_pos
  rw [sprintf_eq_none_iff, hlength]
  unfold Conversion.read
  cases conversion with
  | d =>
    have hread := Int.bmod_def (3 - elapsed) (2 ^ 32)
    simp only [Conversion.modulus]
    split at hread <;> omega
  | ld =>
    have hread := Int.bmod_def (3 - elapsed) (2 ^ 64)
    simp only [Conversion.modulus]
    split at hread <;> omega

end BlobTracking.Proc
