import BlobTracking.OpenCV.Points
import Mathlib.Tactic.Ring

/-! A rectangle on the screen that counts how often something stays inside it
for longer than `activationTime` milliseconds. -/
namespace BlobTracking.Proc

open OpenCV

/-- `cv::Rect`. Its far sides are `int`s like its fields, so no sum of two of them overflows. -/
structure Rect where
  x : Int
  y : Int
  width : Int
  height : Int
  inInt : ∀ side ∈ [x, y, width, height, x + width, y + height], -2 ^ 31 ≤ side ∧ side < 2 ^ 31
deriving DecidableEq

/-- `size()` of a `cv::Mat`. -/
structure Size where
  width : Fin (2 ^ 31)
  height : Fin (2 ^ 31)
deriving DecidableEq

namespace Rect

/-- What `cv::Mat` asserts of a region before it refers to it. -/
def within (roi : Rect) (size : Size) : Bool :=
  0 ≤ roi.x && 0 ≤ roi.width && roi.x + roi.width ≤ size.width.val &&
    (0 ≤ roi.y && 0 ≤ roi.height && roi.y + roi.height ≤ size.height.val)

theorem inInt_iff {x y width height : Int} :
    (∀ side ∈ [x, y, width, height, x + width, y + height], -2 ^ 31 ≤ side ∧ side < 2 ^ 31) ↔
      ((-2 ^ 31 ≤ x ∧ x < 2 ^ 31) ∧ -2 ^ 31 ≤ y ∧ y < 2 ^ 31) ∧
      ((-2 ^ 31 ≤ width ∧ width < 2 ^ 31) ∧ -2 ^ 31 ≤ height ∧ height < 2 ^ 31) ∧
      (-2 ^ 31 ≤ x + width ∧ x + width < 2 ^ 31) ∧
      -2 ^ 31 ≤ y + height ∧ y + height < 2 ^ 31 := by
  simp [and_assoc]

/-- `Rect(0, 0, frame.size().width, 150)`, the part of a frame that hands are looked for in. -/
def upperStrip (size : Size) : Rect where
  x := 0
  y := 0
  width := size.width.val
  height := 150
  inInt := by
    have hwidth := size.width.isLt
    rw [inInt_iff]
    omega

theorem within_iff {roi : Rect} {size : Size} : roi.within size = true ↔
    (0 ≤ roi.x ∧ 0 ≤ roi.width ∧ roi.x + roi.width ≤ size.width.val) ∧
      0 ≤ roi.y ∧ 0 ≤ roi.height ∧ roi.y + roi.height ≤ size.height.val := by
  simp [within, and_assoc]

@[simp] theorem upperStrip_within_iff {size : Size} :
    (upperStrip size).within size = true ↔ 150 ≤ size.height.val := by
  have hwidth := size.width.isLt
  rw [within_iff]
  dsimp only [upperStrip]
  omega

end Rect

/-- A `timeval` as `gettimeofday` fills it. -/
structure Timeval where
  tv_sec : Int64
  tv_usec : Int64
  usec_nonneg : 0 ≤ tv_usec.toInt
  usec_lt : tv_usec.toInt < 1000000
deriving DecidableEq

namespace Timeval

def millis (time : Timeval) : Int := time.tv_sec.toInt * 1000 + time.tv_usec.toInt / 1000

instance : LE Timeval where
  le s t := s.tv_sec < t.tv_sec ∨ s.tv_sec = t.tv_sec ∧ s.tv_usec ≤ t.tv_usec

instance (s t : Timeval) : Decidable (s ≤ t) :=
  inferInstanceAs (Decidable (s.tv_sec < t.tv_sec ∨ s.tv_sec = t.tv_sec ∧ s.tv_usec ≤ t.tv_usec))

theorem millis_le {s t : Timeval} (h : s ≤ t) : s.millis ≤ t.millis := by
  have hs := s.usec_lt
  have ht := t.usec_nonneg
  unfold millis
  rcases h with hsec | ⟨hsec, husec⟩
  · rw [Int64.lt_iff_toInt_lt] at hsec
    omega
  · rw [Int64.le_iff_toInt_le] at husec
    rw [hsec]
    omega

end Timeval

structure InteractiveObject where
  activationTime : UInt32
  activeStamp : UInt32
  count : UInt32
  counted : Bool
  active : Bool
  rectangle : Rect
deriving DecidableEq

namespace InteractiveObject

def construct (rectangle : Rect) (activationTime : UInt32 := 500) : InteractiveObject where
  rectangle := rectangle
  activationTime := activationTime
  activeStamp := 0
  count := 0
  counted := false
  active := false

def deactivate (obj : InteractiveObject) : InteractiveObject :=
  { obj with active := false, activeStamp := 0, counted := false }

def getCount (obj : InteractiveObject) : UInt32 := obj.count

/-- The product and the sum are taken in 64 bits, and the lower 32 are kept. -/
def getTimestamp (time : Timeval) : UInt32 :=
  (time.tv_sec * 1000 + time.tv_usec / 1000).toUInt64.toUInt32

def isInsider (obj : InteractiveObject) (referencePoint : Point) : Bool :=
  referencePoint.x > obj.rectangle.x &&
    referencePoint.x < obj.rectangle.x + obj.rectangle.width &&
    referencePoint.y > obj.rectangle.y &&
    referencePoint.y < obj.rectangle.y + obj.rectangle.height

/-- The inner loop of `ProcessHulls`, left at the first insider. -/
def searchHull (obj : InteractiveObject) (foundInsider : Bool) : List Point → Bool
  | [] => foundInsider
  | pt :: rest => if obj.isInsider pt then true else obj.searchHull foundInsider rest

/-- The outer loop, which is not left early. -/
def searchHulls (obj : InteractiveObject) (hulls : List (List Point)) : Bool :=
  hulls.foldl obj.searchHull false

/-- `now` is what `gettimeofday` reports during the call. -/
def processHulls (obj : InteractiveObject) (hulls : List (List Point)) (now : Timeval) :
    InteractiveObject × Bool :=
  let foundInsider := obj.searchHulls hulls
  if obj.active then
    if !foundInsider then (obj.deactivate, false)
    else if !obj.counted && getTimestamp now - obj.activeStamp > obj.activationTime then
      ({ obj with count := obj.count + 1, counted := true }, true)
    else (obj, false)
  else if foundInsider then
    ({ obj with active := true, activeStamp := getTimestamp now }, false)
  else (obj, false)

def Inside (rectangle : Rect) (hulls : List (List Point)) : Prop :=
  ∃ hull ∈ hulls, ∃ pt ∈ hull,
    (rectangle.x < pt.x ∧ pt.x < rectangle.x + rectangle.width) ∧
      rectangle.y < pt.y ∧ pt.y < rectangle.y + rectangle.height

theorem isInsider_iff (obj : InteractiveObject) (pt : Point) :
    obj.isInsider pt = true ↔
      (obj.rectangle.x < pt.x ∧ pt.x < obj.rectangle.x + obj.rectangle.width) ∧
        obj.rectangle.y < pt.y ∧ pt.y < obj.rectangle.y + obj.rectangle.height := by
  simp [isInsider, and_assoc]

theorem searchHull_iff (obj : InteractiveObject) (found : Bool) (hull : List Point) :
    obj.searchHull found hull = true ↔ found = true ∨ ∃ pt ∈ hull, obj.isInsider pt = true := by
  induction hull with
  | nil => simp [searchHull]
  | cons pt rest ih =>
    unfold searchHull
    split
    case isTrue hin => simp [hin]
    case isFalse hout => simp [hout, ih]

theorem searchHulls_iff (obj : InteractiveObject) (hulls : List (List Point)) :
    obj.searchHulls hulls = true ↔ Inside obj.rectangle hulls := by
  have hfold : ∀ found, hulls.foldl obj.searchHull found = true ↔
      found = true ∨ ∃ hull ∈ hulls, ∃ pt ∈ hull, obj.isInsider pt = true := by
    induction hulls with
    | nil => simp
    | cons hull rest ih =>
      intro found
      rw [List.foldl_cons, ih, searchHull_iff]
      simp only [List.mem_cons, exists_eq_or_imp]
      exact or_assoc
  unfold searchHulls
  rw [hfold]
  simp only [Bool.false_eq_true, false_or, isInsider_iff]
  rfl

@[simp] theorem deactivate_count (obj : InteractiveObject) :
    obj.deactivate.count = obj.count := rfl

/-! ## Stamps -/

theorem toUInt32_eq_ofInt (x : Int64) : x.toUInt64.toUInt32 = UInt32.ofInt x.toInt := by
  apply UInt32.toNat_inj.mp
  have hsigned : x.toInt = Int.bmod x.toUInt64.toNat (2 ^ 64) := by
    rw [← Int64.toInt_toBitVec, BitVec.toInt_eq_toNat_bmod]
    rfl
  have hlow : x.toInt % 2 ^ 32 = x.toUInt64.toNat % 2 ^ 32 := by
    have hword : x.toInt % 2 ^ 64 = x.toUInt64.toNat % 2 ^ 64 := hsigned ▸ Int.bmod_emod
    omega
  unfold UInt32.ofInt
  rw [hlow, UInt64.toNat_toUInt32, UInt32.toNat_ofNat']
  omega

theorem getTimestamp_eq (time : Timeval) : getTimestamp time = UInt32.ofInt time.millis := by
  have husec : (time.tv_usec / 1000).toInt = time.tv_usec.toInt / 1000 := by
    rw [Int64.toInt_div_of_ne_right _ _ (by decide)]
    exact Int.tdiv_eq_ediv_of_nonneg time.usec_nonneg
  have hthousand : (1000 : Int64).toInt = 1000 := rfl
  unfold getTimestamp Timeval.millis
  rw [Int64.toUInt64_add, Int64.toUInt64_mul, UInt64.toUInt32_add, UInt64.toUInt32_mul,
    toUInt32_eq_ofInt, toUInt32_eq_ofInt, toUInt32_eq_ofInt, husec, hthousand,
    UInt32.ofInt_add, UInt32.ofInt_mul]

/-- Elapsed time is measured right across a wrap of the stamp. -/
theorem lt_elapsed_iff {start now : Int} (hle : start ≤ now) (hshort : now - start < 2 ^ 32)
    (limit : UInt32) :
    limit < UInt32.ofInt now - UInt32.ofInt start ↔ (limit.toNat : Int) < now - start := by
  have helapsed : UInt32.ofInt now - UInt32.ofInt start = UInt32.ofInt (now - start) := by
    rw [UInt32.sub_eq_add_neg, ← UInt32.ofInt_neg, ← UInt32.ofInt_add, ← sub_eq_add_neg]
  rw [helapsed, UInt32.lt_iff_toNat_lt]
  unfold UInt32.ofInt
  rw [UInt32.toNat_ofNat']
  omega

end InteractiveObject

end BlobTracking.Proc
