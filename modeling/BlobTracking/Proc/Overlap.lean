import BlobTracking.OpenCV.FilledHull
import BlobTracking.Proc.InteractiveObject

/-! What the vertices of a hull tell about its overlap with the rectangle. A vertex
inside is an overlap, and an overlap without one comes from a hull that lies across
the rectangle. -/
namespace BlobTracking.Proc

open OpenCV

namespace Rect

def StrictlyInside (rectangle : Rect) (p : Point) : Prop :=
  (rectangle.x < p.x ∧ p.x < rectangle.x + rectangle.width) ∧
    rectangle.y < p.y ∧ p.y < rectangle.y + rectangle.height

instance (rectangle : Rect) : DecidablePred rectangle.StrictlyInside := fun p =>
  inferInstanceAs (Decidable ((rectangle.x < p.x ∧ p.x < rectangle.x + rectangle.width) ∧
    rectangle.y < p.y ∧ p.y < rectangle.y + rectangle.height))

/-- The filled hull has a pixel strictly inside the rectangle. -/
def Meets (rectangle : Rect) (hull : List Point) : Prop :=
  ∃ p, rectangle.StrictlyInside p ∧ Covers hull p

end Rect

inductive Side where
  | left
  | right
  | top
  | bottom
deriving DecidableEq

/-- On the side or past it. -/
def Rect.Beyond (rectangle : Rect) (side : Side) (p : Point) : Prop :=
  match side with
  | .left => p.x ≤ rectangle.x
  | .right => rectangle.x + rectangle.width ≤ p.x
  | .top => p.y ≤ rectangle.y
  | .bottom => rectangle.y + rectangle.height ≤ p.y

/-- No vertex is inside, and no single side has all of them beyond it. -/
structure Straddles (rectangle : Rect) (hull : List Point) : Prop where
  outside : ∀ q ∈ hull, ¬rectangle.StrictlyInside q
  not_beyond : ∀ side, ∃ q ∈ hull, ¬rectangle.Beyond side q

def Overlap (rectangle : Rect) (hulls : List (List Point)) : Prop :=
  ∃ hull ∈ hulls, rectangle.Meets hull

section Geometry
variable {rectangle : Rect} {hull : List Point}

theorem not_strictlyInside_of_beyond {side : Side} {p : Point} (h : rectangle.Beyond side p) :
    ¬rectangle.StrictlyInside p := by
  cases side <;> simp only [Rect.Beyond, Rect.StrictlyInside] at h ⊢ <;> omega

theorem exists_halfPlane (rectangle : Rect) (side : Side) :
    ∃ a b r, ∀ p, rectangle.Beyond side p ↔ a * p.x + b * p.y ≤ r := by
  cases side with
  | left => exact ⟨1, 0, rectangle.x, fun p => by simp [Rect.Beyond]⟩
  | right =>
    refine ⟨-1, 0, -(rectangle.x + rectangle.width), fun p => ?_⟩
    simp only [Rect.Beyond]
    omega
  | top => exact ⟨0, 1, rectangle.y, fun p => by simp [Rect.Beyond]⟩
  | bottom =>
    refine ⟨0, -1, -(rectangle.y + rectangle.height), fun p => ?_⟩
    simp only [Rect.Beyond]
    omega

/-- The hull stays beyond a side with its vertices. -/
theorem beyond_of_covers {side : Side} {p : Point}
    (hvertices : ∀ q ∈ hull, rectangle.Beyond side q) (hp : Covers hull p) :
    rectangle.Beyond side p := by
  rcases exists_halfPlane rectangle side with ⟨a, b, r, hside⟩
  rw [hside]
  exact hp.le a b r fun q hq => (hside q).mp (hvertices q hq)

theorem meets_of_vertex {q : Point} (hq : q ∈ hull) (hinside : rectangle.StrictlyInside q) :
    rectangle.Meets hull :=
  ⟨q, hinside, covers_vertex hq⟩

theorem straddles_of_meets (hmeets : rectangle.Meets hull)
    (houtside : ∀ q ∈ hull, ¬rectangle.StrictlyInside q) : Straddles rectangle hull where
  outside := houtside
  not_beyond side := by
    by_contra hbeyond
    push Not at hbeyond
    rcases hmeets with ⟨p, hinside, hcovers⟩
    exact not_strictlyInside_of_beyond (beyond_of_covers hbeyond hcovers) hinside

/-- For hulls with an area an overlap is read off the edges. -/
theorem meets_iff_withinEdges {contour : List Point} (h : IsConvexHull contour hull)
    (harea : shoelace hull ≠ 0) :
    rectangle.Meets hull ↔ ∃ p, rectangle.StrictlyInside p ∧ WithinEdges hull p :=
  exists_congr fun p => and_congr_right fun _ => h.covers_iff harea p

end Geometry

namespace InteractiveObject

theorem overlap_of_inside {rectangle : Rect} {hulls : List (List Point)}
    (h : Inside rectangle hulls) : Overlap rectangle hulls := by
  rcases h with ⟨hull, hmem, q, hq, hinside⟩
  exact ⟨hull, hmem, meets_of_vertex hq hinside⟩

theorem active_processHulls_iff (obj : InteractiveObject) (hulls : List (List Point))
    (now : Timeval) :
    (obj.processHulls hulls now).1.active = true ↔ Inside obj.rectangle hulls := by
  rw [← searchHulls_iff]
  unfold processHulls
  cases hfound : obj.searchHulls hulls with
  | false => cases hactive : obj.active <;> simp [deactivate, hactive]
  | true =>
    cases hactive : obj.active with
    | false => simp
    | true =>
      simp only [Bool.not_true, Bool.false_eq_true, if_true, if_false, iff_true]
      split
      · rfl
      · exact hactive

end InteractiveObject

/-- The vertices decide; an overlap they miss is one of a hull across the rectangle. -/
theorem occupied_by_vertices (obj : InteractiveObject) (hulls : List (List Point))
    (now : Timeval) :
    ((obj.processHulls hulls now).1.active = true ↔
        ∃ hull ∈ hulls, ∃ q ∈ hull, obj.rectangle.StrictlyInside q) ∧
      ((obj.processHulls hulls now).1.active = true → Overlap obj.rectangle hulls) ∧
      (Overlap obj.rectangle hulls → (obj.processHulls hulls now).1.active = true ∨
        ∃ hull ∈ hulls, Straddles obj.rectangle hull ∧ obj.rectangle.Meets hull) := by
  have hactive := obj.active_processHulls_iff hulls now
  refine ⟨hactive, fun h => InteractiveObject.overlap_of_inside (hactive.mp h),
    fun hoverlap => ?_⟩
  rw [hactive]
  by_contra hmissed
  push Not at hmissed
  rcases hoverlap with ⟨hull, hmem, hmeets⟩
  refine hmissed.2 hull hmem (straddles_of_meets hmeets fun q hq hinside => ?_) hmeets
  exact hmissed.1 ⟨hull, hmem, q, hq, hinside⟩

/-- A hull around the first key of `DialMode`. -/
def aroundKey : List Point := [⟨0, 0⟩, ⟨80, 0⟩, ⟨80, 80⟩, ⟨0, 80⟩]

theorem isConvexHull_aroundKey : IsConvexHull aroundKey aroundKey :=
  isConvexHull_of_oriented (Or.inl (by decide))

/-- A hand that covers the whole key does not press it. -/
theorem surrounded_not_occupied :
    ¬∀ (obj : InteractiveObject) (hulls : List (List Point)) (now : Timeval),
      (∀ hull ∈ hulls, ∃ contour, IsConvexHull contour hull) →
      ((obj.processHulls hulls now).1.active = true ↔ Overlap obj.rectangle hulls) := by
  intro h
  let key := InteractiveObject.construct ⟨12, 12, 50, 50, by decide⟩
  have hhulls : ∀ hull ∈ [aroundKey], ∃ contour, IsConvexHull contour hull := by
    intro hull hmem
    rw [List.mem_singleton.mp hmem]
    exact ⟨aroundKey, isConvexHull_aroundKey⟩
  have hmeets : key.rectangle.Meets aroundKey :=
    (meets_iff_withinEdges isConvexHull_aroundKey (by decide)).mpr
      ⟨⟨37, 37⟩, by decide, by decide⟩
  have hactive := (h key [aroundKey] ⟨0, 0, by decide, by decide⟩ hhulls).mpr
    ⟨aroundKey, List.mem_singleton_self aroundKey, hmeets⟩
  exact absurd hactive (by decide)

end BlobTracking.Proc
