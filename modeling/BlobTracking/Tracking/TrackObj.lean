import Mathlib.Data.List.Basic

/-! One tracked object. Its filter is reached only through the three operations
of `MKalman`, so everything here holds whatever the filter and the point
arithmetic compute. -/
namespace BlobTracking.Tracking

/-- What `TrackObj` uses of `MKalman`, over points of type `P`. -/
structure FilterOps (P φ : Type) where
  /-- `filter(iniP.x, iniP.y)`. -/
  construct : P → φ
  /-- `filter.predict()`, with its result widened to a `Point2f`. -/
  predict : φ → P × φ
  correct : φ → P → φ

/-- `κ` is the type of colours, `φ` of filters. -/
@[ext] structure TrackObj (κ φ P : Type) where
  history : List P
  color : κ
  filter : φ
  nFramesUnseen : Nat
deriving DecidableEq

namespace TrackObj

section Operations
variable (ops : FilterOps P φ)

def construct (colorA : κ) (iniP : P) : TrackObj κ φ P where
  history := [iniP]
  color := colorA
  filter := ops.construct iniP
  nFramesUnseen := 0

/-- The first prediction repeats the initial point and does not reach the filter. -/
def predict (obj : TrackObj κ φ P) : TrackObj κ φ P :=
  if h : obj.history.length = 1 then
    { obj with
      history := obj.history ++ [obj.history.get ⟨0, by omega⟩]
      nFramesUnseen := obj.nFramesUnseen + 1 }
  else
    { obj with
      history := obj.history ++ [(ops.predict obj.filter).1]
      filter := (ops.predict obj.filter).2
      nFramesUnseen := obj.nFramesUnseen + 1 }

def correct (obj : TrackObj κ φ P) (p : P) : TrackObj κ φ P :=
  { obj with filter := ops.correct obj.filter p, nFramesUnseen := 0 }

end Operations

def framesUnseen (obj : TrackObj κ φ P) : Nat := obj.nFramesUnseen

/-- `history[history.size()-1]`; reading an empty history is a fault. -/
def lastHistory (obj : TrackObj κ φ P) : Option P :=
  obj.history[obj.history.length - 1]?

def recolor (g : κ → κ') (obj : TrackObj κ φ P) : TrackObj κ' φ P :=
  { history := obj.history, color := g obj.color, filter := obj.filter,
    nFramesUnseen := obj.nFramesUnseen }

section Lemmas
variable (ops : FilterOps P φ) (obj : TrackObj κ φ P)

@[simp] theorem construct_history (c : κ) (p : P) :
    (construct ops c p).history = [p] := rfl
@[simp] theorem construct_color (c : κ) (p : P) : (construct ops c p).color = c := rfl
@[simp] theorem construct_nFramesUnseen (c : κ) (p : P) :
    (construct ops c p).nFramesUnseen = 0 := rfl
@[simp] theorem construct_filter (c : κ) (p : P) :
    (construct ops c p).filter = ops.construct p := rfl

@[simp] theorem correct_history (p : P) : (obj.correct ops p).history = obj.history := rfl
@[simp] theorem correct_color (p : P) : (obj.correct ops p).color = obj.color := rfl
@[simp] theorem correct_nFramesUnseen (p : P) : (obj.correct ops p).nFramesUnseen = 0 := rfl
@[simp] theorem correct_filter (p : P) :
    (obj.correct ops p).filter = ops.correct obj.filter p := rfl
theorem predict_of_single (p : P) (h : obj.history = [p]) :
    obj.predict ops = { obj with history := [p, p], nFramesUnseen := obj.nFramesUnseen + 1 } := by
  obtain ⟨history, _, _, _⟩ := obj
  subst h
  simp [predict]

theorem predict_of_length_ne (h : obj.history.length ≠ 1) :
    obj.predict ops =
      { obj with
        history := obj.history ++ [(ops.predict obj.filter).1]
        filter := (ops.predict obj.filter).2
        nFramesUnseen := obj.nFramesUnseen + 1 } := by
  rw [predict, dif_neg h]

@[simp] theorem predict_color : (obj.predict ops).color = obj.color := by
  unfold predict
  split <;> rfl

@[simp] theorem predict_nFramesUnseen :
    (obj.predict ops).nFramesUnseen = obj.nFramesUnseen + 1 := by
  unfold predict
  split <;> rfl

theorem exists_predict_history : ∃ p, (obj.predict ops).history = obj.history ++ [p] := by
  unfold predict
  split
  · exact ⟨_, rfl⟩
  · exact ⟨_, rfl⟩

@[simp] theorem predict_history_length :
    (obj.predict ops).history.length = obj.history.length + 1 := by
  obtain ⟨p, hp⟩ := exists_predict_history ops obj
  rw [hp, List.length_append, List.length_singleton]

theorem predict_history_ne_nil : (obj.predict ops).history ≠ [] := by
  rw [← List.length_pos_iff]
  simp

theorem lastHistory_of_append {history : List P} {p : P} (h : obj.history = history ++ [p]) :
    obj.lastHistory = some p := by
  simp [lastHistory, h]

theorem exists_lastHistory (h : obj.history ≠ []) : ∃ p, obj.lastHistory = some p := by
  obtain ⟨history, p, hp⟩ := (List.eq_nil_or_concat' obj.history).resolve_left h
  exact ⟨p, obj.lastHistory_of_append hp⟩

theorem mem_history_of_lastHistory {p : P} (h : obj.lastHistory = some p) : p ∈ obj.history :=
  List.mem_of_getElem? h

@[simp] theorem recolor_history (g : κ → κ') : (obj.recolor g).history = obj.history := rfl
@[simp] theorem recolor_nFramesUnseen (g : κ → κ') :
    (obj.recolor g).nFramesUnseen = obj.nFramesUnseen := rfl
@[simp] theorem recolor_lastHistory (g : κ → κ') :
    (obj.recolor g).lastHistory = obj.lastHistory := rfl

theorem recolor_predict (g : κ → κ') :
    (obj.recolor g).predict ops = (obj.predict ops).recolor g := by
  unfold predict
  by_cases h : obj.history.length = 1
  · rw [dif_pos h, dif_pos (show (obj.recolor g).history.length = 1 from h)]
    rfl
  · rw [dif_neg h, dif_neg (show (obj.recolor g).history.length ≠ 1 from h)]
    rfl

end Lemmas

end TrackObj

end BlobTracking.Tracking
