import BlobTracking.Tracking.ExactPlatform
import Mathlib.Data.List.FinRange

/-! Where every measurement of one call goes. It corrects one object inside the
gate, or it becomes a new object; the old objects that are kept stay in order
with one more position each. Nothing is assumed of the state before the call. -/
namespace BlobTracking.Tracking
open Dlib Library OpenCV

namespace Tracker

section Accounts
variable (pf : Platform P D φ) (f : Frame κ) (t : Tracker κ φ P)

/-- Old object `j` after prediction and correction. -/
def correctedAt (j : Fin t.objects.length) : TrackObj κ φ P :=
  correctedObject pf (f.measurements pf) (t.predicted pf) (t.assignments pf f)
    f.blobs.length j.val ((t.objects.get j).predict pf.toFilterOps)

/-- The old objects that are not lost, in order. -/
def kept : List (Fin t.objects.length) :=
  (List.finRange t.objects.length).filter fun j => !objectIsLost (t.correctedAt pf f j)

/-- The measurements that become new objects, in order. -/
def newcomers : List Nat :=
  (List.range f.blobs.length).filter fun i => (t.corrects pf f i).isNone

end Accounts

section Correction
variable {pf : Platform P D φ} {f : Frame κ} {t : Tracker κ φ P}

theorem corrects_injective (hsolve : f.maxCostAssignment.Permutes) {i i' j : Nat}
    (h : t.corrects pf f i = some j) (h' : t.corrects pf f i' = some j) : i = i' :=
  hit_injective (isAssignment_assignments hsolve).nodup h h'

theorem corrects_lt {i j : Nat} (h : t.corrects pf f i = some j) :
    i < f.blobs.length ∧ j < t.objects.length := by
  have := lt_of_hit h
  simpa using this

theorem lastPosition_predicted (j : Fin t.objects.length) :
    lastPosition (t.predicted pf) j.val =
      ((t.objects.get j).predict pf.toFilterOps).lastHistory := by
  simp [lastPosition, predicted]

theorem corrects_gate {i : Nat} {j : Fin t.objects.length}
    (h : t.corrects pf f i = some j.val) :
    ∃ z p, (f.measurements pf)[i]? = some z ∧
      ((t.objects.get j).predict pf.toFilterOps).lastHistory = some p ∧
      pf.exceeds (pf.norm (pf.sub p z)) tresh = false := by
  obtain ⟨_, z, p, hz, hp, hgate⟩ := hit_eq_some_iff.mp h
  rw [lastPosition_predicted] at hp
  exact ⟨z, p, hz, hp, hgate⟩

theorem correctedAt_of_corrects (hsolve : f.maxCostAssignment.Permutes) {i : Nat}
    {j : Fin t.objects.length} {z : P} (h : t.corrects pf f i = some j.val)
    (hz : (f.measurements pf)[i]? = some z) :
    t.correctedAt pf f j =
      ((t.objects.get j).predict pf.toFilterOps).correct pf.toFilterOps z :=
  correctedObject_of_hit (isAssignment_assignments hsolve).nodup _ h (corrects_lt h).1 hz

theorem correctedAt_of_not_corrects {j : Fin t.objects.length}
    (h : ∀ i, t.corrects pf f i ≠ some j.val) :
    t.correctedAt pf f j = (t.objects.get j).predict pf.toFilterOps :=
  correctedObject_of_no_hit _ fun i _ => h i

@[simp] theorem correctedAt_history (j : Fin t.objects.length) :
    (t.correctedAt pf f j).history =
      ((t.objects.get j).predict pf.toFilterOps).history :=
  correctedObject_history ..

@[simp] theorem correctedAt_color (j : Fin t.objects.length) :
    (t.correctedAt pf f j).color = (t.objects.get j).color :=
  (correctedObject_color ..).trans (TrackObj.predict_color ..)

open Classical in
theorem correctedAt_nFramesUnseen (hsolve : f.maxCostAssignment.Permutes)
    (j : Fin t.objects.length) :
    (t.correctedAt pf f j).nFramesUnseen =
      if ∃ i, t.corrects pf f i = some j.val then 0
      else (t.objects.get j).nFramesUnseen + 1 := by
  split
  · rename_i hhit
    obtain ⟨i, hi⟩ := hhit
    obtain ⟨z, _, hz, _⟩ := corrects_gate hi
    rw [correctedAt_of_corrects hsolve hi hz, TrackObj.correct_nFramesUnseen]
  · rename_i hmiss
    rw [correctedAt_of_not_corrects (not_exists.mp hmiss), TrackObj.predict_nFramesUnseen]

theorem mem_kept_iff (hsolve : f.maxCostAssignment.Permutes) (j : Fin t.objects.length) :
    j ∈ t.kept pf f ↔
      (∃ i, t.corrects pf f i = some j.val) ∨ (t.objects.get j).nFramesUnseen < 3 := by
  classical
  have hcounter : (t.correctedAt pf f j).nFramesUnseen = _ :=
    correctedAt_nFramesUnseen hsolve j
  rw [kept, List.mem_filter]
  simp only [List.mem_finRange, true_and, objectIsLost, TrackObj.framesUnseen, hcounter]
  split <;> simp_all

theorem corrected_eq : t.corrected pf f =
    (List.finRange t.objects.length).map (t.correctedAt pf f) := by
  apply List.ext_getElem
  · simp
  · intro j hj hj'
    simp [corrected, predicted, correctedAt]

theorem survivors_eq : t.survivors pf f = (t.kept pf f).map (t.correctedAt pf f) := by
  rw [survivors, corrected_eq, List.filter_map]
  rfl

theorem exists_correctedAt_mem (hsolve : f.maxCostAssignment.Permutes)
    {j : Fin t.objects.length} (hunseen : (t.objects.get j).nFramesUnseen < 3) :
    ∃ t', t.track pf f = some t' ∧ t.correctedAt pf f j ∈ t'.objects := by
  refine ⟨_, track_eq hsolve, List.mem_append_left _ ?_⟩
  rw [survivors_eq]
  exact List.mem_map_of_mem ((mem_kept_iff hsolve j).mpr (Or.inr hunseen))

theorem createdFor_eq_some {i : Nat} {z : P} (h : t.corrects pf f i = none)
    (hz : (f.measurements pf)[i]? = some z) :
    t.createdFor pf f i =
      some (TrackObj.construct pf.toFilterOps (f.randomColor i) z) := by
  rw [createdFor, if_pos h, hz, Option.map_some]

theorem created_forall₂ : List.Forall₂ (fun i obj => ∃ z, (f.measurements pf)[i]? = some z ∧
      obj = TrackObj.construct pf.toFilterOps (f.randomColor i) z)
    (t.newcomers pf f) (t.created pf f) := by
  unfold newcomers created
  have hbound : ∀ i ∈ List.range f.blobs.length, i < (f.measurements pf).length := by
    intro i hi
    simpa using hi
  generalize List.range f.blobs.length = indices at hbound
  induction indices with
  | nil => exact List.Forall₂.nil
  | cons i rest ih =>
    have hrest := ih fun k hk => hbound k (List.mem_cons_of_mem i hk)
    cases hcorrects : t.corrects pf f i with
    | none =>
      have hz := List.getElem?_eq_getElem (hbound i List.mem_cons_self)
      rw [List.filter_cons_of_pos (by simp [hcorrects]), List.filterMap_cons,
        createdFor_eq_some hcorrects hz]
      exact List.Forall₂.cons ⟨_, hz, rfl⟩ hrest
    | some j =>
      rw [List.filter_cons_of_neg (by simp [hcorrects]), List.filterMap_cons,
        createdFor_eq_none_of_corrects hcorrects]
      exact hrest

theorem length_created : (t.created pf f).length = (t.newcomers pf f).length :=
  created_forall₂.length_eq.symm

theorem created_nFramesUnseen {obj : TrackObj κ φ P} (h : obj ∈ t.created pf f) :
    obj.nFramesUnseen = 0 := by
  obtain ⟨i, _, hi⟩ := List.mem_filterMap.mp h
  unfold createdFor at hi
  split at hi
  · obtain ⟨z, _, rfl⟩ := Option.map_eq_some_iff.mp hi
    rfl
  · cases hi

theorem countP_survivors (hsolve : f.maxCostAssignment.Permutes) :
    (t.survivors pf f).countP (fun obj => obj.nFramesUnseen == 0) =
      (List.range f.blobs.length).countP fun i => (t.corrects pf f i).isSome := by
  classical
  let hits : List Nat := (List.range f.blobs.length).filterMap (t.corrects pf f)
  let targets : List Nat := ((List.finRange t.objects.length).filter
    fun j => (t.correctedAt pf f j).nFramesUnseen == 0).map Fin.val
  have hits_nodup : hits.Nodup := by
    apply List.nodup_range.filterMap
    intro i i' j hi hi'
    exact corrects_injective hsolve hi hi'
  have targets_nodup : targets.Nodup :=
    ((List.nodup_finRange _).filter _).map Fin.val_injective
  have hperm : targets.Perm hits := by
    apply (List.perm_ext_iff_of_nodup targets_nodup hits_nodup).mpr
    intro j
    simp only [targets, hits, List.mem_map, List.mem_filter, List.mem_finRange, true_and,
      beq_iff_eq, List.mem_filterMap, List.mem_range, correctedAt_nFramesUnseen hsolve]
    constructor
    · rintro ⟨j, hzero, rfl⟩
      split at hzero
      · rename_i hhit
        obtain ⟨i, hi⟩ := hhit
        exact ⟨i, (corrects_lt hi).1, hi⟩
      · cases hzero
    · rintro ⟨i, _, hi⟩
      exact ⟨⟨j, (corrects_lt hi).2⟩, if_pos ⟨i, hi⟩, rfl⟩
  have hkept : ∀ j : Fin t.objects.length,
      (((t.correctedAt pf f j).nFramesUnseen == 0) && !objectIsLost (t.correctedAt pf f j)) =
        ((t.correctedAt pf f j).nFramesUnseen == 0) := by
    intro j
    have hzero : ∀ unseen : Nat, ((unseen == 0) && !decide (unseen > 3)) = (unseen == 0) := by
      intro unseen
      cases unseen <;> simp
    exact hzero _
  rw [← List.length_filterMap_eq_countP, ← hperm.length_eq, survivors_eq, List.countP_map, kept,
    List.countP_filter]
  simp only [Function.comp_def, hkept]
  rw [List.countP_eq_length_filter, List.length_map]

theorem countP_framesUnseen_zero (hsolve : f.maxCostAssignment.Permutes) :
    (t.survivors pf f ++ t.created pf f).countP (fun obj => obj.nFramesUnseen == 0) =
      f.blobs.length := by
  have hall : (t.created pf f).countP (fun obj => obj.nFramesUnseen == 0) =
      (t.created pf f).length :=
    List.countP_eq_length.mpr fun obj hobj => by simp [created_nFramesUnseen hobj]
  have hsplit := List.length_eq_countP_add_countP
    (fun i => (t.corrects pf f i).isSome) (l := List.range f.blobs.length)
  have hnone : ∀ o : Option Nat, (decide ¬o.isSome = true) = o.isNone := by
    intro o
    cases o <;> rfl
  simp only [hnone, List.length_range] at hsplit
  rw [List.countP_append, countP_survivors hsolve, hall, length_created, newcomers,
    ← List.countP_eq_length_filter]
  exact hsplit.symm

end Correction

section Few
variable {pf : Platform P D φ} {f : Frame κ} {t : Tracker κ φ P} {obj : TrackObj κ φ P} {z p : P}
  {initialized : Bool}

/-- Without measurements the objects only grow older. -/
theorem track_of_no_blobs (hsolve : f.maxCostAssignment.Permutes) (hblobs : f.blobs = []) :
    t.track pf f =
      some { t with objects := (t.predicted pf).filter fun obj => !objectIsLost obj } := by
  have hcorrected : t.corrected pf f = t.predicted pf := by
    have hobject : ∀ (j : Nat) (obj : TrackObj κ φ P), correctedObject pf (f.measurements pf)
        (t.predicted pf) (t.assignments pf f) f.blobs.length j obj = obj := by
      intro j obj
      rw [hblobs]
      exact correctedObject_of_no_hit obj fun i hi => absurd hi (Nat.not_lt_zero i)
    unfold corrected
    simp only [hobject]
    apply List.ext_getElem?
    intro j
    simp
  rw [track_eq hsolve, survivors, hcorrected, created, hblobs, List.length_nil, List.range_zero,
    List.filterMap_nil, List.append_nil]

/-- A lone measurement near the prediction of a lone object. -/
theorem corrects_single (hsolve : f.maxCostAssignment.Permutes) (hz : f.measurements pf = [z])
    (hp : (obj.predict pf.toFilterOps).lastHistory = some p)
    (hgate : pf.exceeds (pf.norm (pf.sub p z)) tresh = false) :
    (⟨initialized, [obj]⟩ : Tracker κ φ P).corrects pf f 0 = some 0 := by
  have hlength : f.blobs.length = 1 := by
    rw [← Frame.length_measurements pf f, hz, List.length_singleton]
  have hassign : IsAssignment 1 (assignments pf f ⟨initialized, [obj]⟩) := by
    have hlarge := @isAssignment_assignments _ _ _ _ pf f ⟨initialized, [obj]⟩ hsolve
    rw [hlength] at hlarge
    exact hlarge
  have hfirst := hassign.getElem?_eq 0
  rw [Subsingleton.elim (hassign.toPerm 0) 0] at hfirst
  exact hit_eq_some_iff.mpr ⟨hfirst, z, p, by rw [hz]; rfl, hp, hgate⟩

theorem kept_single (hsolve : f.maxCostAssignment.Permutes)
    (hcorrects : (⟨initialized, [obj]⟩ : Tracker κ φ P).corrects pf f 0 = some 0) :
    (⟨initialized, [obj]⟩ : Tracker κ φ P).kept pf f = [(0 : Fin 1)] := by
  have hmem : (0 : Fin 1) ∈ (⟨initialized, [obj]⟩ : Tracker κ φ P).kept pf f :=
    (mem_kept_iff hsolve _).mpr (Or.inl ⟨0, hcorrects⟩)
  rw [kept, List.mem_filter] at hmem
  exact List.filter_cons_of_pos hmem.2

theorem track_single (hsolve : f.maxCostAssignment.Permutes) (hz : f.measurements pf = [z])
    (hcorrects : (⟨initialized, [obj]⟩ : Tracker κ φ P).corrects pf f 0 = some 0) :
    (⟨initialized, [obj]⟩ : Tracker κ φ P).track pf f =
      some ⟨initialized, [(obj.predict pf.toFilterOps).correct pf.toFilterOps z]⟩ := by
  have hlength : f.blobs.length = 1 := by
    rw [← Frame.length_measurements pf f, hz, List.length_singleton]
  have hcorrected : (⟨initialized, [obj]⟩ : Tracker κ φ P).correctedAt pf f (0 : Fin 1) =
      (obj.predict pf.toFilterOps).correct pf.toFilterOps z :=
    correctedAt_of_corrects hsolve hcorrects (by rw [hz]; rfl)
  rw [track_eq hsolve, survivors_eq, kept_single hsolve hcorrects, List.map_singleton,
    hcorrected, created, hlength, List.range_one, List.filterMap_cons,
    createdFor_eq_none_of_corrects hcorrects]
  rfl

end Few

end Tracker

/-! The account of one call. `corrects i` is the old object that measurement `i` corrects. -/

/-- `p` and `z` are not too far apart for a correction. -/
def Platform.InsideGate (pf : Platform P D φ) (p z : P) : Prop :=
  pf.exceeds (pf.norm (pf.sub p z)) Tracker.tresh = false

/-- Corrections stay inside the gate and no object is corrected twice. -/
structure Matched (ops : FilterOps P φ) (insideGate : P → P → Prop) (zs : List P)
    (t : Tracker κ φ P) (corrects : Nat → Option Nat) : Prop where
  inside_gate : ∀ i j, corrects i = some j → ∃ z obj p, zs[i]? = some z ∧
    t.objects[j]? = some obj ∧ (obj.predict ops).lastHistory = some p ∧ insideGate p z
  at_most_once : ∀ i i' j, corrects i = some j → corrects i' = some j → i = i'

/-- What becomes of old object `j` when it is kept. -/
structure Continues (ops : FilterOps P φ) (zs : List P) (corrects : Nat → Option Nat) (j : Nat)
    (obj obj' : TrackObj κ φ P) : Prop where
  color_eq : obj'.color = obj.color
  history_eq : ∃ p, (obj.predict ops).lastHistory = some p ∧ obj'.history = obj.history ++ [p]
  corrected : ∀ i z, corrects i = some j → zs[i]? = some z →
    obj' = (obj.predict ops).correct ops z ∧ obj'.framesUnseen = 0
  not_corrected : (∀ i, corrects i ≠ some j) → obj' = obj.predict ops

/-- The objects after the call: those kept, in their old order and with every
corrected one among them, then one new object for each measurement that corrects none. -/
structure Accounted (ops : FilterOps P φ) (f : Frame κ) (zs : List P) (t t' : Tracker κ φ P)
    (corrects : Nat → Option Nat) (kept : List (Fin t.objects.length))
    (survivors created : List (TrackObj κ φ P)) : Prop where
  objects_eq : t'.objects = survivors ++ created
  in_order : kept.Pairwise (· < ·)
  corrected_kept : ∀ i (j : Fin t.objects.length), corrects i = some j.val → j ∈ kept
  continues : List.Forall₂ (fun j obj' =>
    Continues ops zs corrects j.val (t.objects.get j) obj') kept survivors
  one_each : List.Forall₂ (fun i obj' => ∃ z, zs[i]? = some z ∧ obj'.history = [z] ∧
      obj'.framesUnseen = 0 ∧ obj'.color = f.randomColor i)
    ((List.range zs.length).filter fun i => (corrects i).isNone) created

theorem predict_history_eq (ops : FilterOps P φ) (obj : TrackObj κ φ P) :
    ∃ p, (obj.predict ops).lastHistory = some p ∧
      (obj.predict ops).history = obj.history ++ [p] := by
  obtain ⟨p, hp⟩ := obj.exists_predict_history ops
  exact ⟨p, TrackObj.lastHistory_of_append _ hp, hp⟩

section AnyPlatform
variable (pf : Platform P D φ) (t : Tracker κ φ P) (f : Frame κ)

theorem matched_corrects (hsolve : f.maxCostAssignment.Permutes) :
    Matched pf.toFilterOps pf.InsideGate (f.measurements pf) t (t.corrects pf f) where
  inside_gate i j hij := by
    obtain ⟨z, p, hz, hp, hgate⟩ :=
      Tracker.corrects_gate (j := ⟨j, (Tracker.corrects_lt hij).2⟩) hij
    exact ⟨z, _, p, hz, List.getElem?_eq_getElem _, hp, hgate⟩
  at_most_once _ _ _ := Tracker.corrects_injective hsolve

theorem accounted_track (hsolve : f.maxCostAssignment.Permutes) {t' : Tracker κ φ P}
    (h : t.track pf f = some t') :
    Accounted pf.toFilterOps f (f.measurements pf) t t' (t.corrects pf f) (t.kept pf f)
      (t.survivors pf f) (t.created pf f) where
  objects_eq := by
    rw [Tracker.track_eq hsolve] at h
    exact Option.some.inj h ▸ rfl
  in_order := (List.pairwise_lt_finRange _).filter _
  corrected_kept i j hij := (Tracker.mem_kept_iff hsolve j).mpr (Or.inl ⟨i, hij⟩)
  continues := by
    rw [Tracker.survivors_eq, List.forall₂_map_right_iff, List.forall₂_same]
    intro j _
    constructor
    · exact Tracker.correctedAt_color j
    · rw [Tracker.correctedAt_history]
      exact predict_history_eq _ _
    · intro i z hij hz
      rw [Tracker.correctedAt_of_corrects hsolve hij hz]
      exact ⟨rfl, rfl⟩
    · exact Tracker.correctedAt_of_not_corrects
  one_each := by
    rw [Frame.length_measurements]
    apply Tracker.created_forall₂.imp
    rintro i obj ⟨z, hz, rfl⟩
    exact ⟨z, hz, rfl, rfl, rfl⟩

/-- The account of one call, on every platform and for every permutation. -/
theorem exists_accounted_track (hsolve : f.maxCostAssignment.Permutes) :
    ∃ t', t.track pf f = some t' ∧
      (∃ corrects kept survivors created,
        Matched pf.toFilterOps pf.InsideGate (f.measurements pf) t corrects ∧
        Accounted pf.toFilterOps f (f.measurements pf) t t' corrects kept survivors created) ∧
      t'.objects.countP (fun obj => obj.framesUnseen == 0) = (f.measurements pf).length := by
  refine ⟨_, Tracker.track_eq hsolve, ⟨_, _, _, _, matched_corrects pf t f hsolve,
    accounted_track pf t f hsolve (Tracker.track_eq hsolve)⟩, ?_⟩
  rw [Frame.length_measurements]
  exact Tracker.countP_framesUnseen_zero hsolve

end AnyPlatform

theorem track_accounting (moments : List Point → Moments) (cv : KalmanOps)
    (t : Tracker κ MKalman Point2f) (f : Frame κ) (hsolve : f.maxCostAssignment.Permutes)
    (zs : List Point2f) (hzs : f.blobs.map (getBlobCentroid moments) = zs.map some) :
    ∃ t', t.track (exactPlatform moments cv) f = some t' ∧
      (∃ corrects kept survivors created,
        Matched (MKalman.ops cv) (fun p z => distance p z ≤ 100) zs t corrects ∧
        Accounted (MKalman.ops cv) f zs t t' corrects kept survivors created) ∧
      t'.objects.countP (fun obj => obj.framesUnseen == 0) = zs.length := by
  have hgate : (exactPlatform moments cv).InsideGate = fun p z => distance p z ≤ 100 :=
    funext fun p => funext fun z => propext (exceeds_tresh_eq_false_iff p z)
  have haccount := exists_accounted_track (exactPlatform moments cv) t f hsolve
  rw [hgate, measurements_of_centroids hzs] at haccount
  exact haccount

theorem track_accounting_squares :
    ∃ t', (Tracker.construct.init (exactPlatform polygonMoments exactKalman)
        (plainFrame identitySolver [square 3 4])).track (exactPlatform polygonMoments exactKalman)
          (plainFrame identitySolver [square 5 4, square 300 4]) = some t' ∧
      (∃ corrects kept survivors created,
        Matched (MKalman.ops exactKalman) (fun p z => distance p z ≤ 100) [⟨5, 4⟩, ⟨300, 4⟩]
          (Tracker.construct.init (exactPlatform polygonMoments exactKalman)
            (plainFrame identitySolver [square 3 4])) corrects ∧
        Accounted (MKalman.ops exactKalman) (plainFrame identitySolver [square 5 4, square 300 4])
          [⟨5, 4⟩, ⟨300, 4⟩] (Tracker.construct.init (exactPlatform polygonMoments exactKalman)
            (plainFrame identitySolver [square 3 4])) t' corrects kept survivors created) ∧
      t'.objects.countP (fun obj => obj.framesUnseen == 0) = 2 :=
  track_accounting polygonMoments exactKalman _ _ identitySolver_permutes
    [⟨5, 4⟩, ⟨300, 4⟩] (by simp [plainFrame, getBlobCentroid_square])

end BlobTracking.Tracking
