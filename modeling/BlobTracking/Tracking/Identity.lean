import BlobTracking.Library.AgeingPool
import BlobTracking.Tracking.Accounting

/-! Objects carry no identity of their own, but no decision of the tracker depends
on a colour, so a colour can serve as one. A run is repeated with every new object
stamped with its frame and measurement; erasing the stamps gives back the run, and
the stamped objects age exactly like the entries of a pool. -/
namespace BlobTracking.Tracking
open Dlib Library OpenCV

/-- The frame an object is created in and the measurement it is created for. -/
abbrev Ident := Nat × Nat

def Frame.recolor (g : κ → κ') (f : Frame κ) : Frame κ' :=
  ⟨f.blobs, fun i => g (f.randomColor i), f.maxCostAssignment⟩

def Tracker.recolor (g : κ → κ') (t : Tracker κ φ P) : Tracker κ' φ P :=
  ⟨t.initialized, t.objects.map (TrackObj.recolor g)⟩

section Erasure
variable {pf : Platform P D φ} (g : κ → κ') (f : Frame κ) (t : Tracker κ φ P)

namespace Tracker

theorem lastPosition_recolor (objects : List (TrackObj κ φ P)) (j : Nat) :
    lastPosition (objects.map (TrackObj.recolor g)) j = lastPosition objects j := by
  unfold lastPosition
  rw [List.getElem?_map]
  cases objects[j]? <;> rfl

theorem predicted_recolor :
    (t.recolor g).predicted pf = (t.predicted pf).map (TrackObj.recolor g) := by
  simp only [predicted, recolor, List.map_map]
  apply List.map_congr_left
  intro obj _
  exact TrackObj.recolor_predict _ obj g

theorem realEntry_recolor (zs : List P) (objects : List (TrackObj κ φ P)) :
    realEntry pf zs (objects.map (TrackObj.recolor g)) = realEntry pf zs objects := by
  funext i j
  unfold realEntry
  rw [lastPosition_recolor]

theorem assignments_recolor :
    (t.recolor g).assignments pf (f.recolor g) = t.assignments pf f := by
  rw [assignments_eq, assignments_eq, predicted_recolor, realEntry_recolor]
  simp [Frame.recolor, recolor, Frame.measurements]

theorem hit_recolor (zs : List P) (objects : List (TrackObj κ φ P)) (a : List Int) :
    hit pf zs (objects.map (TrackObj.recolor g)) a = hit pf zs objects a := by
  funext i
  unfold hit
  simp only [lastPosition_recolor]

theorem corrects_recolor : (t.recolor g).corrects pf (f.recolor g) = t.corrects pf f := by
  funext i
  unfold corrects
  rw [assignments_recolor, predicted_recolor, hit_recolor]
  rfl

theorem correctedObject_recolor (zs : List P) (objects : List (TrackObj κ φ P)) (a : List Int)
    (k j : Nat) (obj : TrackObj κ φ P) :
    correctedObject pf zs (objects.map (TrackObj.recolor g)) a k j (obj.recolor g) =
      (correctedObject pf zs objects a k j obj).recolor g := by
  unfold correctedObject hitBy
  rw [hit_recolor]
  split <;> rfl

theorem survivors_recolor : (t.recolor g).survivors pf (f.recolor g) =
    (t.survivors pf f).map (TrackObj.recolor g) := by
  have hcorrected : (t.recolor g).corrected pf (f.recolor g) =
      (t.corrected pf f).map (TrackObj.recolor g) := by
    unfold corrected
    rw [assignments_recolor, predicted_recolor]
    apply List.ext_getElem?
    intro j
    rw [List.getElem?_mapIdx, List.getElem?_map, List.getElem?_map, List.getElem?_mapIdx,
      Option.map_map, Option.map_map]
    congr 1
    funext obj
    exact correctedObject_recolor g _ _ _ _ _ _
  unfold survivors
  rw [hcorrected, List.filter_map]
  rfl

theorem created_recolor : (t.recolor g).created pf (f.recolor g) =
    (t.created pf f).map (TrackObj.recolor g) := by
  unfold created
  rw [List.map_filterMap]
  apply List.filterMap_congr
  intro i _
  unfold createdFor
  rw [corrects_recolor]
  change (if t.corrects pf f i = none then ((f.measurements pf)[i]?).map _ else none) = _
  split
  · rw [Option.map_map]
    rfl
  · rfl

theorem track_recolor (hsolve : f.maxCostAssignment.Permutes) :
    (t.recolor g).track pf (f.recolor g) = (t.track pf f).map (recolor g) := by
  rw [track_eq hsolve, track_eq (show (f.recolor g).maxCostAssignment.Permutes from hsolve),
    survivors_recolor, created_recolor, ← List.map_append]
  rfl

theorem init_recolor : (construct.init pf (f.recolor g) : Tracker κ' φ P) =
    (construct.init pf f : Tracker κ φ P).recolor g := by
  apply Tracker.ext
  · rfl
  · apply List.ext_getElem?
    intro i
    simp only [init, recolor, construct, Frame.recolor, List.nil_append, List.getElem?_mapIdx,
      List.getElem?_map, Option.map_map]
    rfl

end Tracker

theorem after_recolor {frames : Nat → Frame κ}
    (hsolve : ∀ k, (frames k).maxCostAssignment.Permutes) (k : Nat) :
    after pf (fun k => (frames k).recolor g) k =
      (after pf frames k).map (Tracker.recolor g) := by
  induction k with
  | zero => exact congrArg some (Tracker.init_recolor g _)
  | succ k ih =>
    rw [after, after, ih]
    cases after pf frames k with
    | none => rfl
    | some t => exact Tracker.track_recolor g _ t (hsolve (k + 1))

end Erasure

/-- Every run that is given permutations goes through. -/
theorem exists_after (pf : Platform P D φ) {frames : Nat → Frame κ}
    (hsolve : ∀ k, (frames k).maxCostAssignment.Permutes) (k : Nat) :
    ∃ t, after pf frames k = some t := by
  induction k with
  | zero => exact ⟨_, rfl⟩
  | succ k ih =>
    obtain ⟨t, ht⟩ := ih
    exact ⟨_, by rw [after, ht, Option.bind_some, Tracker.track_eq (hsolve (k + 1))]⟩

/-- The run in which new objects are stamped. -/
def identified (frames : Nat → Frame κ) (k : Nat) : Frame (Ident × κ) :=
  ⟨(frames k).blobs, fun i => ((k, i), (frames k).randomColor i), (frames k).maxCostAssignment⟩

def TrackObj.ident (obj : TrackObj (Ident × κ) φ P) : Ident := obj.color.1

theorem after_identified (pf : Platform P D φ) {frames : Nat → Frame κ}
    (hsolve : ∀ k, (frames k).maxCostAssignment.Permutes) (k : Nat) :
    after pf frames k = (after pf (identified frames) k).map (Tracker.recolor Prod.snd) := by
  have hsolve' : ∀ k, (identified frames k).maxCostAssignment.Permutes := hsolve
  exact after_recolor Prod.snd hsolve' k

def CorrectedIn (pf : Platform P D φ) (frames : Nat → Frame κ) (k : Nat) (b : Ident) : Prop :=
  ∃ t i j, 0 < k ∧ after pf (identified frames) (k - 1) = some t ∧
    t.corrects pf (identified frames k) i = some j ∧ (t.objects[j]?).map TrackObj.ident = some b

section Ageing
variable {pf : Platform P D φ} {frames : Nat → Frame κ}

/-- The tracker seen as a pool of ageing entries. -/
def Tracker.entries (t : Tracker (Ident × κ) φ P) : List (AgeingPool.Entry Ident) :=
  t.objects.map fun obj => ⟨obj.ident, obj.nFramesUnseen⟩

open Classical in
noncomputable def touchedIn (pf : Platform P D φ) (frames : Nat → Frame κ) (k : Nat)
    (b : Ident) : Bool := decide (CorrectedIn pf frames k b)

/-- The stamps handed out in frame `k`. -/
noncomputable def bornIn (pf : Platform P D φ) (frames : Nat → Frame κ) : Nat → List Ident
  | 0 => (List.range (frames 0).blobs.length).map fun i => (0, i)
  | k + 1 =>
    match after pf (identified frames) k with
    | some t => (t.newcomers pf (identified frames (k + 1))).map fun i => (k + 1, i)
    | none => []

theorem bornIn_succ {k : Nat} {t : Tracker (Ident × κ) φ P}
    (ht : after pf (identified frames) k = some t) :
    bornIn pf frames (k + 1) =
      (t.newcomers pf (identified frames (k + 1))).map fun i => (k + 1, i) := by
  rw [bornIn, ht]

theorem exists_stamps (k : Nat) : ∃ is : List Nat, is.Nodup ∧
    bornIn pf frames k = is.map fun i => (k, i) := by
  cases k with
  | zero => exact ⟨_, List.nodup_range, rfl⟩
  | succ k =>
    cases ht : after pf (identified frames) k with
    | none => exact ⟨[], List.nodup_nil, by rw [bornIn, ht]; rfl⟩
    | some t => exact ⟨_, List.nodup_range.filter _, bornIn_succ ht⟩

theorem fst_eq_of_mem_bornIn {k : Nat} {b : Ident} (h : b ∈ bornIn pf frames k) : b.1 = k := by
  obtain ⟨is, _, his⟩ : ∃ is : List Nat, is.Nodup ∧
      bornIn pf frames k = is.map fun i => (k, i) := exists_stamps k
  rw [his] at h
  obtain ⟨i, _, rfl⟩ := List.mem_map.mp h
  rfl

theorem nodup_bornIn (k : Nat) : (bornIn pf frames k).Nodup := by
  obtain ⟨is, hnodup, his⟩ : ∃ is : List Nat, is.Nodup ∧
      bornIn pf frames k = is.map fun i => (k, i) := exists_stamps k
  rw [his]
  exact hnodup.map fun a b hab => congrArg Prod.snd hab

theorem correctedIn_ident_iff {k : Nat} {t : Tracker (Ident × κ) φ P}
    (ht : after pf (identified frames) k = some t) (hnodup : (t.objects.map TrackObj.ident).Nodup)
    (j : Fin t.objects.length) :
    CorrectedIn pf frames (k + 1) (t.objects.get j).ident ↔
      ∃ i, t.corrects pf (identified frames (k + 1)) i = some j.val := by
  constructor
  · rintro ⟨t', i, j', _, ht', hij, hident⟩
    rw [Nat.add_sub_cancel, ht] at ht'
    cases ht'
    obtain ⟨obj, hobj, hsame⟩ := Option.map_eq_some_iff.mp hident
    have hj' : (t.objects.map TrackObj.ident)[j']? = (t.objects.map TrackObj.ident)[j.val]? := by
      simp [hobj, hsame]
    have hlt : j' < (t.objects.map TrackObj.ident).length := by
      simpa using (List.getElem?_eq_some_iff.mp hobj).1
    rw [(List.getElem?_inj hlt hnodup).mp hj'] at hij
    exact ⟨i, hij⟩
  · rintro ⟨i, hij⟩
    exact ⟨t, i, j.val, Nat.succ_pos k, ht, hij, by simp⟩

theorem created_entries {k : Nat} (t : Tracker (Ident × κ) φ P) :
    (t.created pf (identified frames (k + 1))).map
        (fun obj => (⟨obj.ident, obj.nFramesUnseen⟩ : AgeingPool.Entry Ident)) =
      ((t.newcomers pf (identified frames (k + 1))).map fun i => ((k + 1, i) : Ident)).map
        fun b => ⟨b, 0⟩ := by
  rw [List.map_map, ← List.forall₂_eq_eq_eq, List.forall₂_map_left_iff,
    List.forall₂_map_right_iff]
  apply Tracker.created_forall₂.flip.imp
  rintro obj i ⟨z, _, rfl⟩
  rfl

theorem survivors_entries {k : Nat} {t : Tracker (Ident × κ) φ P}
    (hsolve : (frames (k + 1)).maxCostAssignment.Permutes)
    (ht : after pf (identified frames) k = some t)
    (hnodup : (t.objects.map TrackObj.ident).Nodup) :
    (t.survivors pf (identified frames (k + 1))).map
        (fun obj => (⟨obj.ident, obj.nFramesUnseen⟩ : AgeingPool.Entry Ident)) =
      (t.entries.map fun e =>
        ⟨e.id, if touchedIn pf frames (k + 1) e.id then 0 else e.age + 1⟩).filter
          fun e => decide (e.age ≤ 3) := by
  let f := identified frames (k + 1)
  have hsolve' : f.maxCostAssignment.Permutes := hsolve
  have hentry : ∀ j : Fin t.objects.length,
      (⟨(t.correctedAt pf f j).ident, (t.correctedAt pf f j).nFramesUnseen⟩ :
        AgeingPool.Entry Ident) =
      ⟨(t.objects.get j).ident, if touchedIn pf frames (k + 1) (t.objects.get j).ident then 0
        else (t.objects.get j).nFramesUnseen + 1⟩ := by
    intro j
    classical
    apply AgeingPool.Entry.ext
    · exact congrArg Prod.fst (Tracker.correctedAt_color j)
    · dsimp only
      rw [Tracker.correctedAt_nFramesUnseen hsolve']
      simp only [touchedIn, decide_eq_true_eq, correctedIn_ident_iff ht hnodup, f]
  have hobjects : t.objects = (List.finRange t.objects.length).map t.objects.get := by simp
  have hentries : t.entries = (List.finRange t.objects.length).map fun j =>
      ⟨(t.objects.get j).ident, (t.objects.get j).nFramesUnseen⟩ := by
    unfold Tracker.entries
    conv_lhs => rw [hobjects]
    rw [List.map_map]
    rfl
  have hlost : ∀ unseen : Nat, (!decide (unseen > 3)) = decide (unseen ≤ 3) := by
    intro unseen
    rw [← decide_not, decide_eq_decide]
    omega
  rw [Tracker.survivors_eq, Tracker.kept, List.map_map, hentries, List.map_map, List.filter_map]
  simp only [Function.comp_def, ← hentry, Tracker.objectIsLost, TrackObj.framesUnseen, f]
  congr 2
  funext j
  exact hlost _

theorem init_entries : (Tracker.construct.init pf (identified frames 0) :
    Tracker (Ident × κ) φ P).entries =
      AgeingPool.run 3 (touchedIn pf frames) (bornIn pf frames) 0 := by
  simp only [Tracker.entries, Tracker.init, Tracker.construct, List.nil_append,
    AgeingPool.run, bornIn, List.map_map, identified]
  apply List.ext_getElem?
  intro i
  by_cases hi : i < (frames 0).blobs.length <;> simp [hi, TrackObj.ident]

theorem nodup_idents {k : Nat} {t : Tracker (Ident × κ) φ P}
    (h : t.entries = AgeingPool.run 3 (touchedIn pf frames) (bornIn pf frames) k) :
    (t.objects.map TrackObj.ident).Nodup := by
  have hids : t.objects.map TrackObj.ident = t.entries.map AgeingPool.Entry.id := by
    rw [Tracker.entries, List.map_map]
    rfl
  rw [hids, h]
  apply AgeingPool.nodup_id_run nodup_bornIn
  intro b c c' hc hc'
  rw [← fst_eq_of_mem_bornIn hc, ← fst_eq_of_mem_bornIn hc']

/-- The stamped run refines the pool with limit three: same entries, same ages. -/
theorem after_refines_pool (pf : Platform P D φ)
    (hsolve : ∀ k, (frames k).maxCostAssignment.Permutes) (k : Nat) :
    ∃ t, after pf (identified frames) k = some t ∧
      t.entries = AgeingPool.run 3 (touchedIn pf frames) (bornIn pf frames) k := by
  induction k with
  | zero => exact ⟨_, rfl, init_entries⟩
  | succ k ih =>
    obtain ⟨t, ht, hentries⟩ := ih
    have hsolve' : (identified frames (k + 1)).maxCostAssignment.Permutes := hsolve (k + 1)
    refine ⟨_, by rw [after, ht, Option.bind_some, Tracker.track_eq hsolve'], ?_⟩
    rw [AgeingPool.run, ← hentries, AgeingPool.tick, bornIn_succ ht, ← created_entries,
      ← survivors_entries (hsolve (k + 1)) ht (nodup_idents hentries), ← List.map_append]
    rfl

end Ageing

end BlobTracking.Tracking
