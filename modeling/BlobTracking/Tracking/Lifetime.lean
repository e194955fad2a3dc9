import BlobTracking.Tracking.Identity

/-! How long an object lives and how many there are. Both are read off the pool that
a stamped run refines. The arithmetic is arbitrary here, so NaN positions and rounding
are covered. -/
namespace BlobTracking.Tracking
open Dlib Library OpenCV

section Runs
variable {pf : Platform P D φ} {frames : Nat → Frame κ}

/-- After frame `k` the object stamped `b` is there, in state `obj`. -/
def Holds (pf : Platform P D φ) (frames : Nat → Frame κ) (k : Nat) (b : Ident)
    (obj : TrackObj (Ident × κ) φ P) : Prop :=
  ∃ t, after pf (identified frames) k = some t ∧ obj ∈ t.objects ∧ obj.ident = b

theorem exists_old_of_mem_survivors {f : Frame κ} {t : Tracker κ φ P} {obj : TrackObj κ φ P}
    (h : obj ∈ t.survivors pf f) :
    ∃ old ∈ t.objects, ∃ p, old.color = obj.color ∧ obj.history = old.history ++ [p] := by
  rw [Tracker.survivors_eq] at h
  obtain ⟨j, _, rfl⟩ := List.mem_map.mp h
  obtain ⟨p, hp⟩ := (t.objects.get j).exists_predict_history pf.toFilterOps
  exact ⟨t.objects.get j, List.get_mem _ _, p, (Tracker.correctedAt_color j).symm,
    by rw [Tracker.correctedAt_history, hp]⟩

theorem exists_of_mem_created {f : Frame κ} {t : Tracker κ φ P} {obj : TrackObj κ φ P}
    (h : obj ∈ t.created pf f) :
    ∃ i z, obj = TrackObj.construct pf.toFilterOps (f.randomColor i) z := by
  obtain ⟨i, _, hi⟩ := List.mem_filterMap.mp h
  unfold Tracker.createdFor at hi
  split at hi
  · obtain ⟨z, _, hz⟩ := Option.map_eq_some_iff.mp hi
    exact ⟨i, z, hz.symm⟩
  · cases hi

theorem holds_zero {b : Ident} {obj : TrackObj (Ident × κ) φ P} (h : Holds pf frames 0 b obj) :
    b.1 = 0 ∧ obj.history.length = 1 := by
  obtain ⟨t, ht, hobj, rfl⟩ := h
  cases ht
  obtain ⟨i, hi, rfl⟩ := List.mem_mapIdx.mp hobj
  exact ⟨rfl, rfl⟩

theorem holds_succ (hsolve : ∀ k, (frames k).maxCostAssignment.Permutes) {k : Nat} {b : Ident}
    {obj : TrackObj (Ident × κ) φ P} (h : Holds pf frames (k + 1) b obj) :
    (∃ old p, Holds pf frames k b old ∧ obj.history = old.history ++ [p]) ∨
      b.1 = k + 1 ∧ obj.history.length = 1 := by
  obtain ⟨t', ht', hobj, rfl⟩ := h
  obtain ⟨t, ht, _⟩ := after_refines_pool pf hsolve k
  have hsolve' : (identified frames (k + 1)).maxCostAssignment.Permutes := hsolve (k + 1)
  rw [after, ht, Option.bind_some, Tracker.track_eq hsolve'] at ht'
  cases ht'
  rcases List.mem_append.mp hobj with hold | hnew
  · obtain ⟨old, hmem, p, hcolor, hhistory⟩ := exists_old_of_mem_survivors hold
    exact Or.inl ⟨old, p, ⟨t, ht, hmem, congrArg Prod.fst hcolor⟩, hhistory⟩
  · obtain ⟨i, z, rfl⟩ := exists_of_mem_created hnew
    exact Or.inr ⟨rfl, rfl⟩

theorem Holds.created_le (hsolve : ∀ k, (frames k).maxCostAssignment.Permutes) {k : Nat}
    {b : Ident} {obj : TrackObj (Ident × κ) φ P} (h : Holds pf frames k b obj) : b.1 ≤ k := by
  induction k generalizing obj with
  | zero => exact (holds_zero h).1.le
  | succ k ih =>
    rcases holds_succ hsolve h with ⟨old, p, hold, _⟩ | ⟨hb, _⟩
    · exact Nat.le_succ_of_le (ih hold)
    · exact hb.le

theorem Holds.exists_prefix (hsolve : ∀ k, (frames k).maxCostAssignment.Permutes) {b : Ident}
    {q d : Nat} {obj : TrackObj (Ident × κ) φ P} (hq : b.1 ≤ q)
    (h : Holds pf frames (q + d) b obj) :
    ∃ early, Holds pf frames q b early ∧ early.history <+: obj.history := by
  induction d generalizing obj with
  | zero => exact ⟨obj, h, List.prefix_refl _⟩
  | succ d ih =>
    rcases holds_succ hsolve h with ⟨old, p, hold, hhistory⟩ | ⟨hb, _⟩
    · obtain ⟨early, hearly, hprefix⟩ := ih hold
      exact ⟨early, hearly, hhistory ▸ hprefix.trans (List.prefix_append _ _)⟩
    · have hlater : b.1 = q + d + 1 := hb
      omega

theorem Holds.history_length (hsolve : ∀ k, (frames k).maxCostAssignment.Permutes) {k : Nat}
    {b : Ident} {obj : TrackObj (Ident × κ) φ P} (h : Holds pf frames k b obj) :
    obj.history.length = 1 + (k - b.1) := by
  induction k generalizing obj with
  | zero =>
    rw [(holds_zero h).2]
    omega
  | succ k ih =>
    rcases holds_succ hsolve h with ⟨old, p, hold, hhistory⟩ | ⟨hb, hlength⟩
    · have hcreated := hold.created_le hsolve
      rw [hhistory, List.length_append, List.length_singleton, ih hold]
      omega
    · rw [hlength, hb]
      omega

theorem exists_holds_iff (hsolve : ∀ k, (frames k).maxCostAssignment.Permutes) {k : Nat}
    {b : Ident} {unseen : Nat} :
    (∃ obj, Holds pf frames k b obj ∧ obj.nFramesUnseen = unseen) ↔
      (⟨b, unseen⟩ : AgeingPool.Entry Ident) ∈
        AgeingPool.run 3 (touchedIn pf frames) (bornIn pf frames) k := by
  obtain ⟨t, ht, hentries⟩ := after_refines_pool pf hsolve k
  rw [← hentries, Tracker.entries, List.mem_map]
  constructor
  · rintro ⟨obj, ⟨t', ht', hobj, hident⟩, hunseen⟩
    rw [ht] at ht'
    cases ht'
    exact ⟨obj, hobj, AgeingPool.Entry.ext hident hunseen⟩
  · rintro ⟨obj, hobj, hentry⟩
    cases hentry
    exact ⟨obj, ⟨t, ht, hobj, rfl⟩, rfl⟩

/-- A stamp that is there in its own frame is handed out in that frame only. -/
theorem mem_bornIn_iff (hsolve : ∀ k, (frames k).maxCostAssignment.Permutes) {b : Ident}
    {obj : TrackObj (Ident × κ) φ P} (h : Holds pf frames b.1 b obj) (k : Nat) :
    b ∈ bornIn pf frames k ↔ k = b.1 := by
  have hentry := (exists_holds_iff hsolve).mp ⟨obj, h, rfl⟩
  obtain ⟨c, _, hc⟩ := AgeingPool.exists_born_of_mem_run hentry
  constructor
  · intro hk
    exact (fst_eq_of_mem_bornIn hk).symm
  · rintro rfl
    rwa [← fst_eq_of_mem_bornIn hc] at hc

end Runs

/-- The law for the object stamped `b` after frame `k`. -/
structure LivesBy (pf : Platform P D φ) (frames : Nat → Frame κ) (k : Nat) (b : Ident) :
    Prop where
  present_iff : (∃ obj, Holds pf frames k b obj) ↔
    ¬∃ s, b.1 < s ∧ s + 3 ≤ k ∧ ∀ r, r ≤ 3 → ¬CorrectedIn pf frames (s + r) b
  framesUnseen_eq : ∀ obj, Holds pf frames k b obj → obj.framesUnseen ≤ 3 ∧
    ∃ s, b.1 ≤ s ∧ s ≤ k ∧ obj.framesUnseen = k - s ∧
      (s = b.1 ∨ CorrectedIn pf frames s b) ∧
      ∀ r, s < r → r ≤ k → ¬CorrectedIn pf frames r b
  history_length : ∀ obj, Holds pf frames k b obj → obj.history.length = 1 + (k - b.1)
  history_isPrefix : ∀ obj, Holds pf frames k b obj → ∀ q, b.1 ≤ q → q ≤ k →
    ∃ early, Holds pf frames q b early ∧ early.history <+: obj.history

theorem livesBy_of_created {pf : Platform P D φ} {frames : Nat → Frame κ}
    (hsolve : ∀ k, (frames k).maxCostAssignment.Permutes) {b : Ident}
    {first : TrackObj (Ident × κ) φ P} (h : Holds pf frames b.1 b first) (d : Nat) :
    LivesBy pf frames (b.1 + d) b := by
  have hborn := mem_bornIn_iff hsolve h
  have hentry : ∀ unseen, (⟨b, unseen⟩ : AgeingPool.Entry Ident) ∈
      AgeingPool.run 3 (touchedIn pf frames) (bornIn pf frames) (b.1 + d) ↔
        unseen = AgeingPool.quiet (fun k => touchedIn pf frames k b) b.1 d ∧
          ∀ d', d' ≤ d → AgeingPool.quiet (fun k => touchedIn pf frames k b) b.1 d' ≤ 3 :=
    fun unseen => AgeingPool.mem_run_iff hborn d _ rfl
  have hyoung := AgeingPool.quiet_le_iff 3 (fun k => touchedIn pf frames k b) b.1 d
  simp only [touchedIn, decide_eq_false_iff_not] at hyoung
  have hpresent : ∀ obj, Holds pf frames (b.1 + d) b obj →
      obj.nFramesUnseen = AgeingPool.quiet (fun k => touchedIn pf frames k b) b.1 d ∧
        ∀ d', d' ≤ d → AgeingPool.quiet (fun k => touchedIn pf frames k b) b.1 d' ≤ 3 :=
    fun obj hobj => (hentry _).mp ((exists_holds_iff hsolve).mp ⟨obj, hobj, rfl⟩)
  constructor
  · rw [← hyoung]
    constructor
    · rintro ⟨obj, hobj⟩
      exact (hpresent obj hobj).2
    · intro hquiet
      obtain ⟨obj, hobj, _⟩ :=
        (exists_holds_iff hsolve).mpr ((hentry _).mpr ⟨rfl, hquiet⟩)
      exact ⟨obj, hobj⟩
  · intro obj hobj
    obtain ⟨hunseen, hquiet⟩ := hpresent obj hobj
    obtain ⟨s, hcs, hsk, hage, horigin, hmissed⟩ :=
      AgeingPool.quiet_spec (fun k => touchedIn pf frames k b) b.1 d
    refine ⟨hunseen.trans_le (hquiet d le_rfl), s, hcs, hsk, hunseen.trans hage, ?_, ?_⟩
    · simpa [touchedIn] using horigin
    · simpa [touchedIn] using hmissed
  · exact fun obj hobj => hobj.history_length hsolve
  · intro obj hobj q hq hqk
    obtain ⟨d', hd'⟩ := Nat.exists_eq_add_of_le hqk
    rw [hd'] at hobj
    exact hobj.exists_prefix hsolve hq

theorem track_lifetime (pf : Platform P D φ) (frames : Nat → Frame κ)
    (hsolve : ∀ k, (frames k).maxCostAssignment.Permutes) :
    (∀ k, ∃ t, after pf (identified frames) k = some t ∧
      after pf frames k = some (t.recolor Prod.snd) ∧ (t.objects.map TrackObj.ident).Nodup) ∧
    ∀ b first, Holds pf frames b.1 b first → ∀ k, b.1 ≤ k → LivesBy pf frames k b := by
  constructor
  · intro k
    obtain ⟨t, ht, hentries⟩ := after_refines_pool pf hsolve k
    exact ⟨t, ht, by rw [after_identified pf hsolve, ht, Option.map_some], nodup_idents hentries⟩
  · intro b first h k hk
    obtain ⟨d, rfl⟩ := Nat.exists_eq_add_of_le hk
    exact livesBy_of_created hsolve h d

/-- One square, shown in the first frame only. -/
def shownOnce (k : Nat) : Frame Unit :=
  plainFrame identitySolver (if k = 0 then [square 3 4] else [])

theorem not_correctedIn_shownOnce (pf : Platform P D φ) {k : Nat} (hk : 0 < k) (b : Ident) :
    ¬CorrectedIn pf shownOnce k b := by
  rintro ⟨t, i, j, _, _, hcorrects, _⟩
  have hlt := (Tracker.corrects_lt hcorrects).1
  have hnone : (identified shownOnce k).blobs = [] := if_neg hk.ne'
  rw [hnone] at hlt
  exact Nat.not_lt_zero i hlt

/-- After three misses in a row the object is there, after the fourth it is not. -/
theorem track_lifetime_shownOnce :
    (∃ obj, Holds (exactPlatform polygonMoments exactKalman) shownOnce 3 (0, 0) obj ∧
      obj.framesUnseen = 3 ∧ obj.history.length = 4) ∧
    ¬∃ obj, Holds (exactPlatform polygonMoments exactKalman) shownOnce 4 (0, 0) obj := by
  have hfirst : Holds (exactPlatform polygonMoments exactKalman) shownOnce 0 (0, 0)
      (TrackObj.construct (MKalman.ops exactKalman) ((0, 0), ())
        ((exactPlatform polygonMoments exactKalman).getBlobCentroid (square 3 4))) :=
    ⟨_, rfl, List.mem_singleton_self _, rfl⟩
  have hlives := (track_lifetime (exactPlatform polygonMoments exactKalman) shownOnce
    fun _ => identitySolver_permutes).2 (0, 0) _ hfirst
  constructor
  · have hthree := hlives 3 (Nat.zero_le 3)
    have hpresent : ∃ obj, Holds (exactPlatform polygonMoments exactKalman) shownOnce 3 (0, 0)
        obj := by
      apply hthree.present_iff.mpr
      rintro ⟨s, hs, hs', _⟩
      omega
    rcases hpresent with ⟨obj, hobj⟩
    rcases (hthree.framesUnseen_eq obj hobj).2 with ⟨s, _, _, hunseen, horigin, _⟩
    have hs : s = 0 := by
      by_contra hlater
      exact horigin.elim hlater (not_correctedIn_shownOnce _ (Nat.pos_of_ne_zero hlater) _)
    rw [hs] at hunseen
    exact ⟨obj, hobj, hunseen, hthree.history_length obj hobj⟩
  · intro hpresent
    apply (hlives 4 (Nat.zero_le 4)).present_iff.mp hpresent
    exact ⟨1, Nat.one_pos, le_rfl, fun r _ => not_correctedIn_shownOnce _ (by omega) _⟩

/-- The blobs of frame `i`; there are none before the first. -/
def blobCount (frames : Nat → Frame κ) (i : Int) : Nat :=
  if i < 0 then 0 else (frames i.toNat).blobs.length

theorem countP_run_zero {pf : Platform P D φ} {frames : Nat → Frame κ}
    (hsolve : ∀ k, (frames k).maxCostAssignment.Permutes) (k : Nat) :
    (AgeingPool.run 3 (touchedIn pf frames) (bornIn pf frames) k).countP
      (fun e => e.age == 0) = (frames k).blobs.length := by
  cases k with
  | zero => simp [AgeingPool.run, bornIn, List.countP_eq_length.mpr]
  | succ k =>
    obtain ⟨t, ht, _⟩ := after_refines_pool pf hsolve k
    obtain ⟨t', ht', hentries⟩ := after_refines_pool pf hsolve (k + 1)
    have hsolve' : (identified frames (k + 1)).maxCostAssignment.Permutes := hsolve (k + 1)
    rw [after, ht, Option.bind_some, Tracker.track_eq hsolve'] at ht'
    cases ht'
    rw [← hentries, Tracker.entries, List.countP_map]
    exact Tracker.countP_framesUnseen_zero hsolve'

theorem countP_run_le (pf : Platform P D φ) {frames : Nat → Frame κ}
    (hsolve : ∀ k, (frames k).maxCostAssignment.Permutes) (k u : Nat) :
    (AgeingPool.run 3 (touchedIn pf frames) (bornIn pf frames) k).countP
      (fun e => e.age == u) ≤ blobCount frames (k - u) := by
  by_cases hu : u ≤ k
  · rcases Nat.exists_eq_add_of_le' hu with ⟨c, rfl⟩
    rw [show ((c + u : Nat) : Int) - u = c by omega, blobCount, if_neg (by omega),
      Int.toNat_natCast, ← countP_run_zero hsolve]
    exact AgeingPool.countP_age_run_le u c
  · exact (AgeingPool.countP_age_run_eq_zero (by omega)).trans_le (Nat.zero_le _)

theorem exists_framesUnseen_eq (pf : Platform P D φ) {frames : Nat → Frame κ}
    (hsolve : ∀ k, (frames k).maxCostAssignment.Permutes) (k : Nat) :
    ∃ t, after pf frames k = some t ∧ t.objects.map TrackObj.framesUnseen =
      (AgeingPool.run 3 (touchedIn pf frames) (bornIn pf frames) k).map AgeingPool.Entry.age := by
  rcases after_refines_pool pf hsolve k with ⟨t, ht, hentries⟩
  refine ⟨t.recolor Prod.snd, by rw [after_identified pf hsolve, ht, Option.map_some], ?_⟩
  rw [← hentries, Tracker.entries, Tracker.recolor, List.map_map, List.map_map]
  rfl

theorem track_no_leak (pf : Platform P D φ) (frames : Nat → Frame κ)
    (hsolve : ∀ k, (frames k).maxCostAssignment.Permutes) (k : Nat) :
    ∃ t, after pf frames k = some t ∧
      (∀ u : Nat, u ≤ 3 →
        t.objects.countP (fun obj => obj.framesUnseen == u) ≤ blobCount frames (k - u)) ∧
      t.objects.countP (fun obj => obj.framesUnseen == 0) = blobCount frames k ∧
      (∀ obj ∈ t.objects, obj.framesUnseen ≤ 3) ∧
      t.objects.length ≤ blobCount frames k + blobCount frames (k - 1) +
        blobCount frames (k - 2) + blobCount frames (k - 3) := by
  rcases exists_framesUnseen_eq pf hsolve k with ⟨t, ht, hages⟩
  let pool := AgeingPool.run 3 (touchedIn pf frames) (bornIn pf frames) k
  have hcount : ∀ u, t.objects.countP (fun obj => obj.framesUnseen == u) =
      pool.countP fun e => e.age == u := by
    intro u
    have h := congrArg (List.countP fun age => age == u) hages
    rwa [List.countP_map, List.countP_map] at h
  have hbound : ∀ u : Nat, pool.countP (fun e => e.age == u) ≤ blobCount frames (k - u) :=
    countP_run_le pf hsolve k
  have hyoung : ∀ e ∈ pool, e.age ≤ 3 := fun e he => AgeingPool.age_le_of_mem_run he
  refine ⟨t, ht, ?_, ?_, ?_, ?_⟩
  · intro u _
    rw [hcount]
    exact hbound u
  · rw [hcount, blobCount, if_neg (by omega), Int.toNat_natCast]
    exact countP_run_zero hsolve k
  · intro obj hobj
    have hage : obj.framesUnseen ∈ pool.map AgeingPool.Entry.age :=
      hages ▸ List.mem_map_of_mem hobj
    rcases List.mem_map.mp hage with ⟨e, he, heq⟩
    exact heq ▸ hyoung e he
  · have hlength : t.objects.length = pool.length := by simpa using congrArg List.length hages
    have h0 := hbound 0
    have h1 := hbound 1
    have h2 := hbound 2
    have h3 := hbound 3
    rw [hlength, AgeingPool.length_eq_sum_countP_age pool hyoung]
    simp only [Finset.sum_range_succ, Finset.sum_range_zero, Nat.cast_ofNat, Nat.cast_zero,
      Nat.cast_one, Int.sub_zero] at h0 h1 h2 h3 ⊢
    omega

theorem track_no_leak_squares :
    ∃ t, after (exactPlatform polygonMoments exactKalman)
        (fun _ => plainFrame identitySolver [square 3 4, square 300 4]) 7 = some t ∧
      (∀ u : Nat, u ≤ 3 → t.objects.countP (fun obj => obj.framesUnseen == u) ≤
        blobCount (fun _ => plainFrame identitySolver [square 3 4, square 300 4]) (7 - u)) ∧
      t.objects.countP (fun obj => obj.framesUnseen == 0) =
        blobCount (fun _ => plainFrame identitySolver [square 3 4, square 300 4]) 7 ∧
      (∀ obj ∈ t.objects, obj.framesUnseen ≤ 3) ∧
      t.objects.length ≤
        blobCount (fun _ => plainFrame identitySolver [square 3 4, square 300 4]) 7 +
        blobCount (fun _ => plainFrame identitySolver [square 3 4, square 300 4]) (7 - 1) +
        blobCount (fun _ => plainFrame identitySolver [square 3 4, square 300 4]) (7 - 2) +
        blobCount (fun _ => plainFrame identitySolver [square 3 4, square 300 4]) (7 - 3) :=
  track_no_leak _ _ (fun _ => identitySolver_permutes) 7

end BlobTracking.Tracking
