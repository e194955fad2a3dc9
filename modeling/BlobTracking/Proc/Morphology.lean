import BlobTracking.Library.BufferPass
import BlobTracking.OpenCV.Image

/-! The filters that prepare a frame for the blob detector. Every pass reads `orig`, so
one pass builds on another only where `orig` and `dest` share their pixels. -/
namespace BlobTracking.Proc

open OpenCV Library BufferPass

/-- A header, which is passed by value; `data` is the buffer of the pixels. -/
structure Mat where
  data : Nat
deriving DecidableEq

section Morphology
variable {rows cols channels : Nat} (morphologicalKernel : RectKernel)

/-- The size of `dest` is that of `orig`, so that no pass allocates. -/
def BlobDetector.morphologyOperations (orig dest : Mat)
    (buffers : Nat → Image rows cols channels) : Nat → Image rows cols channels :=
  let buffers := pass blur orig.data dest.data buffers
  let buffers := pass (dilate morphologicalKernel) orig.data dest.data buffers
  let buffers := pass (erode morphologicalKernel) orig.data dest.data buffers
  let buffers := pass (erode morphologicalKernel) orig.data dest.data buffers
  let buffers := pass (dilate morphologicalKernel) orig.data dest.data buffers
  pass (dilate morphologicalKernel) orig.data dest.data buffers

/-- The six filters one after another. -/
def consecutive (x : Image rows cols channels) : Image rows cols channels :=
  dilate morphologicalKernel (dilate morphologicalKernel (erode morphologicalKernel
    (erode morphologicalKernel (dilate morphologicalKernel (blur x)))))

/-- After the blur, two of the dilations and both erosions are one each with a doubled window. -/
theorem consecutive_apply (x : Image rows cols channels) (c : Fin channels) :
    consecutive morphologicalKernel x c =
      ((morphologicalKernel.reach.add morphologicalKernel.reach).window rows cols).maximum
        (((morphologicalKernel.reach.add morphologicalKernel.reach).window rows cols).minimum
          ((morphologicalKernel.reach.window rows cols).maximum (blur x c))) := by
  simp only [consecutive, dilate, erode, Window.maximum_maximum, Window.minimum_minimum,
    Reach.window_comp]

theorem morphologyOperations_eq_passes (orig dest : Mat)
    (buffers : Nat → Image rows cols channels) :
    BlobDetector.morphologyOperations morphologicalKernel orig dest buffers =
      passes ([blur, dilate morphologicalKernel, erode morphologicalKernel,
        erode morphologicalKernel, dilate morphologicalKernel] ++
          [dilate morphologicalKernel]) orig.data dest.data buffers := rfl

theorem morphologyOperations_shared {orig dest : Mat} (h : orig.data = dest.data)
    (buffers : Nat → Image rows cols channels) :
    BlobDetector.morphologyOperations morphologicalKernel orig dest buffers dest.data =
      consecutive morphologicalKernel (buffers orig.data) := by
  rw [morphologyOperations_eq_passes, h]
  exact passes_shared _ _

/-- A buffer of its own receives the plain dilation of the frame. -/
theorem morphologyOperations_separate {orig dest : Mat} (h : orig.data ≠ dest.data)
    (buffers : Nat → Image rows cols channels) :
    BlobDetector.morphologyOperations morphologicalKernel orig dest buffers dest.data =
      dilate morphologicalKernel (buffers orig.data) := by
  rw [morphologyOperations_eq_passes]
  exact passes_separate _ _ h

variable {morphologicalKernel} {x : Image rows cols channels}

theorem blur_flat {v : Fin 256} {c : Fin channels} (h : ∀ p, x c p = v) (p : Fin rows × Fin cols) :
    blur x c p = v := by
  have hsum : boxSum (x c) p = 25 * v.val := by
    simp [boxSum, h]
  apply Fin.ext
  change (boxSum (x c) p + 12) / 25 = v.val
  omega

/-- On images of one colour the buffers make no difference. -/
theorem dilate_eq_consecutive_of_flat (h : ∀ c, ∃ v, ∀ p, x c p = v) :
    dilate morphologicalKernel x = consecutive morphologicalKernel x := by
  funext c p
  rcases h c with ⟨v, hv⟩
  have hflat : x c = fun _ => v := funext hv
  have hblur : blur x c = fun _ => v := funext (blur_flat hv)
  rw [consecutive_apply, dilate, hblur, hflat, Window.maximum_const, Window.minimum_const,
    Window.maximum_const]

/-- Where the blur dims the brightest spot, separate buffers show. -/
theorem dilate_ne_consecutive_of_dimmed {c : Fin channels} {q : Fin rows × Fin cols} {v : Fin 256}
    (hblur : ∀ p, blur x c p ≤ v) (hspot : v < x c q) :
    dilate morphologicalKernel x ≠ consecutive morphologicalKernel x := by
  intro h
  let window := morphologicalKernel.reach.window rows cols
  let doubled := (morphologicalKernel.reach.add morphologicalKernel.reach).window rows cols
  have hdilated : ∀ p, window.maximum (blur x c) p ≤ v := window.maximum_le hblur
  have hopened : ∀ p, doubled.minimum (window.maximum (blur x c)) p ≤ v := fun p =>
    (doubled.minimum_le _ p).trans (hdilated p)
  have hplain : window.maximum (x c) q ≤ v := by
    have hsame : window.maximum (x c) q = consecutive morphologicalKernel x c q :=
      congrFun (congrFun h c) q
    rw [hsame, consecutive_apply]
    exact doubled.maximum_le hopened q
  exact absurd (hspot.trans_le (window.le_maximum (x c) q)) hplain.not_gt

/-- One white pixel. -/
def spot (q : Fin rows × Fin cols) : Image rows cols channels := fun _ p =>
  if p = q then Fin.last 255 else ⟨0, Nat.succ_pos 255⟩

/-- Every window reads some other pixel, because the border does not repeat the last one. -/
theorem blur_spot_le (hmore : 1 < rows * cols) (q : Fin rows × Fin cols) (c : Fin channels)
    (p : Fin rows × Fin cols) : blur (spot q) c p ≤ 245 := by
  have hbound : ∀ p, (spot q c p).val ≤ 255 := fun p => Nat.le_of_lt_succ (spot q c p).isLt
  have hblack : ∀ {p}, p ≠ q → (spot q c p).val = 0 := fun hp => congrArg Fin.val (if_neg hp)
  have hsum : boxSum (spot q c) p ≤ 24 * 255 := by
    by_cases hpq : p = q
    · subst hpq
      by_cases hrows : 1 < rows
      · exact boxSum_le_of_black hbound (d := (3, 2))
          (hblack fun h => borderIndex_one_ne hrows p.1 (congrArg Prod.fst h))
      · have hcols : 1 < cols := by
          have hle := Nat.mul_le_mul_right cols (not_lt.mp hrows)
          omega
        exact boxSum_le_of_black hbound (d := (2, 3))
          (hblack fun h => borderIndex_one_ne hcols p.2 (congrArg Prod.snd h))
    · have hself : (borderIndex p.1 0, borderIndex p.2 0) = p := by simp
      exact boxSum_le_of_black hbound (d := (2, 2)) (hblack (hself.trans_ne hpq))
  apply Fin.le_def.mpr
  change (boxSum (spot q c) p + 12) / 25 ≤ 245
  omega

/-- The six passes compose for every frame of a size exactly if they share one buffer, or the
frames have a single pixel at most. -/
theorem morphologyOperations_consecutive_iff (morphologicalKernel : RectKernel)
    (rows cols channels : Nat) (orig dest : Mat) :
    (∀ buffers : Nat → Image rows cols channels,
      BlobDetector.morphologyOperations morphologicalKernel orig dest buffers dest.data =
        consecutive morphologicalKernel (buffers orig.data)) ↔
      orig.data = dest.data ∨ rows * cols ≤ 1 ∨ channels = 0 := by
  constructor
  · intro h
    by_contra hdiffer
    simp only [not_or, not_le] at hdiffer
    obtain ⟨hseparate, hmore, hchannels⟩ := hdiffer
    have hrows : 0 < rows := Nat.pos_of_mul_pos_right (Nat.zero_lt_of_lt hmore)
    have hcols : 0 < cols := Nat.pos_of_mul_pos_left (Nat.zero_lt_of_lt hmore)
    let q : Fin rows × Fin cols := (⟨0, hrows⟩, ⟨0, hcols⟩)
    have hspot := h fun _ => spot q
    rw [morphologyOperations_separate morphologicalKernel hseparate] at hspot
    have hwhite : (245 : Fin 256) < spot q ⟨0, Nat.pos_of_ne_zero hchannels⟩ q := by
      rw [spot, if_pos rfl]
      decide
    exact dilate_ne_consecutive_of_dimmed (blur_spot_le hmore q _) hwhite hspot
  · intro h buffers
    by_cases hshared : orig.data = dest.data
    · exact morphologyOperations_shared morphologicalKernel hshared buffers
    · rw [morphologyOperations_separate morphologicalKernel hshared]
      apply dilate_eq_consecutive_of_flat
      intro c
      have hone : rows * cols ≤ 1 :=
        (h.resolve_left hshared).resolve_right (Nat.ne_of_gt c.pos)
      have hcard : Fintype.card (Fin rows × Fin cols) ≤ 1 := by simpa using hone
      have hsubsingleton := Fintype.card_le_one_iff_subsingleton.mp hcard
      rcases isEmpty_or_nonempty (Fin rows × Fin cols) with hempty | ⟨⟨q⟩⟩
      · exact ⟨0, fun p => hempty.elim p⟩
      · exact ⟨buffers orig.data c q, fun p => by rw [Subsingleton.elim p q]⟩

end Morphology

/-- The kernel of `baratas`. -/
def seven : RectKernel := ⟨7, 7, by decide, by decide⟩

/-- Two pixels, the left one white. -/
def whiteLeft : Image 1 2 1 := fun _ p =>
  if p.2.val = 0 then Fin.last 255 else ⟨0, Nat.succ_pos 255⟩

/-- Into a buffer of its own the two pixels come out as their plain dilation. -/
theorem separate_buffers_not_consecutive :
    ¬∀ (kernel : RectKernel) (rows cols channels : Nat) (orig dest : Mat)
      (buffers : Nat → Image rows cols channels),
      BlobDetector.morphologyOperations kernel orig dest buffers dest.data =
        consecutive kernel (buffers orig.data) := by
  intro h
  have heq := h seven 1 2 1 ⟨0⟩ ⟨1⟩ fun _ => whiteLeft
  rw [morphologyOperations_separate seven (by decide)] at heq
  have hblur : ∀ p, blur whiteLeft 0 p ≤ 153 := by decide
  exact dilate_ne_consecutive_of_dimmed hblur (show 153 < whiteLeft 0 (0, 0) by decide) heq

end BlobTracking.Proc
