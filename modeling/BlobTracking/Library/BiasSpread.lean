import BlobTracking.Library.BiasedOptimum
import Mathlib.Data.Finset.Sort
import Mathlib.Algebra.BigOperators.ModEq

/-! How far the counter in the padding can lead an optimum astray. It only looks at the
indices that a pairing uses of the longer side, so two pairings differ in it by no more
than two choices of indices do; and wherever one side is longer and neither is empty,
some costs make this difference pay. -/
namespace BlobTracking.Library.PaddedAssignment

section Choice
variable {s : Finset Nat} {k N : Nat}

theorem orderEmbOfFin_add_le (h : s.card = k) (i : Fin k) (d : Nat) (hd : i.val + d < k) :
    s.orderEmbOfFin h i + d ≤ s.orderEmbOfFin h ⟨i.val + d, hd⟩ := by
  induction d with
  | zero => exact le_rfl
  | succ d ih =>
    have hbefore := ih (by omega)
    have hstep := (s.orderEmbOfFin h).strictMono
      (show (⟨i.val + d, by omega⟩ : Fin k) < ⟨i.val + (d + 1), hd⟩ from Nat.lt_succ_self _)
    omega

theorem le_orderEmbOfFin (h : s.card = k) (i : Fin k) : i.val ≤ s.orderEmbOfFin h i := by
  have hend : (⟨0 + i.val, by omega⟩ : Fin k) = i := Fin.ext (Nat.zero_add _)
  have hgap := orderEmbOfFin_add_le h ⟨0, i.pos⟩ i.val (by simp)
  rw [hend] at hgap
  omega

theorem orderEmbOfFin_le (h : s.card = k) (hs : ∀ x ∈ s, x < N) (i : Fin k) :
    s.orderEmbOfFin h i ≤ N - k + i.val := by
  have hi := i.isLt
  have hgap := orderEmbOfFin_add_le h i (k - 1 - i.val) (by omega)
  have hlast := hs _ (s.orderEmbOfFin_mem h ⟨i.val + (k - 1 - i.val), by omega⟩)
  omega

theorem sum_orderEmbOfFin (h : s.card = k) : ∑ i, s.orderEmbOfFin h i = ∑ x ∈ s, x := by
  have hmap := Finset.sum_map Finset.univ (s.orderEmbOfFin h).toEmbedding fun x => x
  rw [s.map_orderEmbOfFin_univ h] at hmap
  exact hmap.symm

theorem sum_range_le_sum (h : s.card = k) : ∑ x ∈ Finset.range k, x ≤ ∑ x ∈ s, x := by
  rw [← sum_orderEmbOfFin h, Finset.sum_range]
  exact Finset.sum_le_sum fun i _ => le_orderEmbOfFin h i

theorem sum_range_lt_sum (h : s.card = k) {a : Nat} (ha : a < k) (hmissing : a ∉ s) :
    ∑ x ∈ Finset.range k, x < ∑ x ∈ s, x := by
  rw [← sum_orderEmbOfFin h, Finset.sum_range]
  apply Finset.sum_lt_sum (fun i _ => le_orderEmbOfFin h i)
  refine ⟨⟨a, ha⟩, Finset.mem_univ _, lt_of_le_of_ne (le_orderEmbOfFin h _) fun heq => ?_⟩
  have hmem := s.orderEmbOfFin_mem h ⟨a, ha⟩
  rw [← heq] at hmem
  exact hmissing hmem

theorem sum_le_sum_range (h : s.card = k) (hs : ∀ x ∈ s, x < N) :
    ∑ x ∈ s, x ≤ k * (N - k) + ∑ x ∈ Finset.range k, x := by
  have hle := Finset.sum_le_sum fun (i : Fin k) (_ : i ∈ Finset.univ) => orderEmbOfFin_le h hs i
  rw [sum_orderEmbOfFin, Finset.sum_add_distrib, Finset.sum_const, Finset.card_univ,
    Fintype.card_fin, smul_eq_mul] at hle
  rwa [Finset.sum_range]

end Choice

/-- The index of a pair on the longer side. -/
def surplusIndex (m n i j : Nat) : Nat := if m < n then j else i

/-- What the counter charges for one step of that index. -/
def biasFactor (m n : Nat) : Nat := if m < n then 1 else m - n

/-- The most that two pairings can differ in what the counter charges. -/
def biasSpread (m n : Nat) : Nat := biasFactor m n * (min m n * (max m n - min m n))

/-- The counter leaves every choice alone only where no index can be left over or chosen. -/
theorem biasSpread_eq_zero_iff {m n : Nat} : biasSpread m n = 0 ↔ m = n ∨ m = 0 ∨ n = 0 := by
  unfold biasSpread biasFactor
  rw [Nat.mul_eq_zero, Nat.mul_eq_zero]
  split <;> omega

theorem bias_eq (m n i j : Nat) :
    bias m n i j = (biasFactor m n : Int) * (surplusIndex m n i j : Int) := by
  unfold bias biasFactor surplusIndex
  split
  case isTrue hless => simp [Nat.sub_eq_zero_of_le hless.le]
  case isFalse => rw [add_zero]

section Used
variable {m n : Nat}

theorem Pairing.total_congr {f g : Nat → Nat → Int} (h : ∀ i j, i < m → j < n → f i j = g i j)
    (P : Pairing m n) : P.total f = P.total g :=
  Finset.sum_congr rfl fun p _ => h p.1 p.2 p.1.isLt p.2.isLt

/-- The indices that a pairing uses of the longer side. -/
def Pairing.used (P : Pairing m n) : Finset Nat :=
  P.pairs.image fun p => surplusIndex m n p.1.val p.2.val

theorem Pairing.surplusIndex_injOn (P : Pairing m n) :
    Set.InjOn (fun p : Fin m × Fin n => surplusIndex m n p.1.val p.2.val) P.pairs := by
  intro p hp q hq hpq
  simp only [surplusIndex] at hpq
  split at hpq
  · exact P.column_injOn hp hq (Fin.ext hpq)
  · exact P.row_injOn hp hq (Fin.ext hpq)

theorem Pairing.card_used (P : Pairing m n) : P.used.card = min m n := by
  rw [used, Finset.card_image_of_injOn P.surplusIndex_injOn, P.card_eq]

theorem Pairing.lt_of_mem_used (P : Pairing m n) : ∀ x ∈ P.used, x < max m n := by
  intro x hx
  obtain ⟨p, _, rfl⟩ := Finset.mem_image.mp hx
  have hrow := p.1.isLt
  have hcolumn := p.2.isLt
  simp only [surplusIndex]
  split <;> omega

theorem Pairing.total_surplusIndex (P : Pairing m n) (g : Nat → Int) :
    P.total (fun i j => g (surplusIndex m n i j)) = ∑ x ∈ P.used, g x :=
  (Finset.sum_image P.surplusIndex_injOn).symm

theorem Pairing.total_bias (P : Pairing m n) :
    P.total (bias m n) = (biasFactor m n : Int) * ((∑ x ∈ P.used, x : Nat) : Int) := by
  have hbias : bias m n = fun i j => (biasFactor m n : Int) * (surplusIndex m n i j : Int) :=
    funext fun i => funext fun j => bias_eq m n i j
  rw [hbias, P.total_surplusIndex fun x => (biasFactor m n : Int) * x, Nat.cast_sum,
    Finset.mul_sum]

theorem Pairing.total_bias_le (P R : Pairing m n) :
    P.total (bias m n) ≤ R.total (bias m n) + biasSpread m n := by
  have hmost := sum_le_sum_range P.card_used P.lt_of_mem_used
  have hleast := sum_range_le_sum R.card_used
  have hle := Nat.mul_le_mul_left (biasFactor m n)
    (hmost.trans (Nat.add_le_add_left hleast _))
  rw [P.total_bias, R.total_bias, biasSpread]
  rw [Nat.mul_add, Nat.add_comm] at hle
  exact_mod_cast hle

/-- A pairing read the other way round. -/
def Pairing.transpose (P : Pairing m n) : Pairing n m where
  pairs := P.pairs.image Prod.swap
  row_injOn := by
    rw [Finset.coe_image]
    rintro _ ⟨p, hp, rfl⟩ _ ⟨q, hq, rfl⟩ hpq
    rw [P.column_injOn hp hq hpq]
  column_injOn := by
    rw [Finset.coe_image]
    rintro _ ⟨p, hp, rfl⟩ _ ⟨q, hq, rfl⟩ hpq
    rw [P.row_injOn hp hq hpq]
  card_eq := by
    rw [Finset.card_image_of_injective _ Prod.swap_injective, P.card_eq, min_comm]

/-- As many indices of the longer side as there are pairs are used by some pairing. -/
theorem exists_used_eq {s : Finset Nat} (hcard : s.card = min m n) (hs : ∀ x ∈ s, x < max m n) :
    ∃ P : Pairing m n, P.used = s := by
  by_cases hmn : m < n
  · have hm : s.card = m := hcard.trans (min_eq_left hmn.le)
    let v : Fin m → Fin n := fun i => ⟨s.orderEmbOfFin hm i, by
      have := hs _ (s.orderEmbOfFin_mem hm i)
      omega⟩
    have hv : Function.Injective v := fun i j hij =>
      (s.orderEmbOfFin hm).injective (Fin.mk.inj_iff.mp hij)
    refine ⟨rowPairing hmn.le v hv, ?_⟩
    rw [Pairing.used, rowPairing, Finset.image_image, ← s.image_orderEmbOfFin_univ hm]
    exact Finset.image_congr fun i _ => if_pos hmn
  · have hn : s.card = n := hcard.trans (min_eq_right (not_lt.mp hmn))
    let v : Fin n → Fin m := fun j => ⟨s.orderEmbOfFin hn j, by
      have := hs _ (s.orderEmbOfFin_mem hn j)
      omega⟩
    have hv : Function.Injective v := fun i j hij =>
      (s.orderEmbOfFin hn).injective (Fin.mk.inj_iff.mp hij)
    refine ⟨(rowPairing (not_lt.mp hmn) v hv).transpose, ?_⟩
    rw [Pairing.used, Pairing.transpose, rowPairing, Finset.image_image, Finset.image_image,
      ← s.image_orderEmbOfFin_univ hn]
    exact Finset.image_congr fun j _ => if_neg hmn

end Used

section Optima
variable {m n : Nat} {q : Nat → Nat → Int} {P : Pairing m n}

/-- An optimum exceeds the least total by no more than the counter can charge. -/
theorem total_le_add_biasSpread
    (hP : ∀ R : Pairing m n, P.total (biased m n q) ≤ R.total (biased m n q))
    (R : Pairing m n) : P.total q ≤ R.total q + biasSpread m n := by
  have hle := hP R
  have hspread := R.total_bias_le P
  rw [Pairing.total_biased, Pairing.total_biased] at hle
  linarith

theorem total_modEq {K r : Int} (hq : ∀ i j, i < m → j < n → q i j ≡ r [ZMOD K])
    (P : Pairing m n) : P.total q ≡ (min m n : Nat) * r [ZMOD K] := by
  have hsum : P.total q ≡ ∑ _p ∈ P.pairs, r [ZMOD K] :=
    Int.ModEq.sum fun p _ => hq p.1 p.2 p.1.isLt p.2.isLt
  rwa [Finset.sum_const, P.card_eq, nsmul_eq_mul] at hsum

/-- Where all costs leave one remainder on division by more than that, optima are shortest. -/
theorem total_le_of_modEq
    (hP : ∀ R : Pairing m n, P.total (biased m n q) ≤ R.total (biased m n q)) {K r : Int}
    (hK : (biasSpread m n : Int) < K) (hq : ∀ i j, i < m → j < n → q i j ≡ r [ZMOD K])
    (R : Pairing m n) : P.total q ≤ R.total q := by
  have hle := total_le_add_biasSpread hP R
  have hdvd : K ∣ P.total q - R.total q :=
    ((total_modEq hq R).trans (total_modEq hq P).symm).dvd
  by_contra hlonger
  have hmin := Int.le_of_dvd (by linarith) hdvd
  linarith

/-- Costs under which the first choice of indices is not the shortest: one of its indices costs
one, and the index after them nothing. -/
def lastCosts (m n i j : Nat) : Int := if surplusIndex m n i j + 1 = min m n then 1 else 0

theorem total_lastCosts (P : Pairing m n) :
    P.total (lastCosts m n) = if min m n - 1 ∈ P.used ∧ 0 < min m n then 1 else 0 := by
  have hsum := P.total_surplusIndex fun x => if x + 1 = min m n then 1 else 0
  change P.total (lastCosts m n) = _ at hsum
  rw [hsum]
  by_cases hused : min m n - 1 ∈ P.used ∧ 0 < min m n
  · rw [if_pos hused, Finset.sum_eq_single_of_mem _ hused.1]
    · rw [if_pos (by omega)]
    · intro x _ hx
      rw [if_neg (by omega)]
  · rw [if_neg hused]
    apply Finset.sum_eq_zero
    intro x hx
    apply if_neg
    intro hlast
    have hx' : x = min m n - 1 := by omega
    exact hused ⟨hx' ▸ hx, by omega⟩

theorem one_le_biasFactor (hne : m ≠ n) : 1 ≤ biasFactor m n := by
  unfold biasFactor
  split <;> omega

/-- For every shape with one side longer and neither empty, some costs have an optimum that is
not shortest. -/
theorem exists_longer_optimum (hne : m ≠ n) (hm : 0 < m) (hn : 0 < n) :
    ∃ P R : Pairing m n,
      (∀ S : Pairing m n, P.total (biased m n (lastCosts m n)) ≤
        S.total (biased m n (lastCosts m n))) ∧
      R.total (lastCosts m n) < P.total (lastCosts m n) := by
  have hk : 0 < min m n := lt_min hm hn
  have hlt : min m n < max m n := by omega
  obtain ⟨P, hP⟩ := exists_used_eq (m := m) (n := n) (Finset.card_range (min m n))
    fun x hx => (Finset.mem_range.mp hx).trans hlt
  have hfresh : min m n ∉ Finset.range (min m n - 1) := by
    rw [Finset.mem_range]
    omega
  obtain ⟨R, hR⟩ := exists_used_eq (m := m) (n := n)
    (s := insert (min m n) (Finset.range (min m n - 1)))
    (by rw [Finset.card_insert_of_notMem hfresh, Finset.card_range]; omega)
    (fun x hx => by
      rcases Finset.mem_insert.mp hx with rfl | hx
      · exact hlt
      · have := Finset.mem_range.mp hx
        omega)
  have hlast : P.total (lastCosts m n) = 1 := by
    rw [total_lastCosts, hP, if_pos ⟨Finset.mem_range.mpr (by omega), hk⟩]
  have hnone : R.total (lastCosts m n) = 0 := by
    rw [total_lastCosts, hR, if_neg]
    intro h
    rcases Finset.mem_insert.mp h.1 with heq | hmem
    · omega
    · exact absurd (Finset.mem_range.mp hmem) (lt_irrefl _)
  refine ⟨P, R, fun S => ?_, by rw [hlast, hnone]; exact Int.zero_lt_one⟩
  rw [Pairing.total_biased, Pairing.total_biased, hlast, P.total_bias, S.total_bias, hP,
    total_lastCosts]
  by_cases hused : min m n - 1 ∈ S.used
  · have hleast := Nat.mul_le_mul_left (biasFactor m n) (sum_range_le_sum S.card_used)
    rw [if_pos ⟨hused, hk⟩]
    exact_mod_cast Nat.add_le_add_left hleast 1
  · have hmore := Nat.mul_le_mul_left (biasFactor m n)
      (Nat.succ_le_of_lt (sum_range_lt_sum S.card_used (by omega) hused))
    have hfactor := one_le_biasFactor hne
    rw [if_neg fun h => hused h.1, zero_add]
    rw [Nat.succ_eq_add_one, Nat.mul_add, Nat.mul_one] at hmore
    have hle : 1 + biasFactor m n * ∑ x ∈ Finset.range (min m n), x ≤
        biasFactor m n * ∑ x ∈ S.used, x := by omega
    exact_mod_cast hle

end Optima

end BlobTracking.Library.PaddedAssignment
