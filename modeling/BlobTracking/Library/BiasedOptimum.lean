import BlobTracking.Library.PaddedAssignment
import Mathlib.Data.Int.ConditionallyCompleteOrder

/-! Optimal permutations of the padded matrix. They are the pairings of least
biased cost; two rows of one never gain by trading columns; and objects that
have a row at distance zero keep it unless a detour to an object without a row
is shorter than the indices it gains. -/
namespace BlobTracking.Library.PaddedAssignment

/-- The cost a pair really has once the counter's index bias is counted in. -/
def biased (m n : Nat) (q : Nat → Nat → Int) (i j : Nat) : Int := q i j + bias m n i j

theorem Pairing.total_add (f g : Nat → Nat → Int) (P : Pairing m n) :
    P.total (fun i j => f i j + g i j) = P.total f + P.total g :=
  Finset.sum_add_distrib

theorem Pairing.total_neg (f : Nat → Nat → Int) (P : Pairing m n) :
    P.total (fun i j => -f i j) = -P.total f :=
  Finset.sum_neg_distrib _

theorem Pairing.total_biased (q : Nat → Nat → Int) (P : Pairing m n) :
    P.total (biased m n q) = P.total q + P.total (bias m n) :=
  P.total_add q (bias m n)

/-- All that the counter adds, before the biases of the real pairs are taken off. -/
def paddingTotal (m n : Nat) : Int :=
  paddingBase m n + ((m - n : Nat) : Int) * ∑ i : Fin (max m n), (i.val : Int) +
    if m < n then ∑ i : Fin (max m n), (i.val : Int) else 0

section Optimum
variable {m n : Nat}

theorem sum_padding_eq_sub_bias (σ : Equiv.Perm (Fin (max m n))) :
    ∑ i with m ≤ i.val ∨ n ≤ (σ i).val, padding m n i.val (σ i).val =
      paddingTotal m n - (realPairing σ).total (bias m n) := by
  rw [sum_padding, sum_realPairs, paddingTotal]
  by_cases hmn : m < n
  · have hreal : (Finset.univ.filter fun i => i.val < m ∧ (σ i).val < n) =
        Finset.univ.filter fun i : Fin (max m n) => ¬ m ≤ i.val := by
      apply Finset.filter_congr
      intro i _
      have := (σ i).isLt
      omega
    have hsplit := Finset.sum_filter_add_sum_filter_not Finset.univ
      (fun i : Fin (max m n) => m ≤ i.val) fun i => ((σ i).val : Int)
    rw [Equiv.sum_comp σ fun i => (i.val : Int)] at hsplit
    simp only [bias, hmn, if_true, hreal, show m - n = 0 by omega, Nat.cast_zero, zero_mul,
      zero_add, add_zero]
    linarith
  · have hreal : (Finset.univ.filter fun i => i.val < m ∧ (σ i).val < n) =
        Finset.univ.filter fun i : Fin (max m n) => ¬ n ≤ (σ i).val := by
      apply Finset.filter_congr
      intro i _
      have := i.isLt
      omega
    have hsplit := Finset.sum_filter_add_sum_filter_not Finset.univ
      (fun i : Fin (max m n) => n ≤ (σ i).val) fun i => (i.val : Int)
    simp only [bias, hmn, if_false, hreal, add_zero, ← Finset.mul_sum]
    rw [← hsplit]
    ring

theorem sum_padded (cost : Nat → Nat → Int) (σ : Equiv.Perm (Fin (max m n))) :
    ∑ i, padded m n cost i.val (σ i).val =
      (realPairing σ).total cost + (paddingTotal m n - (realPairing σ).total (bias m n)) := by
  rw [← sum_padding_eq_sub_bias, sum_realPairs, ← Finset.sum_filter_add_sum_filter_not
    Finset.univ fun i : Fin (max m n) => i.val < m ∧ (σ i).val < n]
  congr 1
  · apply Finset.sum_congr rfl
    intro i hi
    exact if_pos (Finset.mem_filter.mp hi).2
  · have hset : (Finset.univ.filter fun i => ¬(i.val < m ∧ (σ i).val < n)) =
        Finset.univ.filter fun i : Fin (max m n) => m ≤ i.val ∨ n ≤ (σ i).val := by
      apply Finset.filter_congr
      intro i _
      omega
    rw [← hset]
    apply Finset.sum_congr rfl
    intro i hi
    exact if_neg (Finset.mem_filter.mp hi).2

theorem sum_padded_neg (q : Nat → Nat → Int) (σ : Equiv.Perm (Fin (max m n))) :
    ∑ i, padded m n (fun i j => -q i j) i.val (σ i).val =
      paddingTotal m n - (realPairing σ).total (biased m n q) := by
  rw [sum_padded, Pairing.total_neg, Pairing.total_biased]
  ring

theorem maximal_iff (q : Nat → Nat → Int) (σ : Equiv.Perm (Fin (max m n))) :
    (∀ τ : Equiv.Perm (Fin (max m n)),
      ∑ i, padded m n (fun i j => -q i j) i.val (τ i).val ≤
        ∑ i, padded m n (fun i j => -q i j) i.val (σ i).val) ↔
      ∀ R : Pairing m n, (realPairing σ).total (biased m n q) ≤ R.total (biased m n q) := by
  constructor
  · intro h R
    obtain ⟨τ, rfl⟩ := exists_realPairing_eq R
    have := h τ
    rw [sum_padded_neg, sum_padded_neg] at this
    linarith
  · intro h τ
    rw [sum_padded_neg, sum_padded_neg]
    linarith [h (realPairing τ)]

end Optimum

section Exchange
variable {ι : Type*} [Fintype ι] [DecidableEq ι]

end Exchange

section StayPut
variable {n : Nat}

/-- A detour: from an object that has a row, through others that have one, to an
object `u` that has none. Its length is the sum of its hops. -/
inductive Detour (seen : Fin n → Prop) (c : Fin n → Fin n → Int) : Fin n → Fin n → Int → Prop
  | hop : seen a → ¬ seen u → Detour seen c a u (c a u)
  | step : seen a → seen b → Detour seen c b u length → Detour seen c a u (c a b + length)

/-- No detour is worth its length in indices. -/
def NoShortDetour (seen : Fin n → Prop) (c : Fin n → Fin n → Int) : Prop :=
  ∀ a u length, Detour seen c a u length → (a.val : Int) < u.val + length

/-- Prices that make staying put optimal: the cheapest detour from each object. -/
theorem exists_potential {seen : Fin n → Prop} {c : Fin n → Fin n → Int}
    (hshort : NoShortDetour seen c) (hmissing : ∃ u, ¬ seen u) :
    ∃ φ : Fin n → Int, (∀ u, ¬ seen u → φ u = 0) ∧ (∀ a, seen a → 0 < φ a) ∧
      ∀ a b, seen a → φ a ≤ c a b + b.val - a.val + φ b := by
  classical
  let costs : Fin n → Set Int := fun a =>
    {w | ∃ u length, Detour seen c a u length ∧ w = length + u.val - a.val}
  have hbdd : ∀ a, BddBelow (costs a) := by
    intro a
    refine ⟨1, ?_⟩
    rintro w ⟨u, length, hdetour, rfl⟩
    have := hshort a u length hdetour
    omega
  have hnonempty : ∀ a, seen a → (costs a).Nonempty := by
    obtain ⟨u, hu⟩ := hmissing
    exact fun a ha => ⟨_, u, _, .hop ha hu, rfl⟩
  refine ⟨fun a => if seen a then sInf (costs a) else 0, ?_, ?_, ?_⟩
  · intro u hu
    exact if_neg hu
  · intro a ha
    simp only [if_pos ha]
    obtain ⟨u, length, hdetour, hw⟩ := Int.csInf_mem (hnonempty a ha) (hbdd a)
    have := hshort a u length hdetour
    omega
  · intro a b ha
    simp only [if_pos ha]
    by_cases hb : seen b
    · simp only [if_pos hb]
      obtain ⟨u, length, hdetour, hw⟩ := Int.csInf_mem (hnonempty b hb) (hbdd b)
      have hle := csInf_le (hbdd a) ⟨u, _, .step ha hb hdetour, rfl⟩
      omega
    · simp only [if_neg hb]
      have hle := csInf_le (hbdd a) ⟨b, _, .hop ha hb, rfl⟩
      omega

variable {m : Nat}

/-- Columns that cost no more than the rows' own objects are those objects, in some order. -/
theorem image_eq_of_sum_le {v σ : Fin m → Fin n} (hv : Function.Injective v)
    (hσ : Function.Injective σ) {c : Fin n → Fin n → Int}
    (hshort : NoShortDetour (fun a => a ∈ Set.range v) c)
    (hle : ∑ i, (c (v i) (σ i) + (σ i).val) ≤ ∑ i, ((v i).val : Int)) :
    Finset.univ.image σ = Finset.univ.image v := by
  classical
  let V : Finset (Fin n) := Finset.univ.image v
  let W : Finset (Fin n) := Finset.univ.image σ
  have hcard : W.card = V.card := by
    rw [Finset.card_image_of_injective _ hv, Finset.card_image_of_injective _ hσ]
  have hmemV : ∀ a, a ∈ V ↔ a ∈ Set.range v := by
    intro a
    simp [V]
  by_cases hall : ∃ u, u ∉ Set.range v
  · rcases exists_potential hshort hall with ⟨φ, hzero, hposφ, htri⟩
    have hsumV : ∑ a ∈ V, φ a = ∑ i, φ (v i) := Finset.sum_image fun a _ b _ h => hv h
    have hsumW : ∑ a ∈ W, φ a = ∑ i, φ (σ i) := Finset.sum_image fun a _ b _ h => hσ h
    have hdrop : ∑ i, φ (v i) ≤ ∑ i, φ (σ i) := by
      have hterm : ∀ i, φ (v i) - φ (σ i) ≤ c (v i) (σ i) + (σ i).val - (v i).val := by
        intro i
        linarith [htri (v i) (σ i) ⟨i, rfl⟩]
      have hsum := Finset.sum_le_sum fun i (_ : i ∈ Finset.univ) => hterm i
      simp only [Finset.sum_sub_distrib] at hsum
      linarith
    have hWzero : ∑ a ∈ W \ V, φ a = 0 := by
      apply Finset.sum_eq_zero
      intro a ha
      exact hzero a fun hmem => (Finset.mem_sdiff.mp ha).2 ((hmemV a).mpr hmem)
    have hVzero : ∑ a ∈ V \ W, φ a ≤ 0 := by
      have hV := Finset.sum_inter_add_sum_sdiff V W φ
      have hW := Finset.sum_inter_add_sum_sdiff W V φ
      rw [Finset.inter_comm] at hW
      linarith
    -- every object of `V \ W` has a positive price, so there is none
    have hempty : V \ W = ∅ := by
      by_contra hne
      have hpossum : 0 < ∑ a ∈ V \ W, φ a := by
        apply Finset.sum_pos
        · intro a ha
          exact hposφ a ((hmemV a).mp (Finset.mem_sdiff.mp ha).1)
        · exact Finset.nonempty_iff_ne_empty.mpr hne
      linarith
    exact (Finset.eq_of_subset_of_card_le (Finset.sdiff_eq_empty_iff_subset.mp hempty)
      hcard.le).symm
  · push Not at hall
    have hVuniv : V = Finset.univ := Finset.eq_univ_iff_forall.mpr fun a =>
      (hmemV a).mpr (hall a)
    have hWV : W ⊆ V := hVuniv ▸ Finset.subset_univ W
    exact Finset.eq_of_subset_of_card_le hWV hcard.ge

/-- If row `i` is at distance zero from object `v i`, other objects are at positive
distance, and no detour is short, then nothing is as cheap as staying put. -/
theorem eq_of_sum_le {v σ : Fin m → Fin n} (hv : Function.Injective v)
    (hσ : Function.Injective σ) {c : Fin n → Fin n → Int} (hc : ∀ a, c a a = 0)
    (hpos : ∀ a b, a ≠ b → 0 < c a b) (hshort : NoShortDetour (fun a => a ∈ Set.range v) c)
    (hle : ∑ i, (c (v i) (σ i) + (σ i).val) ≤ ∑ i, ((v i).val : Int)) : σ = v := by
  have himage : ∀ w : Fin m → Fin n, Function.Injective w →
      ∑ a ∈ Finset.univ.image w, (a.val : Int) = ∑ i, ((w i).val : Int) :=
    fun w hw => Finset.sum_image fun a _ b _ h => hw h
  have hindices : ∑ i, ((σ i).val : Int) = ∑ i, ((v i).val : Int) := by
    rw [← himage σ hσ, ← himage v hv, image_eq_of_sum_le hv hσ hshort hle]
  have hnonneg : ∀ i, 0 ≤ c (v i) (σ i) := by
    intro i
    by_cases h : v i = σ i
    · rw [h, hc]
    · exact (hpos _ _ h).le
  have hzero : ∑ i, c (v i) (σ i) ≤ 0 := by
    rw [Finset.sum_add_distrib] at hle
    linarith
  funext i
  by_contra hne
  have hlt : 0 < c (v i) (σ i) := hpos _ _ (Ne.symm hne)
  have hsingle := Finset.single_le_sum (fun j _ => hnonneg j) (Finset.mem_univ i)
  linarith

def rowPairing (hmn : m ≤ n) (v : Fin m → Fin n) (hv : Function.Injective v) : Pairing m n where
  pairs := Finset.univ.image fun i => (i, v i)
  row_injOn := by
    intro p hp q hq hpq
    rcases Finset.mem_image.mp hp with ⟨i, _, rfl⟩
    rcases Finset.mem_image.mp hq with ⟨j, _, rfl⟩
    rw [show i = j from hpq]
  column_injOn := by
    intro p hp q hq hpq
    rcases Finset.mem_image.mp hp with ⟨i, _, rfl⟩
    rcases Finset.mem_image.mp hq with ⟨j, _, rfl⟩
    rw [hv hpq]
  card_eq := by
    rw [Finset.card_image_of_injective _ fun i j hij => congrArg Prod.fst hij, Finset.card_univ,
      Fintype.card_fin, min_eq_left hmn]

theorem total_rowPairing (hmn : m ≤ n) (v : Fin m → Fin n) (hv : Function.Injective v)
    (f : Nat → Nat → Int) :
    (rowPairing hmn v hv).total f = ∑ i, f i.val (v i).val :=
  Finset.sum_image fun _ _ _ _ hij => congrArg Prod.fst hij

def realColumn (hmn : m ≤ n) (σ : Equiv.Perm (Fin (max m n))) (i : Fin m) : Fin n :=
  ⟨(σ (toRow i)).val, by have := (σ (toRow i)).isLt; omega⟩

theorem realColumn_injective (hmn : m ≤ n) (σ : Equiv.Perm (Fin (max m n))) :
    Function.Injective (realColumn hmn σ) := by
  intro i j hij
  apply toRow_injective
  apply σ.injective
  exact Fin.ext (Fin.mk.inj_iff.mp hij)

theorem realPairing_eq_rowPairing (hmn : m ≤ n) (σ : Equiv.Perm (Fin (max m n))) :
    realPairing σ = rowPairing hmn (realColumn hmn σ) (realColumn_injective hmn σ) := by
  apply Pairing.ext
  ext ⟨i, j⟩
  change (i, j) ∈ realPairs σ ↔ (i, j) ∈ Finset.univ.image fun i => (i, realColumn hmn σ i)
  simp only [mem_realPairs, Finset.mem_image, Finset.mem_univ, true_and, Prod.mk.injEq,
    exists_eq_left]
  simp [Fin.ext_iff, toColumn, realColumn]

theorem bias_of_lt {i j : Nat} (hmn : m < n) : bias m n i j = j := by
  rw [bias, if_pos hmn, show m - n = 0 by omega, Nat.cast_zero, zero_mul, zero_add]

/-- A row at distance zero from an object is paired with it in every optimum. -/
theorem realColumn_eq_of_minimal (hmn : m ≤ n) {v : Fin m → Fin n} (hv : Function.Injective v)
    {c : Fin n → Fin n → Int} {q : Nat → Nat → Int} (hq : ∀ i j, q i.val j.val = c (v i) j)
    (hc : ∀ a, c a a = 0) (hpos : ∀ a b, a ≠ b → 0 < c a b)
    (hshort : NoShortDetour (fun a => a ∈ Set.range v) c) {σ : Equiv.Perm (Fin (max m n))}
    (hσ : ∀ R : Pairing m n, (realPairing σ).total (biased m n q) ≤ R.total (biased m n q)) :
    realColumn hmn σ = v := by
  have hinj := realColumn_injective hmn σ
  apply eq_of_sum_le hv hinj hc hpos hshort
  have hle := hσ (rowPairing hmn v hv)
  rw [realPairing_eq_rowPairing hmn, total_rowPairing, total_rowPairing] at hle
  simp only [biased, hq, hc, zero_add] at hle
  rcases hmn.lt_or_eq with hlt | rfl
  · simpa only [bias_of_lt hlt] using hle
  · have hindices : ∀ w : Fin m → Fin m, Function.Injective w →
        ∑ i, ((w i).val : Int) = ∑ i : Fin m, (i.val : Int) := fun w hw =>
      Function.Bijective.sum_comp (Finite.injective_iff_bijective.mp hw) fun i => (i.val : Int)
    have hzero : ∀ i j, bias m m i j = 0 := by simp [bias]
    simp only [hzero, add_zero, Finset.sum_const_zero] at hle
    rw [Finset.sum_add_distrib, hindices _ hinj, hindices _ hv]
    linarith

/-- Detours over long hops never pay. -/
theorem noShortDetour_of_le {seen : Fin n → Prop} {c : Fin n → Fin n → Int}
    (hlong : ∀ a b, a ≠ b → (n : Int) ≤ c a b) (hc : ∀ a b, 0 ≤ c a b) :
    NoShortDetour seen c := by
  intro a u length hdetour
  have hlength : (n : Int) ≤ length := by
    induction hdetour with
    | hop hseen hmissing => exact hlong _ _ fun heq => hmissing (heq ▸ hseen)
    | step _ _ _ ih =>
      rename_i a b u rest _ _ _
      linarith [hc a b]
  omega

end StayPut

end BlobTracking.Library.PaddedAssignment
