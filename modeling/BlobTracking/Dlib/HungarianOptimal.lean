import BlobTracking.Dlib.HungarianSearch

/-! The main loop of `max_cost_assignment`: every iteration matches one row more,
so after as many iterations as there are rows the matching is a permutation of
tight edges, and the labels prove it optimal. -/
namespace BlobTracking.Dlib
open Library.AlternatingTree Library.EqualityGraph

/-- What holds of the labels and the matching after `k` iterations. -/
structure SolutionInvariant (cost : Fin n → Fin n → Int) (hi : Int) (k : Nat)
    (solution : Solution n) : Prop where
  valid : solution.matching.Valid
  grown : solution.Grown cost solution.matching hi
  unmatched : (Finset.univ.filter fun x => solution.matching.xy x = none).card + k = n

section MainLoop
variable {top lo hi : Int} {cost : Fin n → Fin n → Int} {k : Nat} {solution : Solution n}

theorem rowMax_spec (cost : Fin n → Fin n → Int) (zero x : Fin n) :
    (∀ y, cost x y ≤ rowMax cost zero x) ∧ ∃ y, rowMax cost zero x = cost x y := by
  obtain ⟨_, hall, hfrom⟩ := Library.foldl_best (· ≥ ·) (cost x) (fun _ => True)
    (fun val y => if val < cost x y then cost x y else val)
    (fun v => le_refl v) (fun _ _ _ hab hbc => le_trans hbc hab) (fun val y => by split <;> omega)
    (fun val y _ => by split <;> omega)
    (fun val y => by
      split
      · exact Or.inr ⟨trivial, rfl⟩
      · exact Or.inl rfl) (List.finRange n) (cost x zero)
  refine ⟨fun y => hall y (List.mem_finRange y) trivial, ?_⟩
  cases hfrom with
  | inl hzero => exact ⟨zero, hzero⟩
  | inr hlater =>
    obtain ⟨y, _, _, hy⟩ := hlater
    exact ⟨y, hy⟩

theorem initialSolution_invariant (hfit : EntriesFit top lo hi cost) (zero : Fin n) :
    SolutionInvariant cost hi 0 (initialSolution cost zero) where
  valid := Matching.valid_empty
  grown :=
    { feasible := by
        intro x y
        change cost x y ≤ rowMax cost zero x + 0
        rw [add_zero]
        exact (rowMax_spec cost zero x).1 y
      tight := fun x y hxy => by cases hxy
      lx_le := by
        intro x
        obtain ⟨y, hy⟩ := (rowMax_spec cost zero x).2
        change rowMax cost zero x ≤ hi
        rw [hy]
        exact hfit.upper x y
      ly_nonneg := fun _ => le_refl 0
      ly_free := fun _ _ => rfl }
  unmatched := by
    have hall : (Finset.univ.filter fun x => (initialSolution cost zero).matching.xy x = none) =
        Finset.univ := Finset.filter_true_of_mem fun x _ => rfl
    rw [hall, Finset.card_univ, Fintype.card_fin, add_zero]

/-- While a row is unmatched, the search starts from a tree of one row. -/
theorem SolutionInvariant.startSearch (hfit : EntriesFit top lo hi cost)
    (h : SolutionInvariant cost hi k solution) (hk : k < n) :
    ∃ root s, Dlib.startSearch top cost solution = some s ∧ solution.matching.xy root = none ∧
      SearchInvariant cost solution.matching hi root [root] s ∧
      s.q.length + s.uncovered < n + 2 ∧ s.start = none := by
  unfold Dlib.startSearch
  cases hfind : (List.finRange n).find? fun x => (solution.matching.xy x).isNone with
  | none =>
    have hempty : (Finset.univ.filter fun x => solution.matching.xy x = none) = ∅ := by
      ext x
      simpa using List.find?_eq_none.mp hfind x (List.mem_finRange x)
    have hcount := h.unmatched
    rw [hempty, Finset.card_empty] at hcount
    omega
  | some root =>
    have hroot : solution.matching.xy root = none := by
      simpa using List.find?_some hfind
    obtain ⟨free, hfree⟩ := h.valid.exists_free_column rfl hroot
    let s₀ : Search n :=
      { toLabels := solution.toLabels
        slack := fun _ => top
        slackx := solution.slackx
        q := [root]
        S := Function.update (fun _ => false) root true
        T := fun _ => false
        augPath := fun _ => none
        start := none }
    have hgrown : s₀.Grown cost solution.matching hi := h.grown
    obtain ⟨hle, hexact⟩ := lowerSlack_exact (s := s₀) [] root
      (fun z hz => absurd hz List.not_mem_nil)
      fun y => Or.inr (hfit.reduced_lt h.valid hgrown hfree root y)
    refine ⟨root, s₀.lowerSlack cost root, computeSlack_eq hfit h.valid hgrown hfree root, hroot,
      ?_, ?_, rfl⟩
    · exact
        { valid := h.valid
          grown := hgrown
          tree := .root rfl hroot
          mem_S := by
            intro x
            change Function.update (fun _ => false) root true x = true ↔ _
            by_cases hx : x = root
            · simp [hx]
            · simp [hx]
          mem_T := by
            intro y
            change false = true ↔ ∃ x ∈ [root], solution.matching.yx y = some x
            constructor
            · intro hfalse
              cases hfalse
            · intro ⟨x, hx, hyx⟩
              rw [List.mem_singleton.mp hx, ← h.valid.xy_iff, hroot] at hyx
              cases hyx
          slack_le := hle
          slackx_mem := fun y => (hexact y).1
          slack_eq := fun y => (hexact y).2
          q_mem := fun _ hx => hx
          start_edge := fun _ _ heq => by cases heq }
    · have huncovered := (s₀.lowerSlack cost root).uncovered_le
      change 1 + (s₀.lowerSlack cost root).uncovered < n + 2
      omega

/-- One iteration of the main loop meets no fault and matches one row more. -/
theorem SolutionInvariant.growMatching (hfit : EntriesFit top lo hi cost)
    (h : SolutionInvariant cost hi k solution) (hk : k < n) :
    ∃ solution', Dlib.growMatching top cost solution = some solution' ∧
      SolutionInvariant cost hi (k + 1) solution' := by
  obtain ⟨root, s, hstart, hroot, hinv, hwork, hnone⟩ := h.startSearch hfit hk
  have huncovered := s.uncovered_le
  obtain ⟨reached, s', hsearch, hinv', hfound⟩ := hinv.search hfit (n + 1)
    (fun _ => hwork) (fun _ => by omega) (by omega)
  obtain ⟨⟨x, y⟩, hedge⟩ := Option.ne_none_iff_exists'.mp hfound
  obtain ⟨hx, hxy, hy⟩ := hinv'.start_edge x y hedge
  have hlength : reached.length ≤ n := by
    have hcard := hinv'.tree.nodup.length_le_card
    rwa [Fintype.card_fin] at hcard
  obtain ⟨m', hflip, haug⟩ := hinv'.tree.flip_augmented hx (fun _ _ => rfl)
    (h.valid.validBut hy) hinv'.grown.tight hxy hlength
  refine ⟨{ toLabels := s'.toLabels, slackx := s'.slackx, matching := m' }, ?_, ?_⟩
  · unfold Dlib.growMatching
    rw [hstart, Option.bind_some, hsearch, Option.bind_some, hedge]
    change (Matching.flip s'.augPath n (some x) (some y) solution.matching).map _ = _
    rw [hflip]
    rfl
  · refine ⟨haug.valid, hinv'.grown.augment haug, ?_⟩
    have hset : (Finset.univ.filter fun z => m'.xy z = none) =
        (Finset.univ.filter fun z => solution.matching.xy z = none).erase root := by
      ext z
      simp only [Finset.mem_filter, Finset.mem_univ, true_and, Finset.mem_erase, haug.row_iff]
      exact and_comm
    have hmem : root ∈ Finset.univ.filter fun z => solution.matching.xy z = none :=
      Finset.mem_filter.mpr ⟨Finset.mem_univ root, hroot⟩
    have hcount := h.unmatched
    have herase := Finset.card_erase_add_one hmem
    change (Finset.univ.filter fun z => m'.xy z = none).card + (k + 1) = n
    rw [hset]
    omega

/-- Once every row is matched, the matching is a permutation of tight edges. -/
theorem SolutionInvariant.complete (h : SolutionInvariant cost hi n solution) :
    ∃ σ : Equiv.Perm (Fin n), solution.assignment = ofPerm σ ∧
      ∀ x, solution.Tight cost x (σ x) := by
  have hempty : (Finset.univ.filter fun x => solution.matching.xy x = none) = ∅ := by
    have := h.unmatched
    exact Finset.card_eq_zero.mp (by omega)
  have hsome : ∀ x, ∃ y, solution.matching.xy x = some y := by
    intro x
    apply Option.ne_none_iff_exists'.mp
    intro hnone
    have hmem : x ∈ Finset.univ.filter fun x => solution.matching.xy x = none :=
      Finset.mem_filter.mpr ⟨Finset.mem_univ x, hnone⟩
    rw [hempty] at hmem
    exact absurd hmem (Finset.notMem_empty x)
  choose column hcolumn using hsome
  have hinj : Function.Injective column := by
    intro x x' hxx
    have hx' := hcolumn x'
    rw [← hxx] at hx'
    exact h.valid.injective (hcolumn x) hx'
  refine ⟨Equiv.ofBijective column (Finite.injective_iff_bijective.mp hinj), ?_, ?_⟩
  · unfold Solution.assignment ofPerm
    congr 1
    funext x
    rw [hcolumn x]
    rfl
  · exact fun x => h.grown.tight x _ (hcolumn x)

end MainLoop

/-- A square matrix whose entries lie from `lo` to `hi`, with room in the type for the labels. -/
structure CostMatrix.Fits (top lo hi : Int) (cost : CostMatrix) : Prop where
  square : cost.nr = cost.nc
  lower : ∀ i j, i < cost.nr → j < cost.nc → lo ≤ cost.entry i j
  upper : ∀ i j, i < cost.nr → j < cost.nc → cost.entry i j ≤ hi
  bottom : -top - 1 ≤ lo
  sum : 2 * hi - lo ≤ top
  spread : 2 * (hi - lo) < top

theorem CostMatrix.Fits.exists_optimal {top lo hi : Int} {cost : CostMatrix}
    (hfits : cost.Fits top lo hi) :
    ∃ a, maxCostAssignment top cost = some a ∧ IsOptimal cost a := by
  obtain ⟨nr, nc, entry⟩ := cost
  obtain rfl : nr = nc := hfits.square
  unfold maxCostAssignment
  by_cases hsize : nr * nr = 0
  · obtain rfl : nr = 0 := mul_self_eq_zero.mp hsize
    refine ⟨ofPerm (1 : Equiv.Perm (Fin 0)), dif_pos hsize, isOptimal_ofPerm fun τ => ?_⟩
    rw [Subsingleton.elim τ 1]
  · rw [dif_neg hsize, if_pos rfl]
    let entries : Fin nr → Fin nr → Int := fun x y => entry x.val y.val
    let zero : Fin nr := ⟨0, Nat.pos_of_ne_zero (right_ne_zero_of_mul hsize)⟩
    have hfit : EntriesFit top lo hi entries :=
      ⟨fun x y => hfits.lower _ _ x.isLt y.isLt, fun x y => hfits.upper _ _ x.isLt y.isLt,
        hfits.bottom, hfits.sum, hfits.spread⟩
    obtain ⟨solution, hloop, hinv⟩ := Library.forLoop_invariant
      (fun _ => growMatching top entries) (SolutionInvariant entries hi)
      (fun k s hk hs => hs.growMatching hfit hk) (initialSolution_invariant hfit zero)
    obtain ⟨σ, hassignment, htight⟩ := hinv.complete
    refine ⟨ofPerm σ, ?_, isOptimal_ofPerm fun τ => ?_⟩
    · change (Library.forLoop nr (fun _ => growMatching top entries)
        (initialSolution entries zero)).map _ = _
      rw [hloop, Option.map_some, hassignment]
    · exact hinv.grown.feasible.optimal htight τ

/-- On every matrix that fits the type, the algorithm ends without a fault, and its result is
a permutation of greatest cost. -/
theorem maxCostAssignment_optimal (top lo hi : Int) (cost : CostMatrix)
    (hfits : cost.Fits top lo hi) :
    ∃ a, maxCostAssignment top cost = some a ∧ IsOptimal cost a :=
  hfits.exists_optimal

/-- The matrix of dlib's own example program. -/
def exampleCost : CostMatrix :=
  ⟨3, 3, fun i j => ([[1, 2, 6], [5, 3, 6], [4, 5, 0]].getD i []).getD j 0⟩

theorem maxCostAssignment_optimal_example :
    ∃ a, maxCostAssignment 2147483647 exampleCost = some a ∧ IsOptimal exampleCost a := by
  apply maxCostAssignment_optimal 2147483647 0 6
  have hrange : ∀ i < 3, ∀ j < 3, 0 ≤ exampleCost.entry i j ∧ exampleCost.entry i j ≤ 6 := by
    decide
  exact ⟨rfl, fun i j hi hj => (hrange i hi j hj).1, fun i j hi hj => (hrange i hi j hj).2,
    by decide, by decide, by decide⟩

example : maxCostAssignment 2147483647 exampleCost = some [2, 0, 1] := by decide

/-- The algorithm in the place of a solver; a fault yields no column. -/
def dlibSolver (top : Int) : Solver := fun cost => (maxCostAssignment top cost).getD []

theorem dlibSolver_isOptimal {top lo hi : Int} {cost : CostMatrix}
    (hfits : cost.Fits top lo hi) : IsOptimal cost (dlibSolver top cost) := by
  obtain ⟨a, ha, hoptimal⟩ := hfits.exists_optimal
  unfold dlibSolver
  rw [ha]
  exact hoptimal

end BlobTracking.Dlib
