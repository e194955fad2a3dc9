import BlobTracking.Dlib.Hungarian

/-! One iteration of the main loop. While the search runs, the labels stay
feasible and within the spread of the costs, the rows of `S` form a tree of tight
edges, and every slack is the least over `S`. Each column enters `T` once, which
bounds both loops. -/
namespace BlobTracking.Dlib
open Library.AlternatingTree Library.EqualityGraph

/-- Costs from `lo` to `hi`, with room in the type for two labels and for a slack. -/
structure EntriesFit (top lo hi : Int) (cost : Fin n → Fin n → Int) : Prop where
  lower : ∀ x y, lo ≤ cost x y
  upper : ∀ x y, cost x y ≤ hi
  bottom : -top - 1 ≤ lo
  sum : 2 * hi - lo ≤ top
  spread : 2 * (hi - lo) < top

section Range
variable {top lo hi : Int} {cost : Fin n → Fin n → Int} {m : Matching (Fin n) (Fin n)}
  {labels : Labels (Fin n) (Fin n) Int}

/-- No sum of two labels and no slack leaves the type while some column is free. -/
theorem EntriesFit.inType (hfit : EntriesFit top lo hi cost) (hm : m.Valid)
    (hgrown : labels.Grown cost m hi) {free : Fin n} (hfree : m.yx free = none) (x y : Fin n) :
    InType top (labels.lx x + labels.ly y) ∧ InType top (labels.reduced cost x y) := by
  have hlx := hgrown.lo_le_lx hfit.lower hfree x
  have hhx := hgrown.lx_le x
  have hly := hgrown.ly_nonneg y
  have hhy := hgrown.ly_le hm hfit.lower hfit.upper hfree y x
  have hcost := hfit.lower x y
  have hreduced := hgrown.feasible.reduced_nonneg x y
  have hbottom := hfit.bottom
  have hsum := hfit.sum
  have hspread := hfit.spread
  unfold Labels.reduced at hreduced ⊢
  unfold InType
  omega

theorem EntriesFit.label_inType (hfit : EntriesFit top lo hi cost) (hm : m.Valid)
    (hgrown : labels.Grown cost m hi) {free : Fin n} (hfree : m.yx free = none) (x : Fin n) :
    InType top (labels.lx x) ∧ InType top (labels.ly x) := by
  have hlx := hgrown.lo_le_lx hfit.lower hfree x
  have hhx := hgrown.lx_le x
  have hly := hgrown.ly_nonneg x
  have hhy := hgrown.ly_le hm hfit.lower hfit.upper hfree x x
  have hbottom := hfit.bottom
  have hsum := hfit.sum
  unfold InType
  omega

theorem EntriesFit.reduced_lt (hfit : EntriesFit top lo hi cost) (hm : m.Valid)
    (hgrown : labels.Grown cost m hi) {free : Fin n} (hfree : m.yx free = none) (x y : Fin n) :
    labels.reduced cost x y < top := by
  have hhx := hgrown.lx_le x
  have hhy := hgrown.ly_le hm hfit.lower hfit.upper hfree y x
  have hcost := hfit.lower x y
  have hspread := hfit.spread
  unfold Labels.reduced
  omega

theorem computeSlack_eq (hfit : EntriesFit top lo hi cost) (hm : m.Valid) {s : Search n}
    (hgrown : s.Grown cost m hi) {free : Fin n} (hfree : m.yx free = none) (x : Fin n) :
    computeSlack top cost x s = some (s.lowerSlack cost x) :=
  if_pos fun y => hfit.inType hm hgrown hfree x y

end Range

/-- What holds before and after every step of a search that has reached `reached`. -/
structure SearchInvariant (cost : Fin n → Fin n → Int) (m : Matching (Fin n) (Fin n)) (hi : Int)
    (root : Fin n) (reached : List (Fin n)) (s : Search n) : Prop where
  valid : m.Valid
  grown : s.Grown cost m hi
  tree : Tree m.xy (s.Tight cost) s.augPath root reached
  mem_S : ∀ x, s.S x = true ↔ x ∈ reached
  mem_T : ∀ y, s.T y = true ↔ ∃ x ∈ reached, m.yx y = some x
  slack_le : ∀ x ∈ reached, ∀ y, s.slack y ≤ s.reduced cost x y
  slackx_mem : ∀ y, s.slackx y ∈ reached
  slack_eq : ∀ y, s.slack y = s.reduced cost (s.slackx y) y
  q_mem : ∀ x ∈ s.q, x ∈ reached
  start_edge : ∀ x y, s.start = some (x, y) → x ∈ reached ∧ s.Tight cost x y ∧ m.yx y = none

/-- The columns outside `T`. -/
def Search.uncovered (s : Search n) : Nat :=
  (Finset.univ.filter fun y => s.T y ≠ true).card

theorem Search.uncovered_le (s : Search n) : s.uncovered ≤ n := by
  have hcard := Finset.card_filter_le Finset.univ fun y => s.T y ≠ true
  rwa [Finset.card_univ, Fintype.card_fin] at hcard

theorem Search.uncovered_cover {s : Search n} {y : Fin n} (hy : s.T y = false) :
    (s.cover y).uncovered + 1 = s.uncovered := by
  have hset : (Finset.univ.filter fun z => (s.cover y).T z ≠ true) =
      (Finset.univ.filter fun z => s.T z ≠ true).erase y := by
    ext z
    by_cases hz : z = y
    · simp [Search.cover, hz]
    · simp [Search.cover, hz]
  unfold Search.uncovered
  rw [hset]
  exact Finset.card_erase_add_one (Finset.mem_filter.mpr ⟨Finset.mem_univ y, by simp [hy]⟩)

/-- A step that covers columns one by one, queueing a row for each. -/
structure Progress (s s' : Search n) : Prop where
  work : s'.q.length + s'.uncovered = s.q.length + s.uncovered
  uncovered_le : s'.uncovered ≤ s.uncovered

theorem Progress.refl (s : Search n) : Progress s s := ⟨rfl, le_refl _⟩

theorem Progress.trans {s s' s'' : Search n} (h : Progress s s') (h' : Progress s' s'') :
    Progress s s'' :=
  ⟨h'.work.trans h.work, h'.uncovered_le.trans h.uncovered_le⟩

namespace SearchInvariant
variable {top lo hi : Int} {cost : Fin n → Fin n → Int} {m : Matching (Fin n) (Fin n)}
  {root : Fin n} {reached : List (Fin n)} {s : Search n}

theorem exists_free (h : SearchInvariant cost m hi root reached s) : ∃ y, m.yx y = none :=
  h.valid.exists_free_column rfl h.tree.root_unmatched

theorem not_covered_of_free (h : SearchInvariant cost m hi root reached s) {y : Fin n}
    (hy : m.yx y = none) : s.T y ≠ true := by
  intro hT
  obtain ⟨x, _, hx⟩ := (h.mem_T y).mp hT
  rw [hy] at hx
  cases hx

theorem covered_iff (h : SearchInvariant cost m hi root reached s) {x y : Fin n}
    (hxy : m.xy x = some y) : s.S x = true ↔ s.T y = true := by
  have hyx := (h.valid.xy_iff x y).mp hxy
  rw [h.mem_S, h.mem_T]
  constructor
  · exact fun hx => ⟨x, hx, hyx⟩
  · intro ⟨z, hz, hyz⟩
    rw [hyx] at hyz
    cases hyz
    exact hz

theorem not_reached (h : SearchInvariant cost m hi root reached s) {x y : Fin n}
    (hyx : m.yx y = some x) (hy : s.T y = false) : x ∉ reached := by
  intro hx
  rw [(h.mem_T y).mpr ⟨x, hx, hyx⟩] at hy
  cases hy

theorem slack_nonneg (h : SearchInvariant cost m hi root reached s) (y : Fin n) :
    0 ≤ s.slack y := by
  rw [h.slack_eq]
  exact h.grown.feasible.reduced_nonneg _ _

theorem tight_slackx (h : SearchInvariant cost m hi root reached s) {y : Fin n}
    (hy : s.slack y = 0) : s.Tight cost (s.slackx y) y := by
  rw [Labels.tight_iff_reduced, ← h.slack_eq]
  exact hy

/-- Finding an augmenting edge changes nothing else. -/
theorem found (h : SearchInvariant cost m hi root reached s) {x y : Fin n} (hx : x ∈ reached)
    (hxy : s.Tight cost x y) (hy : m.yx y = none) :
    SearchInvariant cost m hi root reached { s with start := some (x, y) } :=
  { h with
    start_edge := by
      intro x' y' heq
      cases heq
      exact ⟨hx, hxy, hy⟩ }

theorem dequeue (h : SearchInvariant cost m hi root reached s) {q : List (Fin n)}
    (hq : ∀ x ∈ q, x ∈ s.q) : SearchInvariant cost m hi root reached { s with q := q } :=
  { h with q_mem := fun x hx => h.q_mem x (hq x hx) }

end SearchInvariant

/-- `compute_slack` extends the slacks from the rows of `reached` to `x`. -/
theorem lowerSlack_exact {cost : Fin n → Fin n → Int} {s : Search n} (reached : List (Fin n))
    (x : Fin n) (hle : ∀ z ∈ reached, ∀ y, s.slack y ≤ s.reduced cost z y)
    (hexact : ∀ y, (s.slackx y ∈ reached ∧ s.slack y = s.reduced cost (s.slackx y) y) ∨
      s.reduced cost x y < s.slack y) :
    (∀ z ∈ x :: reached, ∀ y,
      (s.lowerSlack cost x).slack y ≤ (s.lowerSlack cost x).reduced cost z y) ∧
    ∀ y, (s.lowerSlack cost x).slackx y ∈ x :: reached ∧ (s.lowerSlack cost x).slack y =
      (s.lowerSlack cost x).reduced cost ((s.lowerSlack cost x).slackx y) y := by
  constructor
  · intro z hz y
    change (if s.reduced cost x y < s.slack y then s.reduced cost x y else s.slack y) ≤
      s.reduced cost z y
    cases List.mem_cons.mp hz with
    | inl heq =>
      subst heq
      split <;> omega
    | inr hmem =>
      have := hle z hmem y
      split <;> omega
  · intro y
    by_cases hlt : s.reduced cost x y < s.slack y
    · simp only [Search.lowerSlack, if_pos hlt]
      exact ⟨List.mem_cons_self, trivial⟩
    · simp only [Search.lowerSlack, if_neg hlt]
      have hold := (hexact y).resolve_right hlt
      exact ⟨List.mem_cons_of_mem _ hold.1, hold.2⟩

section Steps
variable {top lo hi : Int} {cost : Fin n → Fin n → Int} {m : Matching (Fin n) (Fin n)}
  {root : Fin n} {reached : List (Fin n)} {s : Search n}

/-- Covering a matched column reaches the row it is matched to. -/
theorem SearchInvariant.reach_cover (hfit : EntriesFit top lo hi cost)
    (h : SearchInvariant cost m hi root reached s) {p x y : Fin n} (hp : p ∈ reached)
    (hpy : s.Tight cost p y) (hyx : m.yx y = some x) (hy : s.T y = false)
    (hstart : s.start = none) :
    ∃ s', reach top cost p x (s.cover y) = some s' ∧
      SearchInvariant cost m hi root (x :: reached) s' ∧ Progress s s' ∧
      s'.uncovered < s.uncovered ∧ s'.start = none := by
  obtain ⟨free, hfree⟩ := h.exists_free
  have hxy := (h.valid.xy_iff x y).mpr hyx
  have hx := h.not_reached hyx hy
  have hcovered := Search.uncovered_cover hy
  have hgrown : ((s.cover y).enter p x).Grown cost m hi := h.grown
  obtain ⟨hle, hexact⟩ := lowerSlack_exact (s := (s.cover y).enter p x) reached x h.slack_le
    fun z => Or.inl ⟨h.slackx_mem z, h.slack_eq z⟩
  refine ⟨((s.cover y).enter p x).lowerSlack cost x,
    computeSlack_eq hfit h.valid hgrown hfree x, ?_, ⟨?_, ?_⟩, ?_, hstart⟩
  · exact
      { valid := h.valid
        grown := h.grown
        tree := h.tree.extend hp hx hxy hpy
        mem_S := by
          intro z
          change Function.update s.S x true z = true ↔ _
          by_cases hz : z = x
          · simp [hz]
          · rw [Function.update_of_ne hz, h.mem_S, List.mem_cons, or_iff_right hz]
        mem_T := by
          intro z
          change Function.update s.T y true z = true ↔ _
          by_cases hz : z = y
          · simp [hz, hyx]
          · rw [Function.update_of_ne hz, h.mem_T]
            constructor
            · exact fun ⟨w, hw, hzw⟩ => ⟨w, List.mem_cons_of_mem _ hw, hzw⟩
            · intro ⟨w, hw, hzw⟩
              refine ⟨w, (List.mem_cons.mp hw).resolve_left fun hwx => hz ?_, hzw⟩
              rw [hwx, ← h.valid.xy_iff, hxy] at hzw
              exact (Option.some.inj hzw).symm
        slack_le := hle
        slackx_mem := fun z => (hexact z).1
        slack_eq := fun z => (hexact z).2
        q_mem := by
          intro z hz
          cases List.mem_append.mp hz with
          | inl hq => exact List.mem_cons_of_mem _ (h.q_mem z hq)
          | inr hnew =>
            rw [List.mem_singleton.mp hnew]
            exact List.mem_cons_self
        start_edge := fun x' y' heq => by
          change s.start = _ at heq
          rw [hstart] at heq
          cases heq }
  · change (s.q ++ [x]).length + (s.cover y).uncovered = _
    rw [List.length_append, List.length_singleton]
    omega
  · change (s.cover y).uncovered ≤ _
    omega
  · change (s.cover y).uncovered < _
    omega

/-- Scanning a row of the tree ends in an augmenting edge, or leaves as much work as before. -/
theorem SearchInvariant.scanRow (hfit : EntriesFit top lo hi cost)
    (h : SearchInvariant cost m hi root reached s) {x : Fin n} (hx : x ∈ reached)
    (ys : List (Fin n)) (hstart : s.start = none) :
    ∃ reached' s', Dlib.scanRow top cost m x ys s = some s' ∧
      SearchInvariant cost m hi root reached' s' ∧ (s'.start = none → Progress s s') := by
  induction ys generalizing reached s with
  | nil => exact ⟨reached, s, rfl, h, fun _ => Progress.refl s⟩
  | cons y ys ih =>
    obtain ⟨free, hfree⟩ := h.exists_free
    have htype := (hfit.inType h.valid h.grown hfree x y).1
    rw [Dlib.scanRow, if_neg (not_not_intro htype)]
    by_cases hedge : cost x y = s.lx x + s.ly y ∧ s.T y = false
    · rw [if_pos hedge]
      cases hyx : m.yx y with
      | none => exact ⟨reached, _, rfl, h.found hx hedge.1 hyx, fun hnone => by cases hnone⟩
      | some x' =>
        obtain ⟨s₁, hreach, hinv, hprogress, _, hstart₁⟩ :=
          h.reach_cover hfit hx hedge.1 hyx hedge.2 hstart
        obtain ⟨reached', s', hscan, hinv', hrest⟩ :=
          ih hinv (List.mem_cons_of_mem _ hx) hstart₁
        refine ⟨reached', s', ?_, hinv', fun hnone => hprogress.trans (hrest hnone)⟩
        change (reach top cost x x' (s.cover y)).bind _ = _
        rw [hreach]
        exact hscan
    · rw [if_neg hedge]
      exact ih h hx hstart

theorem drain_of_start {fuel : Nat} (hpos : 0 < fuel) (hstart : s.start ≠ none) :
    Dlib.drain top cost m fuel s = some s := by
  cases fuel with
  | zero => cases hpos
  | succ fuel =>
    cases hs : s.start with
    | none => exact absurd hs hstart
    | some edge => simp only [Dlib.drain, hs]

/-- The queue drains, or an augmenting edge is found, within the work that is left. -/
theorem SearchInvariant.drain (hfit : EntriesFit top lo hi cost) {fuel : Nat}
    (h : SearchInvariant cost m hi root reached s) (hstart : s.start = none)
    (hfuel : s.q.length + s.uncovered < fuel) :
    ∃ reached' s', Dlib.drain top cost m fuel s = some s' ∧
      SearchInvariant cost m hi root reached' s' ∧
      (s'.start = none → s'.uncovered ≤ s.uncovered) := by
  induction fuel generalizing reached s with
  | zero => cases hfuel
  | succ fuel ih =>
    cases hq : s.q with
    | nil => exact ⟨reached, s, by simp only [Dlib.drain, hstart, hq], h, fun _ => le_refl _⟩
    | cons x q =>
      have hx : x ∈ reached := h.q_mem x (by rw [hq]; exact List.mem_cons_self)
      have hrest := h.dequeue (q := q) fun z hz => by
        rw [hq]
        exact List.mem_cons_of_mem _ hz
      obtain ⟨reached₁, s₁, hscan, hinv, hprogress⟩ :=
        hrest.scanRow hfit hx (List.finRange n) hstart
      have hunfold : Dlib.drain top cost m (fuel + 1) s = Dlib.drain top cost m fuel s₁ := by
        rw [hstart] at hscan
        simp only [Dlib.drain, hstart, hq, hscan, Option.bind_some]
      rw [hq, List.length_cons] at hfuel
      rw [hunfold]
      by_cases hs₁ : s₁.start = none
      · have hstep := hprogress hs₁
        have hwork : s₁.q.length + s₁.uncovered = q.length + s.uncovered := hstep.work
        obtain ⟨reached', s', hdrain, hinv', hle⟩ := ih hinv hs₁ (by omega)
        exact ⟨reached', s', hdrain, hinv', fun hnone => (hle hnone).trans hstep.uncovered_le⟩
      · exact ⟨reached₁, s₁, drain_of_start (by omega) hs₁, hinv, fun hnone => absurd hnone hs₁⟩

/-- `delta` is the least slack outside `T`, and some column has it. -/
theorem SearchInvariant.delta_spec (hfit : EntriesFit top lo hi cost)
    (h : SearchInvariant cost m hi root reached s) :
    0 ≤ delta top s ∧ (∀ y, s.T y ≠ true → delta top s ≤ s.slack y) ∧
      ∃ y, s.T y ≠ true ∧ delta top s = s.slack y := by
  obtain ⟨_, hall, hfrom⟩ := Library.foldl_best (· ≤ ·) s.slack (fun y => s.T y ≠ true)
    (fun d y => if s.T y = true then d else min d (s.slack y)) le_refl
    (fun _ _ _ => le_trans) (fun d y => by split <;> omega)
    (fun d y hy => by rw [if_neg hy]; omega)
    (fun d y => by
      split
      · exact Or.inl rfl
      · cases le_total d (s.slack y) with
        | inl hle => exact Or.inl (min_eq_left hle)
        | inr hle => exact Or.inr ⟨by assumption, min_eq_right hle⟩) (List.finRange n) top
  have hbelow : ∀ y, s.T y ≠ true → delta top s ≤ s.slack y := fun y =>
    hall y (List.mem_finRange y)
  obtain ⟨free, hfree⟩ := h.exists_free
  cases hfrom with
  | inl htop =>
    have hlt := hfit.reduced_lt h.valid h.grown hfree (s.slackx free) free
    have hle := hbelow free (h.not_covered_of_free hfree)
    rw [h.slack_eq] at hle
    unfold delta at hle
    omega
  | inr hattained =>
    obtain ⟨y, _, hy, heq⟩ := hattained
    have heq : delta top s = s.slack y := heq
    exact ⟨heq ▸ h.slack_nonneg y, hbelow, y, hy, heq⟩

theorem SearchInvariant.grown_improve (hfit : EntriesFit top lo hi cost)
    (h : SearchInvariant cost m hi root reached s) :
    (s.improve (delta top s)).Grown cost m hi := by
  obtain ⟨hnonneg, hbelow, _⟩ := h.delta_spec hfit
  apply h.grown.shift hnonneg _ (fun x y => h.covered_iff) fun y => h.not_covered_of_free
  intro x y hx hy
  exact (hbelow y hy).trans (h.slack_le x ((h.mem_S x).mp hx) y)

theorem SearchInvariant.reduced_improve (h : SearchInvariant cost m hi root reached s) {x : Fin n}
    (hx : x ∈ reached) (y : Fin n) (d : Int) : (s.improve d).reduced cost x y =
      if s.T y = true then s.reduced cost x y else s.reduced cost x y - d := by
  have hS := (h.mem_S x).mpr hx
  by_cases hy : s.T y = true
  · rw [if_pos hy]
    exact Labels.reduced_shift_of_iff (by rw [hS, hy])
  · rw [if_neg hy]
    exact Labels.reduced_shift_of_crossing hS hy

/-- Improving the labels overflows nothing. -/
theorem SearchInvariant.improve_inType (hfit : EntriesFit top lo hi cost)
    (h : SearchInvariant cost m hi root reached s) (i : Fin n) :
    (s.S i = true → InType top (s.lx i - delta top s)) ∧
      (s.T i = true → InType top (s.ly i + delta top s)) ∧
      (s.T i ≠ true → InType top (s.slack i - delta top s)) := by
  obtain ⟨free, hfree⟩ := h.exists_free
  have hgrown := h.grown_improve hfit
  have hlabel := hfit.label_inType h.valid hgrown hfree
  refine ⟨fun hS => ?_, fun hT => ?_, fun hT => ?_⟩
  · have hlx : (s.improve (delta top s)).lx i = s.lx i - delta top s := if_pos hS
    exact hlx ▸ (hlabel i).1
  · have hly : (s.improve (delta top s)).ly i = s.ly i + delta top s := if_pos hT
    exact hly ▸ (hlabel i).2
  · have htype := (hfit.inType h.valid hgrown hfree (s.slackx i) i).2
    rw [h.reduced_improve (h.slackx_mem i), if_neg hT, ← h.slack_eq] at htype
    exact htype

/-- Improving the labels keeps the tree and the slacks, and makes some slack zero. -/
theorem SearchInvariant.relabel (hfit : EntriesFit top lo hi cost)
    (h : SearchInvariant cost m hi root reached s) (hstart : s.start = none) :
    ∃ s', Dlib.relabel top s = some s' ∧ SearchInvariant cost m hi root reached s' ∧
      s'.uncovered = s.uncovered ∧ s'.start = none ∧
      ∃ y, s'.T y = false ∧ s'.slack y = 0 := by
  obtain ⟨_, _, y₀, hy₀, hdelta⟩ := h.delta_spec hfit
  have hslack : ∀ y, (s.improve (delta top s)).slack y =
      if s.T y = true then s.slack y else s.slack y - delta top s := fun y => rfl
  refine ⟨s.improve (delta top s), if_pos (h.improve_inType hfit), ?_, rfl, hstart, y₀, ?_, ?_⟩
  · exact
      { valid := h.valid
        grown := h.grown_improve hfit
        tree := by
          refine h.tree.congr (fun _ _ => rfl) fun p hp x hx y hxy hpy => ?_
          have hS : s.S p = true ↔ s.T y = true := by
            rw [← h.covered_iff hxy, (h.mem_S p).mpr hp, (h.mem_S x).mpr hx]
          exact (Labels.tight_shift_of_iff hS).mpr hpy
        mem_S := h.mem_S
        mem_T := h.mem_T
        slack_le := by
          intro x hx y
          have hle := h.slack_le x hx y
          rw [h.reduced_improve hx, hslack]
          split <;> omega
        slackx_mem := h.slackx_mem
        slack_eq := by
          intro y
          rw [hslack, h.slack_eq]
          exact (h.reduced_improve (h.slackx_mem y) y _).symm
        q_mem := h.q_mem
        start_edge := fun x y heq => by
          change s.start = _ at heq
          rw [hstart] at heq
          cases heq }
  · exact Bool.not_eq_true _ ▸ hy₀
  · rw [hslack, if_neg hy₀, hdelta, sub_self]

/-- A column with zero slack is an augmenting edge, or it is covered. -/
theorem SearchInvariant.pickColumns (hfit : EntriesFit top lo hi cost)
    (h : SearchInvariant cost m hi root reached s) (ys : List (Fin n)) (hstart : s.start = none) :
    ∃ reached' s', Dlib.pickColumns top cost m ys s = some s' ∧
      SearchInvariant cost m hi root reached' s' ∧ (s'.start = none → Progress s s' ∧
        ((∃ y ∈ ys, s.T y = false ∧ s.slack y = 0) → s'.uncovered < s.uncovered)) := by
  induction ys generalizing reached s with
  | nil =>
    exact ⟨reached, s, rfl, h, fun _ => ⟨Progress.refl s, fun ⟨y, hy, _⟩ =>
      absurd hy List.not_mem_nil⟩⟩
  | cons y ys ih =>
    rw [Dlib.pickColumns]
    by_cases hzero : s.T y = false ∧ s.slack y = 0
    · rw [if_pos hzero]
      have htight := h.tight_slackx hzero.2
      cases hyx : m.yx y with
      | none =>
        exact ⟨reached, _, rfl, h.found (h.slackx_mem y) htight hyx, fun hnone => by cases hnone⟩
      | some x' =>
        have hS : s.S x' = false := by
          rw [← Bool.not_eq_true, h.mem_S]
          exact h.not_reached hyx hzero.1
        obtain ⟨s₁, hreach, hinv, hprogress, hless, hstart₁⟩ :=
          h.reach_cover hfit (h.slackx_mem y) htight hyx hzero.1 hstart
        obtain ⟨reached', s', hpick, hinv', hrest⟩ := ih hinv hstart₁
        refine ⟨reached', s', ?_, hinv', fun hnone => ?_⟩
        · dsimp only
          rw [if_pos hS, hreach]
          exact hpick
        · have hstep := (hrest hnone).1
          exact ⟨hprogress.trans hstep, fun _ => hstep.uncovered_le.trans_lt hless⟩
    · rw [if_neg hzero]
      obtain ⟨reached', s', hpick, hinv', hrest⟩ := ih h hstart
      refine ⟨reached', s', hpick, hinv', fun hnone => ⟨(hrest hnone).1, ?_⟩⟩
      intro ⟨z, hz, hzero'⟩
      apply (hrest hnone).2
      refine ⟨z, (List.mem_cons.mp hz).resolve_left fun heq => hzero ?_, hzero'⟩
      rw [← heq]
      exact hzero'

/-- Every search ends in an augmenting edge: each improvement covers a column more, and one
free column is never covered. -/
theorem SearchInvariant.search (hfit : EntriesFit top lo hi cost) (fuel : Nat)
    (h : SearchInvariant cost m hi root reached s)
    (hwork : s.start = none → s.q.length + s.uncovered < n + 2)
    (hfuel : s.start = none → s.uncovered < fuel) (hpos : 0 < fuel) :
    ∃ reached' s', Dlib.search top cost m fuel s = some s' ∧
      SearchInvariant cost m hi root reached' s' ∧ s'.start ≠ none := by
  induction fuel generalizing reached s with
  | zero => cases hpos
  | succ fuel ih =>
    rw [Dlib.search]
    by_cases hstart : s.start = none
    · rw [if_neg (by simp [hstart])]
      obtain ⟨reached₁, s₁, hdrain, hinv₁, hle⟩ := h.drain hfit hstart (hwork hstart)
      rw [hdrain, Option.bind_some]
      by_cases hstart₁ : s₁.start = none
      · rw [if_neg (by simp [hstart₁])]
        obtain ⟨s₂, hrelabel, hinv₂, hsame, hstart₂, y, hy, hslack⟩ := hinv₁.relabel hfit hstart₁
        have hcleared := hinv₂.dequeue (q := []) fun z hz => absurd hz List.not_mem_nil
        obtain ⟨reached₃, s₃, hpick, hinv₃, hrest⟩ :=
          hcleared.pickColumns hfit (List.finRange n) hstart₂
        rw [hrelabel, Option.bind_some, hpick, Option.bind_some]
        have hbefore := hfuel hstart
        have hafter := hle hstart₁
        apply ih hinv₃
        · intro hnone
          have hprogress : s₃.q.length + s₃.uncovered = 0 + s₂.uncovered := (hrest hnone).1.work
          have := s₂.uncovered_le
          omega
        · intro hnone
          have hless : s₃.uncovered < s₂.uncovered :=
            (hrest hnone).2 ⟨y, List.mem_finRange y, hy, hslack⟩
          omega
        · obtain ⟨free, hfree⟩ := h.exists_free
          have hone : 0 < s.uncovered := Finset.card_pos.mpr ⟨free,
            Finset.mem_filter.mpr ⟨Finset.mem_univ free, h.not_covered_of_free hfree⟩⟩
          omega
      · rw [if_pos (Option.isSome_iff_ne_none.mpr hstart₁)]
        exact ⟨reached₁, s₁, rfl, hinv₁, hstart₁⟩
    · rw [if_pos (Option.isSome_iff_ne_none.mpr hstart)]
      exact ⟨reached, s, rfl, h, hstart⟩

end Steps

end BlobTracking.Dlib
