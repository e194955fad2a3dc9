import BlobTracking.Dlib.MaxCostAssignment
import BlobTracking.Library.EqualityGraph
import BlobTracking.Library.ForLoop

/-! `dlib::max_cost_assignment`, the Hungarian algorithm, on a signed type with
maximum `top`. A vector is a function of its index, minus one is `none`, and an
arithmetic result outside the type is a fault. The unbounded loops carry fuel;
running out of it is a fault too. -/
namespace BlobTracking.Dlib
open Library (forLoop)
open Library.AlternatingTree Library.EqualityGraph

/-- The values of the signed type whose `numeric_limits<type>::max()` is `top`. -/
def InType (top v : Int) : Prop := -top - 1 ≤ v ∧ v ≤ top

instance : Decidable (InType top v) := inferInstanceAs (Decidable (_ ∧ _))

/-- The variables of one iteration of the main loop. `start` is `x_start` and
`y_start`, set together with `found_augmenting_path`. -/
structure Search (n : Nat) extends Labels (Fin n) (Fin n) Int where
  slack : Fin n → Int
  slackx : Fin n → Fin n
  q : List (Fin n)
  S : Fin n → Bool
  T : Fin n → Bool
  augPath : Fin n → Option (Fin n)
  start : Option (Fin n × Fin n)

/-- The body of `compute_slack`; its iterations do not depend on one another. -/
def Search.lowerSlack (s : Search n) (cost : Fin n → Fin n → Int) (x : Fin n) : Search n :=
  { s with
    slack := fun y =>
      if s.reduced cost x y < s.slack y then s.reduced cost x y else s.slack y
    slackx := fun y => if s.reduced cost x y < s.slack y then x else s.slackx y }

/-- `T[y] = true`. -/
def Search.cover (s : Search n) (y : Fin n) : Search n :=
  { s with T := Function.update s.T y true }

/-- `q.push_back(x); aug_path[x] = parent; S[x] = true`. -/
def Search.enter (s : Search n) (parent x : Fin n) : Search n :=
  { s with
    q := s.q ++ [x]
    augPath := Function.update s.augPath x (some parent)
    S := Function.update s.S x true }

/-- The labels and slacks improved by `delta`. -/
def Search.improve (s : Search n) (δ : Int) : Search n :=
  { s with
    toLabels := s.toLabels.shift s.S s.T δ
    slack := fun y => if s.T y = true then s.slack y else s.slack y - δ }

section Search
variable (top : Int) (cost : Fin n → Fin n → Int) (m : Matching (Fin n) (Fin n))

def computeSlack (x : Fin n) (s : Search n) : Option (Search n) :=
  if ∀ y, InType top (s.lx x + s.ly y) ∧ InType top (s.reduced cost x y) then
    some (s.lowerSlack cost x)
  else none

def reach (parent x : Fin n) (s : Search n) : Option (Search n) :=
  computeSlack top cost x (s.enter parent x)

/-- The loop over the columns of the row taken from the queue. -/
def scanRow (x : Fin n) : List (Fin n) → Search n → Option (Search n)
  | [], s => some s
  | y :: ys, s =>
    if ¬ InType top (s.lx x + s.ly y) then none
    else if cost x y = s.lx x + s.ly y ∧ s.T y = false then
      match m.yx y with
      | none => some { s with start := some (x, y) }
      | some x' => (reach top cost x x' (s.cover y)).bind (scanRow x ys)
    else scanRow x ys s

/-- `while (q.size() > 0 && !found_augmenting_path)`. -/
def drain : Nat → Search n → Option (Search n)
  | 0, _ => none
  | fuel + 1, s =>
    match s.start, s.q with
    | none, x :: q =>
      (scanRow top cost m x (List.finRange n) { s with q := q }).bind (drain fuel)
    | _, _ => some s

/-- The least slack outside `T`. -/
def delta (s : Search n) : Int :=
  (List.finRange n).foldl (fun d y => if s.T y = true then d else min d (s.slack y)) top

def relabel (s : Search n) : Option (Search n) :=
  let δ := delta top s
  if ∀ i, (s.S i = true → InType top (s.lx i - δ)) ∧ (s.T i = true → InType top (s.ly i + δ)) ∧
      (s.T i ≠ true → InType top (s.slack i - δ)) then
    some (s.improve δ)
  else none

/-- The loop over the columns after the labels were improved. -/
def pickColumns : List (Fin n) → Search n → Option (Search n)
  | [], s => some s
  | y :: ys, s =>
    if s.T y = false ∧ s.slack y = 0 then
      match m.yx y with
      | none => some { s with start := some (s.slackx y, y) }
      | some x' =>
        if s.S x' = false then
          (reach top cost (s.slackx y) x' (s.cover y)).bind (pickColumns ys)
        else pickColumns ys (s.cover y)
    else pickColumns ys s

/-- `while (!found_augmenting_path)`. -/
def search : Nat → Search n → Option (Search n)
  | 0, _ => none
  | fuel + 1, s =>
    if s.start.isSome then some s
    else
      (drain top cost m (n + 2) s).bind fun s =>
        if s.start.isSome then some s
        else
          (relabel top s).bind fun s =>
            (pickColumns top cost m (List.finRange n) { s with q := [] }).bind (search fuel)

end Search

/-- What the iterations of the main loop share. -/
structure Solution (n : Nat) extends Labels (Fin n) (Fin n) Int where
  slackx : Fin n → Fin n
  matching : Matching (Fin n) (Fin n)

/-- Empty sets, unset slacks, and the first unmatched row in the queue. -/
def startSearch (top : Int) (cost : Fin n → Fin n → Int) (solution : Solution n) :
    Option (Search n) :=
  let s : Search n :=
    { toLabels := solution.toLabels
      slack := fun _ => top
      slackx := solution.slackx
      q := []
      S := fun _ => false
      T := fun _ => false
      augPath := fun _ => none
      start := none }
  match (List.finRange n).find? fun x => (solution.matching.xy x).isNone with
  | none => some s
  | some x => computeSlack top cost x { s with q := [x], S := Function.update s.S x true }

/-- One iteration of the main loop: one more row is matched. -/
def growMatching (top : Int) (cost : Fin n → Fin n → Int) (solution : Solution n) :
    Option (Solution n) :=
  (startSearch top cost solution).bind fun s =>
    (search top cost solution.matching (n + 1) s).bind fun s =>
      (Matching.flip s.augPath n (s.start.map Prod.fst) (s.start.map Prod.snd)
        solution.matching).map fun matching =>
          { toLabels := s.toLabels, slackx := s.slackx, matching := matching }

/-- `max(rowm(cost,x))`. -/
def rowMax (cost : Fin n → Fin n → Int) (zero x : Fin n) : Int :=
  (List.finRange n).foldl (fun val y => if val < cost x y then cost x y else val) (cost x zero)

def initialSolution (cost : Fin n → Fin n → Int) (zero : Fin n) : Solution n where
  lx := rowMax cost zero
  ly := fun _ => 0
  slackx := fun _ => zero
  matching := Matching.empty

/-- The vector `xy`. -/
def Solution.assignment (solution : Solution n) : List Int :=
  List.ofFn fun x => match solution.matching.xy x with
    | none => -1
    | some y => (y.val : Int)

/-- `max_cost_assignment(cost)`. Only the empty matrix need not be square. -/
def maxCostAssignment (top : Int) (cost : CostMatrix) : Option (List Int) :=
  if hsize : cost.nr * cost.nc = 0 then some []
  else if cost.nr = cost.nc then
    let entries : Fin cost.nc → Fin cost.nc → Int := fun x y => cost.entry x.val y.val
    let zero : Fin cost.nc := ⟨0, Nat.pos_of_ne_zero (right_ne_zero_of_mul hsize)⟩
    (forLoop cost.nc (fun _ => growMatching top entries) (initialSolution entries zero)).map
      Solution.assignment
  else none

end BlobTracking.Dlib
