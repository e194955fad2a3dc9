import Mathlib.Algebra.BigOperators.Fin
import Mathlib.Data.Fintype.Perm
import Mathlib.Data.List.MinMax
import Mathlib.Data.List.Permutation

/-! The documented interface of `dlib::max_cost_assignment`. The Hungarian
algorithm itself stays a parameter: a solver returns a permutation of the
columns, and, where its optimality matters, one of maximal total cost. -/
namespace BlobTracking.Dlib

/-- `dlib::matrix<int>`; the integers are exact. -/
structure CostMatrix where
  nr : Nat
  nc : Nat
  entry : Nat → Nat → Int

namespace CostMatrix

/-- `dlib::matrix<int> m(nr, nc)`. Entries start at zero where dlib leaves them unset. -/
def create (nr nc : Nat) : CostMatrix := ⟨nr, nc, fun _ _ => 0⟩

/-- `m(i,j) = value`; an index out of range is a fault. -/
def write (m : CostMatrix) (i j : Nat) (value : Int) : Option CostMatrix :=
  if i < m.nr ∧ j < m.nc then
    some { m with entry := fun a b => if a = i ∧ b = j then value else m.entry a b }
  else none

end CostMatrix

/-- `dlib::assignment_cost`. -/
def assignmentCost (cost : CostMatrix) (assignment : List Int) : Int :=
  (assignment.zipIdx.map fun entry => cost.entry entry.2 entry.1.toNat).sum

/-- Row `i` is assigned to column `a[i]`, every column once. -/
structure IsAssignment (n : Nat) (a : List Int) : Prop where
  length_eq : a.length = n
  in_range : ∀ x ∈ a, 0 ≤ x ∧ x < n
  nodup : a.Nodup

/-- What `max_cost_assignment` ensures. -/
structure IsOptimal (cost : CostMatrix) (a : List Int) : Prop where
  isAssignment : IsAssignment cost.nr a
  maximal : ∀ b, IsAssignment cost.nr b → assignmentCost cost b ≤ assignmentCost cost a

abbrev Solver := CostMatrix → List Int

/-- The solver returns some permutation for every square matrix. -/
def Solver.Permutes (solve : Solver) : Prop :=
  ∀ cost, cost.nr = cost.nc → IsAssignment cost.nr (solve cost)

/-- The solver keeps its documented promise for every square matrix. -/
def Solver.Maximises (solve : Solver) : Prop :=
  ∀ cost, cost.nr = cost.nc → IsOptimal cost (solve cost)

theorem Solver.Maximises.permutes {solve : Solver} (h : solve.Maximises) : solve.Permutes :=
  fun cost hsquare => (h cost hsquare).isAssignment

namespace IsAssignment

theorem lt_length (h : IsAssignment n a) (i : Fin n) : i.val < a.length := by
  rw [h.length_eq]
  exact i.isLt

theorem get_range (h : IsAssignment n a) (i : Fin n) :
    0 ≤ a.get ⟨i.val, h.lt_length i⟩ ∧ a.get ⟨i.val, h.lt_length i⟩ < n :=
  h.in_range _ (List.get_mem a _)

def column (h : IsAssignment n a) (i : Fin n) : Fin n :=
  ⟨(a.get ⟨i.val, h.lt_length i⟩).toNat, by have := h.get_range i; omega⟩

theorem column_injective (h : IsAssignment n a) : Function.Injective h.column := by
  intro i j hij
  have hi := h.get_range i
  have hj := h.get_range j
  have hval := congrArg Fin.val hij
  have heq : a.get ⟨i.val, h.lt_length i⟩ = a.get ⟨j.val, h.lt_length j⟩ := by
    simp only [column] at hval
    omega
  have hindex := (List.nodup_iff_injective_get.mp h.nodup) heq
  exact Fin.ext (by simpa using hindex)

noncomputable def toPerm (h : IsAssignment n a) : Equiv.Perm (Fin n) :=
  Equiv.ofBijective h.column (Finite.injective_iff_bijective.mp h.column_injective)

theorem getElem?_eq (h : IsAssignment n a) (i : Fin n) :
    a[i.val]? = some ((h.toPerm i).val : Int) := by
  have hi := h.get_range i
  rw [List.getElem?_eq_getElem (h.lt_length i)]
  change some (a.get ⟨i.val, h.lt_length i⟩) =
    some ((a.get ⟨i.val, h.lt_length i⟩).toNat : Int)
  congr 1
  omega

end IsAssignment

/-- A permutation in the form `max_cost_assignment` returns it. -/
def ofPerm (σ : Equiv.Perm (Fin n)) : List Int :=
  List.ofFn fun i => ((σ i).val : Int)

theorem isAssignment_ofPerm (σ : Equiv.Perm (Fin n)) : IsAssignment n (ofPerm σ) where
  length_eq := List.length_ofFn
  in_range := by
    intro x hx
    obtain ⟨i, rfl⟩ := List.mem_ofFn.mp hx
    have := (σ i).isLt
    omega
  nodup := by
    apply List.nodup_ofFn_ofInjective
    intro i j hij
    exact σ.injective (Fin.ext (by simpa using hij))

theorem IsAssignment.ofPerm_toPerm (h : IsAssignment n a) : ofPerm h.toPerm = a := by
  apply List.ext_getElem?
  intro i
  by_cases hi : i < n
  · rw [h.getElem?_eq ⟨i, hi⟩]
    simp [ofPerm, hi]
  · rw [List.getElem?_eq_none (by simpa [ofPerm] using hi),
      List.getElem?_eq_none (by simpa [h.length_eq] using hi)]

def permCost (cost : CostMatrix) (σ : Equiv.Perm (Fin cost.nr)) : Int :=
  ∑ i, cost.entry i.val (σ i).val

theorem assignmentCost_ofPerm (cost : CostMatrix) (σ : Equiv.Perm (Fin cost.nr)) :
    assignmentCost cost (ofPerm σ) = permCost cost σ := by
  unfold assignmentCost permCost ofPerm
  rw [← List.sum_ofFn]
  congr 1
  apply List.ext_getElem
  · simp
  · intro i _ _
    simp

theorem isOptimal_ofPerm {cost : CostMatrix} {σ : Equiv.Perm (Fin cost.nr)}
    (h : ∀ τ, permCost cost τ ≤ permCost cost σ) : IsOptimal cost (ofPerm σ) where
  isAssignment := isAssignment_ofPerm σ
  maximal b hb := by
    rw [← hb.ofPerm_toPerm, assignmentCost_ofPerm, assignmentCost_ofPerm]
    exact h _

def identitySolver : Solver := fun cost => (List.range cost.nr).map Int.ofNat

theorem isAssignment_of_perm_range {l : List Nat} (h : l.Perm (List.range n)) :
    IsAssignment n (l.map Int.ofNat) where
  length_eq := by rw [List.length_map, h.length_eq, List.length_range]
  in_range := by
    intro x hx
    obtain ⟨k, hk, rfl⟩ := List.mem_map.mp hx
    have := List.mem_range.mp (h.subset hk)
    simp only [Int.ofNat_eq_natCast]
    omega
  nodup := (h.nodup_iff.mpr List.nodup_range).map fun _ _ => Int.ofNat.inj

theorem identitySolver_permutes : identitySolver.Permutes :=
  fun _ _ => isAssignment_of_perm_range (List.Perm.refl _)

theorem IsAssignment.exists_perm_range (h : IsAssignment n a) :
    ∃ l : List Nat, l.Perm (List.range n) ∧ l.map Int.ofNat = a := by
  refine ⟨a.map Int.toNat, ?_, ?_⟩
  · have hnodup : (a.map Int.toNat).Nodup := by
      apply h.nodup.map_on
      intro x hx y hy hxy
      have := (h.in_range x hx).1
      have := (h.in_range y hy).1
      omega
    have hsub : a.map Int.toNat ⊆ List.range n := by
      intro k hk
      obtain ⟨x, hx, rfl⟩ := List.mem_map.mp hk
      have := h.in_range x hx
      exact List.mem_range.mpr (by omega)
    exact (List.subperm_of_subset hnodup hsub).perm_of_length_le (by simp [h.length_eq])
  · rw [List.map_map, List.map_congr_left, List.map_id]
    intro x hx
    have := (h.in_range x hx).1
    simp only [Function.comp_apply, Int.ofNat_eq_natCast, id_eq]
    omega

/-- The best permutation. The order on costs is named: the instance found by search need
not be computable. -/
def bestPermutation (cost : CostMatrix) : Option (List Int) :=
  @List.argmax _ Int Int.instLinearOrder.toPreorder inferInstance (assignmentCost cost)
    ((List.range cost.nr).permutations.map (List.map Int.ofNat))

/-- Search through all permutations: a solver that meets the contract by construction. -/
def bruteForce : Solver := fun cost => (bestPermutation cost).getD []

theorem bruteForce_maximises : bruteForce.Maximises := by
  intro cost _
  unfold bruteForce
  cases hbest : bestPermutation cost with
  | none =>
    unfold bestPermutation at hbest
    rw [List.argmax_eq_none, List.map_eq_nil_iff] at hbest
    have hmem := List.mem_permutations.mpr (List.Perm.refl (List.range cost.nr))
    rw [hbest] at hmem
    cases hmem
  | some best =>
    refine ⟨?_, ?_⟩
    · rcases List.mem_map.mp (List.argmax_mem hbest) with ⟨l, hl, rfl⟩
      exact isAssignment_of_perm_range (List.mem_permutations.mp hl)
    · intro b hb
      rcases hb.exists_perm_range with ⟨l, hl, rfl⟩
      exact List.le_of_mem_argmax
        (List.mem_map_of_mem (List.mem_permutations.mpr hl)) hbest

end BlobTracking.Dlib
