import Mathlib.Data.Finset.Lattice.Union
import Mathlib.Data.Finset.Prod
import Mathlib.Data.Fintype.Prod

/-! Filters that replace every value by the greatest or the least in a window around
it. Two maxima in a row are one maximum over the composed window, and on a grid the
windows that reach a fixed distance each way compose by adding the distances, also
where the border cuts them off. -/
namespace BlobTracking.Library

/-- A window around every position, which lies in it. -/
structure Window (ι : Type*) where
  around : ι → Finset ι
  self_mem : ∀ i, i ∈ around i

namespace Window
variable {ι α : Type*}

theorem nonempty (W : Window ι) (i : ι) : (W.around i).Nonempty := ⟨i, W.self_mem i⟩

@[ext] theorem ext {W V : Window ι} (h : ∀ i, W.around i = V.around i) : W = V := by
  cases W
  cases V
  congr 1
  funext i
  exact h i

/-- All positions in the second window around some position of the first. -/
def comp [DecidableEq ι] (W V : Window ι) : Window ι where
  around i := (W.around i).biUnion V.around
  self_mem i := Finset.mem_biUnion.mpr ⟨i, W.self_mem i, V.self_mem i⟩

def maximum [SemilatticeSup α] (W : Window ι) (x : ι → α) : ι → α := fun i =>
  (W.around i).sup' (W.nonempty i) x

def minimum [SemilatticeInf α] (W : Window ι) (x : ι → α) : ι → α := fun i =>
  (W.around i).inf' (W.nonempty i) x

section Maximum
variable [SemilatticeSup α] (W : Window ι)

theorem le_maximum (x : ι → α) (i : ι) : x i ≤ W.maximum x i :=
  Finset.le_sup' x (W.self_mem i)

theorem maximum_le {x : ι → α} {a : α} (h : ∀ i, x i ≤ a) (i : ι) : W.maximum x i ≤ a :=
  Finset.sup'_le _ x fun j _ => h j

theorem maximum_const (a : α) : W.maximum (fun _ => a) = fun _ => a :=
  funext fun i => Finset.sup'_const (W.nonempty i) a

theorem maximum_maximum [DecidableEq ι] (V : Window ι) (x : ι → α) :
    W.maximum (V.maximum x) = (W.comp V).maximum x :=
  funext fun i => (Finset.sup'_biUnion x (W.nonempty i) V.nonempty).symm

end Maximum

section Minimum
variable [SemilatticeInf α] (W : Window ι)

theorem minimum_le (x : ι → α) (i : ι) : W.minimum x i ≤ x i :=
  Finset.inf'_le x (W.self_mem i)

theorem minimum_const (a : α) : W.minimum (fun _ => a) = fun _ => a :=
  funext fun i => Finset.inf'_const (W.nonempty i) a

theorem minimum_minimum [DecidableEq ι] (V : Window ι) (x : ι → α) :
    W.minimum (V.minimum x) = (W.comp V).minimum x :=
  funext fun i => (Finset.inf'_biUnion x (W.nonempty i) V.nonempty).symm

end Minimum

end Window

/-- How far a window on a grid reaches each way. -/
structure Reach where
  up : Nat
  down : Nat
  left : Nat
  right : Nat

namespace Reach
variable {rows cols : Nat}

def add (r s : Reach) : Reach :=
  ⟨r.up + s.up, r.down + s.down, r.left + s.left, r.right + s.right⟩

def window (r : Reach) (rows cols : Nat) : Window (Fin rows × Fin cols) where
  around p := Finset.univ.filter fun q =>
    (p.1.val ≤ q.1.val + r.up ∧ q.1.val ≤ p.1.val + r.down) ∧
      p.2.val ≤ q.2.val + r.left ∧ q.2.val ≤ p.2.val + r.right
  self_mem p := by simp

theorem mem_window {r : Reach} {p q : Fin rows × Fin cols} :
    q ∈ (r.window rows cols).around p ↔
      (p.1.val ≤ q.1.val + r.up ∧ q.1.val ≤ p.1.val + r.down) ∧
        p.2.val ≤ q.2.val + r.left ∧ q.2.val ≤ p.2.val + r.right := by
  simp [window]

/-- On a line, what two steps reach is reached through a position between the ends. -/
theorem exists_between {n : Nat} {p q : Fin n} {a b c d : Nat} :
    (∃ t : Fin n, (p.val ≤ t.val + a ∧ t.val ≤ p.val + b) ∧
        t.val ≤ q.val + c ∧ q.val ≤ t.val + d) ↔
      p.val ≤ q.val + (a + c) ∧ q.val ≤ p.val + (b + d) := by
  refine ⟨?_, ?_⟩
  · intro h
    rcases h with ⟨t, hfirst, hsecond⟩
    omega
  · intro h
    have hp := p.isLt
    have hq := q.isLt
    by_cases hpq : p.val ≤ q.val
    · exact ⟨⟨min (p.val + b) q.val, by omega⟩, by dsimp only; omega, by dsimp only; omega⟩
    · exact ⟨⟨max (p.val - a) q.val, by omega⟩, by dsimp only; omega, by dsimp only; omega⟩

theorem window_comp (r s : Reach) :
    (r.window rows cols).comp (s.window rows cols) = (r.add s).window rows cols := by
  ext p q
  have hrow := exists_between (p := p.1) (q := q.1) (a := r.up) (b := r.down) (c := s.up)
    (d := s.down)
  have hcol := exists_between (p := p.2) (q := q.2) (a := r.left) (b := r.right) (c := s.left)
    (d := s.right)
  rw [mem_window, add, ← hrow, ← hcol]
  simp only [Window.comp, Finset.mem_biUnion, mem_window, Prod.exists]
  refine ⟨?_, ?_⟩
  · intro h
    rcases h with ⟨t, u, hfirst, hsecond⟩
    exact ⟨⟨t, hfirst.1, hsecond.1⟩, u, hfirst.2, hsecond.2⟩
  · intro h
    rcases h with ⟨⟨t, hrows⟩, u, hcols⟩
    exact ⟨t, u, ⟨hrows.1, hcols.1⟩, hrows.2, hcols.2⟩

end Reach

end BlobTracking.Library
