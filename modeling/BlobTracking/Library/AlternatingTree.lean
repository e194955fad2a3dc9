import Mathlib.Data.Fintype.EquivFin
import Mathlib.Logic.Function.Basic

/-! Partial matchings kept in two arrays, one from rows to columns and one back.
A search grows a tree of rows from an unmatched root; flipping the edges along
the tree's parent pointers matches one row more and unmatches none. -/
namespace BlobTracking.Library.AlternatingTree

@[ext] structure Matching (X Y : Type) where
  xy : X → Option Y
  yx : Y → Option X

namespace Matching

def empty : Matching X Y := ⟨fun _ => none, fun _ => none⟩

/-- The two arrays agree, except at one column that no row is matched to. -/
structure ValidBut (m : Matching X Y) (free : Option Y) : Prop where
  agree : ∀ x y, some y ≠ free → (m.xy x = some y ↔ m.yx y = some x)
  unmatched : ∀ x y, some y = free → m.xy x ≠ some y

abbrev Valid (m : Matching X Y) : Prop := m.ValidBut none

def Within (edge : X → Y → Prop) (m : Matching X Y) : Prop :=
  ∀ x y, m.xy x = some y → edge x y

theorem Valid.xy_iff {m : Matching X Y} (h : m.Valid) (x : X) (y : Y) :
    m.xy x = some y ↔ m.yx y = some x :=
  h.agree x y (by simp)

theorem Valid.validBut {m : Matching X Y} (h : m.Valid) {y : Y} (hfree : m.yx y = none) :
    m.ValidBut (some y) where
  agree x z _ := h.xy_iff x z
  unmatched x z hz hx := by
    rw [Option.some.inj hz] at hx
    rw [(h.xy_iff x y).mp hx] at hfree
    cases hfree

theorem valid_empty : (empty : Matching X Y).Valid where
  agree _ _ _ := by simp [empty]
  unmatched _ _ h := by cases h

theorem Valid.injective {m : Matching X Y} (h : m.Valid) {x x' : X} {y : Y}
    (hx : m.xy x = some y) (hx' : m.xy x' = some y) : x = x' := by
  rw [h.xy_iff] at hx hx'
  exact Option.some.inj (hx.symm.trans hx')

variable [DecidableEq X] [DecidableEq Y]

/-- `yx[y] = x; xy[x] = y`. -/
def assign (m : Matching X Y) (x : X) (y : Y) : Matching X Y :=
  ⟨Function.update m.xy x (some y), Function.update m.yx y (some x)⟩

@[simp] theorem assign_xy_self (m : Matching X Y) (x : X) (y : Y) :
    (m.assign x y).xy x = some y := by
  simp [assign]

theorem assign_xy_of_ne (m : Matching X Y) {x z : X} (y : Y) (h : z ≠ x) :
    (m.assign x y).xy z = m.xy z := by
  simp [assign, h]

@[simp] theorem assign_yx_self (m : Matching X Y) (x : X) (y : Y) :
    (m.assign x y).yx y = some x := by
  simp [assign]

theorem assign_yx_of_ne (m : Matching X Y) (x : X) {y z : Y} (h : z ≠ y) :
    (m.assign x y).yx z = m.yx z := by
  simp [assign, h]

/-- Taking the free column for `x` frees the column `x` had. -/
theorem ValidBut.assign {m : Matching X Y} {y : Y} (h : m.ValidBut (some y)) (x : X) :
    (m.assign x y).ValidBut (m.xy x) where
  agree x' z hz := by
    by_cases hx : x' = x
    · subst hx
      by_cases hzy : z = y
      · subst hzy
        simp
      · rw [assign_xy_self, assign_yx_of_ne m x' hzy, ← h.agree x' z (by simpa using hzy)]
        simp only [Option.some.injEq]
        exact ⟨fun hyz => absurd hyz.symm hzy, fun hxz => absurd hxz.symm hz⟩
    · rw [assign_xy_of_ne m y hx]
      by_cases hzy : z = y
      · subst hzy
        simp only [assign_yx_self, Option.some.injEq]
        exact ⟨fun hxz => absurd hxz (h.unmatched x' z rfl), fun hxx => absurd hxx.symm hx⟩
      · rw [assign_yx_of_ne m x hzy]
        exact h.agree x' z (by simpa using hzy)
  unmatched x' z hz := by
    by_cases hx : x' = x
    · subst hx
      intro hxy
      rw [assign_xy_self] at hxy
      cases hxy
      exact h.unmatched x' y rfl hz.symm
    · rw [assign_xy_of_ne m y hx]
      intro hxz
      have hzy : some z ≠ some y := fun heq => h.unmatched x z heq hz.symm
      have hback := (h.agree x' z hzy).mp hxz
      rw [(h.agree x z hzy).mp hz.symm] at hback
      exact hx (Option.some.inj hback).symm

theorem Within.assign {edge : X → Y → Prop} {m : Matching X Y} (h : m.Within edge)
    {x : X} {y : Y} (hedge : edge x y) : (m.assign x y).Within edge := by
  intro x' z hxz
  by_cases hx : x' = x
  · subst hx
    rw [assign_xy_self] at hxz
    cases hxz
    exact hedge
  · rw [assign_xy_of_ne m y hx] at hxz
    exact h x' z hxz

/-- `for (cx = x, cy = y; cx != -1; cx = parent[cx], cy = ty) { ty = xy[cx]; ... }`. -/
def flip (parent : X → Option X) : Nat → Option X → Option Y → Matching X Y →
    Option (Matching X Y)
  | _, none, _, m => some m
  | fuel + 1, some cx, some cy, m => flip parent fuel (parent cx) (m.xy cx) (m.assign cx cy)
  | _, some _, _, _ => none

/-- What a flip achieves: one row more is matched, by edges of the same kind. -/
structure Augmented (edge : X → Y → Prop) (root : X) (m m' : Matching X Y) : Prop where
  valid : m'.Valid
  within : m'.Within edge
  row_iff : ∀ x, m'.xy x = none ↔ m.xy x = none ∧ x ≠ root
  column : ∀ y, m'.yx y = none → m.yx y = none

theorem Augmented.of_assign {edge : X → Y → Prop} {root x : X} {y : Y} {m m' : Matching X Y}
    (h : Augmented edge root (m.assign x y) m') (hx : x = root ∨ m.xy x ≠ none) :
    Augmented edge root m m' where
  valid := h.valid
  within := h.within
  row_iff x' := by
    rw [h.row_iff]
    by_cases hxx : x' = x
    · subst hxx
      simp only [assign_xy_self, reduceCtorEq, false_and, false_iff, not_and, not_not]
      intro hnone
      exact hx.resolve_right fun hne => hne hnone
    · rw [assign_xy_of_ne m y hxx]
  column z hz := by
    have hassign := h.column z hz
    by_cases hzy : z = y
    · subst hzy
      rw [assign_yx_self] at hassign
      cases hassign
    · rwa [assign_yx_of_ne m x hzy] at hassign

end Matching

/-- The rows reached so far, the latest first. Every row but the root was reached
from an earlier one, along an edge to the column it is matched to. -/
inductive Tree (xy : X → Option Y) (edge : X → Y → Prop) (parent : X → Option X) (root : X) :
    List X → Prop
  | root : parent root = none → xy root = none → Tree xy edge parent root [root]
  | grow : Tree xy edge parent root reached → p ∈ reached → x ∉ reached →
      parent x = some p → xy x = some y → edge p y → Tree xy edge parent root (x :: reached)

namespace Tree
variable {xy : X → Option Y} {edge : X → Y → Prop} {parent : X → Option X} {root : X}
  {reached : List X}

theorem nodup (h : Tree xy edge parent root reached) : reached.Nodup := by
  induction h with
  | root _ _ => exact List.nodup_singleton _
  | grow _ _ hx _ _ _ ih => exact List.nodup_cons.mpr ⟨hx, ih⟩

theorem root_unmatched (h : Tree xy edge parent root reached) : xy root = none := by
  induction h with
  | root _ hroot => exact hroot
  | grow _ _ _ _ _ _ ih => exact ih

/-- The tree only depends on the parents of the reached rows, and on the edges
from them to the columns they are matched to. -/
theorem congr {edge' : X → Y → Prop} {parent' : X → Option X}
    (h : Tree xy edge parent root reached) (hparent : ∀ x ∈ reached, parent' x = parent x)
    (hedge : ∀ p ∈ reached, ∀ x ∈ reached, ∀ y, xy x = some y → edge p y → edge' p y) :
    Tree xy edge' parent' root reached := by
  induction h with
  | root hnone hfree =>
    exact .root ((hparent _ (List.mem_singleton_self _)).trans hnone) hfree
  | grow hreached hp hx hpx hxy hpy ih =>
    refine .grow (ih (fun z hz => hparent z (List.mem_cons_of_mem _ hz)) fun q hq z hz =>
      hedge q (List.mem_cons_of_mem _ hq) z (List.mem_cons_of_mem _ hz)) hp hx ?_ hxy ?_
    · rw [hparent _ List.mem_cons_self, hpx]
    · exact hedge _ (List.mem_cons_of_mem _ hp) _ List.mem_cons_self _ hxy hpy

/-- A row outside the tree joins it below `p`. -/
theorem extend [DecidableEq X] (h : Tree xy edge parent root reached) {p x : X} {y : Y}
    (hp : p ∈ reached) (hx : x ∉ reached) (hxy : xy x = some y) (hpy : edge p y) :
    Tree xy edge (Function.update parent x (some p)) root (x :: reached) := by
  have hold : ∀ z ∈ reached, Function.update parent x (some p) z = parent z := by
    intro z hz
    exact Function.update_of_ne (ne_of_mem_of_not_mem hz hx) _ _
  exact .grow (h.congr hold fun _ _ _ _ _ _ hedge => hedge) hp hx
    (Function.update_self x (some p) parent) hxy hpy

variable [DecidableEq X] [DecidableEq Y]

/-- Flipping from any reached row ends at the root, one step per reached row at most. -/
theorem flip_augmented (h : Tree xy edge parent root reached) {m : Matching X Y} {x : X} {y : Y}
    {fuel : Nat} (hx : x ∈ reached) (hm : ∀ z ∈ reached, m.xy z = xy z)
    (hvalid : m.ValidBut (some y)) (hwithin : m.Within edge) (hedge : edge x y)
    (hfuel : reached.length ≤ fuel) :
    ∃ m', Matching.flip parent fuel (some x) (some y) m = some m' ∧
      Matching.Augmented edge root m m' := by
  induction h generalizing m x y fuel with
  | root hnone hfree =>
    cases List.mem_singleton.mp hx
    cases fuel with
    | zero => cases hfuel
    | succ fuel =>
      have hroot : m.xy root = none := (hm root hx).trans hfree
      have hfinal := hvalid.assign root
      rw [hroot] at hfinal
      have haug : Matching.Augmented edge root (m.assign root y) (m.assign root y) :=
        { valid := hfinal
          within := hwithin.assign hedge
          row_iff := by
            intro z
            by_cases hz : z = root
            · simp [hz]
            · simp [hz]
          column := fun _ hcolumn => hcolumn }
      exact ⟨m.assign root y, by rw [Matching.flip, hnone, Matching.flip],
        haug.of_assign (Or.inl rfl)⟩
  | @grow reached p x₀ y₀ hreached hp hx₀ hparent hxy hpy ih =>
    cases List.mem_cons.mp hx with
    | inr hmem =>
      exact ih hmem (fun z hz => hm z (List.mem_cons_of_mem _ hz)) hvalid hwithin hedge
        ((Nat.le_succ _).trans hfuel)
    | inl heq =>
      subst heq
      cases fuel with
      | zero => cases hfuel
      | succ fuel =>
        have hold : m.xy x = some y₀ := (hm x List.mem_cons_self).trans hxy
        have hrest : ∀ z ∈ reached, (m.assign x y).xy z = xy z := by
          intro z hz
          rw [Matching.assign_xy_of_ne m y (ne_of_mem_of_not_mem hz hx₀)]
          exact hm z (List.mem_cons_of_mem _ hz)
        have hnext := hvalid.assign x
        rw [hold] at hnext
        obtain ⟨m', hflip, haug⟩ := ih hp hrest hnext (hwithin.assign hedge) hpy
          (Nat.le_of_succ_le_succ hfuel)
        refine ⟨m', ?_, haug.of_assign (Or.inr (by simp [hold]))⟩
        rw [Matching.flip, hparent, hold, hflip]

end Tree

section Counting
variable [Fintype X] [Fintype Y]

/-- Where a row is unmatched, so is a column. -/
theorem Matching.Valid.exists_free_column {m : Matching X Y} (h : m.Valid)
    (hcard : Fintype.card X = Fintype.card Y) {x : X} (hx : m.xy x = none) :
    ∃ y, m.yx y = none := by
  by_contra hall
  have hsome : ∀ y, ∃ z, m.yx y = some z := fun y =>
    Option.ne_none_iff_exists'.mp fun hnone => hall ⟨y, hnone⟩
  choose row hrow using hsome
  have hinj : Function.Injective row := by
    intro y y' hyy
    have hy := (h.xy_iff _ _).mpr (hrow y)
    have hy' := (h.xy_iff _ _).mpr (hrow y')
    rw [hyy] at hy
    exact Option.some.inj (hy.symm.trans hy')
  have hsurj := ((Fintype.bijective_iff_injective_and_card row).mpr ⟨hinj, hcard.symm⟩).2
  obtain ⟨y, rfl⟩ := hsurj x
  rw [(h.xy_iff _ _).mpr (hrow y)] at hx
  cases hx

end Counting

end BlobTracking.Library.AlternatingTree
