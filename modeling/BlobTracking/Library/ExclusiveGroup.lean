import Mathlib.Data.Fintype.Card
import Mathlib.Data.List.FinRange

/-! Members that are updated one by one, each on its own input, and cleared all
together whenever more than one of them comes out active. A member that announces
something was active before, so after any number of rounds at most one member is
active, and the next round hears at most one announcement. -/
namespace BlobTracking.Library

structure Member (β ι : Type) where
  update : β → ι → β × Bool
  active : β → Bool
  clear : β → β
  active_of_announced : ∀ b i, (update b i).2 = true → active b = true
  clear_inactive : ∀ b, active (clear b) = false

namespace Member
variable (member : Member β ι) {n : Nat}

def activeCount (group : Fin n → β) : Nat :=
  (Finset.univ.filter fun k => member.active (group k) = true).card

def updated (group : Fin n → β) (inputs : Fin n → ι) (k : Fin n) : β :=
  (member.update (group k) (inputs k)).1

def announces (group : Fin n → β) (inputs : Fin n → ι) (k : Fin n) : Bool :=
  (member.update (group k) (inputs k)).2

/-- The members that announce something, in the order of their updates. -/
def announced (group : Fin n → β) (inputs : Fin n → ι) : List (Fin n) :=
  (List.finRange n).filter (member.announces group inputs)

def clash (group : Fin n → β) (inputs : Fin n → ι) : Bool :=
  1 < member.activeCount (member.updated group inputs)

def round (group : Fin n → β) (inputs : Fin n → ι) (k : Fin n) : β :=
  if member.clash group inputs then member.clear (member.updated group inputs k)
  else member.updated group inputs k

def after (group : Fin n → β) (rounds : Nat → Fin n → ι) : Nat → Fin n → β
  | 0 => group
  | r + 1 => member.round (after group rounds r) (rounds r)

/-- Everything announced before round `r`, in order. -/
def history (group : Fin n → β) (rounds : Nat → Fin n → ι) : Nat → List (Fin n)
  | 0 => []
  | r + 1 => history group rounds r ++
      member.announced (member.after group rounds r) (rounds r)

section Exclusive
variable {member} {group : Fin n → β} {inputs : Fin n → ι} {rounds : Nat → Fin n → ι}

theorem activeCount_round_le (member : Member β ι) (group : Fin n → β) (inputs : Fin n → ι) :
    member.activeCount (member.round group inputs) ≤ 1 := by
  by_cases hclash : member.clash group inputs = true
  · have hnone : (Finset.univ.filter fun k =>
        member.active (member.round group inputs k) = true) = ∅ := by
      ext k
      simp [round, hclash, member.clear_inactive]
    unfold activeCount
    rw [hnone, Finset.card_empty]
    exact Nat.zero_le 1
  · have hround : member.round group inputs = member.updated group inputs := by
      funext k
      exact if_neg hclash
    rw [hround]
    simpa [clash] using hclash

theorem activeCount_after_le (hgroup : member.activeCount group ≤ 1) (r : Nat) :
    member.activeCount (member.after group rounds r) ≤ 1 := by
  cases r with
  | zero => exact hgroup
  | succ r => exact activeCount_round_le member _ _

theorem announces_unique (hgroup : member.activeCount group ≤ 1) {k k' : Fin n}
    (hk : member.announces group inputs k = true) (hk' : member.announces group inputs k' = true) :
    k = k' := by
  apply Finset.card_le_one.mp hgroup
  · exact Finset.mem_filter.mpr ⟨Finset.mem_univ k, member.active_of_announced _ _ hk⟩
  · exact Finset.mem_filter.mpr ⟨Finset.mem_univ k', member.active_of_announced _ _ hk'⟩

theorem announced_cases (hgroup : member.activeCount group ≤ 1) (inputs : Fin n → ι) :
    (member.announced group inputs = [] ∧ ∀ k, member.announces group inputs k = false) ∨
      ∃ p, member.announced group inputs = [p] ∧
        ∀ k, member.announces group inputs k = true ↔ k = p := by
  have hmem : ∀ k, k ∈ member.announced group inputs ↔ member.announces group inputs k = true := by
    simp [announced, List.mem_finRange]
  have hnodup : (member.announced group inputs).Nodup := (List.nodup_finRange n).filter _
  cases hlist : member.announced group inputs with
  | nil =>
    refine Or.inl ⟨rfl, fun k => ?_⟩
    rw [← Bool.not_eq_true, ← hmem, hlist]
    exact List.not_mem_nil
  | cons p rest =>
    have hp : member.announces group inputs p = true := by
      rw [← hmem, hlist]
      exact List.mem_cons_self
    have hrest : rest = [] := by
      apply List.eq_nil_iff_forall_not_mem.mpr
      intro k hk
      have hk' : member.announces group inputs k = true := by
        rw [← hmem, hlist]
        exact List.mem_cons_of_mem _ hk
      rw [hlist] at hnodup
      exact (List.nodup_cons.mp hnodup).1 (announces_unique hgroup hp hk' ▸ hk)
    refine Or.inr ⟨p, by rw [hrest], fun k => ⟨fun hk => announces_unique hgroup hk hp, ?_⟩⟩
    intro hkp
    rw [hkp]
    exact hp

theorem length_announced_le (hgroup : member.activeCount group ≤ 1) (inputs : Fin n → ι) :
    (member.announced group inputs).length ≤ 1 := by
  cases announced_cases hgroup inputs with
  | inl hnone => simp [hnone.1]
  | inr hone =>
    obtain ⟨p, hp, _⟩ := hone
    simp [hp]

theorem history_isPrefix {r r' : Nat} (h : r ≤ r') :
    member.history group rounds r <+: member.history group rounds r' := by
  induction r', h using Nat.le_induction with
  | base => exact List.prefix_refl _
  | succ r' _ ih => exact ih.trans (List.prefix_append _ _)

theorem after_congr {rounds' : Nat → Fin n → ι} {r : Nat} (h : ∀ i, i < r → rounds i = rounds' i) :
    member.after group rounds r = member.after group rounds' r := by
  induction r with
  | zero => rfl
  | succ r ih =>
    rw [after, after, ih fun i hi => h i (hi.trans r.lt_succ_self), h r r.lt_succ_self]

theorem history_congr {rounds' : Nat → Fin n → ι} {r : Nat}
    (h : ∀ i, i < r → rounds i = rounds' i) :
    member.history group rounds r = member.history group rounds' r := by
  induction r with
  | zero => rfl
  | succ r ih =>
    have hbefore : ∀ i, i < r → rounds i = rounds' i := fun i hi => h i (hi.trans r.lt_succ_self)
    rw [history, history, ih hbefore, after_congr hbefore, h r r.lt_succ_self]

end Exclusive

end Member

end BlobTracking.Library
