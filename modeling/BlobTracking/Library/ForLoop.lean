import Mathlib.Data.Fintype.Card
import Mathlib.Data.List.Basic

/-! Counted loops whose body may fault, and checked writes into a vector. A
loop is evaluated by naming the state before each iteration: one step per
index is enough, and no iteration is unfolded twice. -/
namespace BlobTracking.Library

/-- `for (i = 0; i < n; i++) s = body(i, s)`, stopping at the first fault. -/
def forLoop (n : Nat) (body : Nat → σ → Option σ) (s : σ) : Option σ :=
  match n with
  | 0 => some s
  | n + 1 => (forLoop n body s).bind (body n)

@[simp] theorem forLoop_zero (body : Nat → σ → Option σ) (s : σ) :
    forLoop 0 body s = some s := rfl

theorem forLoop_succ (n : Nat) (body : Nat → σ → Option σ) (s : σ) :
    forLoop (n + 1) body s = (forLoop n body s).bind (body n) := rfl

/-- The states `state 0, …, state n` a loop passes through determine its result. -/
theorem forLoop_eq_of_step {body : Nat → σ → Option σ} (state : Nat → σ) (n : Nat)
    (hstep : ∀ i, i < n → body i (state i) = some (state (i + 1))) :
    forLoop n body (state 0) = some (state n) := by
  induction n with
  | zero => rfl
  | succ n ih =>
    rw [forLoop_succ, ih fun i hi => hstep i (by omega)]
    exact hstep n (by omega)

/-- A loop that passes through `state 0, …, state p` and faults in iteration `p` has no result. -/
theorem forLoop_eq_none_of_step {body : Nat → σ → Option σ} (state : Nat → σ) {p n : Nat}
    (hp : p < n) (hstep : ∀ i, i < p → body i (state i) = some (state (i + 1)))
    (hfault : body p (state p) = none) : forLoop n body (state 0) = none := by
  induction n with
  | zero => cases hp
  | succ n ih =>
    rw [forLoop_succ]
    by_cases hlast : p = n
    · subst hlast
      rw [forLoop_eq_of_step state p hstep]
      exact hfault
    · rw [ih (by omega)]
      rfl

/-- `for (k = 0; k < n; k++)` over an array of `n` elements. -/
def forEach (n : Nat) (body : Fin n → σ → Option σ) (s : σ) : Option σ :=
  forLoop n (fun k s => if h : k < n then body ⟨k, h⟩ s else some s) s

theorem forEach_eq_of_step {n : Nat} {body : Fin n → σ → Option σ} (state : Nat → σ)
    (hstep : ∀ k : Fin n, body k (state k.val) = some (state (k.val + 1))) :
    forEach n body (state 0) = some (state n) := by
  apply forLoop_eq_of_step
  intro k hk
  rw [dif_pos hk]
  exact hstep ⟨k, hk⟩

theorem forEach_eq_none_of_step {n : Nat} {body : Fin n → σ → Option σ} (state : Nat → σ)
    (p : Fin n) (hstep : ∀ k : Fin n, k.val < p.val → body k (state k.val) =
      some (state (k.val + 1)))
    (hfault : body p (state p.val) = none) : forEach n body (state 0) = none := by
  apply forLoop_eq_none_of_step state p.isLt
  · intro k hk
    have hlt : k < n := Nat.lt_trans hk p.isLt
    rw [dif_pos hlt]
    exact hstep ⟨k, hlt⟩ hk
  · rw [dif_pos p.isLt]
    exact hfault

/-- An array whose first elements have been replaced, after one step more. -/
theorem update_prefix (new old : Fin n → α) (k : Fin n) :
    Function.update (fun j : Fin n => if j.val < k.val then new j else old j) k (new k) =
      fun j : Fin n => if j.val < k.val + 1 then new j else old j := by
  funext j
  by_cases hjk : j = k
  · subst hjk
    rw [Function.update_self, if_pos (Nat.lt_succ_self _)]
  · have hne : j.val ≠ k.val := fun h => hjk (Fin.ext h)
    rw [Function.update_of_ne hjk]
    by_cases hlt : j.val < k.val
    · rw [if_pos hlt, if_pos (by omega)]
    · rw [if_neg hlt, if_neg (by omega)]

/-- A counter of the elements with `p`, after one step more. -/
theorem card_prefix (p : Fin n → Bool) (k : Fin n) :
    (Finset.univ.filter fun j : Fin n => j.val < k.val + 1 ∧ p j = true).card =
      if p k = true then (Finset.univ.filter fun j : Fin n => j.val < k.val ∧ p j = true).card + 1
      else (Finset.univ.filter fun j : Fin n => j.val < k.val ∧ p j = true).card := by
  have hsplit : ∀ j : Fin n, j.val < k.val + 1 ↔ j = k ∨ j.val < k.val := by
    intro j
    rw [Fin.ext_iff]
    omega
  by_cases hk : p k = true
  · have hset : (Finset.univ.filter fun j : Fin n => j.val < k.val + 1 ∧ p j = true) =
        insert k (Finset.univ.filter fun j : Fin n => j.val < k.val ∧ p j = true) := by
      ext j
      simp only [Finset.mem_filter, Finset.mem_univ, true_and, Finset.mem_insert, hsplit]
      by_cases hjk : j = k
      · simp [hjk, hk]
      · simp [hjk]
    rw [if_pos hk, hset, Finset.card_insert_of_notMem (by simp)]
  · rw [if_neg hk]
    congr 1
    ext j
    simp only [Finset.mem_filter, Finset.mem_univ, true_and, hsplit]
    by_cases hjk : j = k
    · simp [hjk, hk]
    · simp [hjk]

/-- A property of the index and the state that every iteration carries on, without a fault. -/
theorem forLoop_invariant (body : Nat → σ → Option σ) (P : Nat → σ → Prop) {n : Nat}
    (hstep : ∀ i s, i < n → P i s → ∃ s', body i s = some s' ∧ P (i + 1) s') {s : σ}
    (hinit : P 0 s) : ∃ s', forLoop n body s = some s' ∧ P n s' := by
  induction n with
  | zero => exact ⟨s, rfl, hinit⟩
  | succ n ih =>
    obtain ⟨s₁, hloop, hs₁⟩ := ih fun i s hi => hstep i s (by omega)
    obtain ⟨s₂, hbody, hs₂⟩ := hstep n s₁ (by omega) hs₁
    exact ⟨s₂, by rw [forLoop_succ, hloop, Option.bind_some, hbody], hs₂⟩

/-- A loop that replaces its accumulator by a better value ends with the best one. -/
theorem foldl_best (better : β → β → Prop) (value : α → β) (counts : α → Prop)
    (step : β → α → β) (hrefl : ∀ b, better b b)
    (htrans : ∀ a b c, better a b → better b c → better a c)
    (hold : ∀ b a, better (step b a) b)
    (hnew : ∀ b a, counts a → better (step b a) (value a))
    (hpick : ∀ b a, step b a = b ∨ counts a ∧ step b a = value a) (l : List α) (b : β) :
    better (l.foldl step b) b ∧ (∀ a ∈ l, counts a → better (l.foldl step b) (value a)) ∧
      (l.foldl step b = b ∨ ∃ a ∈ l, counts a ∧ l.foldl step b = value a) := by
  induction l generalizing b with
  | nil => exact ⟨hrefl b, fun a ha => absurd ha List.not_mem_nil, Or.inl rfl⟩
  | cons a l ih =>
    obtain ⟨hbest, hall, hfrom⟩ := ih (step b a)
    refine ⟨htrans _ _ _ hbest (hold b a), ?_, ?_⟩
    · intro a' ha' hcounts
      cases List.mem_cons.mp ha' with
      | inl heq =>
        subst heq
        exact htrans _ _ _ hbest (hnew b a' hcounts)
      | inr hmem => exact hall a' hmem hcounts
    · rw [List.foldl_cons]
      cases hfrom with
      | inl heq =>
        cases hpick b a with
        | inl hkeep => exact Or.inl (heq.trans hkeep)
        | inr htake =>
          exact Or.inr ⟨a, List.mem_cons_self, htake.1, heq.trans htake.2⟩
      | inr hlater =>
        obtain ⟨a', ha', hcounts, heq⟩ := hlater
        exact Or.inr ⟨a', List.mem_cons_of_mem _ ha', hcounts, heq⟩

/-- `v[i] = value`; writing past the end is a fault. -/
def write (v : List α) (i : Nat) (value : α) : Option (List α) :=
  if i < v.length then some (v.set i value) else none

@[simp] theorem write_of_lt {v : List α} {i : Nat} (h : i < v.length) (value : α) :
    write v i value = some (v.set i value) := if_pos h

end BlobTracking.Library
