import Mathlib.Algebra.BigOperators.Group.Finset.Piecewise
import Mathlib.Data.List.Basic
import Mathlib.Tactic.Linarith

/-! A pool whose entries age. In each round an entry that is touched starts again
at age zero, the others grow older, those past the limit leave, and new entries
join. An entry lives until it has gone untouched for one round too many, and the
whole pool is bounded by what its last rounds touched. -/
namespace BlobTracking.Library.AgeingPool

@[ext] structure Entry (ι : Type) where
  id : ι
  age : Nat

def tick (limit : Nat) (touched : ι → Bool) (born : List ι) (pool : List (Entry ι)) :
    List (Entry ι) :=
  ((pool.map fun e => ⟨e.id, if touched e.id then 0 else e.age + 1⟩).filter
    fun e => decide (e.age ≤ limit)) ++ born.map fun i => ⟨i, 0⟩

/-- The pool after round `k`. Round zero only has births. -/
def run (limit : Nat) (touched : Nat → ι → Bool) (born : Nat → List ι) : Nat → List (Entry ι)
  | 0 => (born 0).map fun i => ⟨i, 0⟩
  | k + 1 => tick limit (touched (k + 1)) (born (k + 1)) (run limit touched born k)

section Population
variable {limit : Nat} {touched : ι → Bool} {born : List ι} {pool : List (Entry ι)}

theorem mem_tick {e : Entry ι} : e ∈ tick limit touched born pool ↔
    (∃ old ∈ pool, e = ⟨old.id, if touched old.id then 0 else old.age + 1⟩ ∧ e.age ≤ limit) ∨
      e.id ∈ born ∧ e.age = 0 := by
  simp only [tick, List.mem_append, List.mem_filter, List.mem_map, decide_eq_true_eq]
  constructor
  · rintro (⟨⟨old, hold, rfl⟩, hage⟩ | ⟨i, hi, rfl⟩)
    · exact Or.inl ⟨old, hold, rfl, hage⟩
    · exact Or.inr ⟨hi, rfl⟩
  · rintro (⟨old, hold, rfl, hage⟩ | ⟨hborn, hage⟩)
    · exact Or.inl ⟨⟨old, hold, rfl⟩, hage⟩
    · exact Or.inr ⟨e.id, hborn, Entry.ext rfl hage.symm⟩

/-- No entry skips an age. -/
theorem countP_age_tick_succ (u : Nat) :
    (tick limit touched born pool).countP (fun e => e.age == u + 1) ≤
      pool.countP fun e => e.age == u := by
  have hborn : (born.map fun i => (⟨i, 0⟩ : Entry ι)).countP (fun e => e.age == u + 1) = 0 := by
    rw [List.countP_map, List.countP_eq_zero]
    simp
  rw [tick, List.countP_append, hborn, Nat.add_zero]
  refine (List.filter_sublist.countP_le).trans ?_
  rw [List.countP_map]
  apply List.countP_mono_left
  intro e _ he
  simp only [Function.comp_apply, beq_iff_eq] at he ⊢
  split at he
  · cases he
  · omega

theorem map_id_born (is : List ι) : (is.map fun i => (⟨i, 0⟩ : Entry ι)).map Entry.id = is := by
  rw [List.map_map]
  exact List.map_id is

theorem map_id_tick (touched : ι → Bool) (born : List ι) (pool : List (Entry ι)) :
    ∃ olds, List.Sublist olds (pool.map Entry.id) ∧
      (tick limit touched born pool).map Entry.id = olds ++ born := by
  refine ⟨_, ?_, by rw [tick, List.map_append, map_id_born]⟩
  have hsub := (List.filter_sublist (l := pool.map fun e =>
    (⟨e.id, if touched e.id then 0 else e.age + 1⟩ : Entry ι))
      (p := fun e => decide (e.age ≤ limit))).map Entry.id
  rwa [List.map_map] at hsub

theorem age_le_of_mem_tick {e : Entry ι} (h : e ∈ tick limit touched born pool) :
    e.age ≤ limit := by
  rcases mem_tick.mp h with ⟨_, _, _, hage⟩ | ⟨_, hage⟩
  · exact hage
  · omega

end Population

section Runs
variable {limit : Nat} {touched : Nat → ι → Bool} {born : Nat → List ι}

theorem age_le_of_mem_run {k : Nat} {e : Entry ι} (h : e ∈ run limit touched born k) :
    e.age ≤ limit := by
  cases k with
  | zero =>
    obtain ⟨i, _, rfl⟩ := List.mem_map.mp h
    exact Nat.zero_le _
  | succ k => exact age_le_of_mem_tick h

/-- The entries of age `u` are no more than those touched or born `u` rounds ago. -/
theorem countP_age_run_le (u k : Nat) :
    (run limit touched born (k + u)).countP (fun e => e.age == u) ≤
      (run limit touched born k).countP fun e => e.age == 0 := by
  induction u with
  | zero => exact le_rfl
  | succ u ih => exact (countP_age_tick_succ u).trans ih

theorem countP_age_run_eq_zero {u k : Nat} (h : k < u) :
    (run limit touched born k).countP (fun e => e.age == u) = 0 := by
  induction k generalizing u with
  | zero =>
    simp only [run, List.countP_map, List.countP_eq_zero]
    intro i _
    simp only [Function.comp_apply, beq_iff_eq]
    omega
  | succ k ih =>
    obtain ⟨u, rfl⟩ := Nat.exists_eq_succ_of_ne_zero (show u ≠ 0 by omega)
    have hstep : (run limit touched born (k + 1)).countP (fun e => e.age == u + 1) ≤
        (run limit touched born k).countP fun e => e.age == u := countP_age_tick_succ u
    rw [ih (by omega)] at hstep
    exact Nat.le_zero.mp hstep

theorem exists_born_of_mem_run {k : Nat} {e : Entry ι} (h : e ∈ run limit touched born k) :
    ∃ c, c ≤ k ∧ e.id ∈ born c := by
  induction k generalizing e with
  | zero =>
    obtain ⟨i, hi, rfl⟩ := List.mem_map.mp h
    exact ⟨0, le_rfl, hi⟩
  | succ k ih =>
    rcases mem_tick.mp h with ⟨old, hold, rfl, _⟩ | ⟨hnew, _⟩
    · obtain ⟨c, hck, hc⟩ := ih hold
      exact ⟨c, Nat.le_succ_of_le hck, hc⟩
    · exact ⟨k + 1, le_rfl, hnew⟩

theorem nodup_id_run (hnodup : ∀ k, (born k).Nodup)
    (honce : ∀ i c c', i ∈ born c → i ∈ born c' → c = c') (k : Nat) :
    ((run limit touched born k).map Entry.id).Nodup := by
  induction k with
  | zero =>
    rw [run, map_id_born]
    exact hnodup 0
  | succ k ih =>
    obtain ⟨olds, hsub, holds⟩ :
        ∃ olds, List.Sublist olds ((run limit touched born k).map Entry.id) ∧
          (run limit touched born (k + 1)).map Entry.id = olds ++ born (k + 1) :=
      map_id_tick _ _ _
    rw [holds]
    refine (ih.sublist hsub).append (hnodup (k + 1)) ?_
    intro i hi hnew
    obtain ⟨e, he, rfl⟩ := List.mem_map.mp (hsub.subset hi)
    obtain ⟨c, hck, hc⟩ := exists_born_of_mem_run he
    have := honce _ _ _ hc hnew
    omega

theorem length_eq_sum_countP_age (pool : List (Entry ι)) (h : ∀ e ∈ pool, e.age ≤ limit) :
    pool.length = ∑ u ∈ Finset.range (limit + 1), pool.countP fun e => e.age == u := by
  induction pool with
  | nil => simp
  | cons e rest ih =>
    have hmem : e.age ∈ Finset.range (limit + 1) :=
      Finset.mem_range.mpr (Nat.lt_succ_of_le (h e List.mem_cons_self))
    simp only [List.countP_cons, beq_iff_eq, Finset.sum_add_distrib, Finset.sum_ite_eq, hmem,
      if_true, List.length_cons]
    rw [← ih fun e' he' => h e' (List.mem_cons_of_mem e he')]

end Runs

section Lifetime
variable {limit : Nat} {touched : Nat → ι → Bool} {born : Nat → List ι}

/-- Rounds since the entry born in round `c` was last touched, `d` rounds later. -/
def quiet (touched : Nat → Bool) (c : Nat) : Nat → Nat
  | 0 => 0
  | d + 1 => if touched (c + d + 1) then 0 else quiet touched c d + 1

/-- `quiet` counts from the birth or the last touch, whichever is later. -/
theorem quiet_spec (touched : Nat → Bool) (c d : Nat) :
    ∃ s, c ≤ s ∧ s ≤ c + d ∧ quiet touched c d = c + d - s ∧ (s = c ∨ touched s = true) ∧
      ∀ r, s < r → r ≤ c + d → touched r = false := by
  induction d with
  | zero => exact ⟨c, le_rfl, le_rfl, by simp [quiet], Or.inl rfl, fun r hr hr' => by omega⟩
  | succ d ih =>
    by_cases htouched : touched (c + d + 1) = true
    · refine ⟨c + d + 1, by omega, by omega, ?_, Or.inr htouched, fun r hr hr' => by omega⟩
      rw [quiet, if_pos htouched]
      omega
    · obtain ⟨s, hcs, hsd, hquiet, horigin, hmissed⟩ := ih
      refine ⟨s, hcs, by omega, ?_, horigin, ?_⟩
      · simp only [quiet, htouched, hquiet]
        rw [if_neg (by simp)]
        omega
      · intro r hr hr'
        by_cases hlast : r = c + d + 1
        · rw [hlast]
          simpa using htouched
        · exact hmissed r hr (by omega)

theorem le_quiet_of_missed {touched : Nat → Bool} {c s : Nat} (hcs : c ≤ s) (r : Nat)
    (hmissed : ∀ q, s < q → q ≤ s + r → touched q = false) :
    r ≤ quiet touched c (s + r - c) := by
  induction r with
  | zero => exact Nat.zero_le _
  | succ r ih =>
    have hlast : touched (c + (s + r - c) + 1) = false := hmissed _ (by omega) (by omega)
    have hprev := ih fun q hq hq' => hmissed q hq (by omega)
    rw [show s + (r + 1) - c = (s + r - c) + 1 by omega, quiet, hlast]
    simpa using hprev

/-- Staying young throughout means never missing `limit + 1` rounds in a row. -/
theorem quiet_le_iff (limit : Nat) (touched : Nat → Bool) (c d : Nat) :
    (∀ d', d' ≤ d → quiet touched c d' ≤ limit) ↔
      ¬∃ s, c < s ∧ s + limit ≤ c + d ∧ ∀ r, r ≤ limit → touched (s + r) = false := by
  constructor
  · rintro h ⟨s, hcs, hsd, hmissed⟩
    have hwindow : ∀ q, s - 1 < q → q ≤ s - 1 + (limit + 1) → touched q = false := by
      intro q hq hq'
      have := hmissed (q - s) (by omega)
      rwa [show s + (q - s) = q by omega] at this
    have hlong := le_quiet_of_missed (show c ≤ s - 1 by omega) (limit + 1) hwindow
    have hyoung := h (s - 1 + (limit + 1) - c) (by omega)
    omega
  · intro h d' hd'
    by_contra hold
    obtain ⟨s, hcs, hsd, hquiet, _, hmissed⟩ := quiet_spec touched c d'
    refine h ⟨c + d' - limit, by omega, by omega, ?_⟩
    intro r hr
    exact hmissed _ (by omega) (by omega)

section SingleBirth
variable {i : ι} {c : Nat}

theorem not_mem_run_before (hborn : ∀ k, i ∈ born k ↔ k = c) {k : Nat} (hk : k < c) :
    ∀ e ∈ run limit touched born k, e.id ≠ i := by
  induction k with
  | zero =>
    intro e he hid
    obtain ⟨i', hi', rfl⟩ := List.mem_map.mp he
    have := (hborn 0).mp (hid ▸ hi')
    omega
  | succ k ih =>
    intro e he hid
    rcases mem_tick.mp he with ⟨old, hold, rfl, _⟩ | ⟨hnew, _⟩
    · exact ih (by omega) old hold hid
    · have := (hborn (k + 1)).mp (hid ▸ hnew)
      omega

theorem mem_run_birth (hborn : ∀ k, i ∈ born k ↔ k = c) (e : Entry ι) (he : e.id = i) :
    e ∈ run limit touched born c ↔ e.age = 0 := by
  have hi : e.id ∈ born c := he ▸ (hborn c).mpr rfl
  cases c with
  | zero =>
    simp only [run, List.mem_map]
    refine ⟨?_, fun hage => ⟨e.id, hi, Entry.ext rfl hage.symm⟩⟩
    rintro ⟨i', _, rfl⟩
    rfl
  | succ c =>
    rw [run, mem_tick]
    refine ⟨?_, fun hage => Or.inr ⟨hi, hage⟩⟩
    rintro (⟨old, hold, hsame, _⟩ | ⟨_, hage⟩)
    · exact absurd ((congrArg Entry.id hsame).symm.trans he)
        (not_mem_run_before hborn (Nat.lt_succ_self c) old hold)
    · exact hage

/-- After its birth an entry only comes from itself. -/
theorem mem_run_next (hborn : ∀ k, i ∈ born k ↔ k = c) {k : Nat} (hk : c ≤ k) (e : Entry ι)
    (he : e.id = i) : e ∈ run limit touched born (k + 1) ↔
      ∃ age, ⟨i, age⟩ ∈ run limit touched born k ∧
        e.age = (if touched (k + 1) i then 0 else age + 1) ∧ e.age ≤ limit := by
  have hnew : e.id ∉ born (k + 1) := by
    rw [he, hborn]
    omega
  rw [run, mem_tick]
  refine ⟨?_, ?_⟩
  · rintro (⟨old, hold, rfl, hage⟩ | ⟨hbirth, _⟩)
    · cases he
      exact ⟨old.age, hold, rfl, hage⟩
    · exact absurd hbirth hnew
  · rintro ⟨age, hold, hage, hyoung⟩
    exact Or.inl ⟨_, hold, Entry.ext he hage, hyoung⟩

/-- An entry with a single birth, in round `c`, is in the pool `d` rounds later
exactly when it has stayed young all along, and then with its quiet time as age. -/
theorem mem_run_iff (hborn : ∀ k, i ∈ born k ↔ k = c) (d : Nat) (e : Entry ι) (he : e.id = i) :
    e ∈ run limit touched born (c + d) ↔
      e.age = quiet (fun k => touched k i) c d ∧
        ∀ d', d' ≤ d → quiet (fun k => touched k i) c d' ≤ limit := by
  induction d generalizing e with
  | zero =>
    rw [Nat.add_zero, mem_run_birth hborn e he]
    refine ⟨fun hage => ⟨hage, ?_⟩, fun h => h.1⟩
    intro d' hd'
    rw [Nat.le_zero.mp hd']
    exact Nat.zero_le _
  | succ d ih =>
    have hquiet : quiet (fun k => touched k i) c (d + 1) =
        if touched (c + d + 1) i then 0 else quiet (fun k => touched k i) c d + 1 := rfl
    rw [← Nat.add_assoc, mem_run_next hborn (Nat.le_add_right c d) e he]
    refine ⟨?_, ?_⟩
    · rintro ⟨age, hold, hage, hyoung⟩
      rcases (ih ⟨i, age⟩ rfl).mp hold with ⟨rfl, hbefore⟩
      rw [← hquiet] at hage
      refine ⟨hage, fun d' hd' => ?_⟩
      rcases Nat.le_succ_iff.mp hd' with hle | rfl
      · exact hbefore d' hle
      · exact hage ▸ hyoung
    · rintro ⟨hage, hyoung⟩
      refine ⟨quiet (fun k => touched k i) c d, ?_, hage.trans hquiet, ?_⟩
      · exact (ih ⟨i, _⟩ rfl).mpr ⟨rfl, fun d' hd' => hyoung d' (Nat.le_succ_of_le hd')⟩
      · exact hage ▸ hyoung (d + 1) le_rfl

end SingleBirth

end Lifetime

end BlobTracking.Library.AgeingPool
