import BlobTracking.Library.WarmUp
import BlobTracking.Proc.Text
import Mathlib.Data.List.GetD

/-! The main loop that the programs share. Frames are only shown until the camera
has adapted; the space key makes it adapt again, the escape key ends the program.
What a program does with a frame is a parameter, and sees exactly the frames that
come after an adaptation. -/
namespace BlobTracking.Proc
open Library

/-- `ADAPTATION_TIME_SEC`. -/
def adaptationTimeSec : Int := 3

/-- What one iteration reads: a frame, the clock where the adaptation is checked, where the
countdown is printed and where the adaptation is started again, and a key. -/
structure Iteration (ι : Type) where
  frame : ι
  checkTime : Int
  textTime : Int
  restartTime : Int
  key : Int

/-- What a program adds to the loop: its work on a frame, with true for `continue`, its own
reason to exit, and the conversion that prints its countdown. -/
structure Program (σ ι : Type) where
  process : ι → σ → Option (σ × Bool)
  finished : σ → Bool
  conversion : Conversion

structure Camera (σ : Type) where
  camAdapted : Bool
  camAdaptationStartTime : Int
  app : σ

inductive Outcome (σ : Type) where
  | running (camera : Camera σ)
  | exited (app : σ)

section Loop
variable (program : Program σ ι)

/-- The end of an iteration: the program's own exit, then the key. -/
def readKey (it : Iteration ι) (camera : Camera σ) : Outcome σ :=
  if program.finished camera.app then .exited camera.app
  else if it.key % 256 = 27 then .exited camera.app
  else if it.key % 256 = 32 then
    .running { camera with camAdapted := false, camAdaptationStartTime := it.restartTime }
  else .running camera

/-- The text under "Configurando...", in a buffer of three characters. -/
def countdown (it : Iteration ι) (camera : Camera σ) : Option (List Char) :=
  sprintf 3 (decimal (program.conversion.read
    (adaptationTimeSec - |it.textTime - camera.camAdaptationStartTime|)))

def iterate (it : Iteration ι) (camera : Camera σ) : Option (Outcome σ) :=
  if camera.camAdapted then
    (program.process it.frame camera.app).map fun result =>
      if result.2 then .running { camera with app := result.1 }
      else readKey program it { camera with app := result.1 }
  else if it.checkTime - camera.camAdaptationStartTime > adaptationTimeSec then
    some (readKey program it { camera with camAdapted := true })
  else (countdown program it camera).map fun _ => readKey program it camera

/-- The program before iteration `n`, from the clock and the state it starts with. -/
def runLoop (begin : Int) (app : σ) (its : Nat → Iteration ι) : Nat → Option (Outcome σ)
  | 0 => some (.running ⟨false, begin, app⟩)
  | n + 1 => (runLoop begin app its n).bind fun outcome => match outcome with
    | .running camera => iterate program (its n) camera
    | .exited app => some (.exited app)

/-- The frames handed to the program before iteration `n`. -/
def processed (begin : Int) (app : σ) (its : Nat → Iteration ι) : Nat → List ι
  | 0 => []
  | n + 1 => processed begin app its n ++ match runLoop program begin app its n with
    | some (.running camera) => if camera.camAdapted then [(its n).frame] else []
    | _ => []

end Loop

def Outcome.app : Outcome σ → σ
  | .running camera => camera.app
  | .exited app => app

/-- The program's own work on a list of frames, without the camera. -/
def Program.work (program : Program σ ι) (app : σ) (frames : List ι) : Option σ :=
  frames.foldlM (fun app frame => (program.process frame app).map Prod.fst) app

/-- A countdown this many seconds off does not fit its buffer. -/
def OverlongCountdown (conversion : Conversion) (elapsed : Int) : Prop :=
  12 < |elapsed| % conversion.modulus ∧ |elapsed| % conversion.modulus < conversion.modulus - 96

instance : Decidable (OverlongCountdown conversion elapsed) :=
  inferInstanceAs (Decidable (_ ∧ _))

section Refinement
variable {program : Program σ ι} {begin : Int} {app : σ} {its : Nat → Iteration ι}

@[simp] theorem readKey_app (program : Program σ ι) (it : Iteration ι) (camera : Camera σ) :
    (readKey program it camera).app = camera.app := by
  unfold readKey
  split
  · rfl
  · split
    · rfl
    · split <;> rfl

theorem iterate_app {it : Iteration ι} {camera : Camera σ} {outcome : Outcome σ}
    (h : iterate program it camera = some outcome) :
    program.work camera.app (if camera.camAdapted then [it.frame] else []) =
      some outcome.app := by
  unfold iterate at h
  unfold Program.work
  by_cases hadapted : camera.camAdapted = true
  · rw [if_pos hadapted] at h
    rw [if_pos hadapted, List.foldlM_cons]
    cases hprocess : program.process it.frame camera.app with
    | none =>
      rw [hprocess] at h
      cases h
    | some result =>
      rw [hprocess, Option.map_some] at h
      cases h
      simp only [Option.map_some, Option.bind_eq_bind, Option.bind_some, List.foldlM_nil]
      split
      · rfl
      · rw [readKey_app]
        rfl
  · rw [if_neg hadapted] at h
    rw [if_neg hadapted]
    split at h
    · cases h
      rw [readKey_app]
      rfl
    · cases hcountdown : countdown program it camera with
      | none =>
        rw [hcountdown] at h
        cases h
      | some _ =>
        rw [hcountdown] at h
        cases h
        rw [readKey_app]
        rfl

/-- Whatever the clock and the keys do, the program's state is its work on the frames that
were handed to it. -/
theorem runLoop_app {n : Nat} {outcome : Outcome σ}
    (h : runLoop program begin app its n = some outcome) :
    program.work app (processed program begin app its n) = some outcome.app := by
  induction n generalizing outcome with
  | zero =>
    cases h
    rfl
  | succ n ih =>
    rw [runLoop] at h
    cases hbefore : runLoop program begin app its n with
    | none =>
      rw [hbefore] at h
      cases h
    | some before =>
      have hwork := ih hbefore
      rw [hbefore, Option.bind_some] at h
      rw [processed, hbefore]
      unfold Program.work at hwork ⊢
      rw [List.foldlM_append, hwork]
      cases before with
      | exited app' =>
        cases h
        rfl
      | running camera => exact iterate_app h

end Refinement

theorem processed_isPrefix (program : Program σ ι) (begin : Int) (app : σ) (its : Nat → Iteration ι)
    {m n : Nat} (h : m ≤ n) :
    processed program begin app its m <+: processed program begin app its n := by
  induction n, h using Nat.le_induction with
  | base => exact List.prefix_refl _
  | succ n _ ih =>
    rw [processed]
    exact ih.trans (List.prefix_append _ _)

/-- The frames handed over before iteration `n`, as a sequence. -/
def handed (program : Program σ ι) (begin : Int) (app : σ) (its : Nat → Iteration ι)
    (n i : Nat) : ι :=
  (processed program begin app its n).getD i (its 0).frame

theorem processed_eq_map (program : Program σ ι) (begin : Int) (app : σ) (its : Nat → Iteration ι)
    (n : Nat) : processed program begin app its n =
      (List.range (processed program begin app its n).length).map
        (handed program begin app its n) := by
  apply List.ext_getElem
  · simp
  · intro i hi _
    simp [handed, hi]

theorem processed_succ_of_adapted {program : Program σ ι} {begin : Int} {app : σ}
    {its : Nat → Iteration ι} {n : Nat} {camera : Camera σ}
    (h : runLoop program begin app its n = some (.running camera))
    (hadapted : camera.camAdapted = true) : processed program begin app its (n + 1) =
      processed program begin app its n ++ [(its n).frame] := by
  rw [processed, h]
  dsimp only
  rw [if_pos hadapted]

theorem processed_succ_cases (program : Program σ ι) (begin : Int) (app : σ)
    (its : Nat → Iteration ι) (n : Nat) :
    processed program begin app its (n + 1) = processed program begin app its n ∨
      ∃ camera, runLoop program begin app its n = some (.running camera) ∧
        camera.camAdapted = true := by
  cases h : runLoop program begin app its n with
  | none => exact Or.inl (by rw [processed, h, List.append_nil])
  | some outcome =>
    cases outcome with
    | exited _ => exact Or.inl (by rw [processed, h, List.append_nil])
    | running camera =>
      by_cases hadapted : camera.camAdapted = true
      · exact Or.inr ⟨camera, rfl, hadapted⟩
      · refine Or.inl ?_
        rw [processed, h]
        dsimp only
        rw [if_neg hadapted, List.append_nil]

theorem handed_eq_of_le (program : Program σ ι) (begin : Int) (app : σ) (its : Nat → Iteration ι)
    {m n i : Nat} (h : m ≤ n) (hi : i < (processed program begin app its m).length) :
    handed program begin app its m i = handed program begin app its n i := by
  obtain ⟨rest, hrest⟩ := processed_isPrefix program begin app its h
  unfold handed
  rw [← hrest, List.getD_eq_getElem?_getD, List.getD_eq_getElem?_getD,
    List.getElem?_append_left hi]

/-- The work on the frames of a sequence, one by one. -/
theorem Program.work_range (program : Program σ ι) (app : σ) (frames : Nat → ι)
    (run : Nat → Option σ) (hzero : run 0 = some app)
    (hsucc : ∀ r, run (r + 1) =
      (run r).bind fun app => (program.process (frames r) app).map Prod.fst) (r : Nat) :
    program.work app ((List.range r).map frames) = run r := by
  induction r with
  | zero => exact hzero.symm
  | succ r ih =>
    unfold Program.work at ih ⊢
    rw [List.range_succ, List.map_append, List.foldlM_append, ih, hsucc]
    congr 1
    funext app
    simp only [List.map_cons, List.map_nil, List.foldlM_cons, List.foldlM_nil]
    cases program.process (frames r) app <;> rfl

section Faults
variable {program : Program σ ι} {begin : Int} {app : σ} {its : Nat → Iteration ι} {n : Nat}
  {camera : Camera σ}

theorem runLoop_succ_eq_none_iff_of_idle
    (h : runLoop program begin app its n = some (.running camera))
    (hidle : camera.camAdapted = false) : runLoop program begin app its (n + 1) = none ↔
      (its n).checkTime - camera.camAdaptationStartTime ≤ adaptationTimeSec ∧
        OverlongCountdown program.conversion
          ((its n).textTime - camera.camAdaptationStartTime) := by
  have hoverlong : countdown program (its n) camera = none ↔ OverlongCountdown program.conversion
      ((its n).textTime - camera.camAdaptationStartTime) :=
    sprintf_countdown_eq_none_iff program.conversion _
  rw [runLoop, h, Option.bind_some]
  dsimp only
  unfold iterate
  rw [if_neg (by simp [hidle])]
  by_cases hlate : (its n).checkTime - camera.camAdaptationStartTime > adaptationTimeSec
  · rw [if_pos hlate]
    simp only [reduceCtorEq, false_iff, not_and]
    omega
  · rw [if_neg hlate, Option.map_eq_none_iff, hoverlong]
    exact (and_iff_right (not_lt.mp hlate)).symm

theorem runLoop_succ_eq_none_iff_of_adapted
    (h : runLoop program begin app its n = some (.running camera))
    (hadapted : camera.camAdapted = true) : runLoop program begin app its (n + 1) = none ↔
      program.process (its n).frame camera.app = none := by
  rw [runLoop, h, Option.bind_some]
  dsimp only
  rw [iterate, if_pos hadapted, Option.map_eq_none_iff]

end Faults

theorem processed_eq_map_of_le (program : Program σ ι) (begin : Int) (app : σ)
    (its : Nat → Iteration ι) {m n : Nat} (h : m ≤ n) : processed program begin app its m =
      (List.range (processed program begin app its m).length).map
        (handed program begin app its n) := by
  rw [processed_eq_map, List.length_map, List.length_range]
  apply List.map_congr_left
  intro i hi
  exact handed_eq_of_le program begin app its h (List.mem_range.mp hi)

theorem exists_handed_eq (program : Program σ ι) (begin : Int) (app : σ) (its : Nat → Iteration ι)
    (n i : Nat) : ∃ m, handed program begin app its n i = (its m).frame := by
  have hmem : ∀ frame ∈ processed program begin app its n, ∃ m, frame = (its m).frame := by
    induction n with
    | zero => exact fun frame hframe => absurd hframe List.not_mem_nil
    | succ n ih =>
      intro frame hframe
      cases List.mem_append.mp hframe with
      | inl hbefore => exact ih frame hbefore
      | inr hlast =>
        split at hlast
        · split at hlast
          · exact ⟨n, List.mem_singleton.mp hlast⟩
          · cases hlast
        · cases hlast
  unfold handed
  by_cases hi : i < (processed program begin app its n).length
  · rw [List.getD_eq_getElem _ _ hi]
    exact hmem _ (List.getElem_mem hi)
  · rw [List.getD_eq_default _ _ (Nat.le_of_not_lt hi)]
    exact ⟨0, rfl⟩

/-- An iteration that is handed a frame faults exactly if the work on all frames does. -/
theorem runLoop_succ_eq_none_iff_work {program : Program σ ι} {begin : Int} {app : σ}
    {its : Nat → Iteration ι} {n : Nat} {camera : Camera σ}
    (h : runLoop program begin app its n = some (.running camera))
    (hadapted : camera.camAdapted = true) : runLoop program begin app its (n + 1) = none ↔
      program.work app (processed program begin app its (n + 1)) = none := by
  have hwork : program.work app (processed program begin app its (n + 1)) =
      (program.process (its n).frame camera.app).map Prod.fst := by
    have hbefore := runLoop_app h
    unfold Program.work at hbefore ⊢
    rw [processed_succ_of_adapted h hadapted, List.foldlM_append, hbefore]
    change (do
      let app ← (program.process (its n).frame camera.app).map Prod.fst
      some app) = _
    cases program.process (its n).frame camera.app <;> rfl
  rw [hwork, Option.map_eq_none_iff, runLoop_succ_eq_none_iff_of_adapted h hadapted]

section Exit
variable {program : Program σ ι} {begin : Int} {app : σ} {its : Nat → Iteration ι}

theorem readKey_running {it : Iteration ι} {camera next : Camera σ}
    (h : readKey program it camera = .running next) : program.finished camera.app = false := by
  unfold readKey at h
  split at h
  · cases h
  · rename_i hunfinished
    exact Bool.not_eq_true _ ▸ hunfinished

theorem readKey_exited {it : Iteration ι} {camera : Camera σ} {last : σ}
    (h : readKey program it camera = .exited last) :
    program.finished last = true ∨ it.key % 256 = 27 := by
  unfold readKey at h
  split at h
  · rename_i hfinished
    cases h
    exact Or.inl hfinished
  · split at h
    · rename_i hescape
      exact Or.inr hescape
    · split at h <;> cases h

/-- An iteration either skips its end, or its outcome is that of the key and the program. -/
theorem iterate_eq_readKey {it : Iteration ι} {camera : Camera σ} {outcome : Outcome σ}
    (h : iterate program it camera = some outcome) :
    (∃ next, program.process it.frame camera.app = some (next, true) ∧
      outcome = .running { camera with app := next }) ∨
    ∃ next : Camera σ, readKey program it next = outcome := by
  unfold iterate at h
  split at h
  · cases hprocess : program.process it.frame camera.app with
    | none =>
      rw [hprocess] at h
      cases h
    | some result =>
      obtain ⟨next, skipped⟩ := result
      rw [hprocess, Option.map_some] at h
      cases skipped with
      | true => exact Or.inl ⟨next, rfl, (Option.some.inj h).symm⟩
      | false => exact Or.inr ⟨_, Option.some.inj h⟩
  · split at h
    · exact Or.inr ⟨_, Option.some.inj h⟩
    · cases hcountdown : countdown program it camera with
      | none =>
        rw [hcountdown] at h
        cases h
      | some _ =>
        rw [hcountdown] at h
        exact Or.inr ⟨_, Option.some.inj h⟩

/-- A program that never skips the end of an iteration runs on only while it is unfinished. -/
theorem finished_of_running (happ : program.finished app = false)
    (hread : ∀ frame s next, program.process frame s ≠ some (next, true)) {n : Nat}
    {camera : Camera σ} (h : runLoop program begin app its n = some (.running camera)) :
    program.finished camera.app = false := by
  cases n with
  | zero =>
    cases h
    exact happ
  | succ n =>
    rw [runLoop] at h
    obtain ⟨before, _, hstep⟩ := Option.bind_eq_some_iff.mp h
    cases before with
    | exited _ => cases hstep
    | running before =>
      cases iterate_eq_readKey hstep with
      | inl hskip =>
        obtain ⟨next, hprocess, _⟩ := hskip
        exact absurd hprocess (hread _ _ _)
      | inr hkey =>
        obtain ⟨next, hnext⟩ := hkey
        have happ : next.app = camera.app := by
          rw [← readKey_app program (its n) next, hnext]
          rfl
        exact happ ▸ readKey_running hnext

/-- A program ends because it is finished, or because of an escape key. -/
theorem finished_or_escape {n : Nat} {last : σ}
    (h : runLoop program begin app its n = some (.exited last)) :
    program.finished last = true ∨ ∃ m, m < n ∧ (its m).key % 256 = 27 := by
  induction n with
  | zero => cases h
  | succ n ih =>
    rw [runLoop] at h
    obtain ⟨before, hbefore, hstep⟩ := Option.bind_eq_some_iff.mp h
    cases before with
    | exited _ =>
      cases hstep
      exact (ih hbefore).imp_right fun ⟨m, hm, hkey⟩ => ⟨m, hm.trans n.lt_succ_self, hkey⟩
    | running before =>
      cases iterate_eq_readKey hstep with
      | inl hskip =>
        obtain ⟨_, _, hoff⟩ := hskip
        cases hoff
      | inr hkey =>
        obtain ⟨next, hnext⟩ := hkey
        exact (readKey_exited hnext).imp_right fun hescape => ⟨n, n.lt_succ_self, hescape⟩

end Exit

section Adaptation
variable (program : Program σ ι) (begin : Int) (app : σ) (its : Nat → Iteration ι)

/-- Iteration `n` ends with `continue`, before it looks at the key. -/
def continued (n : Nat) : Bool :=
  match runLoop program begin app its n with
  | some (.running camera) =>
    camera.camAdapted && ((program.process (its n).frame camera.app).any fun result => result.2)
  | _ => false

/-- The time noted by iteration `n`, if it starts the adaptation again. -/
def restart (n : Nat) : Option Int :=
  if continued program begin app its n = false ∧ (its n).key % 256 = 32 then
    some (its n).restartTime
  else none

variable {program begin app its}

theorem warmUp_readKey {it : Iteration ι} {camera next : Camera σ}
    (h : readKey program it camera = .running next) :
    next.camAdapted = (camera.camAdapted && !decide (it.key % 256 = 32)) ∧
      next.camAdaptationStartTime =
        if it.key % 256 = 32 then it.restartTime else camera.camAdaptationStartTime := by
  unfold readKey at h
  split at h
  · cases h
  · split at h
    · cases h
    · split at h
      · rename_i hspace
        cases h
        simp [hspace]
      · rename_i hother
        cases h
        simp [hother]

theorem warmUp_step_readKey {it : Iteration ι} {before camera next : Camera σ} {skipped : Bool}
    (hskipped : skipped = false) (h : readKey program it camera = .running next)
    (hstart : camera.camAdaptationStartTime = before.camAdaptationStartTime)
    (hready : camera.camAdapted = (before.camAdapted ||
      decide (adaptationTimeSec < it.checkTime - before.camAdaptationStartTime))) :
    WarmUp.step adaptationTimeSec ⟨before.camAdapted, before.camAdaptationStartTime⟩ it.checkTime
        (if skipped = false ∧ it.key % 256 = 32 then some it.restartTime else none) =
      ⟨next.camAdapted, next.camAdaptationStartTime⟩ := by
  obtain ⟨hnext, hnextStart⟩ := warmUp_readKey h
  rw [hnext, hnextStart, hready, hstart]
  by_cases hspace : it.key % 256 = 32
  · simp [hskipped, hspace, WarmUp.step]
  · simp [hspace, WarmUp.step]

theorem warmUp_iterate {it : Iteration ι} {before next : Camera σ}
    (h : iterate program it before = some (.running next)) :
    WarmUp.step adaptationTimeSec ⟨before.camAdapted, before.camAdaptationStartTime⟩ it.checkTime
        (if (before.camAdapted && (program.process it.frame before.app).any fun result =>
          result.2) = false ∧ it.key % 256 = 32 then some it.restartTime else none) =
      ⟨next.camAdapted, next.camAdaptationStartTime⟩ := by
  unfold iterate at h
  by_cases hadapted : before.camAdapted = true
  · rw [if_pos hadapted] at h
    cases hprocess : program.process it.frame before.app with
    | none =>
      rw [hprocess] at h
      cases h
    | some result =>
      rw [hprocess, Option.map_some] at h
      have hnext := Option.some.inj h
      by_cases hskip : result.2 = true
      · rw [if_pos hskip] at hnext
        cases hnext
        simp [hadapted, hskip, WarmUp.step]
      · rw [if_neg hskip] at hnext
        exact warmUp_step_readKey (by simp [hskip]) hnext rfl (by simp [hadapted])
  · rw [if_neg hadapted] at h
    have hidle : before.camAdapted = false := Bool.not_eq_true _ ▸ hadapted
    by_cases hlate : it.checkTime - before.camAdaptationStartTime > adaptationTimeSec
    · rw [if_pos hlate] at h
      exact warmUp_step_readKey (by simp [hidle]) (Option.some.inj h) rfl (by
        simp [hidle, show adaptationTimeSec < it.checkTime - before.camAdaptationStartTime
          from hlate])
    · rw [if_neg hlate] at h
      cases hcountdown : countdown program it before with
      | none =>
        rw [hcountdown] at h
        cases h
      | some _ =>
        rw [hcountdown] at h
        exact warmUp_step_readKey (by simp [hidle]) (Option.some.inj h) rfl (by
          simp only [gt_iff_lt] at hlate
          simp [hidle, hlate])

/-- The loop's two variables are a timer that each effective space key starts again. -/
theorem runLoop_warmUp {n : Nat} {camera : Camera σ}
    (h : runLoop program begin app its n = some (.running camera)) :
    WarmUp.after adaptationTimeSec begin (fun i => (its i).checkTime)
      (restart program begin app its) n =
        ⟨camera.camAdapted, camera.camAdaptationStartTime⟩ := by
  induction n generalizing camera with
  | zero =>
    cases h
    rfl
  | succ n ih =>
    rw [runLoop] at h
    cases hbefore : runLoop program begin app its n with
    | none =>
      rw [hbefore] at h
      cases h
    | some before =>
      rw [hbefore, Option.bind_some] at h
      cases before with
      | exited app' => cases h
      | running before =>
        rw [WarmUp.after, ih hbefore, ← warmUp_iterate h]
        unfold restart continued
        rw [hbefore]

/-- In every run of every program: a frame is handed to the program exactly if the clock was
seen more than three seconds past the last effective start of the adaptation, and the loop
itself faults exactly where the countdown is more than twelve seconds off, in the bits that
its conversion reads. -/
theorem camera_adaptation (program : Program σ ι) (begin : Int) (app : σ)
    (its : Nat → Iteration ι) (n : Nat) (camera : Camera σ)
    (hrun : runLoop program begin app its n = some (.running camera)) :
    (camera.camAdapted = true ↔
      ∃ m, (WarmUp.lastStart begin (restart program begin app its) n).1 ≤ m ∧ m < n ∧
        adaptationTimeSec < (its m).checkTime -
          (WarmUp.lastStart begin (restart program begin app its) n).2) ∧
    (camera.camAdapted = false → (runLoop program begin app its (n + 1) = none ↔
      (its n).checkTime - (WarmUp.lastStart begin (restart program begin app its) n).2 ≤
          adaptationTimeSec ∧
        OverlongCountdown program.conversion ((its n).textTime -
          (WarmUp.lastStart begin (restart program begin app its) n).2))) := by
  have htimer := runLoop_warmUp hrun
  have hready : (WarmUp.after adaptationTimeSec begin (fun i => (its i).checkTime)
      (restart program begin app its) n).ready = true ↔ _ := WarmUp.ready_iff n
  have hstart : (WarmUp.after adaptationTimeSec begin (fun i => (its i).checkTime)
      (restart program begin app its) n).start = _ := WarmUp.start_after n
  rw [htimer] at hready hstart
  dsimp only at hstart
  refine ⟨hready, fun hidle => ?_⟩
  rw [← hstart]
  exact runLoop_succ_eq_none_iff_of_idle hrun hidle

end Adaptation

end BlobTracking.Proc
