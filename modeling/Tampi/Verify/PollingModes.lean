import Tampi.Theory.Execution
import Tampi.Verify.Polling

/-! # The two bodies of the polling task

`suspendPolling` takes one turn of the loop of `genericPolling` and is run again by the runtime. So
what can be seen of a polling instance is the same with both (`modes_agree`), and with both a call of
`unregisterPolling` returns (`unregister_returns`). -/

namespace Tampi.Polling
open Transition System

variable {mode : PollingMode} {p p' q q' : Polling}

/-! ## The same accesses -/

/-- The polling task `q` is where `p` is, or is submitted again where `p` tests `_mustFinish`. -/
def Resubmitted (p q : Polling) : Prop :=
  q = p ∨ p.task = .test ∧ q = { p with task := .ready }

theorem unregisterPolling_task (p : Polling) (t : PollingTask) :
    { p with task := t }.unregisterPolling =
      p.unregisterPolling.map fun p' => { p' with task := t } := by
  cases h : p.unregister <;> simp [unregisterPolling, h]

theorem unregisterPolling_eq (h : p.unregisterPolling = some p') : p'.task = p.task := by
  unfold unregisterPolling at h
  split at h <;> cases h <;> rfl

theorem suspendPolling_eq (h : p.task ≠ .pausing) : p.suspendPolling = p.genericPolling := by
  unfold suspendPolling
  split
  next hp => exact absurd hp h
  next => rfl

/-- Both tasks are beside the thread that unregisters. -/
theorem Resubmitted.unregister (R : Resubmitted p q) (h : p.unregisterPolling = some p') :
    ∃ q', q.unregisterPolling = some q' ∧ Resubmitted p' q' := by
  rcases R with rfl | ⟨hp, rfl⟩
  · exact ⟨p', h, .inl rfl⟩
  · rw [unregisterPolling_task, h]
    exact ⟨_, rfl, .inr ⟨(unregisterPolling_eq h).trans hp, rfl⟩⟩

theorem Resubmitted.unregister_back (R : Resubmitted p q) (h : q.unregisterPolling = some q') :
    ∃ p', p.unregisterPolling = some p' ∧ Resubmitted p' q' := by
  rcases R with rfl | ⟨hp, rfl⟩
  · exact ⟨q', h, .inl rfl⟩
  · rw [unregisterPolling_task] at h
    obtain ⟨p', hp', rfl⟩ := Option.map_eq_some_iff.mp h
    exact ⟨p', hp', .inr ⟨(unregisterPolling_eq hp').trans hp, rfl⟩⟩

theorem suspend_of_generic :
    Simulation (system .generic) (system .suspend) Resubmitted (fun l k => k = l) where
  init p hp := ⟨p, hp, .inl rfl⟩
  step p q l p' _ R hs := by
    cases l with
    | unregister =>
      obtain ⟨q', hq, R'⟩ := R.unregister hs
      exact ⟨[.unregister], q', .single hq, by simp, R'⟩
    | callback =>
      rcases R with rfl | ⟨hp, rfl⟩
      · exact ⟨[.callback], p', .single hs, by simp, .inl rfl⟩
      · simp [system, step, genericCompleted, hp] at hs
    | body =>
      rcases R with rfl | ⟨hp, rfl⟩
      · by_cases hp : q.task = .pausing
        · have hs' : q.genericPolling = some p' := hs
          simp only [genericPolling, hp] at hs'
          cases hs'
          refine ⟨[.body], { q with task := .ready }, .single ?_, by simp, .inr ⟨rfl, rfl⟩⟩
          simp [system, step, suspendPolling, hp]
        · refine ⟨[.body], p', .single ?_, by simp, .inl rfl⟩
          exact (suspendPolling_eq hp).trans hs
      · -- the task is run again, and then it tests `_mustFinish`
        refine ⟨[.body, .body], p', .head (t := p) ?_ (.single ?_), by simp, .inl rfl⟩
        · simp [system, step, suspendPolling, genericPolling, ← hp]
        · exact (suspendPolling_eq (by simp [hp])).trans hs

theorem generic_of_suspend :
    Simulation (system .suspend) (system .generic) (fun q p => Resubmitted p q)
      (fun l k => k = l) where
  init p hp := ⟨p, hp, .inl rfl⟩
  step q p l q' _ R hs := by
    cases l with
    | unregister =>
      obtain ⟨p', hp', R'⟩ := R.unregister_back hs
      exact ⟨[.unregister], p', .single hp', by simp, R'⟩
    | callback =>
      rcases R with rfl | ⟨hp, rfl⟩
      · exact ⟨[.callback], q', .single hs, by simp, .inl rfl⟩
      · simp [system, step, genericCompleted] at hs
    | body =>
      rcases R with rfl | ⟨hp, rfl⟩
      · by_cases hp : q.task = .pausing
        · have hs' : q.suspendPolling = some q' := hs
          simp only [suspendPolling, hp] at hs'
          cases hs'
          refine ⟨[.body], { q with task := .test }, .single ?_, by simp, .inr ⟨rfl, rfl⟩⟩
          simp [system, step, genericPolling, hp]
        · refine ⟨[.body], q', .single ?_, by simp, .inl rfl⟩
          exact (suspendPolling_eq hp).symm.trans hs
      · -- the generic task is already there
        cases hs
        refine ⟨[], p, .refl, by simp, .inl ?_⟩
        rw [← hp]

/-- What the polling task, the callback and the thread that unregisters do to the instance, and when
the polling function is called, is the same with both bodies. -/
theorem modes_agree (log : List PollingEvent) :
    (∃ p, (system .generic).Reachable p ∧ p.log = log) ↔
      ∃ p, (system .suspend).Reachable p ∧ p.log = log := by
  have hlog {p q : Polling} (R : Resubmitted p q) : q.log = p.log := by
    rcases R with rfl | ⟨-, rfl⟩ <;> rfl
  constructor
  · rintro ⟨p, hp, rfl⟩
    obtain ⟨q, hq, R⟩ := suspend_of_generic.reachable hp
    exact ⟨q, hq, hlog R⟩
  · rintro ⟨q, hq, rfl⟩
    obtain ⟨p, hp, R⟩ := generic_of_suspend.reachable hq
    exact ⟨p, hp, (hlog R).symm⟩

/-! ## The end of `unregisterPolling` -/

/-- The steps of the task to its end, once `_mustFinish` is set. -/
def taskRank (p : Polling) : Nat :=
  match p.task with
  | .load => 6
  | .calling => 5
  | .pausing => 4
  | .ready => 3
  | .test => 2
  | .finished => 1
  | .completed => 0

/-- The steps of `unregisterPolling` to its end, once `_finished` is set. -/
def unregisterRank (p : Polling) : Nat :=
  match p.unregister with
  | .before => 5
  | .pausing => 4
  | .test => 3
  | .delete => 2
  | .leaving => 1
  | .returned => 0

/-- The step of the task or of its callback. -/
theorem task_step (hl : l ≠ .unregister) (h : p.step mode l = some p') :
    p'.unregister = p.unregister ∧ (p.mustFinish = true → p'.taskRank < p.taskRank) := by
  cases l with
  | unregister => exact absurd rfl hl
  | callback =>
    simp only [step, genericCompleted] at h
    split at h <;> cases h
    simp [taskRank, *]
  | body =>
    cases mode <;> simp only [step, suspendPolling, genericPolling] at h <;> repeat' split at h
    all_goals cases h <;> simp [taskRank, *]

theorem unregister_step (h : p.step mode .unregister = some p') :
    p'.task = p.task ∧ p'.unregister ≠ .before ∧
      (p.finished = true → p'.unregisterRank < p.unregisterRank) := by
  simp only [step, unregisterPolling] at h
  split at h <;> cases h <;> simp [unregisterRank, *]
  split <;> simp [*]

theorem exists_body (h : 1 < p.taskRank) : ∃ p', p.step mode .body = some p' := by
  cases mode <;> cases hp : p.task <;> simp_all [taskRank, step, suspendPolling, genericPolling]

theorem exists_callback (h : p.taskRank = 1) : ∃ p', p.step mode .callback = some p' := by
  cases hp : p.task <;> simp_all [taskRank, step, genericCompleted]

theorem completed_of_taskRank (h : p.taskRank = 0) : p.task = .completed := by
  cases hp : p.task <;> simp_all [taskRank]

theorem exists_unregister (h : p.unregister ≠ .returned) :
    ∃ p', p.step mode .unregister = some p' := by
  cases hp : p.unregister <;> simp_all [step, unregisterPolling]

section
variable {σ : Nat → Polling} {ls : Nat → Option PollingParty}
  (E : (system mode).beside.Execution σ ls)
include E

theorem polling_step (n : Nat) :
    σ (n + 1) = σ n ∨ ∃ l, ls n = some l ∧ (σ n).step mode l = some (σ (n + 1)) := by
  have hs := E.step n
  cases hl : ls n with
  | none =>
    rw [hl] at hs
    exact .inl hs
  | some l =>
    rw [hl] at hs
    exact .inr ⟨l, rfl, hs⟩

/-- What every step keeps. -/
theorem polling_always {P : Polling → Prop} (hP : ∀ p l p', p.step mode l = some p' → P p → P p')
    (h : P (σ k)) (hn : n ≥ k) : P (σ n) := by
  refine always_from (P := fun n => P (σ n)) h ?_ n hn
  intro m _ hm
  rcases polling_step E m with heq | ⟨l, -, hs⟩
  · rwa [heq]
  · exact hP _ _ _ hs hm

/-- A call of `unregisterPolling` returns, with both bodies of the polling task: the task finds
`_mustFinish` set, the callback of the runtime sets `_finished`, and the caller finds that. The three
must not be passed over for ever while they can go on. -/
theorem unregister_returns (F : ∀ l, (system mode).beside.WeaklyFair (· = some l) σ ls)
    (h : (σ n).unregister ≠ .before) : ∃ m ≥ n, (σ m).unregister = .returned := by
  have I (m : Nat) : PollingInv (σ m) := .of_reachable (E.reachable m).of_beside
  have hcalled {m : Nat} (hm : m ≥ n) : (σ m).unregister ≠ .before := by
    refine polling_always E (P := fun p => p.unregister ≠ .before) ?_ h hm
    intro p l p' hs hp
    by_cases hl : l = .unregister
    · subst hl
      exact (unregister_step hs).2.1
    · rwa [(task_step hl hs).1]
  have hmust {m : Nat} (hm : m ≥ n) : (σ m).mustFinish = true := (I m).mustFinish.mpr (hcalled hm)
  have htask {m : Nat} (hm : m ≥ n) : (σ (m + 1)).taskRank ≤ (σ m).taskRank := by
    rcases polling_step E m with heq | ⟨l, -, hs⟩
    · rw [heq]
    · by_cases hl : l = .unregister
      · subst hl
        simp only [taskRank, (unregister_step hs).1, Nat.le_refl]
      · exact ((task_step hl hs).2 (hmust hm)).le
  have hlt {m : Nat} (l : PollingParty) (hl : l ≠ .unregister) (hm : m ≥ n) (h : ls m = some l) :
      (σ (m + 1)).taskRank < (σ m).taskRank := by
    have hs := E.step m
    rw [h] at hs
    exact (task_step hl hs).2 (hmust hm)
  have hstays {b i : Nat} (hi : i ≥ n) (hb : (σ i).taskRank ≤ b) {m : Nat} (hm : m ≥ i) :
      (σ m).taskRank ≤ b :=
    always_from (P := fun m => (σ m).taskRank ≤ b) hb
      (fun m hm hle => (htask (Nat.le_trans hi hm)).trans hle) m hm
  -- the body ends
  obtain ⟨i, hi, hbody⟩ := (F .body).exists_disabled (μ := taskRank) (fun m hm => htask hm)
    fun m hm h => hlt .body (by simp) hm h
  have hended : (σ i).taskRank ≤ 1 := by
    by_contra hno
    obtain ⟨p', hp'⟩ : ∃ p', (σ i).step mode .body = some p' := exists_body (Nat.lt_of_not_le hno)
    exact hbody ⟨_, p', rfl, hp'⟩
  -- the callback runs
  obtain ⟨j, hj, hcallback⟩ := (F .callback).exists_disabled (k := i) (μ := taskRank)
    (fun m hm => htask (Nat.le_trans hi hm))
    fun m hm h => hlt .callback (by simp) (Nat.le_trans hi hm) h
  have hzero : (σ j).taskRank ≤ 0 := by
    by_contra hno
    have hone : (σ j).taskRank = 1 := by
      have := hstays hi hended hj
      omega
    obtain ⟨p', hp'⟩ : ∃ p', (σ j).step mode .callback = some p' := exists_callback hone
    exact hcallback ⟨_, p', rfl, hp'⟩
  have hnj := Nat.le_trans hi hj
  have hfinished {m : Nat} (hm : m ≥ j) : (σ m).finished = true :=
    (I m).completed.mpr (completed_of_taskRank (Nat.le_zero.mp (hstays hnj hzero hm)))
  -- the caller finds it out
  have hunreg {m : Nat} (hm : m ≥ j) (h : ls m = some .unregister) :
      (σ (m + 1)).unregisterRank < (σ m).unregisterRank := by
    have hs := E.step m
    rw [h] at hs
    exact (unregister_step hs).2.2 (hfinished hm)
  obtain ⟨k, hk, hcaller⟩ := (F .unregister).exists_disabled (k := j) (μ := unregisterRank)
    (fun m hm => by
      rcases polling_step E m with heq | ⟨l, hl, hs⟩
      · rw [heq]
      · by_cases h : l = .unregister
        · exact (hunreg hm (h ▸ hl)).le
        · simp only [unregisterRank, (task_step h hs).1, Nat.le_refl])
    fun m hm h => hunreg hm h
  refine ⟨k, Nat.le_trans hnj hk, ?_⟩
  by_contra hno
  obtain ⟨p', hp'⟩ : ∃ p', (σ k).step mode .unregister = some p' := exists_unregister hno
  exact hcaller ⟨_, p', rfl, hp'⟩

end

/-- `_mustFinish` is set while the task is about to call the polling function. -/
def setDuringCall : List PollingParty := [.body, .body, .unregister]

def endOfCall : List PollingParty :=
  [.unregister, .body, .body, .unregister, .body, .body, .body, .unregister, .callback, .unregister,
    .unregister, .unregister, .unregister]

theorem unregister_returns_endOfCall : ∃ σ ls, (system .suspend).beside.Execution σ ls ∧
    (σ 0).unregister = .test ∧ (σ 0).task = .load ∧ ∃ m, (σ m).unregister = .returned := by
  obtain ⟨p, hp, hcall, hload⟩ : ∃ p, run (step .suspend) registered setDuringCall = some p ∧
      p.unregister = .test ∧ p.task = .load := ⟨_, rfl, rfl, rfl⟩
  obtain ⟨q, hq, htask, hreturned⟩ : ∃ q, run (step .suspend) p endOfCall = some q ∧
      q.task = .completed ∧ q.unregister = .returned := by
    cases hp
    exact ⟨_, rfl, rfl, rfl⟩
  have hreach : (system .suspend).Reachable p :=
    ⟨_, setDuringCall, rfl, .of_run (f := step .suspend) (fun _ _ _ _ h => h) hp⟩
  obtain ⟨σ, ls, E, rfl, -, hfair⟩ :=
    exists_resting (f := step .suspend) (fun _ _ _ h => h) hreach hq
  have F (l : PollingParty) : (system .suspend).beside.WeaklyFair (· = some l) σ ls := by
    refine hfair _ (by simp) fun k p' _ hs => ?_
    cases k <;> simp [system, step, suspendPolling, genericPolling, genericCompleted,
      unregisterPolling, htask, hreturned] at hs
  obtain ⟨m, -, hm⟩ := unregister_returns E F (n := 0) (by simp [hcall])
  exact ⟨σ, ls, E, hcall, hload, m, hm⟩

end Tampi.Polling
