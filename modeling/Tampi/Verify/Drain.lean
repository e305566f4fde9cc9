import Tampi.Verify.Milestones

/-! # Every operation is eventually notified

In a fair run of the whole system in which submissions come to an end the library drains: from some
time on it is quiescent (`Fair.drains`). The proof looks at the run from the time on at which no
milestone is reached any more. The requests in flight have all completed then, so a polling call that
found nothing leaves none in flight; with nothing in flight a call empties the pre-queues; and with
empty pre-queues no task is held up in its push. -/

namespace Tampi
open Function (update)
open Filter (atTop)

/-! ## The tasks in `process` -/

namespace Sys
variable {cfg : Config} {s t : Sys}

/-- The steps of a CPU still to come in its call of `process`. -/
def cpuRank (s : Sys) (c : Nat) : Nat :=
  match s.cpus c with
  | .idle => 0
  | .pushed _ => 1
  | .bound _ => 7
  | .allocated .. => 6
  | .pushing .. => (s.p2pOperations.producer c).rank + 1

theorem PollMove.cpus (M : s.PollMove cfg a t) :
    t.cpus = s.cpus ∧ t.p2pOperations.producer = s.p2pOperations.producer := by
  cases M with
  | pop => exact ⟨rfl, MultiLockFreeQueue.pop_frame.producer⟩
  | popping _ hq => exact ⟨rfl, (MultiLockFreeQueue.consumerStep_frame hq).producer⟩
  | transfer _ M =>
    obtain ⟨F, -⟩ := M.frame
    exact ⟨F.cpus, congrArg _ F.p2pOperations⟩
  | check _ M => exact ⟨M.frame.cpus, congrArg _ M.frame.p2pOperations⟩
  | _ => exact ⟨rfl, rfl⟩

/-- A task in `process` is moved by its own steps only. -/
theorem cpu_of_step (hs : s.step cfg l = some t) (hf : t.failure = none) (hl : l ≠ .cpu c)
    (hb : s.cpus c ≠ .idle) : t.cpus c = s.cpus c ∧
      t.p2pOperations.producer c = s.p2pOperations.producer c := by
  rcases move_of_step hs hf with ⟨a, rfl, M⟩ | ⟨-, M⟩
  · obtain ⟨hc, hp⟩ := M.cpus
    exact ⟨congrFun hc c, congrFun hp c⟩
  · have hne {cpu : Nat} (h : Label.cpu cpu ≠ .cpu c) : c ≠ cpu := by
      rintro rfl
      exact h rfl
    cases M with
    | @process cpu task nature args hidle =>
      refine ⟨Function.update_of_ne ?_ .., rfl⟩
      rintro rfl
      exact hb hidle
    | noObjects | queueFull | collFull => cases hf
    | alloc | pushColl | block => exact ⟨Function.update_of_ne (hne hl) .., rfl⟩
    | startPush => exact ⟨Function.update_of_ne (hne hl) ..,
        MultiLockFreeQueue.push_frame.producer c (hne hl)⟩
    | push _ hq => exact ⟨rfl, (MultiLockFreeQueue.producerStep_frame hq).producer c (hne hl)⟩
    | pushed _ hq | retryPush _ hq => exact ⟨Function.update_of_ne (hne hl) ..,
        (MultiLockFreeQueue.producerStep_frame hq).producer c (hne hl)⟩
    | retryColl | resume | consume | consumed | complete | mpi => exact ⟨rfl, rfl⟩

/-- Where no push can fail, a task gets on in `process` with each of its steps. -/
theorem cpuRank_of_step (I : s.Inv cfg) (hs : s.step cfg l = some t) (hf : t.failure = none)
    (hb : s.cpus c ≠ .idle)
    (hp2p : ∀ object ctx, s.cpus c = .pushing object ctx → s.p2pOperations.length cfg.queue c = 0)
    (hcoll : ∀ object ctx, s.cpus c = .allocated .coll object ctx →
      s.collOperations.length < cfg.sizes.collQueue) :
    t.cpuRank c ≤ s.cpuRank c ∧ (l = .cpu c → t.cpuRank c < s.cpuRank c) := by
  by_cases hl : l = .cpu c
  · subst hl
    suffices hlt : t.cpuRank c < s.cpuRank c from ⟨hlt.le, fun _ => hlt⟩
    have hdone {u : Sys} {ctx : TaskContext}
        (h : u.cpus = update s.cpus c (if ctx.blocking then .pushed ctx else .idle)) :
        u.cpuRank c ≤ 1 := by
      unfold cpuRank
      rw [h, Function.update_self]
      cases ctx.blocking <;> simp
    cases agentMove_of_step hs rfl with
    | noObjects | queueFull | collFull => cases hf
    | alloc hc => simp [cpuRank, hc]
    | @startPush _ object ctx hc =>
      have : ((s.p2pOperations.push c object).producer c).rank ≤ 4 :=
        MultiLockFreeQueue.rank_push_le
      simp only [cpuRank, Function.update_self, hc]
      omega
    | push hc hq =>
      simp only [cpuRank, hc]
      exact Nat.add_lt_add_right (MultiLockFreeQueue.rank_producerStep_lt hq) 1
    | pushed hc hq =>
      have := MultiLockFreeQueue.rank_producerStep_lt hq
      refine Nat.lt_of_le_of_lt (hdone rfl) ?_
      simp only [cpuRank, hc]
      omega
    | @retryPush _ object ctx q hc hq hret =>
      have hcpu := I.cpus c
      rw [hc] at hcpu
      refine absurd hret (MultiLockFreeQueue.not_returned_false I.queue ?_ hq ?_)
      · have := cfg.queue.two_le
        rw [hp2p object ctx hc]
        omega
      · intro hp
        have hpush := hcpu.1
        rw [hp] at hpush
        exact hpush
    | pushColl hc =>
      refine Nat.lt_of_le_of_lt (hdone rfl) ?_
      simp [cpuRank, hc]
    | retryColl hc hfull => exact absurd (hcoll _ _ hc) hfull
    | block hc => simp [cpuRank, hc]
  · obtain ⟨hc, hp⟩ := cpu_of_step hs hf hl hb
    have heq : t.cpuRank c = s.cpuRank c := by
      unfold cpuRank
      rw [hc, hp]
    exact ⟨heq.le, fun h => absurd h hl⟩

/-- A task leaves `process` with a milestone. -/
theorem busy_of_still (hs : s.step cfg l = some t) (hf : t.failure = none)
    (hstill : Still s.log t.log) (hb : s.cpus c ≠ .idle) : t.cpus c ≠ .idle := by
  by_cases hl : l = .cpu c
  · subst hl
    cases agentMove_of_step hs rfl with
    | pushed | pushColl | block => cases hstill.not_milestone
    | noObjects | queueFull | collFull => cases hf
    | alloc | startPush | retryPush => simp
    | push | retryColl => exact hb
  · rw [(cpu_of_step hs hf hl hb).1]
    exact hb

theorem cpu_enabled (I : s.Inv cfg) (hf : s.failure = none) (hb : s.cpus c ≠ .idle) :
    (system cfg).Enabled (· = .cpu c) s := by
  have hstep : ∃ t, s.cpuStep cfg c = some t := by
    have hcpu := I.cpus c
    unfold cpuStep
    cases hc : s.cpus c with
    | idle => exact absurd hc hb
    | bound | pushed => exact ⟨_, rfl⟩
    | allocated kind => cases kind <;> exact ⟨_, rfl⟩
    | pushing object ctx =>
      rw [hc] at hcpu
      have hpush := hcpu.1
      have hq : ∃ q, s.p2pOperations.producerStep cfg.queue c = some q := by
        unfold MultiLockFreeQueue.producerStep
        cases hp : s.p2pOperations.producer c with
        | idle | returned =>
          rw [hp] at hpush
          exact hpush.elim
        | refresh e =>
          dsimp only
          split <;> exact ⟨_, rfl⟩
        | write elems i =>
          rw [hp] at hpush
          obtain ⟨rfl, rfl⟩ := hpush
          exact ⟨_, rfl⟩
        | publish => exact ⟨_, rfl⟩
      obtain ⟨q, hq⟩ := hq
      exact ⟨_, congrArg (Option.map _) hq⟩
  obtain ⟨t, hstep⟩ := hstep
  refine ⟨_, t, rfl, trivial, ?_⟩
  unfold Sys.step
  rwa [if_neg (by simp [hf])]

/-! ## The completion task -/

/-- The steps of the completion task up to the next notification. -/
def consumingRank (s : Sys) : Nat :=
  match s.consuming with
  | some 0 => 2
  | none => 1
  | some (_ + 1) => 0

theorem consumingRank_of_notifies (hs : s.step cfg l = some t) (hf : t.failure = none)
    (hn : notifies t.log = notifies s.log) : t.consumingRank ≤ s.consumingRank ∧
      (l = .completion → t.consumingRank < s.consumingRank) := by
  rcases move_of_step hs hf with ⟨a, rfl, M⟩ | ⟨-, M⟩
  · obtain ⟨hc, -⟩ := M.unreleased
    refine ⟨?_, by simp⟩
    unfold consumingRank
    rw [hc]
  · cases M with
    | complete => simp [Sys.complete] at hn
    | consume hnone hne =>
      obtain ⟨k, hk⟩ := Nat.exists_eq_succ_of_ne_zero
        (fun h => hne (List.eq_nil_of_length_eq_zero h))
      simp [consumingRank, hnone, hk]
    | consumed hz => simp [consumingRank, hz]
    | _ => exact ⟨Nat.le_refl _, by simp⟩

theorem consuming_of_step (hs : s.step cfg l = some t) (hf : t.failure = none)
    (hnil : s.completions.contents = []) (h : s.consuming = none) : t.consuming = none := by
  rcases move_of_step hs hf with ⟨a, rfl, M⟩ | ⟨-, M⟩
  · exact M.unreleased.1.trans h
  · cases M with
    | consume _ hne => exact absurd hnil hne
    | consumed => rfl
    | complete hc => cases h.symm.trans hc
    | _ => exact h

theorem completion_enabled (I : s.Inv cfg) (hf : s.failure = none)
    (h : s.consuming ≠ none ∨ s.completions.contents ≠ []) :
    (system cfg).Enabled (· = .completion) s := by
  have hstep : ∃ t, s.completionStep = some t := by
    unfold completionStep
    cases hc : s.consuming with
    | none =>
      rw [if_neg (h.resolve_left (by simp [hc]))]
      exact ⟨_, rfl⟩
    | some left =>
      cases left with
      | zero => exact ⟨_, rfl⟩
      | succ left =>
        have hle := I.consuming _ hc
        cases hctx : s.completions.contents with
        | nil => simp [hctx] at hle
        | cons ctx rest => exact ⟨_, rfl⟩
  obtain ⟨t, hstep⟩ := hstep
  refine ⟨_, t, rfl, trivial, ?_⟩
  unfold Sys.step
  rwa [if_neg (by simp [hf])]

/-! ## Fair runs -/

/-- What evaluations keep of the controller is as in the configuration. -/
theorem capacityCtrl_of_reachable {f : CapacityCtrl → α}
    (hkeep : ∀ c pending completed now, f (c.evaluate pending completed now) = f c)
    (h : (system cfg).Reachable s) (hf : s.failure = none) :
    f s.manager.capacityCtrl = f cfg.capacityCtrl := by
  refine h.rec_inv (I := fun s : Sys => s.failure = none →
    f s.manager.capacityCtrl = f cfg.capacityCtrl) ?_ ?_ hf
  · rintro s ⟨data, objects, arrays, memory, rfl⟩ -
    rfl
  · intro s l t _ hstep ih hf
    have hs := ih (failure_of_step hstep.2)
    rcases capacityCtrl_of_step hstep.2 hf with heq | ⟨total, ms, -, -, heq⟩
    · rw [heq, hs]
    · rw [heq, hkeep, hs]

theorem capacity_pos (h : (system cfg).Reachable s) (hf : s.failure = none)
    (hcap : 0 < cfg.capacityCtrl.capacityMin) : 0 < s.manager.capacityCtrl.capacity := by
  refine Nat.lt_of_lt_of_le ?_ s.manager.capacityCtrl.min_le
  rwa [capacityCtrl_of_reachable (fun _ _ _ _ => CapacityCtrl.evaluate_capacityMin) h hf]

theorem mpi_of_step (h : s.step cfg (.mpi r status) = some t) :
    ∃ owner, s.mpi r = some ⟨owner, none⟩ ∧
      t.mpi = update s.mpi r (some ⟨owner, some status⟩) := by
  cases agentMove_of_step h rfl with
  | mpi hm => exact ⟨_, hm, rfl⟩

theorem mpi_enabled (hf : s.failure = none) (h : s.mpi r = some ⟨owner, none⟩) :
    (system cfg).Enabled (fun l => ∃ status, l = .mpi r status) s := by
  have hstep : ∃ t, s.step cfg (.mpi r default) = some t := by
    unfold Sys.step
    rw [if_neg (by simp [hf])]
    simp only [h]
    exact ⟨_, rfl⟩
  obtain ⟨t, hstep⟩ := hstep
  exact ⟨_, t, ⟨_, rfl⟩, trivial, hstep⟩

theorem resume_enabled (hf : s.failure = none) (h : s.tasks task = .blocked ctx)
    (hp : 0 < s.permits task) : (system cfg).Enabled (· = .resume task) s := by
  have hstep : ∃ t, s.step cfg (.resume task) = some t := by
    unfold Sys.step resume
    rw [if_neg (by simp [hf])]
    simp only [h, if_pos hp]
    exact ⟨_, rfl⟩
  obtain ⟨t, hstep⟩ := hstep
  exact ⟨_, t, rfl, trivial, hstep⟩

/-- The polling task, the completion task and the tasks in `process` go on, blocked tasks that may
resume do, every request completes, and the tests are answered truthfully. -/
structure Fair (cfg : Config) (σ : Nat → Sys) (l : Nat → Label) : Prop where
  execution : (system cfg).Execution σ l
  poll : (system cfg).WeaklyFair (fun l => l.isPoll) σ l
  cpu : ∀ c, (system cfg).WeaklyFair (· = .cpu c) σ l
  resume : ∀ task, (system cfg).WeaklyFair (· = .resume task) σ l
  completion : (system cfg).WeaklyFair (· = .completion) σ l
  mpi : ∀ r, (system cfg).WeaklyFair (fun l => ∃ status, l = .mpi r status) σ l
  honest : ∀ n, (σ n).honest cfg (l n)

variable {σ : Nat → Sys} {l : Nat → Label}

theorem Fair.drop (F : Fair cfg σ l) (k : Nat) :
    Fair cfg (fun n => σ (n + k)) (fun n => l (n + k)) where
  execution := F.execution.drop k
  poll := F.poll.drop k
  cpu c := (F.cpu c).drop k
  resume task := (F.resume task).drop k
  completion := F.completion.drop k
  mpi r := (F.mpi r).drop k
  honest n := F.honest (n + k)

/-- The polling task is never stuck, so it moves again and again. -/
theorem Fair.exists_poll (F : Fair cfg σ l) (k : Nat) : ∃ n ≥ k, (l n).isPoll := by
  refine F.poll.frequently (fun n => ?_) k
  obtain ⟨a, t, -, hstep⟩ :=
    exists_honest_step (F.execution.reachable n) (failure_of_execution F.execution n)
  exact ⟨.poll a, t, rfl, hstep⟩

/-- Once there are no more submissions, there are no more milestones from some time on. -/
theorem exists_still (E : (system cfg).Execution σ l) (h : ∀ n ≥ k, (l n).submits = false) :
    ∃ m ≥ k, ∀ n ≥ m, Still (σ n).log (σ (n + 1)).log := by
  have E' := E.drop k
  have hbinds (n : Nat) : binds (σ (n + k)).log = binds (σ k).log := by
    induction n with
    | zero => rw [Nat.zero_add]
    | succ n ih =>
      rw [← ih]
      exact binds_of_step (E'.reachable n) (E'.step n) (failure_of_execution E' (n + 1))
        (h (n + k) (Nat.le_add_left k n))
  obtain ⟨m, hm⟩ := exists_select_eq E' Event.milestone? (b := 7 * (binds (σ k).log).length)
    fun n => by
      obtain ⟨-, HL⟩ := Inv.of_reachable (E'.reachable n) (failure_of_execution E' n)
      rw [← hbinds n]
      exact HL.length_milestones_le
  refine ⟨m + k, Nat.le_add_left k m, fun n hn => ?_⟩
  obtain ⟨d, rfl⟩ := Nat.exists_eq_add_of_le' (Nat.le_trans (Nat.le_add_left k m) hn)
  have := hm d (by omega)
  rwa [Nat.add_right_comm] at this

/-! ## From then on -/

theorem blocked_of_agent (h : s.agent task = .blocked ctx) : s.tasks task = .blocked ctx := by
  unfold agent at h
  split at h
  · cases h
  · cases h
    assumption
  · split at h <;> cases h

theorem still_from (S : ∀ n, Still (σ n).log (σ (n + 1)).log) (n : Nat) :
    Still (σ 0).log (σ n).log := by
  induction n with
  | zero => rfl
  | succ n ih => exact (S n).trans ih

/-- If the pre-queues are empty at the end of a call, then no operation waits, at any time. -/
theorem queued_of_noneQueued (E : (system cfg).Execution σ l)
    (S : ∀ n, Still (σ n).log (σ (n + 1)).log) (hp : (σ m).poll = .evaluate total)
    (hnone : (σ m).NoneQueued cfg) (n : Nat) :
    (∀ line, (σ n).waiting cfg line = []) ∧ (σ n).batch = [] := by
  have hinv (n : Nat) := Inv.of_reachable (E.reachable n) (failure_of_execution E n)
  -- when the pre-queues were empty
  have hissued (line : Line) : ((pushes (σ m).log).map Op.id).filter (·.line = line) =
      (issues (σ m).log).filter (·.line = line) := by
    have hbatch : (σ m).batch = [] := by
      have hpoll := (hinv m).1.poll
      rw [hp] at hpoll
      rw [batch_of_plain (by rw [hp]; rfl), hpoll.1]
      rfl
    have hqueue : (σ m).queue cfg line = [] := by
      rw [Sys.queue, (hinv m).1.waiting_eq_nil hnone line, List.map_nil]
    have horder := (hinv m).2.ordered.order line
    simpa only [life, hbatch, hqueue, List.map_nil, List.filter_nil, List.append_nil] using horder
  -- and ever since
  have hall (line : Line) : ((σ n).batch.map Op.id).filter (·.line = line) = [] ∧
      (σ n).queue cfg line = [] := by
    have horder := (hinv n).2.ordered.order line
    simp only [life] at horder
    rw [(still_from S n).pushes, (still_from S n).issues, ← (still_from S m).pushes,
      ← (still_from S m).issues, hissued line, List.append_assoc] at horder
    have hnil := List.append_right_eq_self.mp horder.symm
    obtain ⟨hb, hq⟩ := List.append_eq_nil_iff.mp hnil
    exact ⟨hb, List.map_eq_nil_iff.mp hq⟩
  refine ⟨fun line => List.map_eq_nil_iff.mp (hall line).2, ?_⟩
  refine List.eq_nil_iff_forall_not_mem.mpr fun op hop => ?_
  have := (hall op.id.line).1
  rw [List.filter_eq_nil_iff] at this
  exact this op.id (List.mem_map_of_mem hop) (by simp)

section
variable (F : Fair cfg σ l) (S : ∀ n, Still (σ n).log (σ (n + 1)).log)
include F S

theorem Fair.frozen (n : Nat) : ((σ n).life cfg).Frozen ((σ (n + 1)).life cfg) :=
  frozen_of_step (F.execution.reachable n) (F.execution.step n)
    (failure_of_execution F.execution (n + 1)) (S n)

theorem Fair.inflight (n : Nat) : (σ n).inflight = (σ 0).inflight := by
  induction n with
  | zero => rfl
  | succ n ih => exact (Fair.frozen F S n).inflight.trans ih

/-- Every request completes once, so MPI completes no more from some time on. -/
theorem Fair.exists_not_mpi : ∃ k, ∀ n ≥ k, (l n).isMpi = false := by
  let active (n : Nat) (slot : Slot) : Prop := ∃ owner, (σ n).mpi slot.request = some ⟨owner, none⟩
  classical
  have hmove (n : Nat) : (∀ slot, active (n + 1) slot → active n slot) ∧
      ((l n).isMpi → ∃ slot ∈ (σ 0).inflight, active n slot ∧ ¬ active (n + 1) slot) := by
    have hr := F.execution.reachable n
    have hf := failure_of_execution F.execution
    have hstep := F.execution.step n
    by_cases hl : (l n).isMpi
    · cases hln : l n with
      | process | cpu | resume | poll | completion =>
        rw [hln] at hl
        cases hl
      | mpi r status =>
        rw [hln] at hstep
        obtain ⟨owner, hm, heq⟩ := mpi_of_step hstep.2
        obtain ⟨slot, hslot, hreq, -⟩ := claimed_of_reachable hr (hf n) r _ hm
        constructor
        · rintro slot' ⟨owner', hact⟩
          by_cases hreq' : slot'.request = r
          · exact ⟨owner, hreq' ▸ hm⟩
          · rw [heq, Function.update_of_ne hreq'] at hact
            exact ⟨owner', hact⟩
        · refine fun _ => ⟨slot, Fair.inflight F S n ▸ hslot, ⟨owner, hreq ▸ hm⟩, ?_⟩
          rintro ⟨owner', hact⟩
          simp [heq, hreq] at hact
    · have heq := mpi_of_still hr hstep (hf (n + 1)) (S n) (Bool.eq_false_of_not_eq_true hl)
      refine ⟨fun slot hact => ?_, fun h => absurd h hl⟩
      simpa only [active, heq] using hact
  obtain ⟨k, -, hk⟩ := Transition.eventually_not_of_lt (k := 0)
    (f := fun n => Multiset.card ((σ 0).inflight.filter (active n))) (P := fun n => (l n).isMpi)
    (fun n _ => Multiset.card_le_card (Multiset.monotone_filter_right _ (hmove n).1))
    fun n _ h => by
      obtain ⟨slot, hslot, hact, hnot⟩ := (hmove n).2 h
      refine Multiset.card_lt_card (lt_of_le_of_ne
        (Multiset.monotone_filter_right _ (hmove n).1) fun heq => hnot ?_)
      have hmem : slot ∈ (σ 0).inflight.filter (active n) := Multiset.mem_filter.mpr ⟨hslot, hact⟩
      rw [← heq] at hmem
      exact (Multiset.mem_filter.mp hmem).2
  exact ⟨k, fun n hn => Bool.eq_false_of_not_eq_true (hk n hn)⟩

/-- Then all requests in flight have completed. -/
theorem Fair.finished (hk : ∀ n ≥ k, (l n).isMpi = false) (hn : n ≥ k) (hs : slot ∈ (σ 0).inflight) :
    (σ n).mpi.finished slot.request := by
  have hconst : ∀ m ≥ k, (σ m).mpi = (σ k).mpi := Transition.always_from rfl fun m hm ih =>
    (mpi_of_still (F.execution.reachable m) (F.execution.step m)
      (failure_of_execution F.execution (m + 1)) (S m) (hk m hm)).trans ih
  obtain ⟨m, hm, hdis⟩ := (F.mpi slot.request).exists_disabled_of_not (k := k) (by
    rintro m hm ⟨status, hl⟩
    have := hk m hm
    rw [hl] at this
    cases this)
  have hfm := failure_of_execution F.execution m
  obtain ⟨-, HL⟩ := Inv.of_reachable (F.execution.reachable m) hfm
  have hmem : slot ∈ (σ m).inflight := by
    rw [Fair.inflight F S m]
    exact hs
  obtain ⟨status, hactive⟩ := HL.registered.active slot hmem
  cases status with
  | some status =>
    rw [hconst n hn, ← hconst m hm]
    exact Mpi.finished_iff.mpr ⟨_, status, hactive⟩
  | none =>
    exact absurd (mpi_enabled hfm hactive) hdis

/-- A call that starts late enough finds no completed request and leaves no avoidable backlog. -/
theorem Fair.exists_evaluate (hk : ∀ n ≥ k, (l n).isMpi = false) : ∃ n ≥ k, ∃ total,
    (σ n).poll = .evaluate total ∧ (σ n).Drained cfg ∧
      (σ n).checkBuffers.NoneFinished (σ n).manager.pending := by
  have hpush (n : Nat) : pushes (σ (n + 1)).log = pushes (σ n).log := (S n).pushes
  obtain ⟨j, hj, hidle⟩ := exists_idle F.execution F.exists_poll (k := k) fun n _ => hpush n
  have hswept : ∀ n ≥ j, (σ n).Swept := by
    refine Transition.always_from ?_ ?_
    · unfold Swept
      rw [hidle]
      trivial
    · intro n hn W
      have hstep := F.execution.step n
      have hf := failure_of_execution F.execution (n + 1)
      have hr := F.execution.reachable n
      obtain ⟨I, -⟩ := Inv.of_reachable hr (failure_of_execution F.execution n)
      have H := F.honest n
      rcases move_of_step hstep.2 hf with ⟨a, hl, M⟩ | ⟨hl, -⟩
      · rw [hl] at H
        exact M.swept I H W
      · have hm := mpi_of_still hr hstep hf (S n) (hk n (hj.trans hn))
        obtain ⟨hman, hp⟩ := step_manager hstep.2 hl
        exact W.congr hp hman hm
  obtain ⟨n, hn, total, ms, hp, -⟩ := Sys.exists_evaluate F.execution F.exists_poll (k := j)
    fun n _ => hpush n
  have R := (round_from F.execution hidle (fun n _ => hpush n) n hn).resolve_left (by simp [hp])
  have W := hswept n hn
  simp only [Round, hp] at R
  simp only [Swept, hp] at W
  exact ⟨n, hj.trans hn, total, hp, R, W⟩

theorem Fair.inflight_eq_zero : (σ 0).inflight = 0 := by
  refine Multiset.eq_zero_iff_forall_notMem.mpr fun slot hs => ?_
  obtain ⟨k, hk⟩ := Fair.exists_not_mpi F S
  obtain ⟨n, hn, total, hp, -, hnone⟩ := Fair.exists_evaluate F S hk
  have hfin := Fair.finished F S hk hn hs
  have hplain : (σ n).poll.plain := by
    rw [hp]
    rfl
  rw [← Fair.inflight F S n, inflight_of_plain hplain] at hs
  obtain ⟨p, hmem, r, hr, rfl⟩ := mem_slots_iff.mp hs
  have := hnone p (List.mem_range.mp hmem)
  simp only [Buffers.finished, checkBuffers, hr, Option.any_some] at this
  rw [hfin] at this
  cases this

/-- A call that ends late enough leaves nothing in flight and nothing in the pre-queues. -/
theorem Fair.exists_drained (hcap : 0 < cfg.capacityCtrl.capacityMin) :
    ∃ n, ∃ total, (σ n).poll = .evaluate total ∧ (σ n).NoneQueued cfg := by
  obtain ⟨k, hk⟩ := Fair.exists_not_mpi F S
  obtain ⟨n, -, total, hp, hdrained, -⟩ := Fair.exists_evaluate F S hk
  have hr := F.execution.reachable n
  have hf := failure_of_execution F.execution n
  obtain ⟨I, -⟩ := Inv.of_reachable hr hf
  have hpending : (σ n).manager.pending = 0 := by
    refine pending_eq_zero I (by rw [hp]; rfl) ?_
    rw [Fair.inflight F S n, Fair.inflight_eq_zero F S]
  refine ⟨n, total, hp, hdrained.resolve_right fun h => ?_⟩
  rw [hpending] at h
  exact (capacity_pos hr hf hcap).ne h

/-- All pushed operations have been issued. -/
theorem Fair.queued (hcap : 0 < cfg.capacityCtrl.capacityMin) (n : Nat) :
    (∀ line, (σ n).waiting cfg line = []) ∧ (σ n).batch = [] := by
  obtain ⟨m, total, hp, hnone⟩ := Fair.exists_drained F S hcap
  exact queued_of_noneQueued F.execution S hp hnone n

theorem Fair.cpus (hcap : 0 < cfg.capacityCtrl.capacityMin) (hcoll : 0 < cfg.sizes.collQueue)
    (n c : Nat) : (σ n).cpus c = .idle := by
  by_contra hb
  have hf := failure_of_execution F.execution
  have hbusy : ∀ m ≥ n, (σ m).cpus c ≠ .idle := Transition.always_from hb fun m _ h =>
    busy_of_still (F.execution.step m).2 (hf (m + 1)) (S m) h
  have hinv (m : Nat) := (Inv.of_reachable (F.execution.reachable m) (hf m)).1
  have hrank (m : Nat) (hm : m ≥ n) := by
    have hqueue := (Fair.queued F S hcap m).1
    refine cpuRank_of_step (hinv m) (F.execution.step m).2 (hf (m + 1)) (hbusy m hm)
      (fun _ _ _ => ?_) fun _ _ _ => ?_
    · rw [← MultiLockFreeQueue.length_contents, show (σ m).p2pOperations.contents cfg.queue c = []
        from hqueue (.p2p c), List.length_nil]
    · rw [show (σ m).collOperations = [] from hqueue .coll]
      exact hcoll
  obtain ⟨m, hm, hdis⟩ := (F.cpu c).exists_disabled (k := n) (μ := fun s => s.cpuRank c)
    (fun m hm => (hrank m hm).1) fun m hm => (hrank m hm).2
  exact hdis (cpu_enabled (hinv m) (hf m) (hbusy m hm))

theorem Fair.exists_consumed (k : Nat) : ∃ n ≥ k, (σ n).consuming = none ∧
    (σ n).completions.contents = [] := by
  have hrank (n : Nat) := consumingRank_of_notifies (F.execution.step n).2
    (failure_of_execution F.execution (n + 1)) (S n).notifies
  obtain ⟨n, hn, hdis⟩ := F.completion.exists_disabled (k := k) (μ := consumingRank)
    (fun n _ => (hrank n).1) fun n _ => (hrank n).2
  have hf := failure_of_execution F.execution n
  obtain ⟨I, -⟩ := Inv.of_reachable (F.execution.reachable n) hf
  refine ⟨n, hn, ?_, ?_⟩
  · by_contra hc
    exact hdis (completion_enabled I hf (.inl hc))
  · by_contra hc
    exact hdis (completion_enabled I hf (.inr hc))

theorem Fair.contents (n : Nat) : (σ n).completions.contents = [] := by
  obtain ⟨m, hm, -, hnil⟩ := Fair.exists_consumed F S n
  have hle : ∀ m ≥ n, (σ n).completions.contents.length ≤ (σ m).completions.contents.length :=
    Transition.always_from (Nat.le_refl _) fun m _ h => h.trans (Fair.frozen F S m).completions
  have := hle m hm
  rw [hnil] at this
  exact List.eq_nil_of_length_eq_zero (Nat.le_zero.mp this)

theorem Fair.notified (hcap : 0 < cfg.capacityCtrl.capacityMin) (hcoll : 0 < cfg.sizes.collQueue)
    (n : Nat) : AllNotified (σ n).log := by
  intro op hop
  have hinv (n : Nat) := Inv.of_reachable (F.execution.reachable n) (failure_of_execution F.execution n)
  have hpush : op ∈ pushes (σ n).log := by
    refine (hinv n).2.pushed_of_not_binding ?_ hop
    simp only [life, agent]
    split
    · rfl
    · rfl
    · rw [Fair.cpus F S hcap hcoll]
      rfl
  -- at the end of a call no operation is between its completion and the hand-over
  obtain ⟨m, total, hp, -⟩ := Fair.exists_drained F S hcap
  obtain ⟨hqueue, hbatch⟩ := Fair.queued F S hcap m
  have hmem : op.context ∈ notifies (σ m).log := by
    refine (hinv m).2.notified_of_empty (fun line => ?_) hbatch ?_ ?_ (Fair.contents F S m) ?_
    · exact congrArg _ (hqueue line)
    · exact (Fair.inflight F S m).trans (Fair.inflight_eq_zero F S)
    · exact congrArg Multiset.ofList (undelivered_of_plain (by rw [hp]; rfl))
    · simpa only [life, (still_from S m).pushes, ← (still_from S n).pushes] using hpush
  simpa only [(still_from S m).notifies, ← (still_from S n).notifies] using hmem

theorem Fair.tasks (hcap : 0 < cfg.capacityCtrl.capacityMin) (hcoll : 0 < cfg.sizes.collQueue)
    (n : Nat) (task : Handle) : (σ n).tasks task = .ready := by
  obtain ⟨m, -, hdis⟩ := (F.resume task).exists_disabled_of_not (k := n) fun m _ hl => by
    have hstep := (F.execution.step m).2
    rw [hl] at hstep
    have hstill := S m
    generalize σ (m + 1) = t at hstep hstill
    cases agentMove_of_step hstep rfl with
    | resume => cases hstill.not_milestone
  have hagents : ∀ m, (σ m).agent = (σ 0).agent := fun m => by
    induction m with
    | zero => rfl
    | succ m ih => exact (Fair.frozen F S m).agents.trans ih
  obtain ⟨I, -⟩ := Inv.of_reachable (F.execution.reachable n) (failure_of_execution F.execution n)
  have htask := I.tasks task
  cases ht : (σ n).tasks task with
  | ready => rfl
  | inProcess c =>
    rw [ht, TaskInv, Fair.cpus F S hcap hcoll] at htask
    cases htask
  | blocked ctx =>
    -- its operation is notified, so it may resume
    have hf := failure_of_execution F.execution m
    obtain ⟨-, HL⟩ := Inv.of_reachable (F.execution.reachable m) hf
    have hagent : (σ m).agent task = .blocked ctx := by
      rw [hagents m, ← hagents n, agent, ht]
    have hpermits : (σ m).permits task = 1 := by
      have := HL.permits_eq (Fair.notified F S hcap hcoll m) task
      simpa only [life, hagent, Agent.waiting, List.length_singleton] using this
    refine absurd (resume_enabled hf (blocked_of_agent hagent) ?_) hdis
    rw [hpermits]
    exact Nat.zero_lt_one

/-- The library becomes quiescent. -/
theorem Fair.exists_quiescent (hcap : 0 < cfg.capacityCtrl.capacityMin)
    (hcoll : 0 < cfg.sizes.collQueue) : ∃ n, (σ n).Quiescent := by
  obtain ⟨k, -, hk, -⟩ := Fair.exists_consumed F S 0
  have hconsuming : ∀ n ≥ k, (σ n).consuming = none := by
    exact Transition.always_from hk fun n _ h => consuming_of_step (F.execution.step n).2
      (failure_of_execution F.execution (n + 1)) (Fair.contents F S n) h
  obtain ⟨j, hj⟩ := Fair.exists_not_mpi F S
  obtain ⟨n, hn, total, hp, -⟩ := Fair.exists_evaluate F S (k := max j k)
    fun n hn => hj n ((Nat.le_max_left ..).trans hn)
  refine ⟨n, Fair.notified F S hcap hcoll n, Fair.cpus F S hcap hcoll n, Fair.tasks F S hcap hcoll n,
    hconsuming n ((Nat.le_max_right ..).trans hn), ?_⟩
  rw [hp]
  rfl

end

/-! ## A fair run -/

theorem Fair.cons (F : Fair cfg σ l) (h : (system cfg).Reachable s)
    (hs : (system cfg).step s k (σ 0)) (hH : s.honest cfg k) :
    Fair cfg (Transition.prepend s σ) (Transition.prepend k l) where
  execution := F.execution.cons h hs
  poll := F.poll.cons
  cpu c := (F.cpu c).cons
  resume task := (F.resume task).cons
  completion := F.completion.cons
  mpi r := (F.mpi r).cons
  honest n := by
    cases n with
    | zero => exact hH
    | succ n => exact F.honest n

/-- A run that ends where a fair one begins. -/
theorem Fair.of_run (F : Fair cfg σ l) {ks : List Label} (h : (system cfg).Reachable s)
    (hasc : ∀ k ∈ ks, k.Ascending) (hH : s.honestAlong cfg ks)
    (hrun : Transition.System.run (Sys.step cfg) s ks = some (σ 0)) :
    ∃ σ' l', Fair cfg σ' l' ∧ σ' 0 = s ∧ (∀ n, l' (n + ks.length) = l n) ∧
      ∀ n ≤ ks.length, Transition.System.run (Sys.step cfg) s (ks.take n) = some (σ' n) := by
  induction ks generalizing s with
  | nil =>
    cases hrun
    refine ⟨σ, l, F, rfl, fun _ => rfl, fun n hn => ?_⟩
    obtain rfl : n = 0 := Nat.le_zero.mp hn
    rfl
  | cons k ks ih =>
    obtain ⟨t, hstep, hrun⟩ := Option.bind_eq_some_iff.mp hrun
    simp only [honestAlong, hstep, Bool.and_eq_true] at hH
    have hs : (system cfg).step s k t := ⟨hasc k (by simp), hstep⟩
    obtain ⟨σ', l', F', h0, hl, hσ⟩ :=
      ih (h.step hs) (fun k' hk' => hasc k' (by simp [hk'])) hH.2 hrun
    refine ⟨_, _, F'.cons h (h0.symm ▸ hs) hH.1, rfl, hl, fun n hn => ?_⟩
    cases n with
    | zero => rfl
    | succ n => exact Option.bind_eq_some_iff.mpr ⟨t, hstep, hσ n (Nat.le_of_succ_le_succ hn)⟩

theorem honest_of_plain (hp : s.poll.plain) : s.honest cfg (.poll a) := by
  have hnone : s.checking = none := by
    unfold checking
    split
    next hc =>
      rw [hc] at hp
      cases hp
    next => rfl
  rw [honest, hnone]
  rfl

theorem Quiescent.exists_fair (Q : s.Quiescent) (h : (system cfg).Reachable s)
    (hf : s.failure = none) : ∃ σ, Fair cfg σ (fun n => .poll (.now n)) ∧ σ 0 = s := by
  obtain ⟨σ, E, h0, hall⟩ := Q.exists_execution h hf
  -- only the polling task can move
  have hother {P : Label → Prop} (hP : ∀ k, P k → k.submits = false ∧ k.isPoll = false) :
      (system cfg).WeaklyFair P σ (fun n => .poll (.now n)) := by
    intro hen
    obtain ⟨n, k, t, hk, hs⟩ := hen.exists
    obtain ⟨hsub, hpoll⟩ := hP k hk
    have := ((hall n).step (E.reachable n) hs hsub).1
    rw [hpoll] at this
    cases this
  refine ⟨σ, ⟨E, ?_, ?_, ?_, ?_, ?_, ?_⟩, h0⟩
  · exact fun _ => Filter.Frequently.of_forall fun n => rfl
  · rintro c
    exact hother (by rintro _ rfl; exact ⟨rfl, rfl⟩)
  · rintro task
    exact hother (by rintro _ rfl; exact ⟨rfl, rfl⟩)
  · exact hother (by rintro _ rfl; exact ⟨rfl, rfl⟩)
  · rintro r
    exact hother (by rintro _ ⟨status, rfl⟩; exact ⟨rfl, rfl⟩)
  · exact fun n => honest_of_plain (hall n).plain

/-- `demoRun`, and then the polling of the quiescent library. -/
theorem demo_fair : ∃ σ l, Fair demoConfig σ l ∧ σ 0 = .cleared demoConfig ∧
    (∀ n, l (n + demoRun.length) = .poll (.now n)) ∧ ∀ n ≤ demoRun.length,
      Transition.System.run (Sys.step demoConfig) (.cleared demoConfig) (demoRun.take n) =
        some (σ n) := by
  obtain ⟨s, hs, hreach, hf, Q⟩ := demoRun_quiescent
  obtain ⟨σ, F, rfl⟩ := Q.exists_fair hreach hf
  have hinit : (system demoConfig).Reachable (.cleared demoConfig) :=
    .of_init ⟨_, _, _, _, rfl⟩
  exact F.of_run hinit (by decide +kernel) (by decide +kernel) hs

/-! ## The results -/

/-- No agent with work to do is ever stuck: MPI has a truthful answer that lets the polling task go
on, a task in `process` goes on, and the completion task takes what was handed over. -/
theorem never_stuck (h : (system cfg).Reachable s) (hf : s.failure = none) :
    (∃ a t, s.honest cfg (.poll a) ∧ (system cfg).step s (.poll a) t) ∧
      (∀ c, s.cpus c ≠ .idle → (system cfg).Enabled (· = .cpu c) s) ∧
      (s.consuming ≠ none ∨ s.completions.contents ≠ [] →
        (system cfg).Enabled (· = .completion) s) := by
  obtain ⟨I, -⟩ := Inv.of_reachable h hf
  exact ⟨exists_honest_step h hf, fun _ => cpu_enabled I hf, completion_enabled I hf⟩

/-- In the middle of the tests of a batch. -/
theorem demoRun_never_stuck : ∃ s, (system demoConfig).Reachable s ∧ s.checking.isSome ∧
    ∃ a t, s.honest demoConfig (.poll a) ∧ (system demoConfig).step s (.poll a) t := by
  obtain ⟨s, hs, h⟩ := demo_reachable 46 (fun s => (s.checking.isSome, s.failure.isNone))
    (a := (true, true)) (by decide +kernel)
  simp only [Prod.mk.injEq, Option.isNone_iff_eq_none] at h
  exact ⟨s, hs, h.1, (never_stuck hs h.2).1⟩

end Sys
end Tampi
