import Tampi.Verify.Approaches
import Tampi.Verify.Notification
import Tampi.Verify.Rounds

/-! # Nothing is kept once all operations are notified

When the last notification has been made the library holds no operation object, no request of MPI, no
slot of the in-flight arrays, no entry of a queue and no unblock of a task (`NoLeaks`). If no task is
in a call either, the state is `Quiescent`: the polling task alone moves, without any effect, until
the next submission. -/

namespace Tampi
open Function (update)

namespace Life
variable {L : Life}

/-- A notified operation is in no other place. -/
theorem Inv.empty (H : L.Inv) (h : AllNotified L.log) : (∀ line, L.queue line = []) ∧
    L.batch = [] ∧ L.inflight = 0 ∧ L.completed = 0 ∧ L.completions = [] := by
  obtain ⟨hbatch, hinflight⟩ := H.quiet h
  have hone (op : Op) (hop : op ∈ pushes L.log) :
      0 < ((notifies L.log).map TaskContext.id).count op.id :=
    List.count_pos_iff.mpr (List.mem_map_of_mem (h op (H.submitted.push_bind op hop)))
  refine ⟨fun line => ?_, hbatch, hinflight, ?_, ?_⟩
  · refine List.eq_nil_iff_forall_not_mem.mpr fun op hop => ?_
    have hp := H.ordered.queued line op hop
    have h₁ := H.count_places hp
    have h₂ := hone op hp
    rw [H.ordered.line_of_mem hop] at h₁
    have h₃ : 0 < ((L.queue line).map Op.id).count op.id :=
      List.count_pos_iff.mpr (List.mem_map_of_mem hop)
    omega
  · refine Multiset.eq_zero_iff_forall_notMem.mpr fun t ht => ?_
    obtain ⟨op, hp, rfl⟩ := H.owned.tickets t ht
    have h₁ := H.count_places hp
    have h₂ := hone op hp
    have h₃ : 0 < (L.completed.map Ticket.id).count op.id :=
      Multiset.count_pos.mpr (Multiset.mem_map.mpr ⟨_, ht, rfl⟩)
    omega
  · refine List.eq_nil_iff_forall_not_mem.mpr fun ctx hctx => ?_
    obtain ⟨op, hp, rfl⟩ := H.owned.handed ctx hctx
    have h₁ := H.count_places hp
    have h₂ := hone op hp
    have h₃ : 0 < (L.completions.map TaskContext.id).count op.id :=
      List.count_pos_iff.mpr (List.mem_map.mpr ⟨_, hctx, rfl⟩)
    omega

/-- An operation that is in no other place is notified. -/
theorem Inv.notified_of_empty (H : L.Inv) (hqueue : ∀ line, L.queue line = [])
    (hbatch : L.batch = []) (hinflight : L.inflight = 0) (hcompleted : L.completed = 0)
    (hcompletions : L.completions = []) (hop : op ∈ pushes L.log) : op.context ∈ notifies L.log := by
  have hone := H.count_places hop
  simp only [hqueue, hbatch, hinflight, hcompleted, hcompletions, List.map_nil, List.count_nil,
    Multiset.map_zero, Multiset.count_zero, Nat.zero_add] at hone
  have hmem : op.id ∈ (notifies L.log).map TaskContext.id := by
    refine List.count_pos_iff.mp ?_
    omega
  obtain ⟨ctx, hctx, hid⟩ := List.mem_map.mp hmem
  obtain ⟨o, ho, rfl⟩ := H.owned.notifies ctx hctx
  exact List.inj_on_of_nodup_map H.submitted.pushes_nodup ho hop hid ▸ hctx

/-- What is bound and not being submitted is pushed. -/
theorem Inv.pushed_of_not_binding (H : L.Inv) (h : (L.agents op.task).binding = [])
    (hop : op ∈ binds L.log) : op ∈ pushes L.log := by
  have hs := H.submitted.sequential op.task
  rw [h, List.append_nil] at hs
  have hmem : op ∈ (binds L.log).filter (·.task = op.task) := by simp [hop]
  rw [hs] at hmem
  exact (List.mem_filter.mp hmem).1

/-- No task is between the binding of the events and the push. -/
theorem Inv.pushed_of_notified (H : L.Inv) (h : AllNotified L.log) (hop : op ∈ binds L.log) :
    op ∈ pushes L.log := by
  obtain ⟨o, ho, heq⟩ := H.owned.notifies _ (h op hop)
  have hid : o.id = op.id := (congrArg TaskContext.id heq).symm
  exact List.inj_on_of_nodup_map H.submitted.binds_nodup (H.submitted.push_bind o ho) hop hid ▸ ho

theorem Inv.not_binding (H : L.Inv) (h : AllNotified L.log) : L.agents task ≠ .bound op := by
  intro ha
  have := H.submitted.agents task
  rw [ha] at this
  exact this.2.2 (H.pushed_of_notified h this.2.1)

/-- A task has an unblock left exactly while it has one to consume. -/
theorem Inv.permits_eq (H : L.Inv) (h : AllNotified L.log) (task : Handle) :
    L.permits task = (L.agents task).waiting.length := by
  have hw := congrArg List.length (H.waits.waiting task)
  have hp := H.waits.permits task
  have hperm : (notifies L.log).filter (waitsFor task) |>.Perm
      (((pushes L.log).map Op.context).filter (waitsFor task)) := by
    refine (List.perm_ext_iff_of_nodup (H.notifies_nodup.of_map.filter _)
      ((nodup_context H.submitted.pushes_nodup).filter _)).mpr fun ctx => ?_
    simp only [List.mem_filter]
    refine and_congr_left fun _ => ⟨fun hctx => ?_, fun hctx => ?_⟩
    · obtain ⟨op, hop, rfl⟩ := H.owned.notifies ctx hctx
      exact List.mem_map_of_mem hop
    · obtain ⟨op, hop, rfl⟩ := List.mem_map.mp hctx
      exact h op (H.submitted.push_bind op hop)
  rw [List.length_append, ← hperm.length_eq] at hw
  omega

end Life

theorem Cpu.idle_of_task {cpu : Cpu} (h : cpu.task = none) : cpu = .idle := by
  cases cpu with
  | idle => rfl
  | bound | allocated | pushing | pushed => cases h

namespace Sys
variable {cfg : Config} {s t : Sys}

/-! ## What the library holds -/

/-- Nothing that was taken for an operation is kept. -/
structure NoLeaks (cfg : Config) (s : Sys) : Prop where
  waiting : ∀ line, s.waiting cfg line = []
  popped : s.p2pOperations.consumer.vals = []
  pending : s.manager.pending = 0
  mpi : ∀ r, s.mpi r = none
  completions : s.completions.contents = []
  /-- All slots of the completion queue can be filled again. -/
  released : s.consuming = none → s.completions.room cfg.sizes.completionQueue =
    cfg.sizes.completionQueue
  objects : ∀ kind, (s.allocators kind).unused cfg.cpus = Multiset.range (cfg.sizes.objects kind)
  permits : ∀ task, s.permits task = (s.agent task).waiting.length

/-- The consumed slots of the completion queue are released when the completion task returns. -/
def Released (s : Sys) : Prop := s.consuming = none → s.completions.unreleased = 0

theorem PollMove.unreleased (M : s.PollMove cfg a t) :
    t.consuming = s.consuming ∧ t.completions.unreleased = s.completions.unreleased := by
  cases M with
  | transfer _ M =>
    cases M with
    | filter => exact ⟨(stored_frame ..).1.consuming, by rw [(stored_frame ..).2.2.1]⟩
    | _ => exact ⟨rfl, rfl⟩
  | check _ M =>
    cases M with
    | store =>
      obtain ⟨memory, es, h, -⟩ := checkStored_eq s _ _
      rw [h]
      exact ⟨rfl, rfl⟩
    | _ => exact ⟨rfl, rfl⟩
  | _ => exact ⟨rfl, rfl⟩

theorem released_of_reachable (h : (system cfg).Reachable s) (hf : s.failure = none) :
    s.Released := by
  refine h.rec_inv (I := fun s : Sys => s.failure = none → s.Released) ?_ ?_ hf
  · rintro s ⟨data, objects, arrays, memory, rfl⟩ - -
    rfl
  · intro s l t _ hstep ih hf
    have R := ih (failure_of_step hstep.2)
    by_cases hl : l.isPoll
    · cases l with
      | process | cpu | resume | completion | mpi => cases hl
      | poll a =>
        obtain ⟨hc, hu⟩ := (pollMove_of_step hstep.2 hf).unreleased
        intro h
        rw [hu]
        exact R (hc ▸ h)
    · cases agentMove_of_step hstep.2 (Bool.eq_false_of_not_eq_true hl) with
      | consume =>
        intro h
        cases h
      | consumed => exact fun _ => rfl
      | complete =>
        intro h
        cases h
      | _ => exact R

theorem Inv.idle_of_lt (I : s.Inv cfg) (h : ∀ c < cfg.cpus, s.cpus c = .idle) (c : Nat) :
    s.cpus c = .idle := by
  by_cases hc : c < cfg.cpus
  · exact h c hc
  · exact (I.outside c (Nat.le_of_not_lt hc)).1

theorem held_eq_zero (I : s.Inv cfg) (HL : (s.life cfg).Inv) (h : AllNotified s.log) (c : Nat)
    (kind : OpKind) : (s.cpus c).held kind = 0 := by
  have hcpu := I.cpus c
  have hnot (task : Handle) (op : Op) : s.agent task ≠ .bound op := HL.not_binding h
  unfold Cpu.held
  cases hc : s.cpus c with
  | idle | bound | pushed => rfl
  | allocated k object ctx =>
    rw [hc] at hcpu
    refine absurd ?_ (hnot ctx.task (s.objects k object))
    simp only [agent, hcpu.2.task, hc]
  | pushing object ctx =>
    rw [hc] at hcpu
    refine absurd ?_ (hnot ctx.task (s.objects .p2p object))
    simp only [agent, hcpu.2.task, hc]

/-- Outside the loops the in-flight arrays hold as many requests as there are slots. -/
theorem card_inflight (I : s.Inv cfg) (hp : s.poll.plain) :
    Multiset.card s.inflight = s.manager.pending := by
  have hact : s.manager.arrays.Active 0 s.manager.pending := by
    have hpoll := I.poll
    cases hpl : s.poll <;> rw [hpl] at hpoll hp <;> first
      | exact hpoll.2
      | exact hpoll.2.1
      | cases hp
  rw [← Multiset.card_map (fun slot : Slot => slot.ticket.id), inflight_of_plain hp,
    slots_of_active fun p hmem => hact p (Nat.zero_le _) (List.mem_range.mp hmem)]
  simp

theorem pending_eq_zero (I : s.Inv cfg) (hp : s.poll.plain) (h : s.inflight = 0) :
    s.manager.pending = 0 := by
  rw [← card_inflight I hp, h]
  rfl

theorem noLeaks_of_notified (h : (system cfg).Reachable s) (hf : s.failure = none)
    (hall : AllNotified s.log) (hp : s.poll.plain) : s.NoLeaks cfg := by
  obtain ⟨I, HL⟩ := Inv.of_reachable h hf
  obtain ⟨hqueue, hbatch, hinflight, -, hcompletions⟩ := HL.empty hall
  have hwaiting (line : Line) : s.waiting cfg line = [] := List.map_eq_nil_iff.mp (hqueue line)
  have hpopped : s.p2pOperations.consumer.vals = [] := by
    have heq : s.p2pOperations.consumer.vals.map (s.objects .p2p) = [] :=
      (batch_of_plain hp).symm.trans hbatch
    exact List.map_eq_nil_iff.mp heq
  refine ⟨hwaiting, hpopped, pending_eq_zero I hp hinflight, fun r => ?_, hcompletions,
    fun hc => ?_, fun kind => ?_, fun task => HL.permits_eq hall task⟩
  · cases hm : s.mpi r with
    | none => rfl
    | some a =>
      obtain ⟨slot, hslot, -⟩ := claimed_of_reachable h hf r a hm
      rw [show s.inflight = 0 from hinflight] at hslot
      exact absurd hslot (Multiset.notMem_zero slot)
  · simp only [SpscQueue.room, released_of_reachable h hf hc, show s.completions.contents = [] from
      hcompletions, List.length_nil, Nat.sub_zero, Nat.add_zero]
  · have hlive : s.live cfg kind = 0 := by
      have hheld : ∑ c ∈ Finset.range cfg.cpus, (s.cpus c).held kind = 0 :=
        Finset.sum_eq_zero fun c _ => held_eq_zero I HL hall c kind
      have hqueued : s.queued cfg kind = 0 := by
        cases kind with
        | coll => exact congrArg Multiset.ofList (hwaiting .coll)
        | p2p =>
          have hsum : ∑ c ∈ Finset.range cfg.cpus,
              (s.p2pOperations.contents cfg.queue c : Multiset Nat) = 0 :=
            Finset.sum_eq_zero fun c _ => congrArg Multiset.ofList (hwaiting (.p2p c))
          rw [queued, hsum, hpopped]
          rfl
      rw [live, hheld, hqueued, transferring_of_plain hp]
      rfl
    rw [← I.objects kind, hlive, add_zero]

/-- Every operation is notified, no task is in a call and the completion task is not in `process`;
the polling task is between the loops over requests. -/
structure Quiescent (s : Sys) : Prop where
  notified : AllNotified s.log
  cpus : ∀ c, s.cpus c = .idle
  tasks : ∀ task, s.tasks task = .ready
  consuming : s.consuming = none
  plain : s.poll.plain

theorem Quiescent.noLeaks (Q : s.Quiescent) (h : (system cfg).Reachable s)
    (hf : s.failure = none) : s.NoLeaks cfg :=
  noLeaks_of_notified h hf Q.notified Q.plain

theorem Quiescent.vacant (Q : s.Quiescent) (N : s.NoLeaks cfg) : s.Vacant cfg where
  p2p := by
    rw [MultiLockFreeQueue.total_eq_zero fun c => N.waiting (.p2p c), N.popped]
    rfl
  coll := N.waiting .coll
  transfer := isTransfer_of_plain Q.plain

/-- The polling task goes on, without a failure. -/
theorem Quiescent.poll (Q : s.Quiescent) (h : (system cfg).Reachable s)
    (hs : (system cfg).step s (.poll a) t) :
    t.failure = none ∧ t.Quiescent ∧ t.log = s.log := by
  have hf := failure_of_step hs.2
  obtain ⟨I, HL⟩ := Inv.of_reachable h hf
  have N := Q.noLeaks h hf
  have V := Q.vacant N
  have hplain := Q.plain
  rcases pollMove_or_stop (step_poll hs.2) hf with ⟨f, hfail, hstop⟩ | M
  · rcases step_sim I HL hf hs.1 rfl hs.2 with ⟨hnone, -, -⟩ | ⟨hfail', hallowed, -⟩
    · cases hnone.symm.trans hfail
    · cases hfail.symm.trans hfail'
      cases hstop with
      | enterTransfer => exact hallowed.elim
      | transfer hp | check hp | replace hp =>
        rw [hp] at hplain
        cases hplain
  · have htf : t.failure = none := M.failure.trans hf
    have hquiet {u : Sys} (hlog : u.log = s.log) (hcpus : u.cpus = s.cpus)
        (htasks : u.tasks = s.tasks) (hcons : u.consuming = s.consuming) (hu : u.poll.plain) :
        u.Quiescent ∧ u.log = s.log :=
      ⟨⟨hlog ▸ Q.notified, hcpus ▸ Q.cpus, htasks ▸ Q.tasks, hcons ▸ Q.consuming, hu⟩, hlog⟩
    refine ⟨htf, ?_⟩
    cases M with
    | enter | top | full | pop | noP2P | evaluate => exact hquiet rfl rfl rfl rfl rfl
    | popping => exact hquiet rfl rfl rfl rfl hplain
    | noColl => exact hquiet rfl rfl rfl rfl plain_nextWindow
    | bottomEmpty => exact hquiet rfl rfl rfl rfl plain_nextRound
    | takeP2P _ hc hne =>
      have hvals := N.popped
      rw [hc] at hvals
      exact absurd hvals hne
    | takeColl _ htake hne =>
      rw [V.coll, List.take_nil] at htake
      exact absurd htake.symm hne
    | bottom _ hpos =>
      rw [N.pending] at hpos
      exact absurd hpos (Nat.lt_irrefl 0)
    | transfer hp | free hp | check hp | replace hp =>
      rw [hp] at hplain
      cases hplain

/-- Until the next submission only the polling task moves, and nothing happens. -/
theorem Quiescent.step (Q : s.Quiescent) (h : (system cfg).Reachable s)
    (hs : (system cfg).step s l t) (hl : l.submits = false) :
    l.isPoll ∧ t.failure = none ∧ t.Quiescent ∧ t.log = s.log := by
  have N := Q.noLeaks h (failure_of_step hs.2)
  by_cases hpoll : l.isPoll
  · cases l with
    | process | cpu | resume | completion | mpi => cases hpoll
    | poll a => exact ⟨rfl, Q.poll h hs⟩
  · cases agentMove_of_step hs.2 (Bool.eq_false_of_not_eq_true hpoll) with
    | process => cases hl
    | noObjects hc | alloc hc | startPush hc | push hc | pushed hc | queueFull hc | retryPush hc
    | pushColl hc | collFull hc | retryColl hc | block hc => cases (Q.cpus _).symm.trans hc
    | resume ht => cases (Q.tasks _).symm.trans ht
    | consume _ hne => exact absurd N.completions hne
    | consumed hc | complete hc => cases Q.consuming.symm.trans hc
    | mpi hm => cases (N.mpi _).symm.trans hm

/-- The polling task needs no answer of MPI there. -/
theorem Quiescent.exists_step (Q : s.Quiescent) (h : (system cfg).Reachable s)
    (hf : s.failure = none) (ms : Rat) : ∃ t, (system cfg).step s (.poll (.now ms)) t := by
  obtain ⟨a, t, -, ha⟩ := (ongoing_of_reachable h hf).enabled
  have hplain := Q.plain
  have hstep : ∃ t, s.pollStep cfg (.now ms) = some t := by
    unfold pollStep at ha ⊢
    cases hp : s.poll with
    | idle | top | p2p | popping | coll | bottom =>
      simp only [hp] at ha ⊢
      exact ⟨t, ha⟩
    | evaluate => exact ⟨_, rfl⟩
    | transfer | check =>
      rw [hp] at hplain
      cases hplain
  obtain ⟨t, hstep⟩ := hstep
  exact ⟨t, trivial, step_of_pollStep hf hstep⟩

/-- A quiescent library can be polled for ever, while the clock goes on. -/
theorem Quiescent.exists_execution (Q : s.Quiescent) (h : (system cfg).Reachable s)
    (hf : s.failure = none) : ∃ σ, (system cfg).Execution σ (fun n => .poll (.now n)) ∧ σ 0 = s ∧
    ∀ n, (σ n).Quiescent := by
  obtain ⟨σ, E, h0, hall⟩ := Transition.System.exists_execution (M := system cfg)
    (I := fun s => s.failure = none ∧ s.Quiescent) (f := fun n => .poll (.now n)) h ⟨hf, Q⟩ (by
      rintro n s hs ⟨hf, Q⟩
      obtain ⟨t, hstep⟩ := Q.exists_step hs hf n
      obtain ⟨hft, Qt, -⟩ := Q.poll hs hstep
      exact ⟨t, hstep, hft, Qt⟩)
  exact ⟨σ, E, h0, fun n => (hall n).2⟩

/-- The state of the library from which on only the polling task moves. -/
theorem Quiescent.of_resumed (I : s.Inv cfg) (HL : (s.life cfg).Inv) (hall : AllNotified s.log)
    (hidle : ∀ c < cfg.cpus, s.cpus c = .idle) (hres : ∀ ctx ∈ blocks s.log, ctx ∈ resumes s.log)
    (hcons : s.consuming = none) (hp : s.poll.plain) : s.Quiescent where
  notified := hall
  cpus := I.idle_of_lt hidle
  tasks task := by
    have htask := I.tasks task
    cases ht : s.tasks task with
    | ready => rfl
    | inProcess c =>
      rw [ht, TaskInv, I.idle_of_lt hidle] at htask
      cases htask
    | blocked ctx =>
      -- a task resumes once from each operation it waits for
      have hasleep := HL.waits.asleep task
      have hagent : s.agent task = .blocked ctx := by rw [agent, ht]
      simp only [life, hagent, Agent.asleep] at hasleep
      have hnodup : ((blocks s.log).filter (·.task = task)).Nodup := by
        have hpre : (blocks s.log).filter (·.task = task) <+:
            ((pushes s.log).map Op.context).filter (Life.waitsFor task) := by
          have hw := HL.waits.waiting task
          simp only [life, hagent, Agent.waiting] at hw
          rw [hw, hasleep]
        exact hpre.sublist.nodup ((Life.Inv.nodup_context HL.submitted.pushes_nodup).filter _)
      have hmem : ctx ∈ (blocks s.log).filter (·.task = task) := by simp [hasleep]
      obtain ⟨hb, htask⟩ := List.mem_filter.mp hmem
      rw [hasleep, List.nodup_append] at hnodup
      refine absurd rfl (hnodup.2.2 ctx ?_ ctx (by simp))
      exact List.mem_filter.mpr ⟨hres ctx hb, htask⟩
  consuming := hcons
  plain := hp

/-- After the last notification of `demoRun` and the resumption of the task that waited. -/
theorem demoRun_quiescent : ∃ s,
    Transition.System.run (Sys.step demoConfig) (.cleared demoConfig) demoRun = some s ∧
    (system demoConfig).Reachable s ∧ s.failure = none ∧ s.Quiescent := by
  have hrun : (Transition.System.run (Sys.step demoConfig) (.cleared demoConfig) demoRun).map
      (fun s : Sys => ((s.cpus 0).task, [s.failure.isNone, s.poll.plain, s.consuming.isNone,
        decide (AllNotified s.log), decide (∀ ctx ∈ blocks s.log, ctx ∈ resumes s.log)])) =
      some (none, [true, true, true, true, true]) := by
    decide +kernel
  obtain ⟨s, hs, h⟩ := Option.map_eq_some_iff.mp hrun
  simp only [Prod.mk.injEq, List.cons.injEq, Option.isNone_iff_eq_none, decide_eq_true_eq] at h
  obtain ⟨htask, hf, hp, hcons, hall, hres, -⟩ := h
  have hreach : (system demoConfig).Reachable s :=
    reachable_of_run (by decide +kernel) hs
  have hidle : ∀ c < demoConfig.cpus, s.cpus c = .idle := by
    intro c hc
    obtain rfl := Nat.lt_one_iff.mp hc
    exact Cpu.idle_of_task htask
  obtain ⟨I, HL⟩ := Inv.of_reachable hreach hf
  exact ⟨s, hs, hreach, hf, .of_resumed I HL hall hidle hres hcons hp⟩

end Sys
end Tampi
