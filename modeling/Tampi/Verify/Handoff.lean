import Tampi.Verify.Tracking

/-! # The hand-off to the completion task

The contexts in the completion queue are those of unfinished operations, so it cannot overflow while
these fit in it; but nothing bounds them: the objects of issued operations are free again, and a
polling call goes on handing over contexts while the completion task does not run. -/

namespace Tampi
open Function (update)

/-- The operations that were submitted and are not yet notified. -/
def Sys.unfinished (s : Sys) : Nat := (binds s.log).length - (notifies s.log).length

/-- The hand-off finds room for all contexts while the unfinished operations, with those whose slots
the running completion call has not released, fit in the queue; and every operation that completed
waits in the polling call, is in the queue, or is notified. -/
structure HandoffSafe (cfg : Config) (s : Sys) : Prop where
  room : ∀ l s', (system cfg).step s l s' →
    s.unfinished + s.completions.unreleased ≤ cfg.sizes.completionQueue →
    s'.failure ≠ some .contextsFull
  kept : s.failure = none → ∀ id ∈ nulls s.log ++ reports s.log,
    ((s.undelivered cfg).map Ticket.id).count id +
      (s.completions.contents.map TaskContext.id).count id +
      ((notifies s.log).map TaskContext.id).count id = 1

namespace Life.Inv
variable {L : Life}

theorem length_issues_le (H : L.Inv) : (issues L.log).length ≤ (binds L.log).length := by
  have hlength : ((binds L.log).map Op.id).length = (binds L.log).length := List.length_map ..
  rw [← hlength]
  refine (H.issues_nodup.subperm fun id hid => ?_).length_le
  obtain ⟨op, hop, rfl⟩ := H.ordered.issue_pushed hid
  exact List.mem_map_of_mem (H.submitted.push_bind op hop)

/-- Completed and handed over operations are unfinished ones. -/
theorem card_completed_le (H : L.Inv) : Multiset.card L.completed + L.completions.length +
    (notifies L.log).length ≤ (binds L.log).length := by
  have hi := congrArg Multiset.card H.tracked.issued
  have hr := congrArg Multiset.card H.tracked.resolved
  simp only [Multiset.card_add, Multiset.card_map, Multiset.coe_card, List.length_map] at hi hr
  have := H.length_issues_le
  omega

end Life.Inv

section
variable {cfg : Config} {s s' : Sys} {l : Label}

theorem Sys.step_crowded (I : s.Inv cfg) (HL : (s.life cfg).Inv) (hs : (system cfg).step s l s')
    (hf : s'.failure = some .contextsFull) : s.Crowded cfg := by
  have hnone := Sys.failure_of_step hs.2
  by_cases hl : l.submits
  · obtain ⟨_, hf', -⟩ := Sys.submit_sim I hnone hl hs.2
    simp [hf'] at hf
  · rcases Sys.step_sim I HL hnone hs.1 (by simpa using hl) hs.2 with ⟨hf', -⟩ | ⟨hf', -, hc, -, -⟩
    · simp [hf'] at hf
    · rw [hf'] at hf
      exact hc (Option.some.inj hf)

end

def loneConfig : Config := .defaults 2 (by decide)

/-- The queue of point-to-point operations when nothing was pushed. -/
def MultiLockFreeQueue.untouched (consumer : Consumer Nat) : MultiLockFreeQueue Nat :=
  { init (fun _ _ => 0) with consumer := consumer }

namespace MultiLockFreeQueue

theorem untouched_refresh (hq : q < 2) :
    (untouched (.refresh (some 64) q 0)).consumerStep loneConfig.queue =
      some (untouched (.refresh (some 64) (q + 1) 0)) := by
  have hqueues : loneConfig.queue.queues = 2 := rfl
  simp [untouched, consumerStep, hqueues, hq, getRemaining, init]

theorem untouched_returned : (untouched (.refresh (some 64) 2 0)).consumerStep loneConfig.queue =
    some (untouched (.returned [])) := rfl

end MultiLockFreeQueue

/-- The polling task is at `poll`, no point-to-point operation was submitted, and `n` contexts wait
in the completion queue. -/
structure Sys.Lone (s : Sys) (poll : Poll) (coll : List Nat) (n : Nat) : Prop where
  reachable : (system loneConfig).Reachable s
  failure : s.failure = none
  poll : s.poll = poll
  p2p : s.p2pOperations = .untouched .idle
  coll : s.collOperations = coll
  pending : s.manager.pending = 0
  capacity : s.manager.capacityCtrl = .defaults
  contents : s.completions.contents.length = n
  unreleased : s.completions.unreleased = 0
  mpi : s.mpi 0 = none
  cpus : ∀ cpu, s.cpus cpu = .idle
  task : s.tasks 0 = .ready
  cache : (s.allocators .coll).caches 1 = []

namespace Sys.Lone
variable {s s' : Sys} {p : Poll} {w : Window} {coll : List Nat} {x : Transfer} {n o k : Nat}

theorem reachable_poll {a : Answer} (h : (system loneConfig).Reachable s) (hf : s.failure = none)
    (hs : s.pollStep loneConfig a = some s') (ha : (Label.poll a).Ascending) :
    (system loneConfig).Reachable s' := by
  refine h.step (l := .poll a) ⟨ha, ?_⟩
  simpa [step, hf] using hs

theorem top (h : s.Lone (.top 0) coll n) :
    ∃ t : Sys, t.Lone (.p2p 0 ⟨128, 0⟩) coll n ∧ t.objects = s.objects := by
  have hmin : min (CapacityCtrl.defaults.capacity - 0) (BatchSize * 2) = 128 := rfl
  have hlt : 0 < CapacityCtrl.defaults.capacity := by decide
  have hs : s.pollStep loneConfig .silent = some { s with poll := .p2p 0 ⟨128, 0⟩ } := by
    simp only [pollStep, h.poll, h.pending, h.capacity, hmin, if_pos hlt]
  have hr := reachable_poll h.reachable h.failure hs trivial
  exact ⟨_, { h with reachable := hr, poll := rfl }, rfl⟩

theorem pop (h : s.Lone (.p2p 0 w) coll n) (hw : min (w.navailable - w.ntotal) BatchSize = 64) :
    ∃ t : Sys, t.Lone (.coll 0 w 0) coll n ∧ t.objects = s.objects := by
  have hpop : MultiLockFreeQueue.pop loneConfig.queue (.untouched .idle) 64 =
    .untouched (.refresh (some 64) 0 0) := rfl
  let pops (q : MultiLockFreeQueue Nat) : Sys := { s with p2pOperations := q, poll := .popping 0 w }
  let popping (consumer : Consumer Nat) : Sys := pops (.untouched consumer)
  have h₁ : s.pollStep loneConfig .silent = some (popping (.refresh (some 64) 0 0)) := by
    simp only [popping, pops, pollStep, h.poll, h.p2p, hw, hpop]
  have h₂ (q : Nat) (hq : q < 2) : (popping (.refresh (some 64) q 0)).pollStep loneConfig .silent =
      some (popping (.refresh (some 64) (q + 1) 0)) :=
    congrArg (Option.map pops) (MultiLockFreeQueue.untouched_refresh hq)
  have h₃ : (popping (.refresh (some 64) 2 0)).pollStep loneConfig .silent =
      some (popping (.returned [])) :=
    congrArg (Option.map pops) MultiLockFreeQueue.untouched_returned
  have h₄ : (popping (.returned [])).pollStep loneConfig .silent =
      some { s with poll := .coll 0 w 0 } := by
    refine Eq.trans (b := some { pops (.untouched .idle) with poll := .coll 0 w 0 }) rfl ?_
    rw [← h.p2p]
  have hr := reachable_poll h.reachable h.failure h₁ trivial
  have hr := reachable_poll hr h.failure (h₂ 0 (by decide)) trivial
  have hr := reachable_poll hr h.failure (h₂ 1 (by decide)) trivial
  have hr := reachable_poll hr h.failure h₃ trivial
  have hr := reachable_poll hr h.failure h₄ trivial
  exact ⟨_, { h with reachable := hr, poll := rfl }, rfl⟩

/-- The collective operation is popped. -/
theorem coll_some (h : s.Lone (.coll 0 ⟨128, 0⟩ 0) [o] n) :
    ∃ t : Sys, t.Lone (.transfer 0 ⟨128, 0⟩ 0 (.start .coll [o])) [] n ∧ t.objects = s.objects := by
  have hcap : CapacityCtrl.defaults.capacity = 128 := rfl
  have hs : s.pollStep loneConfig .silent = some
      { s with collOperations := [], poll := .transfer 0 ⟨128, 0⟩ 0 (.start .coll [o]) } := by
    simp [pollStep, h.poll, h.coll, h.pending, h.capacity, enterTransfer, BatchSize, hcap]
  have hr := reachable_poll h.reachable h.failure hs trivial
  exact ⟨_, { h with reachable := hr, poll := rfl, coll := rfl }, rfl⟩

/-- There is no other operation, and no request in flight. -/
theorem coll_none (h : s.Lone (.coll 0 ⟨128, 1⟩ 0) [] n) : ∃ t : Sys, t.Lone (.top 0) [] n := by
  have h₁ : s.pollStep loneConfig .silent = some { s with poll := .bottom 0 1 } := by
    have := h.coll
    simp [pollStep, h.poll, this, nextWindow]
  have hr := reachable_poll h.reachable h.failure h₁ trivial
  have h₂ : pollStep loneConfig { s with poll := .bottom 0 1 } .silent =
      some { s with poll := .top 0 } := by
    simp [pollStep, h.pending, nextRound]
  have hr := reachable_poll hr h.failure h₂ trivial
  exact ⟨_, { h with reachable := hr, poll := rfl }⟩

/-- `transferOperations` is about to hand over the context of one completed operation. -/
structure Handing (x : Transfer) (o : Nat) : Prop where
  phase : x.phase = .handoff
  kind : x.kind = .coll
  operations : x.operations = [o]
  complentries : x.complentries.length = 1
  contexts : x.contexts.length = 1
  req2entry : x.req2entry = [none]

theorem Handing.enabled (hx : Handing x o) :
    loneConfig.completionEnabled = true ∧ 0 < x.complentries.length :=
  ⟨rfl, by simp [hx.complentries]⟩

theorem transfer (h : s.Lone (.transfer 0 ⟨128, 0⟩ 0 (.start .coll [o])) [] n)
    (ho : s.objects .coll o = demoBarrier.construct k 0 0 .NONBLK) :
    ∃ (s' : Sys) (x : Transfer), s'.Lone (.transfer 0 ⟨128, 0⟩ 0 x) [] n ∧ Handing x o := by
  let op := demoBarrier.construct k 0 0 .NONBLK
  let transferring (mpi : Mpi) (log : List Event) (x : Transfer) : Sys :=
    { s with mpi := mpi, log := log, poll := .transfer 0 ⟨128, 0⟩ 0 x }
  let mpi := update s.mpi 0 (some ⟨op.id, none⟩)
  let log := s.log ++ [.issue op.id (.ibarrier 0) (some 0)]
  let x₁ : Transfer := { Transfer.start .coll [o] with
    tickets := [.ofOp op], requests := update (fun _ => none) 0 (some 0), req2entry := [some 0] }
  have h₁ : s.pollStep loneConfig (.issued (some 0)) = some (transferring mpi log x₁) := by
    have hissue : (demoBarrier.construct k 0 0 .NONBLK).issue = some (.ibarrier 0) := rfl
    have hmpi := h.mpi
    simp only [pollStep, h.poll, transferStep, Transfer.start, List.length_nil,
      List.getElem?_cons_zero, ho, hissue, Sys.issue, hmpi, if_true, Option.map_some]
    rfl
  have hr := reachable_poll h.reachable h.failure h₁ trivial
  let mpi' := update mpi 0 (some ⟨op.id, some default⟩)
  have h₂ : (transferring mpi log x₁).step loneConfig (.mpi 0 default) =
      some (transferring mpi' log x₁) := by
    simp [step, transferring, mpi, mpi', h.failure]
  have hr := hr.step (l := Label.mpi 0 default) ⟨trivial, h₂⟩
  let x₃ : Transfer := { x₁ with phase := .test (.start 0 0 1) }
  have h₃ : (transferring mpi' log x₁).pollStep loneConfig .silent =
    some (transferring mpi' log x₃) := rfl
  have hr := reachable_poll hr h.failure h₃ trivial
  let log' := log ++ [.test] ++ [.report op.id default]
  let x₄ : Transfer := { x₃ with
    requests := update x₃.requests 0 none, statuses := update x₃.statuses 0 default,
    testcompl2req := update x₃.testcompl2req 0 0, phase := .filter 0 1 }
  have h₄ : (transferring mpi' log x₃).pollStep loneConfig (.some [0]) =
    some (transferring (update mpi' 0 none) log' x₄) := rfl
  have hr := reachable_poll hr h.failure h₄ (by decide)
  let x₅ : Transfer := { x₄ with
    complentries := [0], req2entry := [none], phase := .filter 1 1 }
  have h₅ : (transferring (update mpi' 0 none) log' x₄).pollStep loneConfig .silent =
    some (transferring (update mpi' 0 none) log' x₅) := rfl
  have hr := reachable_poll hr h.failure h₅ trivial
  have h₆ : (transferring (update mpi' 0 none) log' x₅).pollStep loneConfig .silent =
    some (transferring (update mpi' 0 none) log' { x₅ with phase := .process 0 }) := rfl
  have hr := reachable_poll hr h.failure h₆ trivial
  let x₇ : Transfer := { x₅ with contexts := [op.context], phase := .process 1 }
  have h₇ : (transferring (update mpi' 0 none) log' { x₅ with phase := .process 0 }).pollStep
    loneConfig .silent = some (transferring (update mpi' 0 none) log' x₇) := rfl
  have hr := reachable_poll hr h.failure h₇ trivial
  have h₈ : (transferring (update mpi' 0 none) log' x₇).pollStep loneConfig .silent =
    some (transferring (update mpi' 0 none) log' { x₇ with phase := .handoff }) := rfl
  have hr := reachable_poll hr h.failure h₈ trivial
  exact ⟨_, _, { h with reachable := hr, poll := rfl, mpi := rfl }, rfl, rfl, rfl, rfl, rfl, rfl⟩

theorem room (h : s.Lone p coll n) :
    s.completions.room loneConfig.sizes.completionQueue = 32 * 1024 - n := by
  simp only [SpscQueue.room, h.contents, h.unreleased]
  rfl

theorem overflow (h : s.Lone (.transfer 0 ⟨128, 0⟩ 0 x) [] (32 * 1024)) (hx : Handing x o) :
    ∃ s', (system loneConfig).Reachable s' ∧ s'.failure = some .contextsFull := by
  have hlt : s.completions.room loneConfig.sizes.completionQueue < x.contexts.length := by
    rw [h.room, hx.contexts]
    decide
  have hs : s.pollStep loneConfig .silent = some ({ s with
      completions := s.completions.push loneConfig.sizes.completionQueue x.contexts }.fail
      .contextsFull) := by
    simp [pollStep, h.poll, transferStep, hx.phase, transferContexts, if_pos hlt, hx.enabled, fail]
  exact ⟨_, reachable_poll h.reachable h.failure hs trivial, rfl⟩

theorem handoff (h : s.Lone (.transfer 0 ⟨128, 0⟩ 0 x) [] n) (hx : Handing x o)
    (hn : n < 32 * 1024) :
    ∃ s' : Sys, s'.Lone (.transfer 0 ⟨128, 0⟩ 0 { x with phase := .append 0 }) [] (n + 1) := by
  have hle : x.contexts.length ≤ s.completions.room loneConfig.sizes.completionQueue := by
    rw [h.room, hx.contexts]
    omega
  have hs : s.pollStep loneConfig .silent = some { s with
      completions := s.completions.push loneConfig.sizes.completionQueue x.contexts
      log := s.log ++ x.contexts.map .transfer
      poll := .transfer 0 ⟨128, 0⟩ 0 { x with phase := .append 0 } } := by
    simp only [pollStep, h.poll, transferStep, hx.phase, transferContexts,
      if_neg (Nat.not_lt.mpr hle), if_pos hx.enabled, h.failure, Option.isSome_none,
      Bool.false_eq_true, if_false]
  have hr := reachable_poll h.reachable h.failure hs trivial
  refine ⟨_, { h with reachable := hr, poll := rfl, contents := ?_ }⟩
  simp [SpscQueue.push, List.take_of_length_le hle, h.contents, hx.contexts]

/-- The object goes back to the allocator, and the queues are empty now. -/
theorem finish (h : s.Lone (.transfer 0 ⟨128, 0⟩ 0 { x with phase := .append 0 }) [] n)
    (hx : Handing x o) : ∃ s' : Sys, s'.Lone (.top 0) [] n := by
  let transferring (phase : TransferPhase) : Sys :=
    { s with poll := .transfer 0 ⟨128, 0⟩ 0 { x with phase := phase } }
  have h₁ : s.pollStep loneConfig .silent = some (transferring (.append 1)) := by
    simp [pollStep, h.poll, transferStep, hx.req2entry, transferring]
  have hr := reachable_poll h.reachable h.failure h₁ trivial
  have h₂ : (transferring (.append 1)).pollStep loneConfig .silent =
      some (transferring .free) := by
    simp [pollStep, transferStep, hx.req2entry, transferring]
  have hr := reachable_poll hr h.failure h₂ trivial
  have hfits := (Inv.of_reachable hr h.failure).1.free_fits rfl
  simp only [transferring, hx.kind, hx.operations] at hfits
  have h₃ : (transferring .free).pollStep loneConfig .silent = some { s with
      allocators := update s.allocators .coll
        ((s.allocators .coll).free (loneConfig.sizes.objects .coll) [o])
      poll := .p2p 0 ⟨128, 1⟩ } := by
    simp only [pollStep, transferStep, transferring, hx.kind, hx.operations,
      if_neg (Nat.not_lt.mpr hfits)]
    rfl
  have hr := reachable_poll hr h.failure h₃ trivial
  obtain ⟨t, ht, -⟩ := pop { h with reachable := hr, poll := rfl, cache := h.cache } (by decide)
  exact ht.coll_none

/-- No object is in use. -/
theorem exists_alloc (h : s.Lone (.top 0) [] n) :
    ∃ object a, (s.allocators .coll).alloc 0 = some (object, a) ∧ a.caches 1 = [] := by
  have hcpus : loneConfig.cpus = 2 := rfl
  have hcard := congrArg Multiset.card ((Inv.of_reachable h.reachable h.failure).1.objects .coll)
  have hobjects : loneConfig.sizes.objects .coll = 8000 := rfl
  simp only [ObjAllocator.unused, live, queued, Poll.transferring, h.poll, h.coll, hcpus,
    Finset.sum_range_succ, Finset.sum_range_zero, h.cpus, h.cache, Cpu.held, hobjects,
    Multiset.card_add, Multiset.coe_card, Multiset.card_zero, Multiset.card_range,
    List.length_nil] at hcard
  unfold ObjAllocator.alloc
  split
  · exact ⟨_, _, rfl, by simp [h.cache]⟩
  · rename_i hcache
    rw [hcache] at hcard
    split
    · rename_i hcentral
      have := congrArg List.length hcentral
      simp only [List.length_take, ObjAllocator.BatchSize, List.length_nil] at this hcard
      omega
    · exact ⟨_, _, rfl, by simp [h.cache]⟩

/-- Task 0 submits a barrier. -/
theorem submit (h : s.Lone (.top 0) [] n) : ∃ (t : Sys) (o k : Nat), t.Lone (.top 0) [o] n ∧
    t.objects .coll o = demoBarrier.construct k 0 0 .NONBLK := by
  obtain ⟨o, a, ha, hcache⟩ := h.exists_alloc
  let op := demoBarrier.construct s.serial 0 0 .NONBLK
  let bound : Sys := { s with
    cpus := update s.cpus 0 (.bound op), tasks := update s.tasks 0 (.inProcess 0)
    serial := s.serial + 1, log := s.log ++ [.bind op] }
  have h₁ : s.step loneConfig (.process 0 0 .NONBLK demoBarrier) = some bound := by
    have hlt : 0 < loneConfig.cpus := by decide
    simp [step, h.failure, h.cpus, h.task, process, hlt, bound, op]
  let allocated : Sys := { bound with
    allocators := update s.allocators .coll a
    objects := update s.objects .coll (update (s.objects .coll) o op)
    cpus := update bound.cpus 0 (.allocated .coll o op.context) }
  have h₂ : bound.step loneConfig (.cpu 0) = some allocated := by
    have hop : op.kind = .coll := rfl
    simp [step, bound, cpuStep, h.failure, Sys.alloc, hop, ha, allocated]
  let pushed : Sys := { allocated with
    collOperations := [o]
    cpus := update allocated.cpus 0 .idle
    tasks := update allocated.tasks 0 .ready
    log := allocated.log ++ [.push op] }
  have h₃ : allocated.step loneConfig (.cpu 0) = some pushed := by
    have hcoll := h.coll
    have hop : op.context.blocking = false := rfl
    have htask : op.task = 0 := rfl
    have hsize : loneConfig.sizes.collQueue = 32 * 1024 := rfl
    simp [step, allocated, bound, cpuStep, h.failure, pushColl, hcoll, hsize, pushDone, hop, htask,
      pushed]
  have hr := h.reachable.step (l := Label.process 0 0 .NONBLK demoBarrier) ⟨trivial, h₁⟩
  have hr := hr.step (l := Label.cpu 0) ⟨trivial, h₂⟩
  have hr := hr.step (l := Label.cpu 0) ⟨trivial, h₃⟩
  have hcpus (cpu : Nat) : pushed.cpus cpu = .idle := by
    by_cases hcpu : cpu = 0
    · simp [pushed, hcpu]
    · simp [pushed, allocated, bound, Function.update_of_ne hcpu, h.cpus]
  refine ⟨pushed, o, s.serial, { h with
    reachable := hr, coll := rfl, cpus := hcpus, task := rfl, cache := hcache }, ?_⟩
  simp [pushed, allocated, op]

/-- One more context waits. -/
theorem round (h : s.Lone (.top 0) [] n) : ∃ (t : Sys) (x : Transfer) (o : Nat),
    t.Lone (.transfer 0 ⟨128, 0⟩ 0 x) [] n ∧ Handing x o := by
  obtain ⟨s, o, k, h, ho⟩ := h.submit
  obtain ⟨s, h, h₁⟩ := h.top
  obtain ⟨s, h, h₂⟩ := h.pop (by decide)
  obtain ⟨s, h, h₃⟩ := h.coll_some
  obtain ⟨s, x, h, hx⟩ := h.transfer (k := k) (by rw [h₃, h₂, h₁, ho])
  exact ⟨s, x, o, h, hx⟩

theorem exists_lone (n : Nat) (hn : n ≤ 32 * 1024) : ∃ s : Sys, s.Lone (.top 0) [] n := by
  induction n with
  | zero =>
    obtain ⟨s, h, hp⟩ := cleared_reachable loneConfig [.poll .silent] (by decide) id rfl
    subst hp
    exact ⟨_, h, rfl, rfl, rfl, rfl, rfl, rfl, rfl, rfl, rfl, fun _ => rfl, rfl, rfl⟩
  | succ n ih =>
    obtain ⟨s, h⟩ := ih (by omega)
    obtain ⟨s, x, o, h, hx⟩ := h.round
    obtain ⟨s, h⟩ := h.handoff hx (by omega)
    exact h.finish hx

end Sys.Lone

end Tampi
