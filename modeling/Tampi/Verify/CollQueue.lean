import Tampi.Verify.Agents
import Tampi.Verify.Allocation
import Tampi.Verify.Moves
import Tampi.Verify.Tracking

/-! # The queue of collective operations never fills up

A collective operation is allocated before it is pushed and freed after it is popped, so the queue
holds distinct live objects of an allocator that has fewer objects than the queue has entries. The
argument is a simulation: the calls the library makes of the collective allocator are a run of
`Allocation`, whose live objects are those the library holds. It needs no assumption on the order in
which MPI reports completed requests. -/

namespace Tampi
open Function (update)

/-- No step changes a CPU outside the machine. -/
def SameOutside (cfg : Config) (s s' : Sys) : Prop := ∀ c, cfg.cpus ≤ c → s'.cpus c = s.cpus c

theorem SameOutside.of_update {cfg : Config} {s s' : Sys} (hlt : cpu < cfg.cpus)
    (hc : s'.cpus = update s.cpus cpu v) : SameOutside cfg s s' := by
  intro c hle
  rw [hc, Function.update_of_ne (by omega)]

/-- What a step does to the collective operation objects. -/
inductive CollMove (cfg : Config) (s s' : Sys) : Prop
  | same : s'.failure = none → SameOutside cfg s s' →
    s'.allocators .coll = s.allocators .coll →
    s'.live cfg .coll = s.live cfg .coll → CollMove cfg s s'
  | alloc : s'.failure = none → SameOutside cfg s s' → cpu < cfg.cpus →
    (s.allocators .coll).alloc cpu = some (object, s'.allocators .coll) →
    s'.live cfg .coll = object ::ₘ s.live cfg .coll → CollMove cfg s s'
  | free : s'.failure = none → SameOutside cfg s s' →
    s'.allocators .coll = (s.allocators .coll).free (cfg.sizes.objects .coll) o →
    s.live cfg .coll = o + s'.live cfg .coll → CollMove cfg s s'
  | failed : s'.failure = some f → f ≠ .collQueueFull → CollMove cfg s s'
  | full : s.cpus cpu = .allocated .coll object ctx →
    cfg.sizes.collQueue ≤ s.collOperations.length → CollMove cfg s s'

variable {cfg : Config} {s s' : Sys}

theorem Sys.live_coll (cfg : Config) (s : Sys) : s.live cfg .coll =
    ∑ c ∈ Finset.range cfg.cpus, (s.cpus c).held .coll + s.collOperations +
      s.poll.transferring .coll := rfl

namespace CollMove

/-- A step that leaves the allocators, the CPUs, the queue and the transfer in progress alone. -/
theorem of_eq (hf : s'.failure = none) (ha : s'.allocators = s.allocators)
    (hc : s'.cpus = s.cpus) (hq : s'.collOperations = s.collOperations)
    (hp : s'.poll.transferring .coll = s.poll.transferring .coll) : CollMove cfg s s' :=
  .same hf (fun c _ => by rw [hc]) (by rw [ha]) (by rw [Sys.live_coll, Sys.live_coll, hc, hq, hp])

/-- A step of a CPU between points with the same object. -/
theorem of_cpu (hlt : cpu < cfg.cpus) (hf : s'.failure = none)
    (ha : s'.allocators .coll = s.allocators .coll) (hc : s'.cpus = update s.cpus cpu v)
    (hv : v.held .coll = (s.cpus cpu).held .coll) (hq : s'.collOperations = s.collOperations)
    (hp : s'.poll = s.poll) : CollMove cfg s s' :=
  .same hf (.of_update hlt hc) ha (by
    rw [Sys.live_coll, Sys.live_coll, hc, hq, hp, Sys.sum_held_eq s.cpus hlt .coll v hv])

end CollMove

namespace Sys

/-! ## The tasks -/

theorem held_allocated_coll : (Cpu.allocated .coll object ctx).held .coll = {object} := rfl

theorem pushDone_held (ctx : TaskContext) :
    (if ctx.blocking then Cpu.pushed ctx else .idle).held .coll = 0 := by
  split <;> rfl

/-- The steps of the other agents. -/
theorem AgentMove.coll (M : s.AgentMove cfg l s') (hf : s.failure = none)
    (hout : ∀ c, cfg.cpus ≤ c → s.cpus c = .idle) : CollMove cfg s s' := by
  have hcpu {c : Nat} {p : Cpu} (hc : s.cpus c = p) (hne : p ≠ .idle) : c < cfg.cpus :=
    Nat.lt_of_not_le fun hle => hne (hc.symm.trans (hout c hle))
  cases M with
  | process hc _ hlt => exact .of_cpu hlt hf rfl rfl (by rw [hc]; rfl) rfl rfl
  | noObjects | queueFull => exact .failed rfl (by decide)
  | @alloc cpu op object a hc ha =>
    have hlt := hcpu hc (by simp)
    cases hk : op.kind with
    | p2p =>
      rw [hk] at ha
      exact CollMove.of_cpu hlt hf (by simp) rfl (by simp [hc, Cpu.held]) rfl rfl
    | coll =>
      rw [hk] at ha
      refine .alloc hf (.of_update hlt rfl) hlt (by simpa [hk] using ha) ?_
      have hsum := sum_held s.cpus hlt .coll (.allocated .coll object op.context)
      rw [hc, held_allocated_coll, show (Cpu.bound op).held .coll = 0 from rfl, add_zero] at hsum
      simp only [live_coll, hsum, ← Multiset.singleton_add]
      abel
  | startPush hc => exact .of_cpu (hcpu hc (by simp)) hf rfl rfl (by rw [hc]; rfl) rfl rfl
  | push => exact .of_eq hf rfl rfl rfl rfl
  | pushed hc =>
    exact .of_cpu (hcpu hc (by simp)) hf rfl rfl (by rw [pushDone_held, hc]; rfl) rfl rfl
  | retryPush hc => exact .of_cpu (hcpu hc (by simp)) hf rfl rfl (by rw [hc]; rfl) rfl rfl
  | @pushColl cpu object ctx hc hroom =>
    have hlt := hcpu hc (by simp)
    refine .same hf (.of_update hlt rfl) rfl ?_
    have hsum := sum_held s.cpus hlt .coll (if ctx.blocking then .pushed ctx else .idle)
    rw [pushDone_held, hc, held_allocated_coll, add_zero] at hsum
    simp only [live_coll, pushDone, ← hsum, ← Multiset.coe_add, Multiset.coe_singleton]
    abel
  | collFull hc hfull | retryColl hc hfull => exact .full hc (Nat.le_of_not_lt hfull)
  | block hc => exact .of_cpu (hcpu hc (by simp)) hf rfl rfl (by rw [hc]; rfl) rfl rfl
  | resume | consume | consumed | complete | mpi => exact .of_eq hf rfl rfl rfl rfl

/-! ## The polling task -/

theorem PollStop.ne_collQueueFull (h : s.PollStop cfg a f) : f ≠ .collQueueFull := by
  cases h with
  | enterTransfer | replace => nofun
  | transfer _ h => cases h <;> nofun
  | check _ h => cases h <;> nofun

theorem PollMove.coll (M : s.PollMove cfg a s') (hf : s.failure = none) : CollMove cfg s s' := by
  have hf' : s'.failure = none := M.failure.trans hf
  cases M with
  | enter hp | top hp | full hp | pop hp | noP2P hp | takeP2P hp | bottom hp | evaluate hp =>
    exact .of_eq hf rfl rfl rfl (by rw [hp]; rfl)
  | popping => exact .of_eq hf rfl rfl rfl rfl
  | @noColl _ w _ _ hp hnil =>
    refine .same hf (fun _ _ => rfl) rfl ?_
    have hsplit := List.take_append_drop (min (w.navailable - w.ntotal) BatchSize) s.collOperations
    rw [hnil, List.nil_append] at hsplit
    simp only [live_coll, hsplit, hp, transferring_of_plain plain_nextWindow]
    rfl
  | @takeColl _ w _ os _ hp htake =>
    -- a popped batch moves from the queue to the transfer in progress
    refine .same hf (fun _ _ => rfl) rfl ?_
    have hsplit : (s.collOperations : Multiset Nat) =
        (s.collOperations.take (min (w.navailable - w.ntotal) BatchSize) : List Nat) +
          (s.collOperations.drop (min (w.navailable - w.ntotal) BatchSize) : List Nat) := by
      rw [Multiset.coe_add, List.take_append_drop]
    rw [live_coll, live_coll, hp, hsplit, htake]
    simp only [Poll.transferring, Transfer.start, if_true]
    abel
  | transfer hp M =>
    obtain ⟨F, hk, ho⟩ := M.frame
    refine .of_eq hf' F.allocators F.cpus F.collOperations ?_
    simp only [hp, Poll.transferring, hk, ho]
  | @free _ w np2p x _ hp =>
    cases hk : x.kind with
    | p2p =>
      refine .same hf (fun _ _ => rfl) (by simp) ?_
      simp only [live_coll, hp, Poll.transferring, hk]
      rfl
    | coll =>
      refine .free (o := x.operations) hf (fun _ _ => rfl) (by simp) ?_
      simp only [live_coll, transferring_of_plain plain_nextWindow]
      simp only [hp, Poll.transferring, hk, if_true]
      abel
  | bottomEmpty hp | replace hp =>
    refine .of_eq hf rfl rfl rfl ?_
    rw [hp, transferring_of_plain plain_nextRound]
    rfl
  | check hp M =>
    have F := M.frame
    exact .of_eq hf' F.allocators F.cpus F.collOperations (by rw [hp]; rfl)

/-! ## All steps -/

theorem step_coll (hout : ∀ c, cfg.cpus ≤ c → s.cpus c = .idle) (h : s.step cfg l = some s') :
    CollMove cfg s s' := by
  have hf := failure_of_step h
  cases l with
  | process | cpu | resume | completion | mpi => exact (agentMove_of_step h rfl).coll hf hout
  | poll a =>
    rcases pollMove_or_stop (step_poll h) hf with ⟨f, hfail, hstop⟩ | M
    · exact .failed hfail hstop.ne_collQueueFull
    · exact M.coll hf

end Sys

/-- The collective allocator of the library and the same allocator by itself, between calls. -/
structure Backs (cfg : Config) (s : Sys) (a : Allocation) : Prop where
  reachable : (Allocation.system (cfg.sizes.objects .coll) cfg.cpus).Reachable a
  allocator : a.allocator = s.allocators .coll
  points : ∀ cpu, a.points cpu = .idle
  failure : a.failure = none
  returned : (a.returned : Multiset Nat) = s.live cfg .coll

namespace Backs
variable {a : Allocation}

theorem inv (B : Backs cfg s a) : a.AllocInv (cfg.sizes.objects .coll) cfg.cpus :=
  .of_reachable B.reachable

theorem conserved (B : Backs cfg s a) :
    (s.allocators .coll).unused cfg.cpus + s.live cfg .coll =
      Multiset.range (cfg.sizes.objects .coll) := by
  rw [← B.inv.conserved, ← B.returned, ← B.allocator]
  simp only [ObjAllocator.unused, Allocation.total, Allocation.live, Allocation.cached, B.points,
    Allocation.inHand, Finset.sum_const_zero, add_zero]

theorem length_le (B : Backs cfg s a) : s.collOperations.length ≤ cfg.sizes.objects .coll := by
  have hcard := congrArg Multiset.card B.returned
  have hle := B.inv.returned_length_le
  simp only [Sys.live_coll, Multiset.card_add, Multiset.coe_card] at hcard
  omega

theorem move (B : Backs cfg s a) (hf : s'.failure = none) (h : CollMove cfg s s')
    (hsize : cfg.sizes.objects .coll < cfg.sizes.collQueue) : ∃ a', Backs cfg s' a' := by
  cases h with
  | same _ _ ha hl =>
    exact ⟨a, B.reachable, B.allocator.trans ha.symm, B.points, B.failure, B.returned.trans hl.symm⟩
  | @alloc cpu object _ _ hlt ha hl =>
    rw [← B.allocator] at ha
    obtain ⟨ls, hls⟩ := Allocation.reaches_alloc B.failure hlt (B.points cpu) ha
    refine ⟨_, B.reachable.reaches hls, rfl, B.points, B.failure, ?_⟩
    rw [hl, ← B.returned, ← Multiset.coe_add, Multiset.coe_singleton, Multiset.add_comm,
      Multiset.singleton_add]
  | @free objects _ _ ha hl =>
    rw [← B.returned] at hl
    have hle : (objects : Multiset Nat) ≤ a.returned := hl ▸ Multiset.le_add_right ..
    have hsub := Multiset.coe_le.mp hle
    have hnodup := Multiset.coe_nodup.mp
      (Multiset.nodup_of_le hle (Multiset.coe_nodup.mpr B.inv.returned_nodup))
    have hs := Allocation.step_free B.inv B.failure hnodup fun o ho => hsub.subset ho
    refine ⟨_, B.reachable.step hs, ?_, B.points, B.failure, ?_⟩
    · rw [ha, ← B.allocator]
    · rw [← Multiset.coe_sub, hl, add_tsub_cancel_left]
  | failed h =>
    rw [hf] at h
    cases h
  | full _ hle =>
    have := B.length_le
    omega

end Backs

/-- The calls of the collective allocator are a run of it, and no step has found the queue full. -/
structure CollInv (cfg : Config) (s : Sys) : Prop where
  failure : s.failure ≠ some .collQueueFull
  outside : s.failure = none → ∀ c, cfg.cpus ≤ c → s.cpus c = .idle
  backs : s.failure = none → ∃ a, Backs cfg s a

theorem CollInv.of_reachable (hsize : cfg.sizes.objects .coll < cfg.sizes.collQueue)
    (h : (openSystem cfg).Reachable s) : CollInv cfg s := by
  refine h.rec_inv ?_ ?_
  · rintro s ⟨data, objects, arrays, memory, rfl⟩
    refine ⟨by simp [Sys.initial], fun _ _ _ => rfl, fun _ => ⟨.init (cfg.sizes.objects .coll),
      .of_init rfl, rfl, fun _ => rfl, rfl, ?_⟩⟩
    simp only [Sys.live_coll, Sys.initial, Cpu.held, Finset.sum_const_zero]
    rfl
  · intro s l s' _ hs I
    have hout := I.outside (Sys.failure_of_step hs)
    obtain ⟨a, B⟩ := I.backs (Sys.failure_of_step hs)
    have hmove := Sys.step_coll hout hs
    have hsame : ∀ (_ : SameOutside cfg s s'), ∀ c, cfg.cpus ≤ c → s'.cpus c = .idle :=
      fun h c hc => (h c hc).trans (hout c hc)
    cases hmove with
    | same hf ho ha hl =>
      exact ⟨by simp [hf], fun _ => hsame ho, fun _ => B.move hf (.same hf ho ha hl) hsize⟩
    | alloc hf ho hlt ha hl =>
      exact ⟨by simp [hf], fun _ => hsame ho, fun _ => B.move hf (.alloc hf ho hlt ha hl) hsize⟩
    | free hf ho ha hl =>
      exact ⟨by simp [hf], fun _ => hsame ho, fun _ => B.move hf (.free hf ho ha hl) hsize⟩
    | failed hf hne => exact ⟨by simpa [hf] using hne, by simp [hf], by simp [hf]⟩
    | full _ hle =>
      have := B.length_le
      omega

/-- With the sizes of the source, for any number of CPUs and tasks and both values of
`TAMPI_QUEUES_FULL_FAILURE`: the queue holds distinct live objects, and a push finds room at its
first attempt. -/
theorem collQueue_never_full (hz : cfg.sizes = .source) (h : (openSystem cfg).Reachable s) :
    s.failure ≠ some .collQueueFull ∧ (s.failure = none →
      (s.collOperations.Nodup ∧ ∀ object ∈ s.collOperations,
        object < 8000 ∧ object ∉ (s.allocators .coll).unused cfg.cpus) ∧
      s.collOperations.length < 32 * 1024 ∧
      ∀ cpu object ctx, s.cpus cpu = .allocated .coll object ctx →
        s.step cfg (.cpu cpu) = some ({ s with
          collOperations := s.collOperations ++ [object] }.pushDone cpu .coll object ctx)) := by
  have hobj : cfg.sizes.objects .coll = 8000 := by rw [hz]; rfl
  have hqueue : cfg.sizes.collQueue = 32 * 1024 := by rw [hz]; rfl
  have I := CollInv.of_reachable (by rw [hobj, hqueue]; decide) h
  refine ⟨I.failure, fun hf => ?_⟩
  obtain ⟨a, B⟩ := I.backs hf
  have hlen : s.collOperations.length < 32 * 1024 := by
    have := B.length_le
    omega
  have hcons := B.conserved
  have hle : (s.collOperations : Multiset Nat) ≤ s.live cfg .coll := by
    rw [Sys.live_coll, add_right_comm]
    exact Multiset.le_add_left ..
  have hnodup : ((s.allocators .coll).unused cfg.cpus + s.live cfg .coll).Nodup :=
    hcons ▸ Multiset.nodup_range _
  refine ⟨⟨?_, fun object hmem => ⟨?_, fun hunused => ?_⟩⟩, hlen, fun cpu object ctx hc => ?_⟩
  · exact Multiset.coe_nodup.mp
      (Multiset.nodup_of_le (hle.trans (Multiset.le_add_left ..)) hnodup)
  · have hrange : object ∈ Multiset.range (cfg.sizes.objects .coll) :=
      hcons ▸ Multiset.mem_add.mpr (.inr (Multiset.mem_of_le hle hmem))
    rw [hobj] at hrange
    exact Multiset.mem_range.mp hrange
  · exact Multiset.disjoint_left.mp (Multiset.nodup_add.mp hnodup).2.2 hunused
      (Multiset.mem_of_le hle hmem)
  · simp only [Sys.step, hf, Option.isSome_none, Bool.false_eq_true, if_false, Sys.cpuStep, hc,
      Sys.pushColl, hqueue, hlen, if_true]

/-- A barrier is allocated on the first CPU and about to be pushed. -/
theorem collQueue_never_full_barrier : ∃ s, (openSystem (.defaults 1 (by decide))).Reachable s ∧
    s.failure = none ∧
    s.cpus 0 = .allocated .coll 0 (demoBarrier.construct 0 0 1 .BLK).context ∧
    s.collOperations.length < 32 * 1024 := by
  obtain ⟨s, hs, hf, hc⟩ : ∃ s, (openSystem (.defaults 1 (by decide))).Reachable s ∧
      s.failure = none ∧
      s.cpus 0 = .allocated .coll 0 (demoBarrier.construct 0 0 1 .BLK).context :=
    ⟨_, ⟨.cleared _, [.process 0 1 .BLK demoBarrier, .cpu 0], ⟨_, _, _, _, rfl⟩,
      .of_run (f := Sys.step _) (fun _ _ _ _ h => h) rfl⟩, rfl, rfl⟩
  exact ⟨s, hs, hf, hc, ((collQueue_never_full rfl hs).2 hf).2.1⟩

end Tampi
