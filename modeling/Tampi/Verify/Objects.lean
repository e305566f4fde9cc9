import Tampi.Verify.Call

/-! # The objects of a batch

Whatever the order MPI reports requests in, the objects of the allocators that hold an operation are
kept apart: `Sys.outline` blanks what that order can reach, and what is left is a state of the
system (`outline_inv`). So nothing overwrites the operations of a batch while it is transferred. -/

namespace Tampi
open Function (update)

/-- The point of the polling task as far as the objects are concerned. -/
def Poll.outline : Poll → Poll
  | .popping .. => .popping 0 ⟨BatchSize, 0⟩
  | .transfer _ _ _ x => .transfer 0 ⟨BatchSize, 0⟩ 0 (.start x.kind x.operations)
  | _ => .top 0

theorem Sim.inv {cfg : Config} {s t : Sys} (S : Sim cfg s t) (hf : t.failure = none) :
    t.Inv cfg := by
  cases S with
  | ok _ I => exact I
  | failed h => cases h.symm.trans hf

namespace Sys
variable {cfg : Config} {s t : Sys}

/-- The state with no request in flight and the batch at its start. -/
def outline (s : Sys) : Sys :=
  { s with manager := ⟨0, s.manager.arrays, .defaults⟩, poll := s.poll.outline }

/-! ## Steps of the other agents -/

section
variable (m : TicketManager) (p : Poll)

theorem cpuStep_frame :
    ({ s with manager := m, poll := p } : Sys).cpuStep cfg cpu =
      (s.cpuStep cfg cpu).map fun t => { t with manager := m, poll := p } := by
  unfold cpuStep
  dsimp only
  cases s.cpus cpu with
  | idle | pushed => rfl
  | bound op =>
    unfold alloc
    dsimp only
    cases (s.allocators op.kind).alloc cpu <;> rfl
  | allocated kind object ctx =>
    cases kind with
    | p2p => rfl
    | coll =>
      unfold pushColl
      dsimp only
      split_ifs <;> rfl
  | pushing object ctx =>
    unfold pushP2P
    dsimp only
    rw [Option.map_map]
    congr 1
    funext q
    dsimp only [Function.comp_apply]
    cases q.producer cpu with
    | returned ok =>
      cases ok
      · dsimp only
        split_ifs <;> rfl
      · rfl
    | idle | refresh | write | publish => rfl

theorem step_frame (hl : l.isPoll = false) :
    ({ s with manager := m, poll := p } : Sys).step cfg l =
      (s.step cfg l).map fun t => { t with manager := m, poll := p } := by
  unfold step
  dsimp only
  split_ifs
  · rfl
  cases l with
  | poll => cases hl
  | process cpu task nature args =>
    dsimp only
    split
    · split_ifs <;> rfl
    · rfl
  | cpu cpu => exact cpuStep_frame m p
  | resume task =>
    unfold resume
    dsimp only
    split
    · split_ifs <;> rfl
    · rfl
  | completion =>
    unfold completionStep
    dsimp only
    split
    · split_ifs <;> rfl
    · rfl
    · split <;> rfl
  | mpi request status =>
    dsimp only
    split <;> rfl

end

theorem Sim.outcome (S : Sim cfg s t) :
    t.failure = none ∧ t.Inv cfg ∨ ∃ f, t.failure = some f ∧ f.Allowed := by
  cases S with
  | ok hf I => exact .inl ⟨hf, I⟩
  | failed hf hallowed => exact .inr ⟨_, hf, hallowed⟩

theorem Inv.other (I : s.Inv cfg) (h : s.step cfg l = some t) (hl : l.isPoll = false) :
    t.failure = none ∧ t.Inv cfg ∨ ∃ f, t.failure = some f ∧ f.Allowed := by
  have hs := failure_of_step h
  by_cases hsub : l.submits
  · obtain ⟨_, hf, I', -⟩ := submit_sim I hs hsub h
    exact .inl ⟨hf, I'⟩
  unfold step at h
  rw [if_neg (by simp [hs])] at h
  cases l with
  | process => exact absurd rfl hsub
  | cpu cpu => exact Sim.outcome (cpuStep_sim I hs h)
  | resume task => exact Sim.outcome (resume_sim I hs h)
  | poll => cases hl
  | completion => exact Sim.outcome (completionStep_sim I hs h)
  | mpi request status =>
    dsimp only at h
    split at h
    · cases h
      exact Sim.outcome (mpi_sim I hs ‹_›)
    · cases h

theorem outline_step (h : s.step cfg l = some t) (hl : l.isPoll = false) :
    s.outline.step cfg l = some t.outline := by
  obtain ⟨hm, hp⟩ := step_manager h hl
  rw [outline, step_frame _ _ hl, h, outline, hm, hp]
  rfl

theorem outline_other (I : s.outline.Inv cfg) (h : s.step cfg l = some t) (hl : l.isPoll = false)
    (hf : t.failure = none) : t.outline.Inv cfg := by
  rcases I.other (outline_step h hl) hl with ⟨-, I'⟩ | ⟨f, hf', -⟩
  · exact I'
  · cases hf'.symm.trans hf

/-! ## Steps of the polling task -/

/-- What the outline keeps of where the polling task is. -/
def OutlineInv (consumer : Consumer Nat) : Poll → Prop
  | .popping .. => consumer.limit ≤ BatchSize
  | .transfer _ _ _ x => consumer = .idle ∧ x.operations.length ≤ BatchSize
  | _ => consumer = .idle

theorem window_fits_outline : (⟨BatchSize, 0⟩ : Window).Fits 0 CapacityCtrl.defaults.capacity :=
  ⟨by decide, by decide⟩

theorem active_zero (arrays : Arrays) : arrays.Active 0 0 :=
  fun p _ h => absurd h (Nat.not_lt_zero p)

theorem pollInv_outline {arrays : Arrays} {consumer : Consumer Nat} {log : List Event} {p : Poll} :
    PollInv cfg ⟨0, arrays, .defaults⟩ consumer log p.outline ↔ OutlineInv consumer p := by
  have hact := active_zero arrays
  cases p with
  | popping => exact ⟨fun h => h.1, fun h => ⟨h, hact, window_fits_outline⟩⟩
  | transfer total w np2p x =>
    refine ⟨fun h => ⟨h.1, h.2.2.2.count_le⟩, fun h => ⟨h.1, hact, Nat.zero_le _, ?_⟩⟩
    exact start_inv window_fits_outline h.2
  | idle | top | p2p | coll | bottom | check | evaluate =>
    exact ⟨fun h => h.1, fun h => ⟨h, hact⟩⟩

/-- A step that leaves the queues and the objects alone. -/
theorem outline_frame (I : s.outline.Inv cfg) (F : PollFrame s t)
    (hp : t.poll.outline = s.poll.outline) : t.outline.Inv cfg := by
  refine PollFrame.inv (s := s.outline) ⟨F.allocators, F.objects, F.p2pOperations,
    F.collOperations, F.consuming, F.cpus, F.tasks, F.serial, F.failure, F.completions⟩ I
    (fun k => congrArg (Poll.transferring k) hp) (fun p h => absurd h (Nat.not_lt_zero p))
    (Nat.zero_le _) ?_
  change PollInv cfg _ _ _ t.poll.outline
  rw [hp]
  exact pollInv_outline.mpr (pollInv_outline.mp I.poll)

theorem PollFrame.goto (s : Sys) (m : TicketManager) (p : Poll) :
    PollFrame s { s with manager := m, poll := p } :=
  ⟨rfl, rfl, rfl, rfl, rfl, rfl, rfl, rfl, rfl, Nat.le_refl _⟩

@[simp] theorem outline_nextWindow : (nextWindow total w np2p ncoll).outline = .top 0 := by
  unfold nextWindow
  split <;> rfl

@[simp] theorem outline_nextRound : (nextRound total inserted completed).outline = .top 0 := by
  unfold nextRound
  split <;> rfl

/-- A pop of point-to-point operations. -/
theorem outline_pop {q : MultiLockFreeQueue Nat} (I : s.outline.Inv cfg) (hs : s.failure = none)
    (hp : s.poll.plain) (hq : s.p2pOperations.consumerStep cfg.queue = some q)
    (hlim : s.p2pOperations.consumer.limit ≤ BatchSize) :
    ({ s.outline with p2pOperations := q, poll := .popping 0 ⟨BatchSize, 0⟩ } : Sys).Inv cfg := by
  have hplain : s.outline.poll.plain := by
    change s.poll.outline.plain
    cases h : s.poll <;> simp_all [Poll.outline, Poll.plain]
  have Q := I.queue.consumerStep hq
  have F := MultiLockFreeQueue.consumerStep_frame hq
  have hpinv : PollInv cfg s.outline.manager q.consumer s.log (.popping 0 ⟨BatchSize, 0⟩) :=
    ⟨(MultiLockFreeQueue.consumerStep_cases I.queue hq).1.trans hlim, active_zero _,
      window_fits_outline⟩
  rcases MultiLockFreeQueue.consumerStep_contents I.queue hq with
    ⟨hcont, hvals⟩ | ⟨cpu, chunk, rest, hsplit, hcont, hvals⟩
  · exact (popKeep_sim I hs hplain rfl Q F.producer hcont hvals hpinv).inv hs
  · exact (popTake_sim I hs hplain rfl Q F.producer hsplit hcont hvals hpinv).inv hs

/-- The objects of the batch go back to the allocator. -/
theorem outline_free {x : Transfer} {p : Poll} (I : s.outline.Inv cfg) (hs : s.failure = none)
    (hp : s.poll = .transfer total w np2p x) (hp' : p.outline = .top 0) :
    ({ s with
      allocators := update s.allocators x.kind
        ((s.allocators x.kind).free (cfg.sizes.objects x.kind) x.operations)
      poll := p } : Sys).outline.Inv cfg := by
  have hinv := pollInv_outline.mp I.poll
  rw [hp] at hinv
  obtain ⟨hidle, hlen⟩ := hinv
  let x' : Transfer := { Transfer.start x.kind x.operations with
    tickets := List.replicate x.operations.length default, phase := .free }
  have I' : ({ s.outline with poll := .transfer 0 ⟨BatchSize, 0⟩ 0 x' } : Sys).Inv cfg := by
    refine PollFrame.inv (.goto s.outline _ _) I (fun k => ?_) I.self (Nat.zero_le _)
      ⟨hidle, active_zero _, Nat.zero_le _, ?_⟩
    · change _ = s.poll.outline.transferring k
      rw [hp]
      rfl
    · exact {
        count_le := hlen
        tickets_le := by simp [x', Transfer.start]
        issued := by simp [x', Transfer.Issued, Transfer.start]
        nreqs_le := Nat.zero_le _
        room := by
          have : BatchSize ≤ CapacityCtrl.defaults.capacity := by decide
          simp only [Transfer.toAppend, x', outline]
          omega
        complentries_lt := by simp [x', Transfer.start]
        req2entry_lt := by simp [x', Transfer.start]
        settled := by simp [x', Transfer.start]
        phase := trivial }
  have hsim := freed_sim (p := .top 0) I' hs rfl rfl rfl ⟨hidle, active_zero _⟩
  have := hsim.inv hs
  rwa [outline, show ({ s with poll := p } : Sys).poll.outline = .top 0 from hp']

theorem outline_move (I : s.outline.Inv cfg) (hs : s.failure = none) (M : s.PollMove cfg a t) :
    t.outline.Inv cfg := by
  have hinv := pollInv_outline.mp I.poll
  have hplain (h : s.poll.outline = .top 0) : s.outline.poll.plain := by
    change s.poll.outline.plain
    rw [h]
    rfl
  cases M with
  | enter hp | top hp | full hp | bottom hp | evaluate hp | bottomEmpty hp | replace hp =>
    refine outline_frame I (.goto ..) ?_
    rw [hp]
    first | rfl | exact outline_nextRound
  | @pop total w a hp =>
    rw [hp] at hinv
    have hidle : s.p2pOperations.consumer = .idle := hinv
    have hfree : s.p2pOperations.consumer.free := by rw [hidle]; rfl
    obtain ⟨hvals, hlim, -⟩ := MultiLockFreeQueue.pop_calls (P := cfg.queue) (m := s.p2pOperations)
      (min (w.navailable - w.ntotal) BatchSize)
    refine (popKeep_sim (p := .popping 0 ⟨BatchSize, 0⟩) I hs (hplain (by rw [hp]; rfl)) rfl
      (I.queue.pop hfree) MultiLockFreeQueue.pop_frame.producer
      (MultiLockFreeQueue.pop_contents I.queue hfree)
      (hvals.trans (by rw [outline, hidle]; rfl))
      ⟨hlim.trans (Nat.min_le_right ..), active_zero _, window_fits_outline⟩).inv hs
  | popping hp hq =>
    rw [hp] at hinv
    have := outline_pop I hs (by rw [hp]; rfl) hq hinv
    rwa [outline, show ({ s with p2pOperations := _ } : Sys).poll = s.poll from rfl, hp]
  | noP2P hp hc =>
    refine (popKeep_sim (p := .top 0) I hs ?_ rfl (I.queue.release_pop (by simp [outline, hc,
      Consumer.free])) rfl rfl (by simp [outline, hc, Consumer.vals]) ⟨rfl, active_zero _⟩).inv hs
    change s.poll.outline.plain
    rw [hp]
    rfl
  | takeP2P hp hc hne hlen =>
    refine (transferP2P_sim I hs ?_ hc (active_zero _) window_fits_outline hlen).inv hs
    change s.poll.outline.plain
    rw [hp]
    rfl
  | @noColl total w np2p a hp hnil =>
    have hdrop : s.collOperations.drop (min (w.navailable - w.ntotal) BatchSize) =
        s.collOperations := by
      rcases List.take_eq_nil_iff.mp hnil with h0 | h0
      · rw [h0, List.drop_zero]
      · simp [h0]
    rw [hdrop]
    refine outline_frame I (.goto ..) ?_
    rw [hp]
    exact outline_nextWindow
  | @takeColl total w np2p os a hp htake hne hlen =>
    rw [hp] at hinv
    subst htake
    exact (transferColl_sim I hs (hplain (by rw [hp]; rfl)) hinv (active_zero _)
      window_fits_outline (Nat.min_le_right ..)).inv hs
  | transfer hp M =>
    obtain ⟨F, hk, ho⟩ := M.frame
    refine outline_frame I ⟨F.allocators, F.objects, F.p2pOperations, F.collOperations,
      F.consuming, F.cpus, F.tasks, F.serial, F.failure, F.completions⟩ ?_
    rw [hp]
    simp only [Poll.outline, hk, ho]
  | @free total w np2p x a hp hx =>
    refine outline_free I hs hp ?_
    split
    · rfl
    · exact outline_nextWindow
  | check hp M =>
    have F := M.frame
    refine outline_frame I ⟨F.allocators, F.objects, F.p2pOperations, F.collOperations,
      F.consuming, F.cpus, F.tasks, F.serial, F.failure, F.completions⟩ ?_
    rw [hp]
    rfl

theorem outline_inv (h : (openSystem cfg).Reachable s) (hs : s.failure = none) :
    s.outline.Inv cfg := by
  revert hs
  refine h.rec_inv (I := fun s => s.failure = none → s.outline.Inv cfg) ?_ ?_
  · rintro _ ⟨data, objects, arrays, memory, rfl⟩ -
    exact PollFrame.inv (.goto (.initial cfg data objects arrays memory) _ _) Inv.initial
      (fun _ => rfl) (fun p h => absurd h (Nat.not_lt_zero p)) (Nat.zero_le _)
      ⟨rfl, active_zero _⟩
  · intro s l t _ hstep ih hf
    have hs := failure_of_step hstep
    by_cases hl : l.isPoll
    · cases l with
      | poll a => exact outline_move (ih hs) hs (pollMove_of_step hstep hf)
      | process | cpu | resume | completion | mpi => cases hl
    · exact outline_other (ih hs) hstep (Bool.eq_false_of_not_eq_true hl) hf

end Sys

end Tampi
