import Tampi.Verify.Order
import Tampi.Verify.QueueProgress
import Tampi.Verify.Reporting

/-! # Every operation is completed

Operations are submitted for ever. The capacity may be used up, but not for ever: while nothing is
issued the operations in flight are reported one after the other, and a polling task that has none
in flight looks for new ones (`Fair.exists_admits`). So the point-to-point pre-queues are popped
again and again, cyclically, and what was pushed to them is passed to MPI (`Fair.exists_issued`). A
task that finds its queue full gets its operation in (`Fair.exists_pushed`): nobody else pushes to
this queue, and it is emptied meanwhile. Collective operations come last in the window of a round,
so point-to-point operations pushed for ever may leave them no room (`Fair.exists_issued_coll`). -/

namespace Tampi
open Function (update)
open Transition (select select_append)

/-- The poll points of `internalCheckOperationQueues`. -/
def Poll.admits : Poll → Bool
  | .p2p .. | .popping .. | .coll .. | .transfer .. => true
  | _ => false

namespace Sys
variable {cfg : Config} {s t : Sys}

/-! ## Admission -/

theorem PollMove.admits (M : s.PollMove cfg a t) (h : s.poll.admits = false)
    (hno : ∀ total w, t.poll ≠ .p2p total w) : t.poll.admits = false := by
  have hround {total inserted completed : Nat} :
      (nextRound total inserted completed).admits = false := by
    unfold nextRound
    split <;> rfl
  cases M with
  | top => exact absurd rfl (hno _ _)
  | enter | full | bottom | check | evaluate => rfl
  | bottomEmpty | replace => exact hround
  | pop hp | popping hp | noP2P hp | takeP2P hp | noColl hp | takeColl hp | transfer hp | free hp =>
    rw [hp] at h
    cases h

/-- Nothing is issued outside of `internalCheckOperationQueues`. -/
theorem issues_of_step (hs : s.step cfg l = some t) (hf : t.failure = none)
    (h : s.poll.admits = false) : issues t.log = issues s.log := by
  rcases move_of_step hs hf with ⟨a, rfl, M⟩ | ⟨hl, M⟩
  · have hp : s.poll.isTransfer = false := by
      cases hp : s.poll with
      | transfer =>
        rw [hp] at h
        cases h
      | idle | top | p2p | popping | coll | bottom | check | evaluate => rfl
    obtain ⟨es, -, S⟩ := M.settles hp
    exact S.issues
  · cases hm : l.isMpi with
    | false =>
      obtain ⟨S, -⟩ := settles_other hs hl hm
      exact S.issues
    | true =>
      cases M with
      | mpi => rfl
      | _ => cases hm

/-- There is room when operations are looked for. -/
theorem PollMove.room (M : s.PollMove cfg a t) (ht : t.poll = .p2p total w) :
    w.ntotal < w.navailable := by
  have hwindow {total' : Nat} {w' : Window} {np2p ncoll : Nat}
      (h : nextWindow total' w' np2p ncoll = .p2p total w) : w.ntotal < w.navailable := by
    unfold nextWindow at h
    split at h
    next hlt =>
      cases h
      exact hlt.1
    next => cases h
  cases M with
  | top _ hlt =>
    cases ht
    have hbatch : 0 < BatchSize * 2 := by decide
    exact Nat.lt_min.mpr ⟨Nat.sub_pos_of_lt hlt, hbatch⟩
  | popping hp =>
    rw [hp] at ht
    cases ht
  | noColl => exact hwindow ht
  | free =>
    dsimp only at ht
    split at ht
    · cases ht
    · exact hwindow ht
  | bottomEmpty | replace =>
    simp only [nextRound] at ht
    split at ht <;> cases ht
  | enter | full | pop | noP2P | takeP2P | takeColl | transfer | bottom | check | evaluate =>
    cases ht

theorem room_of_reachable (h : (system cfg).Reachable s) (hf : s.failure = none)
    (hp : s.poll = .p2p total w) : w.ntotal < w.navailable := by
  refine h.rec_inv (I := fun s : Sys => s.failure = none → ∀ total w, s.poll = .p2p total w →
    w.ntotal < w.navailable) ?_ ?_ hf total w hp
  · rintro s ⟨data, objects, arrays, memory, rfl⟩ - total w hp
    cases hp
  · intro s l t _ hstep ih hf total w hp
    rcases move_of_step hstep.2 hf with ⟨a, rfl, M⟩ | ⟨hl, -⟩
    · exact M.room hp
    · exact ih (failure_of_step hstep.2) total w ((step_manager hstep.2 hl).2 ▸ hp)

variable {σ : Nat → Sys} {l : Nat → Label}

/-- If nothing is issued any more, everything in flight is reported. -/
theorem Fair.exists_vacant (F : Fair cfg σ l) (hany : cfg.generalTesting ≠ .testAny)
    (hissues : ∀ m ≥ n, issues (σ m).log = issues (σ n).log) :
    ∃ k ≥ n, ∀ m ≥ k, (σ m).inflight = 0 := by
  have HL (m : Nat) := (Inv.of_reachable (F.execution.reachable m)
    (failure_of_execution F.execution m)).2
  have htracked (m : Nat) := (HL m).tracked.issued
  simp only [life] at htracked
  have hbound (m : Nat) : (reports (σ m).log).length ≤ (issues (σ n).log).length := by
    have hgrows : (reports (σ m).log).length ≤ (reports (σ (max m n)).log).length :=
      ((log_of_execution F.execution (Nat.le_max_left m n)).filterMap _).length_le
    have hcard := congrArg Multiset.card (htracked (max m n))
    rw [hissues _ (Nat.le_max_right m n)] at hcard
    simp only [Multiset.card_add, Multiset.coe_card] at hcard
    omega
  obtain ⟨k, hk⟩ := exists_select_eq F.execution Event.reported? hbound
  have hconst : ∀ m ≥ k, reports (σ m).log = reports (σ k).log :=
    Transition.always_from rfl fun m hm h => (hk m hm).trans h
  refine ⟨max k n, Nat.le_max_right k n, fun m hm => ?_⟩
  refine Multiset.eq_zero_iff_forall_notMem.mpr fun slot hslot => ?_
  obtain ⟨j, hj, hrep⟩ := F.exists_reported hany hslot
  -- the report was there before
  have hkm := (Nat.le_max_left k n).trans hm
  rw [hconst j (hkm.trans hj), ← hconst m hkm] at hrep
  have hnodup : (issues (σ m).log : Multiset OpId).Nodup := (HL m).issues_nodup
  rw [htracked m] at hnodup
  refine Multiset.disjoint_left.mp (Multiset.nodup_add.mp hnodup).2.2 ?_ hrep
  exact Multiset.mem_add.mpr (.inl (Multiset.mem_map_of_mem _ hslot))

/-- If there is room at the start of a round, it looks for point-to-point operations. -/
theorem PollMove.p2p_of_room (M : s.PollMove cfg a t) (hs : s.poll.starts) (ht : ¬ t.poll.starts)
    (hroom : s.manager.pending < s.manager.capacityCtrl.capacity) :
    ∃ total w, t.poll = .p2p total w := by
  cases M with
  | enter => exact absurd rfl ht
  | top => exact ⟨_, _, rfl⟩
  | full _ hfull => exact absurd hroom hfull
  | pop hp | popping hp | noP2P hp | takeP2P hp | noColl hp | takeColl hp | transfer hp
  | free hp | bottom hp | bottomEmpty hp | check hp | replace hp | evaluate hp =>
    rw [hp] at hs
    cases hs

/-- The polling task looks for point-to-point operations again and again. -/
theorem Fair.exists_admits (F : Fair cfg σ l) (hany : cfg.generalTesting ≠ .testAny)
    (hcap : 0 < cfg.capacityCtrl.capacityMin) (k : Nat) :
    ∃ n ≥ k, ∃ total w, (σ n).poll = .p2p total w := by
  by_contra hno
  push Not at hno
  have hf := failure_of_execution F.execution
  obtain ⟨n, hn, hstarts⟩ := exists_starts F.execution F.exists_poll k
  have hadmits : ∀ m ≥ n, (σ m).poll.admits = false := by
    refine Transition.always_from ?_ fun m hm h => ?_
    · obtain hp | ⟨total, hp⟩ := Poll.starts_cases hstarts <;>
      · rw [hp]
        rfl
    · have hstep := (F.execution.step m).2
      rcases move_of_step hstep (hf (m + 1)) with ⟨a, -, M⟩ | ⟨hl, -⟩
      · exact M.admits h (hno (m + 1) (Nat.le_succ_of_le (hn.trans hm)))
      · rw [(step_manager hstep hl).2]
        exact h
  have hissues : ∀ m ≥ n, issues (σ m).log = issues (σ n).log :=
    Transition.always_from rfl fun m hm h =>
      (issues_of_step (F.execution.step m).2 (hf (m + 1)) (hadmits m hm)).trans h
  obtain ⟨j, hj, hvacant⟩ := F.exists_vacant hany hissues
  -- the first round after that
  obtain ⟨i, hi, hstarts⟩ := exists_starts F.execution F.exists_poll j
  obtain ⟨i', hi', hleft⟩ := exists_not_starts F.execution F.exists_poll i
  obtain ⟨m, hm, hs, hleft⟩ := Transition.exists_switch
    (P := fun m => ¬ (σ m).poll.starts) (not_not.mpr hstarts) hi' hleft
  have hs := not_not.mp hs
  have hjm : j ≤ m := hi.trans hm
  have hstep := (F.execution.step m).2
  rcases move_of_step hstep (hf (m + 1)) with ⟨a, -, M⟩ | ⟨hl, -⟩
  · obtain ⟨I, -⟩ := Inv.of_reachable (F.execution.reachable m) (hf m)
    have hpending := pending_eq_zero I (Poll.plain_of_starts hs) (hvacant m hjm)
    obtain ⟨total, w, hp⟩ := M.p2p_of_room hs hleft
      (hpending ▸ capacity_pos (F.execution.reachable m) (hf m) hcap)
    exact hno (m + 1) (by omega) total w hp
  · rw [(step_manager hstep hl).2] at hleft
    exact hleft hs

/-! ## The point-to-point pre-queues -/

theorem p2pMoves_of_step (I : s.Inv cfg) (hs : s.step cfg k = some t) (hf : t.failure = none) :
    MultiLockFreeQueue.Moves cfg.queue s.p2pOperations t.p2pOperations := by
  rcases move_of_step hs hf with ⟨a, -, M⟩ | ⟨-, M⟩
  · cases M with
    | pop hp =>
      have hpoll := I.poll
      rw [hp] at hpoll
      exact .pop (by rw [hpoll.1]; rfl)
    | popping _ hq => exact .consume hq
    | noP2P _ hret | takeP2P _ hret => exact .settle (by rw [hret]; rfl)
    | transfer _ M =>
      obtain ⟨F, -⟩ := M.frame
      exact F.p2pOperations ▸ .rest
    | check _ M => exact M.frame.p2pOperations ▸ .rest
    | enter | top | full | noColl | takeColl | free | bottom | bottomEmpty | replace
    | evaluate => exact .rest
  · cases M with
    | startPush =>
      exact .push MultiLockFreeQueue.push_frame (by rw [MultiLockFreeQueue.push_pushed])
    | push _ hq | pushed _ hq | retryPush _ hq =>
      exact .push (MultiLockFreeQueue.producerStep_frame hq)
        (MultiLockFreeQueue.producerStep_pushed hq)
    | noObjects | queueFull | collFull => cases hf
    | process | alloc | pushColl | retryColl | block | resume | consume | consumed | complete
    | mpi => exact .rest

theorem sharing_of_reachable (h : (system cfg).Reachable s) (hf : s.failure = none) :
    s.p2pOperations.Sharing := by
  refine h.rec_inv (I := fun s : Sys => s.failure = none → s.p2pOperations.Sharing) ?_ ?_ hf
  · rintro s ⟨data, objects, arrays, memory, rfl⟩ -
    trivial
  · intro s l t hs hstep ih hf
    have hsf := failure_of_step hstep.2
    obtain ⟨I, -⟩ := Inv.of_reachable hs hsf
    exact (ih hsf).move (p2pMoves_of_step I hstep.2 hf)

/-- The polling task does not stay where it is. -/
theorem exists_leave (E : (system cfg).Execution σ l) (hpoll : ∀ n, ∃ m ≥ n, (l m).isPoll)
    {p : Poll} (h : (σ n).poll = p) (hp : p.starts = false) :
    ∃ m ≥ n, ∃ a, (σ m).poll = p ∧ (σ (m + 1)).poll ≠ p ∧ (σ m).PollMove cfg a (σ (m + 1)) := by
  obtain ⟨k, hk, hs⟩ := exists_starts E hpoll n
  have hne : (σ k).poll ≠ p := by
    intro heq
    rw [heq, hp] at hs
    cases hs
  obtain ⟨m, hm, heq, hne⟩ :=
    Transition.exists_switch (P := fun m => (σ m).poll ≠ p) (not_not.mpr h) hk hne
  have heq := not_not.mp heq
  have hstep := (E.step m).2
  rcases move_of_step hstep (failure_of_execution E (m + 1)) with ⟨a, -, M⟩ | ⟨hl, -⟩
  · exact ⟨m, hm, a, heq, hne, M⟩
  · exact absurd ((step_manager hstep hl).2.trans heq) hne

theorem PollMove.popping_of_p2p (M : s.PollMove cfg a t) (hp : s.poll = .p2p total w) :
    t.poll = .popping total w ∧ t.p2pOperations =
      s.p2pOperations.pop cfg.queue (min (w.navailable - w.ntotal) BatchSize) := by
  cases M with
  | pop h =>
    cases hp.symm.trans h
    exact ⟨rfl, rfl⟩
  | enter h | top h | full h | popping h | noP2P h | takeP2P h | noColl h | takeColl h
  | transfer h | free h | bottom h | bottomEmpty h | check h | replace h | evaluate h =>
    cases hp.symm.trans h

/-- The polling task is a consumer that pops again and again. -/
theorem Fair.served (F : Fair cfg σ l) (hany : cfg.generalTesting ≠ .testAny)
    (hcap : 0 < cfg.capacityCtrl.capacityMin) :
    MultiLockFreeQueue.Served cfg.queue (fun n => (σ n).p2pOperations) where
  inv n := (Inv.of_reachable (F.execution.reachable n) (failure_of_execution F.execution n)).1.queue
  sharing n := sharing_of_reachable (F.execution.reachable n) (failure_of_execution F.execution n)
  move n := p2pMoves_of_step (Inv.of_reachable (F.execution.reachable n)
    (failure_of_execution F.execution n)).1 (F.execution.step n).2
    (failure_of_execution F.execution (n + 1))
  pops n := by
    obtain ⟨k, hk, total, w, hp⟩ := F.exists_admits hany hcap n
    obtain ⟨m, hm, a, hp, -, M⟩ := exists_leave F.execution F.exists_poll hp rfl
    have hf := failure_of_execution F.execution m
    have hroom := room_of_reachable (F.execution.reachable m) hf hp
    obtain ⟨I, -⟩ := Inv.of_reachable (F.execution.reachable m) hf
    have hpoll := I.poll
    rw [hp] at hpoll
    refine ⟨m, hk.trans hm, _, ?_, by rw [hpoll.1]; rfl, (M.popping_of_p2p hp).2⟩
    exact Nat.lt_min.mpr ⟨Nat.sub_pos_of_lt hroom, by decide⟩

/-! ## From the pre-queue to MPI -/

/-- The operation the task on a CPU is submitting. -/
def submitting (s : Sys) (c : Nat) : Option Op :=
  match s.cpus c with
  | .bound op => some op
  | .allocated kind object _ => some (s.objects kind object)
  | .pushing object _ => some (s.objects .p2p object)
  | .idle | .pushed _ => none

theorem PollMove.pushed (M : s.PollMove cfg a t) :
    t.p2pOperations.pushed = s.p2pOperations.pushed := by
  cases M with
  | pop => exact MultiLockFreeQueue.pop_frame.pushed
  | popping _ hq => exact (MultiLockFreeQueue.consumerStep_frame hq).pushed
  | transfer _ M =>
    obtain ⟨F, -⟩ := M.frame
    exact congrArg _ F.p2pOperations
  | check _ M => exact congrArg _ M.frame.p2pOperations
  | _ => rfl

/-- A step pushes nothing, or the operation that the task on the CPU of the queue is submitting. -/
theorem pushed_of_step {l : Label} (I : s.Inv cfg) (hs : s.step cfg l = some t)
    (hf : t.failure = none) :
    t.p2pOperations.pushed = s.p2pOperations.pushed ∨ ∃ c op object,
      s.submitting c = some op ∧ op.id.line = .p2p c ∧ t.log = s.log ++ [.push op] ∧
      t.p2pOperations.pushed =
        update s.p2pOperations.pushed c (s.p2pOperations.pushed c ++ [object]) := by
  rcases move_of_step hs hf with ⟨a, -, M⟩ | ⟨-, M⟩
  · exact .inl M.pushed
  · have hpush {c object : Nat} {ctx : TaskContext} (hc : s.cpus c = .pushing object ctx) :
        (s.p2pOperations.producer c).Pushes object ∧
          Submitting s.objects s.tasks c .p2p object ctx := by
      have hcpu := I.cpus c
      rwa [hc] at hcpu
    cases M with
    | noObjects | queueFull | collFull => cases hf
    | startPush => exact .inl MultiLockFreeQueue.push_pushed
    | push hc hq hret =>
      refine .inl ?_
      rcases MultiLockFreeQueue.producerStep_cases hq (hpush hc).1 with ⟨hr, -⟩ | ⟨heq, -⟩
      · exact absurd hr (hret true)
      · exact heq
    | retryPush hc hq hret =>
      refine .inl ?_
      rcases MultiLockFreeQueue.producerStep_cases hq (hpush hc).1 with ⟨hr, -⟩ | ⟨heq, -⟩
      · cases hret.symm.trans hr
      · exact heq
    | @pushed c object ctx q hc hq hret =>
      obtain ⟨hproducer, S⟩ := hpush hc
      refine .inr ⟨c, s.objects .p2p object, object, by simp only [submitting, hc],
        (OpId.line_eq_p2p ..).mpr ⟨S.id_kind, S.id_cpu⟩, rfl, ?_⟩
      rcases MultiLockFreeQueue.producerStep_cases hq hproducer with ⟨-, heq⟩ | ⟨-, hr⟩
      · exact heq
      · rw [hret] at hr
        rcases hr with hr | hr
        · cases hr
        · exact hr.elim
    | process | alloc | pushColl | retryColl | block | resume | consume | consumed | complete
    | mpi => exact .inl rfl

/-- What is in a pre-queue was pushed to it by a task. -/
theorem length_pushed_le (h : (system cfg).Reachable s) (hf : s.failure = none) (c : Nat) :
    (s.p2pOperations.pushed c).length ≤
      (((pushes s.log).map Op.id).filter (·.line = .p2p c)).length := by
  refine h.rec_inv (I := fun s : Sys => s.failure = none → (s.p2pOperations.pushed c).length ≤
    (((pushes s.log).map Op.id).filter (·.line = .p2p c)).length) ?_ ?_ hf
  · rintro s ⟨data, objects, arrays, memory, rfl⟩ -
    exact Nat.zero_le _
  · intro s l t hs hstep ih hf
    have hsf := failure_of_step hstep.2
    obtain ⟨I, -⟩ := Inv.of_reachable hs hsf
    rcases pushed_of_step I hstep.2 hf with heq | ⟨c', op, object, -, hline, hlog, heq⟩
    · rw [heq]
      have hgrows : pushes s.log <+: pushes t.log := (log_extends hs hstep hf).filterMap _
      exact (ih hsf).trans ((hgrows.map _).filter _).length_le
    · have hpushes : pushes t.log = pushes s.log ++ [op] := by
        rw [hlog, pushes, select_append]
        rfl
      rw [heq, hpushes, List.map_append, List.filter_append, List.length_append]
      by_cases hc : c = c'
      · subst hc
        rw [Function.update_self, List.length_append]
        simpa [hline] using ih hsf
      · rw [Function.update_of_ne hc]
        exact (ih hsf).trans (Nat.le_add_right ..)

/-- Between the batches what was pushed is issued or waits. -/
theorem pushes_of_batch (H : (s.life cfg).Inv) (hbatch : s.batch = []) (line : Line) :
    ((pushes s.log).map Op.id).filter (·.line = line) =
      (issues s.log).filter (·.line = line) ++ (s.queue cfg line).map Op.id := by
  have horder := H.ordered.order line
  simpa only [life, hbatch, List.map_nil, List.filter_nil, List.append_nil] using horder

theorem waiting_ne_nil (H : (s.life cfg).Inv) (hbatch : s.batch = []) (hop : op ∈ pushes s.log)
    (hno : op.id ∉ issues s.log) : s.waiting cfg op.id.line ≠ [] := by
  intro hnil
  have horder := pushes_of_batch H hbatch op.id.line
  rw [Sys.queue, hnil, List.map_nil, List.map_nil, List.append_nil] at horder
  have hmem : op.id ∈ ((pushes s.log).map Op.id).filter (·.line = op.id.line) := by
    simp [List.mem_map_of_mem hop]
  rw [horder] at hmem
  exact hno (List.mem_filter.mp hmem).1

theorem batch_of_starts (I : s.Inv cfg) (h : s.poll.starts) : s.batch = [] := by
  have hpoll := I.poll
  obtain hp | ⟨total, hp⟩ := Poll.starts_cases h <;>
  · rw [hp] at hpoll
    simp only [batch, hp]
    rw [hpoll.1]
    rfl

/-- What is issued while an operation waits was pushed before. -/
theorem issues_of_waiting {op : Op} (E : (system cfg).Execution σ l) (hnm : n ≤ m)
    (hop : op ∈ pushes (σ n).log) (hno : op.id ∉ issues (σ m).log) :
    (issues (σ m).log).filter (·.line = op.id.line) <+:
      ((pushes (σ n).log).map Op.id).filter (·.line = op.id.line) := by
  obtain ⟨-, H⟩ := Inv.of_reachable (E.reachable m) (failure_of_execution E m)
  have hpushed : ((pushes (σ n).log).map Op.id).filter (·.line = op.id.line) <+:
      ((pushes (σ m).log).map Op.id).filter (·.line = op.id.line) :=
    (((log_of_execution E hnm).filterMap Event.pushed?).map _).filter _
  have hissued : (issues (σ m).log).filter (·.line = op.id.line) <+:
      ((pushes (σ m).log).map Op.id).filter (·.line = op.id.line) := by
    have horder := H.ordered.order op.id.line
    simp only [life] at horder
    rw [horder, List.append_assoc]
    exact List.prefix_append ..
  refine (List.prefix_or_prefix_of_prefix hissued hpushed).resolve_right fun hpre => ?_
  have hmem : op.id ∈ ((pushes (σ n).log).map Op.id).filter (·.line = op.id.line) := by
    simp [List.mem_map_of_mem hop]
  exact hno (List.mem_filter.mp (hpre.subset hmem)).1

/-- An operation that was pushed is passed to MPI. -/
theorem Fair.exists_issued {op : Op} (F : Fair cfg σ l) (hany : cfg.generalTesting ≠ .testAny)
    (hcap : 0 < cfg.capacityCtrl.capacityMin) (hop : op ∈ pushes (σ n).log)
    (hkind : op.id.kind = .p2p) : ∃ m ≥ n, op.id ∈ issues (σ m).log := by
  by_contra hno
  push Not at hno
  have hf := failure_of_execution F.execution
  have S := F.served hany hcap
  have hline : op.id.line = .p2p op.id.cpu := (OpId.line_eq_p2p ..).mpr ⟨hkind, rfl⟩
  generalize op.id.cpu = c at hline
  -- at the start of a round the operation waits behind all those that were popped
  have hstart (m : Nat) (hm : m ≥ n) (hs : (σ m).poll.starts) :
      ((σ m).p2pOperations.popped c).length ≤
        (((pushes (σ n).log).map Op.id).filter (·.line = .p2p c)).length ∧
      0 < (σ m).p2pOperations.length cfg.queue c := by
    obtain ⟨I, H⟩ := Inv.of_reachable (F.execution.reachable m) (hf m)
    have hbatch := batch_of_starts I hs
    have hlen := congrArg List.length (pushes_of_batch H hbatch (.p2p c))
    have hpushed := length_pushed_le (F.execution.reachable m) (hf m) c
    have hle := (issues_of_waiting F.execution hm hop (hno m hm)).length_le
    have hwait := List.length_pos_iff.mpr
      (waiting_ne_nil H hbatch (mem_select_of_le F.execution hm hop) (hno m hm))
    rw [hline] at hle hwait
    rw [(S.inv m).history c, List.length_append, MultiLockFreeQueue.length_contents] at hpushed
    rw [List.length_append, List.length_map, Sys.queue, List.length_map] at hlen
    rw [waiting, MultiLockFreeQueue.length_contents] at hlen hwait
    exact ⟨by omega, hwait⟩
  have hc : c < cfg.queue.queues := by
    obtain ⟨m, hm, hs⟩ := exists_starts F.execution F.exists_poll n
    obtain ⟨I, -⟩ := Inv.of_reachable (F.execution.reachable m) (hf m)
    have hpos := (hstart m hm hs).2
    by_contra hge
    rw [← MultiLockFreeQueue.length_contents, (I.outside c (Nat.le_of_not_lt hge)).2] at hpos
    exact Nat.lt_irrefl 0 hpos
  -- but more and more is popped
  obtain ⟨k, hk, hlt⟩ := Transition.exists_lt_of_progress (k := n)
    (f := fun m => ((σ m).p2pOperations.popped c).length)
    (b := (((pushes (σ n).log).map Op.id).filter (·.line = .p2p c)).length) fun m hm _ => by
      obtain ⟨i, hi, hs⟩ := exists_starts F.execution F.exists_poll m
      obtain ⟨j, hj, hlt⟩ := S.exists_popped rfl hc (hstart i (hm.trans hi) hs).2
      exact ⟨j, hi.trans hj, Nat.lt_of_le_of_lt (S.grows hi).2.length_le hlt⟩
  obtain ⟨m, hm, hs⟩ := exists_starts F.execution F.exists_poll k
  have hle : ((σ k).p2pOperations.popped c).length ≤ ((σ m).p2pOperations.popped c).length :=
    (S.grows hm).2.length_le
  have := (hstart m (hk.trans hm) hs).1
  omega

/-! ## From the task to the pre-queue -/

/-- An operation that is not pushed is with the task on its CPU. -/
theorem submitting_of_not_pushed (I : s.Inv cfg) (H : (s.life cfg).Inv) (hb : op ∈ binds s.log)
    (hp : op ∉ pushes s.log) : s.submitting op.id.cpu = some op := by
  have hbinding : op ∈ (s.agent op.task).binding := by
    have hs := H.submitted.sequential op.task
    have hmem : op ∈ (binds s.log).filter (·.task = op.task) := by simp [hb]
    rw [show (binds s.log).filter (·.task = op.task) = _ from hs] at hmem
    exact (List.mem_append.mp hmem).resolve_left fun h => hp (List.mem_filter.mp h).1
  unfold agent at hbinding
  split at hbinding
  next => cases hbinding
  next => cases hbinding
  next c hc =>
    have hcpu := I.cpus c
    split at hbinding
    next => cases hbinding
    next o ho =>
      cases List.mem_singleton.mp hbinding
      rw [ho] at hcpu
      obtain ⟨-, rfl, -⟩ := hcpu
      simp only [submitting, ho]
    next kind object ctx ho =>
      cases List.mem_singleton.mp hbinding
      rw [ho] at hcpu
      obtain ⟨-, S⟩ := hcpu
      rw [S.id_cpu]
      simp only [submitting, ho]
    next object ctx ho =>
      cases List.mem_singleton.mp hbinding
      rw [ho] at hcpu
      obtain ⟨-, S⟩ := hcpu
      rw [S.id_cpu]
      simp only [submitting, ho]
    next => cases hbinding

/-- A task that finds its queue full gets its operation in. -/
theorem Fair.exists_pushed {op : Op} (F : Fair cfg σ l) (hany : cfg.generalTesting ≠ .testAny)
    (hcap : 0 < cfg.capacityCtrl.capacityMin) (hop : op ∈ binds (σ n).log)
    (hkind : op.id.kind = .p2p) : ∃ m ≥ n, op ∈ pushes (σ m).log := by
  by_contra hno
  push Not at hno
  have hf := failure_of_execution F.execution
  have S := F.served hany hcap
  have hinv (m : Nat) := Inv.of_reachable (F.execution.reachable m) (hf m)
  have hsub (m : Nat) (hm : m ≥ n) : (σ m).submitting op.id.cpu = some op :=
    submitting_of_not_pushed (hinv m).1 (hinv m).2 (mem_select_of_le F.execution hm hop) (hno m hm)
  generalize op.id.cpu = c at hsub
  have hbusy (m : Nat) (hm : m ≥ n) : (σ m).cpus c ≠ .idle := by
    intro hidle
    have := hsub m hm
    simp only [submitting, hidle] at this
    cases this
  -- nobody else pushes to the queue of the CPU
  have hconst : ∀ m ≥ n, (σ m).p2pOperations.pushed c = (σ n).p2pOperations.pushed c := by
    refine Transition.always_from rfl fun m hm h => ?_
    rcases pushed_of_step (hinv m).1 (F.execution.step m).2 (hf (m + 1)) with
      heq | ⟨c', o, object, ho, -, hlog, heq⟩
    · rw [heq, h]
    · rw [heq, Function.update_of_ne, h]
      rintro rfl
      rw [hsub m hm] at ho
      cases ho
      refine hno (m + 1) (Nat.le_succ_of_le hm) ?_
      rw [hlog, pushes, select_append]
      exact List.mem_append_right _ (List.mem_singleton_self _)
  have hc : c < cfg.queue.queues := by
    by_contra hge
    exact hbusy n (Nat.le_refl n) ((hinv n).1.outside c (Nat.le_of_not_lt hge)).1
  obtain ⟨k, hk, hpopped⟩ := S.exists_popped_all rfl hc n
  have hempty (m : Nat) (hm : m ≥ k) : (σ m).p2pOperations.length cfg.queue c = 0 := by
    have hlen := (hpopped.trans (S.grows hm).2).length_le
    have hhist := congrArg List.length ((S.inv m).history c)
    rw [hconst m (hk.trans hm), List.length_append, MultiLockFreeQueue.length_contents] at hhist
    omega
  have hrank (m : Nat) (hm : m ≥ k) := by
    have hmn := hk.trans hm
    refine cpuRank_of_step (hinv m).1 (F.execution.step m).2 (hf (m + 1)) (hbusy m hmn)
      (fun _ _ _ => hempty m hm) fun object ctx hcoll => ?_
    have hcpu := (hinv m).1.cpus c
    have ho := hsub m hmn
    rw [hcoll] at hcpu
    simp only [submitting, hcoll, Option.some.injEq] at ho
    obtain ⟨-, S⟩ := hcpu
    have hcoll := S.id_kind
    rw [ho, hkind] at hcoll
    cases hcoll
  obtain ⟨m, hm, hdis⟩ := (F.cpu c).exists_disabled (k := k) (μ := fun s => s.cpuRank c)
    (fun m hm => (hrank m hm).1) fun m hm => (hrank m hm).2
  exact hdis (cpu_enabled (hinv m).1 (hf m) (hbusy m (hk.trans hm)))

/-! ## Collective operations -/

theorem PollMove.leave_popping (M : s.PollMove cfg a t) (hp : s.poll = .popping total w)
    (hne : t.poll ≠ .popping total w) : t.poll = .coll total w 0 ∨
      ∃ os, os ≠ [] ∧ t.poll = .transfer total w 0 (.start .p2p os) := by
  cases M with
  | popping => exact absurd hp hne
  | noP2P h =>
    cases hp.symm.trans h
    exact .inl rfl
  | takeP2P h _ hos =>
    cases hp.symm.trans h
    exact .inr ⟨_, hos, rfl⟩
  | enter h | top h | full h | pop h | noColl h | takeColl h | transfer h | free h | bottom h
  | bottomEmpty h | check h | replace h | evaluate h => cases hp.symm.trans h

theorem PollMove.leave_coll (M : s.PollMove cfg a t) (hp : s.poll = .coll total w np2p)
    (hq : s.collOperations ≠ []) (hroom : w.ntotal < w.navailable) :
    ∃ os, os ≠ [] ∧ t.poll = .transfer total w np2p (.start .coll os) := by
  cases M with
  | noColl h htake =>
    cases hp.symm.trans h
    have hpos : 0 < min (w.navailable - w.ntotal) BatchSize :=
      Nat.lt_min.mpr ⟨Nat.sub_pos_of_lt hroom, by decide⟩
    rcases List.take_eq_nil_iff.mp htake with hz | hnil
    · exact absurd hz hpos.ne'
    · exact absurd hnil hq
  | takeColl h _ hos =>
    cases hp.symm.trans h
    exact ⟨_, hos, rfl⟩
  | enter h | top h | full h | pop h | popping h | noP2P h | takeP2P h | transfer h | free h
  | bottom h | bottomEmpty h | check h | replace h | evaluate h => cases hp.symm.trans h

/-- A transfer starts with an issue. -/
theorem PollMove.issues_of_start (M : s.PollMove cfg a t)
    (hp : s.poll = .transfer total w np2p (.start kind os)) (hos : os ≠ []) :
    (issues s.log).length < (issues t.log).length := by
  cases M with
  | transfer h M =>
    cases hp.symm.trans h
    cases M with
    | issueNull | issue =>
      rw [issues, issues, select_append, List.length_append]
      exact Nat.lt_add_one _
    | issued _ hle => exact absurd (List.length_eq_zero_iff.mp (Nat.le_zero.mp hle)) hos
    | test h | tested h | filter h | filtered h | collect h | complete h | processed h
    | handoff h | keep h | skip h | append h | appended h => cases h
  | free h hphase =>
    cases hp.symm.trans h
    cases hphase
  | enter h | top h | full h | pop h | popping h | noP2P h | takeP2P h | noColl h | takeColl h
  | bottom h | bottomEmpty h | check h | replace h | evaluate h => cases hp.symm.trans h

/-- What is issued while a collective operation waits is a point-to-point operation, or was pushed
before. -/
theorem length_issues_le {op : Op} (E : (system cfg).Execution σ l) (hnm : n ≤ m)
    (hop : op ∈ pushes (σ n).log) (hline : op.id.line = .coll) (hno : op.id ∉ issues (σ m).log) :
    (issues (σ m).log).length ≤
      ((pushes (σ m).log).filter (·.id.kind = .p2p)).length + (pushes (σ n).log).length := by
  obtain ⟨-, H⟩ := Inv.of_reachable (E.reachable m) (failure_of_execution E m)
  have hsub : issues (σ m).log ⊆ ((pushes (σ m).log).filter (·.id.kind = .p2p)).map Op.id ++
      (pushes (σ n).log).map Op.id := by
    intro id hid
    obtain ⟨o, ho, rfl⟩ := H.ordered.issue_pushed hid
    rw [List.mem_append]
    cases hk : o.id.kind with
    | p2p => exact .inl (List.mem_map_of_mem (List.mem_filter.mpr ⟨ho, by simp [hk]⟩))
    | coll =>
      have hpre := issues_of_waiting E hnm hop hno
      have hmem : o.id ∈ (issues (σ m).log).filter (·.line = op.id.line) :=
        List.mem_filter.mpr ⟨hid, by simp [hline, (OpId.line_eq_coll o.id).mpr hk]⟩
      exact .inr (List.mem_filter.mp (hpre.subset hmem)).1
  have hlen := (H.issues_nodup.subperm hsub).length_le
  rwa [List.length_append, List.length_map, List.length_map] at hlen

/-- Without point-to-point operations pushed for ever, a collective operation that was pushed is
passed to MPI. -/
theorem Fair.exists_issued_coll {op : Op} (F : Fair cfg σ l) (hany : cfg.generalTesting ≠ .testAny)
    (hcap : 0 < cfg.capacityCtrl.capacityMin) (hop : op ∈ pushes (σ n).log)
    (hkind : op.id.kind = .coll)
    (hb : ∀ m, ((pushes (σ m).log).filter (·.id.kind = .p2p)).length ≤ b) :
    ∃ m ≥ n, op.id ∈ issues (σ m).log := by
  by_contra hno
  push Not at hno
  have hf := failure_of_execution F.execution
  have hinv (m : Nat) := Inv.of_reachable (F.execution.reachable m) (hf m)
  have hline := (OpId.line_eq_coll op.id).mpr hkind
  have hbound (m : Nat) : (issues (σ m).log).length ≤ b + (pushes (σ n).log).length := by
    have hgrows : (issues (σ m).log).length ≤ (issues (σ (max m n)).log).length :=
      ((log_of_execution F.execution (Nat.le_max_left m n)).filterMap _).length_le
    have hm := Nat.le_max_right m n
    have hle := length_issues_le F.execution hm hop hline (hno _ hm)
    have := hb (max m n)
    omega
  obtain ⟨k, hk⟩ := exists_select_eq F.execution Event.issued? hbound
  -- nothing is issued any more, so no transfer starts
  have hstart {m : Nat} (hm : m ≥ k) {total np2p : Nat} {w : Window} {kind : OpKind} {os : List Nat}
      (hos : os ≠ []) (hp : (σ m).poll = .transfer total w np2p (.start kind os)) : False := by
    obtain ⟨j, hj, a, hp, -, M⟩ := exists_leave F.execution F.exists_poll hp rfl
    exact (M.issues_of_start hp hos).ne' (congrArg List.length (hk j (hm.trans hj)))
  -- but there is room for the operation
  obtain ⟨i, hi, total, w, hp⟩ := F.exists_admits hany hcap (max k n)
  have hroom := room_of_reachable (F.execution.reachable i) (hf i) hp
  obtain ⟨i₁, hi₁, a, hp, -, M⟩ := exists_leave F.execution F.exists_poll hp rfl
  have hp := (M.popping_of_p2p hp).1
  obtain ⟨i₂, hi₂, a, hp, hne, M⟩ := exists_leave F.execution F.exists_poll hp rfl
  rcases M.leave_popping hp hne with hp | ⟨os, hos, hp⟩
  · obtain ⟨i₃, hi₃, a, hp, -, M⟩ := exists_leave F.execution F.exists_poll hp rfl
    obtain ⟨I, H⟩ := hinv i₃
    have hbatch : (σ i₃).batch = [] := by
      have hpoll := I.poll
      rw [hp] at hpoll
      rw [batch_of_plain (by rw [hp]; rfl), hpoll.1]
      rfl
    have hn : i₃ ≥ n := by omega
    have hwait := waiting_ne_nil H hbatch (mem_select_of_le F.execution hn hop) (hno i₃ hn)
    rw [hline] at hwait
    obtain ⟨os, hos, hp⟩ := M.leave_coll hp hwait hroom
    exact hstart (by omega) hos hp
  · exact hstart (by omega) hos hp

/-! ## The results -/

theorem Fair.exists_completed {op : Op} (F : Fair cfg σ l) (hany : cfg.generalTesting ≠ .testAny)
    (hop : op ∈ binds (σ n).log) (hi : ∃ j ≥ n, op.id ∈ issues (σ j).log) :
    ∃ m ≥ n, op.id ∈ issues (σ m).log ∧ op.context ∈ notifies (σ m).log ∧
      (op.context.blocking → op.context ∈ resumes (σ m).log) := by
  obtain ⟨j, hj, hissue⟩ := hi
  obtain ⟨k, hk, hn⟩ := F.exists_notified hany (mem_select_of_le F.execution hj hop) hissue
  obtain ⟨m, hm, hn, hr⟩ := F.exists_returned hn
  exact ⟨m, hj.trans (hk.trans hm), mem_select_of_le F.execution (hk.trans hm) hissue, hn, hr⟩

end Sys
end Tampi
