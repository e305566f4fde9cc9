import Tampi.Verify.Abstraction

/-! # What the polling task leaves alone

Most steps of the polling task touch neither the tasks nor the queues; `Sim.of_frame` reduces their
simulation to the parts they change. The hand-off of completed contexts is common to its two
loops. -/

namespace Tampi
open Function (update)

/-! ## Frames -/

namespace Sys

/-- The step changes the in-flight arrays, MPI, the statuses, the completions and the point of the
polling task only. -/
structure PollFrame (s s' : Sys) : Prop where
  allocators : s'.allocators = s.allocators
  objects : s'.objects = s.objects
  p2pOperations : s'.p2pOperations = s.p2pOperations
  collOperations : s'.collOperations = s.collOperations
  consuming : s'.consuming = s.consuming
  cpus : s'.cpus = s.cpus
  tasks : s'.tasks = s.tasks
  serial : s'.serial = s.serial
  failure : s'.failure = s.failure
  completions : s.completions.contents.length ≤ s'.completions.contents.length

variable {cfg : Config} {s s' : Sys}

theorem PollFrame.inv (F : PollFrame s s') (I : s.Inv cfg)
    (htr : ∀ k, s'.poll.transferring k = s.poll.transferring k)
    (hself : s'.manager.arrays.SelfMapped s'.manager.pending)
    (hpend : s'.manager.pending ≤ s'.manager.capacityCtrl.capacity)
    (hpoll : PollInv cfg s'.manager s.p2pOperations.consumer s'.log s'.poll) : s'.Inv cfg where
  queue := F.p2pOperations ▸ I.queue
  cpus c := by simpa only [F.objects, F.tasks, F.p2pOperations, F.cpus] using I.cpus c
  tasks t := by simpa only [F.tasks, F.cpus] using I.tasks t
  outside c h := by simpa only [F.p2pOperations, F.cpus] using I.outside c h
  objects k := by
    rw [← I.objects k]
    simp only [live, F.allocators, F.cpus, htr k]
    congr 3
    cases k with
    | p2p => simp only [queued, F.p2pOperations]
    | coll => simp only [queued, F.collOperations]
  self := hself
  pending_le := hpend
  consuming left h := (I.consuming left (F.consuming ▸ h)).trans F.completions
  poll := F.p2pOperations ▸ hpoll

theorem PollFrame.life (F : PollFrame s s') : s'.life cfg = { s.life cfg with
    batch := s'.batch
    inflight := s'.inflight
    completed := s'.undelivered cfg
    completions := s'.completions.contents
    permits := s'.permits
    mpi := s'.mpi
    memory := s'.memory
    log := s'.log } := by
  ext1 <;> try rfl
  · funext line
    have : s'.waiting cfg = s.waiting cfg := by
      funext l
      cases l with
      | p2p => simp only [waiting, F.p2pOperations]
      | coll => simp only [waiting, F.collOperations]
    simp only [Sys.life, queue, this, F.objects]
  · funext t
    simp only [Sys.life, agent, F.tasks, F.cpus, F.objects]
  · simp only [Sys.life, F.serial]

end Sys

theorem Sim.of_frame {cfg : Config} {s s' : Sys} (I : s.Inv cfg) (hf : s.failure = none)
    (F : s.PollFrame s') (htr : ∀ k, s'.poll.transferring k = s.poll.transferring k)
    (hself : s'.manager.arrays.SelfMapped s'.manager.pending)
    (hpend : s'.manager.pending ≤ s'.manager.capacityCtrl.capacity)
    (hpoll : PollInv cfg s'.manager s.p2pOperations.consumer s'.log s'.poll)
    (hsteps : (s.life cfg).Steps { s.life cfg with
      batch := s'.batch
      inflight := s'.inflight
      completed := s'.undelivered cfg
      completions := s'.completions.contents
      permits := s'.permits
      mpi := s'.mpi
      memory := s'.memory
      log := s'.log }) : Sim cfg s s' :=
  .ok (F.failure.trans hf) (F.inv I htr hself hpend hpoll) (F.life ▸ hsteps)

/-! ## Outside the two loops -/

/-- Not in `transferOperations` and not in `internalCheckRequests`. -/
def Poll.plain : Poll → Bool
  | .transfer .. | .check .. => false
  | _ => true

theorem plain_nextWindow : (nextWindow total w np2p ncoll).plain := by
  unfold nextWindow
  split <;> rfl

theorem plain_nextRound : (nextRound total inserted completed).plain := by
  unfold nextRound
  split <;> rfl

namespace Sys
variable {cfg : Config} {s : Sys}

theorem batch_of_plain (h : s.poll.plain) :
    s.batch = s.p2pOperations.consumer.vals.map (s.objects .p2p) := by
  unfold batch
  split <;> simp_all [Poll.plain]

theorem inflight_of_plain (h : s.poll.plain) : s.inflight =
    slots (List.range s.manager.pending) s.manager.arrays.requests
      s.manager.arrays.getAssociatedTicket := by
  unfold inflight
  split <;> simp_all [Poll.plain]

theorem undelivered_of_plain (h : s.poll.plain) : s.undelivered cfg = [] := by
  unfold undelivered
  split <;> simp_all [Poll.plain]

theorem transferring_of_plain {p : Poll} (h : p.plain) : p.transferring kind = 0 := by
  unfold Poll.transferring
  split <;> simp_all [Poll.plain]

end Sys

/-! ## Handing over contexts -/

namespace Life
variable {L : Life}

/-- Completed tickets are handed over one after another. -/
theorem transfer_steps (ts : List Ticket) (rest : Multiset Ticket)
    (hs : ∀ t ∈ ts, Settled L.log t) (hc : L.completed = ↑ts + rest) :
    L.Steps { L with
      completed := rest
      completions := L.completions ++ ts.map Ticket.context
      log := L.log ++ ts.map fun t => Event.transfer t.context } := by
  induction ts generalizing L with
  | nil =>
    convert Steps.refl using 1
    ext1 <;> simp [hc]
  | cons t ts ih =>
    have hsplit : L.completed = t ::ₘ (↑ts + rest) := by
      rw [hc, ← Multiset.cons_coe, Multiset.cons_add]
    refine .head (Move.transfer hsplit (hs t (by simp))) rfl ?_
    have := ih (L := { L with
        completed := (ts : Multiset Ticket) + rest
        completions := L.completions ++ [t.context] }.append (.transfer t.context))
      (fun t' ht' => (hs t' (by simp [ht'])).mono (List.subset_append_left ..)) rfl
    convert this using 1
    ext1 <;> simp [append]

end Life

/-- `transfer` hands over all contexts, or fails. -/
theorem Sys.transferContexts_cases (cfg : Config) (s : Sys) (contexts : List TaskContext) :
    (s.transferContexts cfg contexts).failure = some .contextsFull ∧
      cfg.sizes.completionQueue <
        contexts.length + s.completions.contents.length + s.completions.unreleased ∧
      (s.transferContexts cfg contexts).log = s.log ∧
      (s.transferContexts cfg contexts).memory = s.memory ∨
    s.transferContexts cfg contexts = { s with
      completions := ⟨s.completions.contents ++ contexts, s.completions.unreleased⟩
      log := s.log ++ contexts.map .transfer } := by
  unfold transferContexts
  split
  · rename_i h
    refine .inl ⟨rfl, ?_, rfl, rfl⟩
    simp only [SpscQueue.room] at h
    omega
  · rename_i h
    refine .inr ?_
    simp only [SpscQueue.push, List.take_of_length_le (Nat.le_of_not_lt h)]

/-! ## Storing a status -/

namespace Sys
variable {s : Sys} {t : Ticket} {status : Status}

/-- A status is stored or ignored: only the memory and the history change. -/
theorem storeStatus_eq (s : Sys) (ignore : Bool) (ticket : Ticket) (status : Status)
    (position : Nat) :
    ∃ memory es, (if ignore then s else s.storeStatus ticket status position) =
        { s with memory := memory, log := s.log ++ es } ∧
      ∀ e ∈ es, ∃ id location, e = .store id location status := by
  have hnone : ∃ memory es, s = { s with memory := memory, log := s.log ++ es } ∧
      ∀ e ∈ es, ∃ id location, e = Event.store id location status :=
    ⟨s.memory, [], by rw [List.append_nil], by simp⟩
  unfold storeStatus
  split
  · exact hnone
  · split
    · exact hnone
    · exact ⟨_, _, rfl, by simp⟩

/-- The state after `if (!ticket.ignoreStatus()) ticket.storeStatus(status, 0)`. -/
def stored (s : Sys) (t : Ticket) (status : Status) : Sys :=
  if t.ignoreStatus then s else s.storeStatus t status 0

theorem stored_frame (s : Sys) (t : Ticket) (status : Status) :
    s.PollFrame (s.stored t status) ∧ (s.stored t status).manager = s.manager ∧
    (s.stored t status).completions = s.completions ∧ (s.stored t status).permits = s.permits ∧
    (s.stored t status).mpi = s.mpi ∧ (s.stored t status).poll = s.poll ∧
    s.log ⊆ (s.stored t status).log := by
  obtain ⟨memory, es, h, -⟩ := storeStatus_eq s t.ignoreStatus t status 0
  rw [stored, h]
  exact ⟨⟨rfl, rfl, rfl, rfl, rfl, rfl, rfl, rfl, rfl, le_refl _⟩, rfl, rfl, rfl, rfl, rfl,
    List.subset_append_left ..⟩

theorem stored_settled (hr : .report t.id status ∈ s.log) :
    Settled (s.stored t status).log t := by
  unfold stored storeStatus Ticket.ignoreStatus
  cases h : t.firstStatus with
  | ignore => exact .inr ⟨status, by simpa using hr, fun location hl => by simp [h] at hl⟩
  | addr location =>
    refine .inr ⟨status, by simp [hr], fun l hl => ?_⟩
    rw [h] at hl
    cases hl
    simp [Ticket.id]

theorem stored_steps {L : Life} (ht : t ∈ L.completed) (hr : .report t.id status ∈ s.log)
    (hlog : L.log = s.log) (hmem : L.memory = s.memory) :
    L.Steps { L with memory := (s.stored t status).memory, log := (s.stored t status).log } := by
  unfold stored storeStatus Ticket.ignoreStatus
  cases h : t.firstStatus with
  | ignore =>
    convert Life.Steps.refl using 1
    ext1 <;> simp [hlog, hmem]
  | addr location =>
    refine .single (a := .store t location status) ?_ rfl
    convert Life.Move.store ht (hlog ▸ hr) h using 1
    ext1 <;> simp [Life.append, hlog, hmem, Ticket.id]

end Sys

end Tampi
