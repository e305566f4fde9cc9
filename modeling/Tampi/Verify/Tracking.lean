import Tampi.Verify.Simulation

/-! # No operation is lost or duplicated

An operation is in one place at a time until its task is notified, once. -/

namespace Tampi
open Function (update)
open Transition (select)

/-- A pushed operation is in exactly one place. -/
theorem Life.Inv.count_places {L : Life} (H : L.Inv) (h : op ∈ pushes L.log) :
    ((L.queue op.id.line).map Op.id).count op.id + (L.batch.map Op.id).count op.id +
      (L.inflight.map (·.ticket.id)).count op.id + (L.completed.map Ticket.id).count op.id +
      (L.completions.map TaskContext.id).count op.id +
      ((notifies L.log).map TaskContext.id).count op.id = 1 := by
  have hone : ((pushes L.log).map Op.id).count op.id = 1 :=
    List.count_eq_one_of_mem H.submitted.pushes_nodup (List.mem_map_of_mem h)
  have horder := congrArg (List.count op.id) (H.ordered.order op.id.line)
  simp only [List.count_append, List.count_filter, decide_true] at horder
  have hissued := congrArg (Multiset.count op.id) H.tracked.issued
  have hresolved := congrArg (Multiset.count op.id) H.tracked.resolved
  simp only [Multiset.count_add, Multiset.coe_count] at hissued hresolved
  omega

namespace Sys
variable (cfg : Config) (s : Sys)

/-- The operations at the positions below `_pending` of the in-flight arrays. -/
def positions : List OpId :=
  (List.range s.manager.pending).map fun p => (s.manager.arrays.getAssociatedTicket p).id

/-- The operations in the output array of the pop in progress. -/
def popped : List OpId := (s.p2pOperations.consumer.vals.map (s.objects .p2p)).map Op.id

/-- How often an operation is in its pre-queue, at a position of the in-flight arrays, in a slot of
the completion queue and among the notified operations, all together. -/
def places (id : OpId) : Nat :=
  ((s.queue cfg id.line).map Op.id).count id + s.positions.count id +
    (s.completions.contents.map TaskContext.id).count id +
    ((notifies s.log).map TaskContext.id).count id

end Sys

/-- The operations of a run are tracked exactly once; `notified` and `own` are about the whole run,
`tracked` and `popping` about the current state. -/
structure ExactlyOnce (cfg : Config) (s : Sys) : Prop where
  /-- `completeEvents` was executed at most once, with the task and the nature of the operation. -/
  notified : ∀ op ∈ pushes s.log, (notifies s.log).filter (·.id = op.id) <+: [op.context]
  own : ∀ ctx ∈ notifies s.log, ∃ op ∈ pushes s.log, ctx = op.context
  tracked : s.failure = none → s.poll.outside → ∀ op ∈ pushes s.log, s.places cfg op.id = 1
  popping : s.failure = none → ∀ total w, s.poll = .popping total w →
    ∀ op ∈ pushes s.log, s.places cfg op.id + s.popped.count op.id = 1

theorem slots_of_active {requests : Nat → Request} {ticket : Nat → Ticket} {ps : List Nat}
    (h : ∀ p ∈ ps, requests p ≠ none) :
    (slots ps requests ticket).map (·.ticket.id) = ps.map fun p => (ticket p).id := by
  induction ps with
  | nil => rfl
  | cons p ps ih =>
    obtain ⟨r, hr⟩ := Option.ne_none_iff_exists'.mp (h p (by simp))
    rw [slots_cons_some hr, Multiset.map_cons, ih fun q hq => h q (by simp [hq])]
    rfl

section
variable {cfg : Config} {s : Sys}

/-- Outside the two loops nothing is completed and not delivered, and what was taken is in the
output array of the pop. -/
theorem Life.Inv.places (HL : (s.life cfg).Inv) (hp : s.poll.plain)
    (hact : s.manager.arrays.Active 0 s.manager.pending) (h : op ∈ pushes s.log) :
    s.places cfg op.id + s.popped.count op.id = 1 := by
  have hcount := HL.count_places h
  have hbatch : (s.life cfg).batch.map Op.id = s.popped := by
    simp only [Sys.life, Sys.batch_of_plain hp, Sys.popped]
  have hinflight : (s.life cfg).inflight.map (·.ticket.id) = s.positions := by
    simp only [Sys.life, Sys.inflight_of_plain hp]
    exact slots_of_active fun p hmem => hact p (Nat.zero_le _) (List.mem_range.mp hmem)
  have hcompleted : (s.life cfg).completed = 0 := by
    simp only [Sys.life, Sys.undelivered_of_plain hp]
    rfl
  rw [hbatch, hinflight, hcompleted, Multiset.coe_count] at hcount
  simp only [Multiset.map_zero, Multiset.count_zero, add_zero] at hcount
  rw [← hcount]
  simp only [Sys.places, Sys.life]
  omega

theorem Life.Inv.notified_at_most_once {L : Life} (H : L.Inv) (h : op ∈ pushes L.log) :
    (notifies L.log).filter (·.id = op.id) <+: [op.context] := by
  have hown (ctx : TaskContext) (hctx : ctx ∈ (notifies L.log).filter (·.id = op.id)) :
      ctx = op.context := by
    obtain ⟨hmem, hid⟩ := List.mem_filter.mp hctx
    obtain ⟨o, ho, rfl⟩ := H.owned.notifies ctx hmem
    have : o = op := List.inj_on_of_nodup_map H.submitted.pushes_nodup ho h (of_decide_eq_true hid)
    rw [this]
  have hnodup : ((notifies L.log).filter (·.id = op.id)).Nodup := H.notifies_nodup.of_map.filter _
  generalize (notifies L.log).filter (·.id = op.id) = l at hown hnodup
  match l with
  | [] => exact List.nil_prefix
  | [ctx] => rw [hown ctx (by simp)]
  | ctx :: ctx' :: rest =>
    rw [hown ctx (by simp), hown ctx' (by simp)] at hnodup
    simp at hnodup

theorem exactlyOnce (h : (system cfg).Reachable s) : ExactlyOnce cfg s := by
  obtain ⟨L, HL, hR⟩ := exists_life h
  refine ⟨?_, ?_, ?_, ?_⟩
  · intro op hop
    rw [← hR.log] at hop ⊢
    exact HL.notified_at_most_once hop
  · intro ctx hctx
    rw [← hR.log] at hctx ⊢
    exact HL.owned.notifies ctx hctx
  · intro hf hout op hop
    obtain ⟨I, rfl⟩ := hR.running hf
    have hpoll := I.poll
    have hidle : s.p2pOperations.consumer = .idle ∧ s.manager.arrays.Active 0 s.manager.pending := by
      cases hp : s.poll <;> rw [hp] at hpoll hout <;> first
        | exact ⟨hpoll.1, hpoll.2.1⟩
        | exact hpoll
        | simp [Poll.outside] at hout
    have hplain : s.poll.plain := by
      cases hp : s.poll <;> simp_all [Poll.outside, Poll.plain]
    have := HL.places hplain hidle.2 hop
    simpa [Sys.popped, hidle.1, Consumer.vals] using this
  · intro hf total w hp op hop
    obtain ⟨I, rfl⟩ := hR.running hf
    have hpoll := I.poll
    rw [hp] at hpoll
    exact HL.places (by rw [hp]; rfl) hpoll.2.1 hop

end

/-! A run of a small configuration: task 0 posts a receive and task 1 waits for a barrier. The
barrier completes when it is issued, the receive in the first check. -/

def demoConfig : Config :=
  { Config.defaults 1 (by decide) with sizes := ⟨4, 4, 4, 2, 2, by decide, by decide⟩ }

def demoRecv : Op :=
  .p2p ⟨⟨.p2p, 0, 0⟩, 0, .addr 0, 0, 1, 0, 0, 0, 0, .RECV, .NONBLK⟩

def demoBarrier : Op :=
  .coll ⟨⟨.coll, 0, 0⟩, 0, 0, 0, none, none, .one 0, .one 0, .one 0, .one 0, 0, 0, 0, .BARRIER, .BLK⟩

/-- The state after the constructors, with cleared memory. -/
def Sys.cleared (cfg : Config) : Sys :=
  .initial cfg (fun _ _ => 0) (fun _ _ => demoRecv)
    ⟨fun _ => none, fun _ => default, fun _ => ⟨0, 0⟩, fun _ => default, fun _ => 0⟩ fun _ => default

def demoRun : List Label := List.flatten [
  [.process 0 0 .NONBLK demoRecv], List.replicate 5 (.cpu 0),
  [.process 0 1 .BLK demoBarrier], List.replicate 3 (.cpu 0),
  List.replicate 12 (.poll .silent),
  [.poll (.issued (some 7)), .poll .silent, .poll (.some [])],
  List.replicate 7 (.poll .silent), [.poll (.issued none)],
  List.replicate 13 (.poll .silent), [.mpi 7 ⟨1, 2, 0⟩, .poll (.some [0])],
  List.replicate 5 (.poll .silent), List.replicate 4 .completion, [.resume 1]]

theorem cleared_reachable (cfg : Config) (ls : List Label) (hasc : ∀ l ∈ ls, l.Ascending)
    (f : Sys → α) (h : (Transition.System.run (Sys.step cfg) (.cleared cfg) ls).map f = some a) :
    ∃ s, (system cfg).Reachable s ∧ f s = a := by
  obtain ⟨s, hs, rfl⟩ := Option.map_eq_some_iff.mp h
  exact ⟨s, reachable_of_run hasc hs, rfl⟩

theorem demoRun_ascending (n : Nat) : ∀ l ∈ demoRun.take n, l.Ascending := by
  have hasc : ∀ l ∈ demoRun, l.Ascending := by decide +kernel
  exact fun l hl => hasc l (List.mem_of_mem_take hl)

theorem demo_reachable (n : Nat) (f : Sys → α)
    (h : (Transition.System.run (Sys.step demoConfig) (.cleared demoConfig) (demoRun.take n)).map f =
      some a) : ∃ s, (system demoConfig).Reachable s ∧ f s = a :=
  cleared_reachable _ _ (demoRun_ascending n) f h

theorem demoRun_exactlyOnce : ∃ s, (system demoConfig).Reachable s ∧ s.failure = none ∧
    s.poll.outside ∧ (pushes s.log).length = 2 ∧ ExactlyOnce demoConfig s := by
  obtain ⟨s, hs, hf⟩ := demo_reachable 53
    (fun s => (s.failure, s.poll.outside, (pushes s.log).length)) (a := (none, true, 2))
    (by decide +kernel)
  simp only [Prod.mk.injEq] at hf
  exact ⟨s, hs, hf.1, hf.2.1, hf.2.2, exactlyOnce hs⟩

end Tampi
