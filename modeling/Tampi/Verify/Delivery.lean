import Tampi.Verify.Approaches
import Tampi.Verify.Stages

/-! # What passes between the polling task, the completion task and MPI

The contexts handed over to the completion task are notified in the order of the hand-over, and the
queue holds the ones that are not notified yet (`Delivery`). The active requests of MPI are exactly
those of the slots in flight. -/

namespace Tampi
open Function (update)
open Transition (select)

@[simp] def Event.transferred? : Event → Option TaskContext
  | .transfer ctx => some ctx
  | _ => none

/-- The contexts handed over to the completion task, in order. -/
abbrev transfers (log : List Event) : List TaskContext := select Event.transferred? log

theorem select_of_delivered {es : List Event} (h : es.filterMap Event.delivered = []) :
    transfers es = [] ∧ notifies es = [] := by
  have hnone := List.filterMap_eq_nil_iff.mp h
  constructor
  · refine List.filterMap_eq_nil_iff.mpr fun e he => ?_
    have := hnone e he
    cases e with
    | transfer => cases this
    | _ => rfl
  · refine List.filterMap_eq_nil_iff.mpr fun e he => ?_
    have := hnone e he
    cases e with
    | notify => cases this
    | _ => rfl

theorem transfers_map (ctxs : List TaskContext) : transfers (ctxs.map .transfer) = ctxs ∧
    notifies (ctxs.map .transfer) = [] := by
  constructor
  · simp [transfers, select, Function.comp_def]
  · simp [notifies, select, Function.comp_def]

namespace Sys
variable {cfg : Config} {s t : Sys}

/-- With the completion task the contexts handed over are the notified ones and those of the queue, in
order; without it none are. -/
def Delivery (cfg : Config) (s : Sys) : Prop :=
  if cfg.completionEnabled then transfers s.log = notifies s.log ++ s.completions.contents
  else transfers s.log = [] ∧ s.completions.contents = []

theorem Delivery.append (D : s.Delivery cfg) (hlog : t.log = s.log ++ es)
    (hes : es.filterMap Event.delivered = [])
    (hc : t.completions.contents = s.completions.contents) : t.Delivery cfg := by
  obtain ⟨htransfers, hnotifies⟩ := select_of_delivered hes
  unfold Delivery at D ⊢
  simpa only [hlog, hc, Transition.select_append, htransfers, hnotifies, List.append_nil] using D

theorem Delivery.complete (D : s.Delivery cfg) (h : cfg.completionEnabled = false) :
    (s.complete ctx).Delivery cfg := by
  unfold Delivery at D ⊢
  rw [h] at D ⊢
  simpa [Sys.complete] using D

/-- The hand-over of the contexts of a batch. -/
theorem Delivery.handoff (D : s.Delivery cfg) (h : cfg.completionEnabled)
    (hlog : t.log = s.log ++ ctxs.map .transfer)
    (hc : t.completions.contents = s.completions.contents ++ ctxs) : t.Delivery cfg := by
  obtain ⟨htransfers, hnotifies⟩ := transfers_map ctxs
  unfold Delivery at D ⊢
  rw [if_pos h] at D ⊢
  simp only [hlog, hc, Transition.select_append, htransfers, hnotifies, D, List.append_nil,
    List.append_assoc]

theorem Delivery.transfer {x x' : Transfer} (D : s.Delivery cfg)
    (M : s.TransferMove cfg x a t x') : t.Delivery cfg := by
  cases M with
  | issueNull | issue => exact D.append rfl rfl rfl
  | test _ T | tested _ T =>
    obtain ⟨es, n, hlog, hes⟩ := Check.testMove_log T
    exact D.append hlog hes.delivered rfl
  | filter =>
    obtain ⟨es, hlog, hes⟩ := Transfer.stored_log s _ _
    exact D.append hlog hes.delivered (congrArg SpscQueue.contents (stored_frame ..).2.2.1)
  | complete _ _ he => exact D.complete he
  | handoff _ he => exact D.handoff he rfl rfl
  | issued | filtered | collect | processed | keep | skip | append | appended => exact D

theorem Delivery.check {k k' : Check} (D : s.Delivery cfg) (M : s.CheckMove cfg k a t k') :
    t.Delivery cfg := by
  cases M with
  | test _ T | tested _ T =>
    obtain ⟨es, n, hlog, hes⟩ := Check.testMove_log T
    exact D.append hlog hes.delivered rfl
  | store =>
    obtain ⟨memory, es, h, hes⟩ := checkStored_eq s _ _
    rw [h]
    exact D.append rfl (Reports.of_stores hes).delivered rfl
  | complete _ he => exact D.complete he
  | handoff _ he => exact D.handoff he rfl rfl
  | stored | collect | keep => exact D

theorem Delivery.other (D : s.Delivery cfg) (M : s.AgentMove cfg l t) (hf : t.failure = none) :
    t.Delivery cfg := by
  cases M with
  | noObjects | queueFull | collFull => cases hf
  | @complete left ctx rest hc hcontents =>
    unfold Delivery at D ⊢
    simp only [hcontents] at D
    split at D
    next h => simpa [Sys.complete, h] using D
    next => cases D.2
  | process | pushed | pushColl | block | resume => exact D.append rfl rfl rfl
  | alloc | startPush | push | retryPush | retryColl | consume | consumed | mpi => exact D

theorem Delivery.move (D : s.Delivery cfg) (M : s.PollMove cfg a t) : t.Delivery cfg := by
  cases M with
  | transfer _ M =>
    have D' := D.transfer M
    exact D'
  | check _ M =>
    have D' := D.check M
    exact D'
  | _ => exact D

theorem delivery_of_reachable (h : (system cfg).Reachable s) (hf : s.failure = none) :
    s.Delivery cfg := by
  refine h.rec_inv (I := fun s : Sys => s.failure = none → s.Delivery cfg) ?_ ?_ hf
  · rintro s ⟨data, objects, arrays, memory, rfl⟩ -
    unfold Delivery
    split
    · rfl
    · exact ⟨rfl, rfl⟩
  · intro s l t _ hstep ih hf
    have D := ih (failure_of_step hstep.2)
    by_cases hl : l.isPoll
    · cases l with
      | process | cpu | resume | completion | mpi => cases hl
      | poll a => exact D.move (pollMove_of_step hstep.2 hf)
    · exact D.other (agentMove_of_step hstep.2 (Bool.eq_false_of_not_eq_true hl)) hf

/-- The operations handed over are issued ones, each at most once. -/
theorem Delivery.le_issues (D : s.Delivery cfg) (HL : (s.life cfg).Inv) :
    ((transfers s.log).map TaskContext.id : Multiset OpId) ≤ (issues s.log : Multiset OpId) := by
  have hissued := HL.tracked.issued
  have hresolved := HL.tracked.resolved
  simp only [life] at hissued hresolved
  unfold Delivery at D
  split at D
  · rw [hissued, add_assoc, hresolved, D, List.map_append, ← Multiset.coe_add,
      add_assoc (Multiset.map _ _), add_comm (_ : Multiset OpId) (Multiset.ofList _)]
    exact (Multiset.le_add_left _ _).trans (Multiset.le_add_left _ _)
  · rw [D.1]
    exact Multiset.zero_le _

end Sys
end Tampi
