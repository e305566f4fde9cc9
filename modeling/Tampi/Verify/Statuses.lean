import Tampi.Verify.Tracking

/-! # Statuses

A status that is stored is the one MPI reported for the operation itself, and it is stored before
the operation is delivered; an operation whose request was null gets none. -/

namespace Tampi
open Function (update)
open Life (Guard)
open Transition (Guarded select mem_of_mem_before mem_select_of_mem eq_of_select_nodup)

/-! ## The memory of the callers -/

/-- The memory is what the stores of the history have made of it. -/
theorem Life.memory_move {L L' : Life} {memory : Nat → Status} (h : Move L a L')
    (hm : L.memory = L.log.foldl Event.write memory) :
    L'.memory = L'.log.foldl Event.write memory := by
  cases h <;> simp [append, setAgent, notified, Event.write, hm]

/-- A location all stores to which wrote the same status. -/
theorem foldl_write_eq {log : List Event} {memory : Nat → Status} {location : Nat} {status : Status}
    (hall : ∀ id st, .store id location st ∈ log → st = status)
    (hex : ∃ id, .store id location status ∈ log) :
    log.foldl Event.write memory location = status := by
  induction log using List.reverseRecOn with
  | nil => simp at hex
  | append_singleton log e ih =>
    rw [List.foldl_append, List.foldl_cons, List.foldl_nil]
    by_cases he : ∃ id st, e = .store id location st
    · obtain ⟨id, st, rfl⟩ := he
      simp [Event.write, hall id st (by simp)]
    · obtain ⟨id, hid⟩ := hex
      have hlog : .store id location status ∈ log := by
        rcases List.mem_append.mp hid with h | h
        · exact h
        · exact absurd ⟨id, status, (List.mem_singleton.mp h).symm⟩ he
      rw [← ih (fun id st h => hall id st (by simp [h])) ⟨id, hlog⟩]
      cases e with
      | store id' location' st =>
        refine Function.update_of_ne ?_ ..
        rintro rfl
        exact he ⟨id', st, rfl⟩
      | _ => rfl

/-! ## Reports and null requests -/

namespace Life.Inv
variable {L : Life} {op : Op} {id : OpId} {before after : List Event} {e : Event}

theorem resolved_nodup (H : L.Inv) : (nulls L.log ++ reports L.log).Nodup := by
  refine Multiset.coe_nodup.mp (Multiset.nodup_of_le ?_ (Multiset.coe_nodup.mpr H.issues_nodup))
  rw [H.tracked.issued, ← Multiset.coe_add, add_assoc]
  exact Multiset.le_add_left ..

theorem reports_nodup (H : L.Inv) : (reports L.log).Nodup :=
  (List.nodup_append.mp H.resolved_nodup).2.1

theorem report_unique (H : L.Inv) (h : .report id status ∈ L.log)
    (h' : .report id status' ∈ L.log) : status = status' := by
  have := eq_of_select_nodup H.reports_nodup h h' rfl rfl
  cases this
  rfl

/-- A null request is never reported. -/
theorem not_null_of_report (H : L.Inv) (h : .report id status ∈ L.log) :
    .issue id call none ∉ L.log := fun hnull =>
  (List.nodup_append.mp H.resolved_nodup).2.2 id (mem_select_of_mem hnull rfl) id
    (mem_select_of_mem h rfl) rfl

/-- The events that deliver an operation. -/
theorem settled_of_delivered (H : L.Inv) (hop : .push op ∈ L.log)
    (heq : L.log = before ++ e :: after)
    (he : e = .notify op.context ∨ e = .transfer op.context) : Settled before (.ofOp op) := by
  have hguard : ∃ o, .push o ∈ before ∧ op.context = o.context ∧ Settled before (.ofOp o) := by
    have := H.guarded before e after heq
    rcases he with rfl | rfl <;> exact this
  obtain ⟨o, ho, hctx, hs⟩ := hguard
  have : o = op := List.inj_on_of_nodup_map H.submitted.pushes_nodup
    (mem_pushes.mpr (mem_of_mem_before heq ho)) (mem_pushes.mpr hop)
    (congrArg TaskContext.id hctx.symm)
  exact this ▸ hs

end Life.Inv

/-! ## Routing -/

/-- The statuses of a run that started with the memory `initial`. -/
structure StatusesRouted (initial : Nat → Status) (log : List Event) (memory : Nat → Status) :
    Prop where
  memory : memory = log.foldl Event.write initial
  /-- The request of an operation is reported once. -/
  once : (reports log).Nodup
  /-- A store writes the location of an operation, with what MPI reported for that operation. -/
  own : ∀ before id location status after, log = before ++ .store id location status :: after →
    .report id status ∈ before ∧ ∃ op, .push op ∈ before ∧ op.id = id ∧ op.status = .addr location
  /-- An operation that completed through a test call is delivered after the store of its status. -/
  delivered : ∀ op location status before e after, .push op ∈ log → op.status = .addr location →
    .report op.id status ∈ log → log = before ++ e :: after →
    (e = .notify op.context ∨ e = .transfer op.context) → .store op.id location status ∈ before
  /-- At that moment its location holds the status, if it is not the location of another one. -/
  kept : ∀ op location status before e after, .push op ∈ log → op.status = .addr location →
    (∀ o, .push o ∈ log → o.status = .addr location → o = op) →
    .report op.id status ∈ log → log = before ++ e :: after →
    (e = .notify op.context ∨ e = .transfer op.context) →
    before.foldl Event.write initial location = status

namespace Life.Inv
variable {L : Life} {op : Op} {before after : List Event} {e : Event} {location : Nat}

theorem stored_before_delivery (H : L.Inv) (hop : .push op ∈ L.log)
    (hst : op.status = .addr location)
    (hr : .report op.id status ∈ L.log) (heq : L.log = before ++ e :: after)
    (he : e = .notify op.context ∨ e = .transfer op.context) :
    .store op.id location status ∈ before := by
  rcases H.settled_of_delivered hop heq he with ⟨call, hnull⟩ | ⟨status', hr', hs⟩
  · exact absurd (mem_of_mem_before heq hnull) (H.not_null_of_report hr)
  · rw [H.report_unique hr (mem_of_mem_before heq hr')]
    exact hs location hst

theorem statusesRouted {memory : Nat → Status} (H : L.Inv)
    (hm : L.memory = L.log.foldl Event.write memory) :
    StatusesRouted memory L.log L.memory where
  memory := hm
  once := H.reports_nodup
  own before id location status after heq := H.guarded before _ after heq
  delivered op location status before e after hop hst hr heq he :=
    H.stored_before_delivery hop hst hr heq he
  kept op location status before e after hop hst hother hr heq he := by
    refine foldl_write_eq (fun id st hstore => ?_)
      ⟨op.id, H.stored_before_delivery hop hst hr heq he⟩
    obtain ⟨before', after', hlog, hr', o, ho, rfl, host⟩ :=
      H.guarded.of_mem (mem_of_mem_before heq hstore)
    rw [hother o (mem_of_mem_before hlog ho) host] at hr'
    exact H.report_unique (mem_of_mem_before hlog hr') hr

end Life.Inv

theorem reaches_statusesRouted {cfg : Config} {s₀ s : Sys} {ls : List Label}
    (h₀ : (system cfg).init s₀) (h : (system cfg).Reaches s₀ ls s) :
    StatusesRouted s₀.memory s.log s.memory := by
  obtain ⟨L₀, hL₀, hR₀⟩ := (simulation cfg).init s₀ h₀
  obtain ⟨ks, L, hks, -, hR⟩ := (simulation cfg).reaches (.of_init hL₀) hR₀ h
  have hm : L.memory = L.log.foldl Event.write s₀.memory := by
    refine hks.inv (P := fun K => K.memory = K.log.foldl Event.write s₀.memory) ?_
      fun _ _ _ _ hmove => Life.memory_move hmove
    obtain ⟨memory, rfl⟩ := hL₀
    exact hR₀.memory
  have HL : L.Inv := .of_reachable ((Transition.System.Reachable.of_init hL₀).reaches hks)
  have := HL.statusesRouted hm
  rwa [hR.log, hR.memory] at this

theorem demoRun_statusesRouted : ∃ s, (system demoConfig).Reaches (.cleared demoConfig)
    (demoRun.take 52) s ∧ .store ⟨.p2p, 0, 0⟩ 0 ⟨1, 2, 0⟩ ∈ s.log ∧
    StatusesRouted (fun _ => default) s.log s.memory := by
  have hrun : (Transition.System.run (Sys.step demoConfig) (.cleared demoConfig)
      (demoRun.take 52)).map (fun s => decide (.store ⟨.p2p, 0, 0⟩ 0 ⟨1, 2, 0⟩ ∈ s.log)) =
      some true := by decide +kernel
  obtain ⟨s, hs, hstore⟩ := Option.map_eq_some_iff.mp hrun
  have hreaches : (system demoConfig).Reaches (.cleared demoConfig) (demoRun.take 52) s :=
    .of_run (fun l hl _ _ h => ⟨demoRun_ascending 52 l hl, h⟩) hs
  exact ⟨s, hreaches, of_decide_eq_true hstore,
    reaches_statusesRouted ⟨_, _, _, _, rfl⟩ hreaches⟩

/-! ## Delivery with and without a status -/

/-- Whenever the operation is delivered, a status was stored to its location before. -/
def StatusDelivered (log : List Event) (op : Op) (location : Nat) : Prop :=
  ∀ before e after, log = before ++ e :: after →
    (e = .notify op.context ∨ e = .transfer op.context) →
    ∃ status, .store op.id location status ∈ before

/-- A receive whose immediate call returns `MPI_REQUEST_NULL`, up to the hand-off of its context. -/
def nullRun : List Label := List.flatten [
  [.process 0 0 .NONBLK demoRecv], List.replicate 5 (.cpu 0),
  List.replicate 12 (.poll .silent), [.poll (.issued none)], List.replicate 5 (.poll .silent)]

end Tampi
