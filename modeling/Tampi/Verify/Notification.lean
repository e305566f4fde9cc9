import Tampi.Verify.Tracking

/-! # What the tasking runtime sees

The external events of a task count its non-blocking operations that are bound and not notified,
a task is unblocked once for each operation it blocks for, and once all operations are notified MPI
is left alone. -/

namespace Tampi
open Function (update)
open Transition (Guarded select select_append_singleton)
open scoped List

/-! ## ALPI calls -/

namespace AlpiCall

def increased (task : Handle) : AlpiCall → Nat
  | .increase t units => if t = task then units else 0
  | _ => 0

def decreased (task : Handle) : AlpiCall → Nat
  | .decrease t units => if t = task then units else 0
  | _ => 0

def blocks (task : Handle) : AlpiCall → Nat
  | .block t => if t = task then 1 else 0
  | _ => 0

def unblocks (task : Handle) : AlpiCall → Nat
  | .unblock t => if t = task then 1 else 0
  | _ => 0

end AlpiCall

/-- Add up a measure of the ALPI calls of a run. -/
def alpiTotal (f : AlpiCall → Nat) (log : List Event) : Nat :=
  ((log.flatMap Event.alpiCalls).map f).sum

theorem alpiTotal_append_singleton (f : AlpiCall → Nat) (log : List Event) (e : Event) :
    alpiTotal f (log ++ [e]) = alpiTotal f log + (e.alpiCalls.map f).sum := by
  simp [alpiTotal]

/-- A non-blocking operation of the task. -/
def countsFor (task : Handle) (ctx : TaskContext) : Bool := !ctx.blocking && ctx.task == task

/-- An event adds `f` of the context it is about. -/
theorem alpiTotal_eq {f : AlpiCall → Nat} {g : Event → Option TaskContext} {p : TaskContext → Bool}
    (h : ∀ e, (e.alpiCalls.map f).sum = ((g e).toList.filter p).length) (log : List Event) :
    alpiTotal f log = ((select g log).filter p).length := by
  induction log using List.reverseRecOn with
  | nil => rfl
  | append_singleton log e ih =>
    rw [alpiTotal_append_singleton, ih, h e]
    simp

section
variable (task : Handle) (log : List Event)

theorem alpiTotal_decreased : alpiTotal (AlpiCall.decreased task) log =
    ((notifies log).filter (countsFor task)).length := by
  refine alpiTotal_eq (fun e => ?_) log
  cases e with
  | notify ctx =>
    by_cases hb : ctx.blocking <;> by_cases ht : ctx.task = task <;>
      simp [Event.alpiCalls, TaskContext.completeEvents, AlpiCall.decreased, countsFor, hb, ht]
  | bind op =>
    by_cases hb : op.context.blocking <;>
      simp [Event.alpiCalls, TaskContext.bindEvents, AlpiCall.decreased, hb]
  | _ => simp [Event.alpiCalls, TaskContext.waitEventsCompletion, AlpiCall.decreased]

theorem alpiTotal_unblocks : alpiTotal (AlpiCall.unblocks task) log =
    ((notifies log).filter (Life.waitsFor task)).length := by
  refine alpiTotal_eq (fun e => ?_) log
  cases e with
  | notify ctx =>
    by_cases hb : ctx.blocking <;> by_cases ht : ctx.task = task <;>
      simp [Event.alpiCalls, TaskContext.completeEvents, AlpiCall.unblocks, Life.waitsFor, hb, ht]
  | bind op =>
    by_cases hb : op.context.blocking <;>
      simp [Event.alpiCalls, TaskContext.bindEvents, AlpiCall.unblocks, hb]
  | _ => simp [Event.alpiCalls, TaskContext.waitEventsCompletion, AlpiCall.unblocks]

theorem alpiTotal_blocks : alpiTotal (AlpiCall.blocks task) log =
    ((blocks log).filter (·.task = task)).length := by
  refine alpiTotal_eq (fun e => ?_) log
  cases e with
  | block ctx =>
    by_cases ht : ctx.task = task <;>
      simp [Event.alpiCalls, TaskContext.waitEventsCompletion, AlpiCall.blocks, ht]
  | bind op =>
    by_cases hb : op.context.blocking <;>
      simp [Event.alpiCalls, TaskContext.bindEvents, AlpiCall.blocks, hb]
  | notify ctx =>
    by_cases hb : ctx.blocking <;>
      simp [Event.alpiCalls, TaskContext.completeEvents, AlpiCall.blocks, hb]
  | _ => simp [Event.alpiCalls]

theorem alpiTotal_increased : alpiTotal (AlpiCall.increased task) log =
    (((binds log).map Op.context).filter (countsFor task)).length := by
  have hmap : (binds log).map Op.context = select (fun e => e.bound?.map Op.context) log :=
    List.map_filterMap
  rw [hmap]
  refine alpiTotal_eq (fun e => ?_) log
  cases e with
  | bind op =>
    by_cases hb : op.context.blocking <;> by_cases ht : op.task = task <;>
      simp [Event.alpiCalls, TaskContext.bindEvents, AlpiCall.increased, countsFor, hb, ht]
  | notify ctx =>
    by_cases hb : ctx.blocking <;>
      simp [Event.alpiCalls, TaskContext.completeEvents, AlpiCall.increased, hb]
  | _ => simp [Event.alpiCalls, TaskContext.waitEventsCompletion, AlpiCall.increased]

end

/-! ## Accounting -/

/-- The non-blocking operations of a task that are bound and not yet notified. -/
def outstanding (task : Handle) (log : List Event) : List Op :=
  (binds log).filter fun op => countsFor task op.context ∧ op.context ∉ notifies log

/-- The ALPI calls of a run on behalf of one task. -/
structure Accounted (task : Handle) (log : List Event) : Prop where
  decreased_le : alpiTotal (AlpiCall.decreased task) log ≤ alpiTotal (AlpiCall.increased task) log
  events : alpiTotal (AlpiCall.increased task) log - alpiTotal (AlpiCall.decreased task) log =
    (outstanding task log).length
  unblocks_le : alpiTotal (AlpiCall.unblocks task) log ≤ alpiTotal (AlpiCall.blocks task) log + 1
  /-- The task blocks for its blocking operations, one call for each, in the order of the pushes. -/
  blocks_order : (blocks log).filter (·.task = task) <+:
    ((pushes log).map Op.context).filter (Life.waitsFor task)
  /-- The calls that have returned are the first ones. -/
  returned_order : (resumes log).filter (·.task = task) <+: (blocks log).filter (·.task = task)
  returned_nodup : ((resumes log).filter (·.task = task)).Nodup
  /-- The call returned after the one unblock that was issued for its operation. -/
  matched : ∀ before ctx after, log = before ++ .resume ctx :: after → ctx.task = task →
    .block ctx ∈ before ∧ .notify ctx ∈ before ∧ (notifies log).count ctx = 1 ∧
    ∃ op, .push op ∈ before ∧ op.context = ctx ∧ op.nature = .BLK

theorem Op.context_blocking (op : Op) : op.context.blocking ↔ op.nature = .BLK := by
  simp [Op.context]

namespace Life.Inv
variable {L : Life}

theorem notified_bound (H : L.Inv) (h : ctx ∈ notifies L.log) :
    ctx ∈ (binds L.log).map Op.context := by
  obtain ⟨op, hop, rfl⟩ := H.owned.notifies ctx h
  exact List.mem_map_of_mem (H.submitted.push_bind op hop)

theorem nodup_context {l : List Op} (h : (l.map Op.id).Nodup) : (l.map Op.context).Nodup := by
  refine List.Nodup.of_map TaskContext.id ?_
  rwa [List.map_map]

/-- The bound operations of a kind are the notified ones and the others. -/
theorem length_filter_binds (H : L.Inv) (p : TaskContext → Bool) :
    (((binds L.log).map Op.context).filter p).length = ((notifies L.log).filter p).length +
      ((binds L.log).filter fun op => p op.context ∧ op.context ∉ notifies L.log).length := by
  have hnodup := nodup_context H.submitted.binds_nodup
  have hperm : (((binds L.log).map Op.context).filter p).filter (· ∈ notifies L.log) ~
      (notifies L.log).filter p := by
    refine (List.perm_ext_iff_of_nodup ((hnodup.filter _).filter _)
      (H.notifies_nodup.of_map.filter _)).mpr fun ctx => ?_
    simp only [List.mem_filter, decide_eq_true_eq]
    exact ⟨fun h => ⟨h.2, h.1.2⟩, fun h => ⟨⟨H.notified_bound h.1, h.2⟩, h.1⟩⟩
  have hrest : (((binds L.log).map Op.context).filter p).filter (· ∉ notifies L.log) =
      ((binds L.log).filter fun op => p op.context ∧ op.context ∉ notifies L.log).map Op.context := by
    rw [List.filter_filter, List.filter_map]
    congr 1
    refine List.filter_congr fun op _ => ?_
    simp [Bool.and_comm]
  have hsplit := List.length_eq_length_filter_add (l := ((binds L.log).map Op.context).filter p)
    (fun ctx => decide (ctx ∈ notifies L.log))
  rw [hperm.length_eq] at hsplit
  rw [hsplit, ← List.length_map (f := Op.context), ← hrest]
  simp

/-- The notified blocking operations of a task are among those it has pushed. -/
theorem length_notified_le (H : L.Inv) (task : Handle) :
    ((notifies L.log).filter (waitsFor task)).length ≤
      (((pushes L.log).map Op.context).filter (waitsFor task)).length := by
  refine ((H.notifies_nodup.of_map.filter _).subperm fun ctx h => ?_).length_le
  obtain ⟨hmem, hw⟩ := List.mem_filter.mp h
  obtain ⟨op, hop, rfl⟩ := H.owned.notifies ctx hmem
  exact List.mem_filter.mpr ⟨List.mem_map_of_mem hop, hw⟩

theorem asleep_le (a : Agent) : a.asleep <+: a.waiting := by
  cases a with
  | ready | bound => exact List.nil_prefix
  | pushed ctx => exact List.nil_prefix
  | blocked ctx => exact List.prefix_rfl

theorem accounted (H : L.Inv) (task : Handle) : Accounted task L.log := by
  have hevents := H.length_filter_binds (countsFor task)
  rw [← alpiTotal_increased, ← alpiTotal_decreased] at hevents
  have hw := H.waits.waiting task
  have ha := H.waits.asleep task
  have hpushed : ((pushes L.log).map Op.context).Nodup := nodup_context H.submitted.pushes_nodup
  have hreturned : (resumes L.log).filter (·.task = task) <+:
      ((pushes L.log).map Op.context).filter (waitsFor task) := by
    rw [hw]
    exact List.prefix_append ..
  refine {
    decreased_le := by omega
    events := by rw [outstanding]; omega
    unblocks_le := ?_
    blocks_order := ?_
    returned_order := by rw [ha]; exact List.prefix_append ..
    returned_nodup := hreturned.sublist.nodup (hpushed.filter _)
    matched := ?_ }
  · rw [alpiTotal_unblocks, alpiTotal_blocks, ha]
    refine (H.length_notified_le task).trans ?_
    rw [hw]
    cases L.agents task <;> simp [Agent.waiting, Agent.asleep]
  · rw [hw, ha]
    exact List.prefix_append_right_inj _ |>.mpr (asleep_le _)
  · intro before ctx after heq ht
    obtain ⟨hn, hb⟩ := H.guarded before _ after heq
    have G : Guarded Guard before := (heq ▸ H.guarded).of_append
    have hctx : ctx ∈ (resumes L.log).filter (·.task = task) := by
      rw [heq]
      simp [select, ht]
    have hblocking : ctx.blocking := by
      have := (List.mem_filter.mp (hreturned.subset hctx)).2
      simp only [waitsFor, Bool.and_eq_true] at this
      exact this.1
    obtain ⟨before', after', rfl, op, hop, hcop, -⟩ := G.of_mem (mem_notifies.mp hn)
    refine ⟨?_, mem_notifies.mp hn, ?_, op, List.mem_append_left _ hop, hcop.symm, ?_⟩
    · obtain ⟨e, he, h⟩ := Transition.mem_select.mp hb
      cases e with
      | block c =>
        obtain rfl : c = ctx := by simpa using h
        exact he
      | _ => simp at h
    · refine List.count_eq_one_of_mem H.notifies_nodup.of_map ?_
      rw [mem_notifies, heq]
      exact List.mem_append_left _ (mem_notifies.mp hn)
    · exact op.context_blocking.mp (hcop ▸ hblocking)

end Life.Inv

theorem reachable_accounted {cfg : Config} {s : Sys} (h : (system cfg).Reachable s)
    (task : Handle) : Accounted task s.log := by
  obtain ⟨L, HL, hR⟩ := exists_life h
  exact hR.log ▸ HL.accounted task

theorem demoRun_accounted : ∃ s, (system demoConfig).Reachable s ∧
    alpiTotal (AlpiCall.increased 0) s.log = 1 ∧ (resumes s.log).length = 1 ∧
    Accounted 0 s.log ∧ Accounted 1 s.log := by
  obtain ⟨s, hs, hf⟩ := demo_reachable 58
    (fun s => (alpiTotal (AlpiCall.increased 0) s.log, (resumes s.log).length)) (a := (1, 1))
    (by decide +kernel)
  obtain ⟨hi, hr⟩ := Prod.mk.inj hf
  exact ⟨s, hs, hi, hr, reachable_accounted hs 0, reachable_accounted hs 1⟩

/-! ## After the last notification -/

/-- The events that are MPI calls of the polling task. -/
def Event.mpiCall : Event → Bool
  | .issue .. | .test => true
  | _ => false

/-- Every operation that was submitted has been notified. -/
def AllNotified (log : List Event) : Prop := ∀ op ∈ binds log, op.context ∈ notifies log

instance (log : List Event) : Decidable (AllNotified log) :=
  inferInstanceAs (Decidable (∀ op ∈ binds log, op.context ∈ notifies log))

namespace Life
variable {L L' : Life}

/-- Then no operation is left to be issued or tested. -/
theorem Inv.quiet (H : L.Inv) (h : AllNotified L.log) : L.batch = [] ∧ L.inflight = 0 := by
  have hone (op : Op) (hop : op ∈ pushes L.log) :
      0 < ((notifies L.log).map TaskContext.id).count op.id :=
    List.count_pos_iff.mpr (List.mem_map_of_mem (h op (H.submitted.push_bind op hop)))
  refine ⟨List.eq_nil_iff_forall_not_mem.mpr fun op hop => ?_,
    Multiset.eq_zero_iff_forall_notMem.mpr fun slot hs => ?_⟩
  · have hp := H.ordered.taken op hop
    have h₁ := H.count_places hp
    have h₂ := hone op hp
    have h₃ : 0 < (L.batch.map Op.id).count op.id :=
      List.count_pos_iff.mpr (List.mem_map_of_mem hop)
    omega
  · obtain ⟨op, hp, ht⟩ := H.owned.slots slot hs
    have h₁ := H.count_places hp
    have h₂ := hone op hp
    have h₃ : 0 < (L.inflight.map (·.ticket.id)).count op.id := by
      refine Multiset.count_pos.mpr (Multiset.mem_map.mpr ⟨slot, hs, ?_⟩)
      rw [ht, Ticket.ofOp_id]
    omega

theorem Inv.quiet_move (H : L.Inv) (h : AllNotified L.log) (hm : Move L a L')
    (ha : a.isBind = false) :
    AllNotified L'.log ∧ L'.log.filter Event.mpiCall = L.log.filter Event.mpiCall := by
  obtain ⟨hbatch, hinflight⟩ := H.quiet h
  cases hm
  case bind => cases ha
  case issueNull hi hb => simp [hbatch] at hb
  case issue hi hb _ => simp [hbatch] at hb
  case test hne => exact absurd hinflight hne
  case notify =>
    refine ⟨fun op hop => ?_, by simp [notified, Event.mpiCall]⟩
    simp only [notified, select_append_singleton] at hop ⊢
    exact List.mem_append_left _ (h op (by simpa using hop))
  case consume =>
    refine ⟨fun op hop => ?_, by simp [notified, Event.mpiCall]⟩
    simp only [notified, select_append_singleton] at hop ⊢
    exact List.mem_append_left _ (h op (by simpa using hop))
  all_goals
    refine ⟨fun op hop => ?_, by simp [append, setAgent, Event.mpiCall]⟩
    simpa [append, setAgent] using h op (by simpa [append, setAgent] using hop)

end Life

/-- Once every submitted operation is notified, and none is submitted any more, the polling task
makes no MPI call. -/
theorem no_mpiCall_after_last {cfg : Config} {s s' : Sys} {ls : List Label}
    (h : (system cfg).Reachable s) (hall : AllNotified s.log) (hr : (system cfg).Reaches s ls s')
    (hls : ∀ l ∈ ls, l.submits = false) :
    s'.log.filter Event.mpiCall = s.log.filter Event.mpiCall := by
  obtain ⟨L, hL, hR⟩ := (simulation cfg).reachable h
  obtain ⟨ks, L', hks, hbind, hR'⟩ := (simulation cfg).reaches hL hR hr
  have hnone (k : Life.Act) (hk : k ∈ ks) : k.isBind = false := by
    obtain ⟨l, hl, hallows⟩ := hbind k hk
    by_contra hb
    simp [hls l hl] at hallows
    simp [hallows] at hb
  have hinv := hks.inv (P := fun K => K.Inv ∧ AllNotified K.log ∧
      K.log.filter Event.mpiCall = L.log.filter Event.mpiCall)
    ⟨.of_reachable hL, hR.log ▸ hall, rfl⟩ (by
      rintro K k K' hk hm ⟨HK, hK, heq⟩
      obtain ⟨hK', heq'⟩ := HK.quiet_move hK hm (hnone k hk)
      exact ⟨HK.move hm, hK', heq'.trans heq⟩)
  rw [← hR.log, ← hR'.log]
  exact hinv.2.2

/-- The last notification of the run falls in the middle of a polling call; the run goes on to the
next pop of that call. -/
theorem demoRun_no_mpiCall : ∃ s s', (system demoConfig).Reachable s ∧ AllNotified s.log ∧
    (s.log.filter Event.mpiCall).length = 4 ∧
    (system demoConfig).Reaches s (List.replicate 7 (.poll .silent)) s' ∧
    s'.log.filter Event.mpiCall = s.log.filter Event.mpiCall := by
  have hrun : ((Transition.System.run (Sys.step demoConfig) (.cleared demoConfig)
      (demoRun.take 56)).bind fun s => (Transition.System.run (Sys.step demoConfig) s
        (List.replicate 7 (.poll .silent))).map fun _ =>
          (decide (AllNotified s.log), (s.log.filter Event.mpiCall).length)) = some (true, 4) := by
    decide +kernel
  obtain ⟨s, hs, hrun⟩ := Option.bind_eq_some_iff.mp hrun
  obtain ⟨s', hs', heq⟩ := Option.map_eq_some_iff.mp hrun
  obtain ⟨hall, hcalls⟩ := Prod.mk.inj heq
  have hreach : (system demoConfig).Reachable s := reachable_of_run (demoRun_ascending 56) hs
  have htail : (system demoConfig).Reaches s (List.replicate 7 (.poll .silent)) s' :=
    .of_run (fun l hl _ _ h => ⟨by rw [List.eq_of_mem_replicate hl]; trivial, h⟩) hs'
  exact ⟨s, s', hreach, of_decide_eq_true hall, hcalls, htail,
    no_mpiCall_after_last hreach (of_decide_eq_true hall) htail
      fun l hl => by rw [List.eq_of_mem_replicate hl]; rfl⟩

end Tampi
