import Tampi.Verify.Capacity
import Tampi.Verify.Handoff
import Tampi.Verify.Quiescence

/-! # Milestones

The milestones of an operation are the events that happen to it at most once. Their number is bounded
by the number of submissions, so a run with finitely many submissions comes to a time after which no
milestone is reached (`Still`); the rest of this module says what the steps after it can do. -/

namespace Tampi
open Function (update)
open Transition (select)

/-- All events but the tests, the stores of statuses and the hand-overs between tasks. -/
def Event.milestone? : Event → Option Event
  | .test | .store .. | .transfer _ => none
  | e => some e

abbrev milestones (log : List Event) : List Event := select Event.milestone? log

theorem length_milestones (log : List Event) : (milestones log).length =
    (binds log).length + (pushes log).length + (blocks log).length + (resumes log).length +
      (issues log).length + (reports log).length + (notifies log).length := by
  induction log using List.reverseRecOn with
  | nil => rfl
  | append_singleton log e ih =>
    simp only [milestones, binds, pushes, blocks, resumes, issues, reports, notifies] at ih ⊢
    simp only [Transition.select_append_singleton, List.length_append, ih]
    cases e <;> simp [Event.milestone?] <;> omega

/-- What is read off the milestones. -/
theorem select_milestones {f : Event → Option α} (hf : ∀ e, e.milestone? = none → f e = none)
    (log : List Event) : select f (milestones log) = select f log := by
  induction log using List.reverseRecOn with
  | nil => rfl
  | append_singleton log e ih =>
    cases hm : e.milestone? with
    | none => simp [milestones, hm, hf e hm, ← ih]
    | some e' =>
      obtain rfl : e = e' := by
        cases e <;> simp_all [Event.milestone?]
      rw [milestones, Transition.select_append_singleton, hm, Transition.select_append_singleton,
        ← ih]
      exact Transition.select_append_singleton

theorem milestones_append_ne (he : e.milestone? = some e') :
    milestones (log ++ [e]) ≠ milestones log := by
  intro h
  have := congrArg List.length h
  simp [he] at this

namespace Life.Inv
variable {L : Life}

theorem length_pushes_le (H : L.Inv) : (pushes L.log).length ≤ (binds L.log).length :=
  (H.submitted.pushes_nodup.of_map.subperm H.submitted.push_bind).length_le

/-- The contexts of each task are those of distinct pushed operations. -/
theorem length_le_of_prefix {ctxs : List TaskContext} (H : L.Inv)
    (h : ∀ task, ctxs.filter (·.task = task) <+:
      ((pushes L.log).map Op.context).filter (waitsFor task)) :
    ctxs.length ≤ (pushes L.log).length := by
  have hpushed : ((pushes L.log).map Op.context).Nodup := nodup_context H.submitted.pushes_nodup
  have hnodup : ctxs.Nodup := by
    refine List.nodup_iff_count_le_one.mpr fun ctx => ?_
    have hone := List.nodup_iff_count_le_one.mp
      ((h ctx.task).sublist.nodup (hpushed.filter _)) ctx
    rwa [List.count_filter (by simp)] at hone
  have hsub : ctxs ⊆ (pushes L.log).map Op.context := by
    intro ctx hctx
    have hmem : ctx ∈ ctxs.filter (·.task = ctx.task) := by simp [hctx]
    exact (List.mem_filter.mp ((h ctx.task).subset hmem)).1
  have := (hnodup.subperm hsub).length_le
  rwa [List.length_map] at this

theorem length_milestones_le (H : L.Inv) :
    (milestones L.log).length ≤ 7 * (binds L.log).length := by
  have hpushes := H.length_pushes_le
  have hresumed (task : Handle) : (resumes L.log).filter (·.task = task) <+:
      ((pushes L.log).map Op.context).filter (waitsFor task) := by
    rw [H.waits.waiting task]
    exact List.prefix_append ..
  have hblocked (task : Handle) : (blocks L.log).filter (·.task = task) <+:
      ((pushes L.log).map Op.context).filter (waitsFor task) := by
    rw [H.waits.waiting task, H.waits.asleep task]
    exact (List.prefix_append_right_inj _).mpr (asleep_le _)
  have hblocks := H.length_le_of_prefix hblocked
  have hresumes := H.length_le_of_prefix hresumed
  have hissues := H.length_issues_le
  have hcompleted := H.card_completed_le
  have hreports := congrArg Multiset.card H.tracked.issued
  simp only [Multiset.card_add, Multiset.card_map, Multiset.coe_card] at hreports
  rw [length_milestones]
  omega

end Life.Inv

/-! ## Steps without milestones -/

/-- No milestone is reached from one state to the other. -/
def Still (log log' : List Event) : Prop := milestones log' = milestones log

theorem Still.select_eq {f : Event → Option α} (h : Still log log')
    (hf : ∀ e, e.milestone? = none → f e = none) : select f log' = select f log := by
  rw [← select_milestones hf log', ← select_milestones hf log, h]

section
variable {log log' : List Event} (h : Still log log')
include h

theorem Still.binds : binds log' = binds log := h.select_eq fun e he => by
  cases e <;> simp_all [Event.milestone?]

theorem Still.pushes : pushes log' = pushes log := h.select_eq fun e he => by
  cases e <;> simp_all [Event.milestone?]

theorem Still.issues : issues log' = issues log := h.select_eq fun e he => by
  cases e <;> simp_all [Event.milestone?]

theorem Still.notifies : notifies log' = notifies log := h.select_eq fun e he => by
  cases e <;> simp_all [Event.milestone?]

end

theorem Still.not_milestone (h : Still log (log ++ [e])) : e.milestone? = none := by
  cases he : e.milestone? with
  | none => rfl
  | some e' => exact absurd h (milestones_append_ne he)

/-- A history that grows between two that agree on the milestones agrees with both. -/
theorem Still.split (h : Still log log'') (h₁ : log <+: log') (h₂ : log' <+: log'') :
    Still log log' ∧ Still log' log'' := by
  have hp : milestones log <+: milestones log' := h₁.filterMap _
  have hp' : milestones log' <+: milestones log'' := h₂.filterMap _
  have hlen := congrArg List.length h
  have heq : milestones log = milestones log' :=
    hp.eq_of_length (Nat.le_antisymm hp.length_le (hlen ▸ hp'.length_le))
  exact ⟨heq.symm, h.trans heq⟩

namespace Life
variable {L L' L'' : Life}

theorem Move.binds (M : L.Move a L') (ha : a.isBind = false) : binds L'.log = binds L.log := by
  cases M with
  | bind => cases ha
  | take | complete => rfl
  | _ => simp [append, notified, setAgent]

theorem Steps.binds (h : L.Steps L') : binds L'.log = binds L.log := by
  obtain ⟨acts, hr, ha⟩ := h
  induction hr with
  | refl => rfl
  | @tail acts L₁ a L₂ _ M ih =>
    exact (Move.binds M (ha a (by simp))).trans (ih fun b hb => ha b (by simp [hb]))

/-- What moves without a milestone leave alone; they may hand over contexts. -/
structure Frozen (L L' : Life) : Prop where
  inflight : L'.inflight = L.inflight
  agents : L'.agents = L.agents
  permits : L'.permits = L.permits
  completions : L.completions.length ≤ L'.completions.length

theorem Frozen.trans (h : L.Frozen L') (h' : L'.Frozen L'') : L.Frozen L'' where
  inflight := h'.inflight.trans h.inflight
  agents := h'.agents.trans h.agents
  permits := h'.permits.trans h.permits
  completions := h.completions.trans h'.completions

theorem Move.frozen (M : L.Move a L') (h : Still L.log L'.log) : L.Frozen L' := by
  cases M with
  | take | complete => exact ⟨rfl, rfl, rfl, Nat.le_refl _⟩
  | test | store => exact ⟨rfl, rfl, rfl, Nat.le_refl _⟩
  | transfer => exact ⟨rfl, rfl, rfl, by simp [append]⟩
  | bind | push | block | resume | issueNull | issue | report | notify | consume =>
    cases h.not_milestone

theorem Steps.frozen (h : L.Steps L') (hs : Still L.log L'.log) : L.Frozen L' := by
  obtain ⟨acts, hr, ha⟩ := h
  induction hr with
  | refl => exact ⟨rfl, rfl, rfl, Nat.le_refl _⟩
  | @tail acts L₁ a L₂ hr M ih =>
    have ha' : ∀ b ∈ acts, b.isBind = false := fun b hb => ha b (by simp [hb])
    have hsteps : L.Steps L₁ := ⟨acts, hr, ha'⟩
    obtain ⟨h₁, h₂⟩ := hs.split hsteps.log_extends (Move.log_extends M)
    exact (ih h₁ ha').trans (Move.frozen M h₂)

end Life

namespace Sys
variable {cfg : Config} {s t : Sys}

theorem binds_of_step (h : (system cfg).Reachable s) (hs : (system cfg).step s l t)
    (hf : t.failure = none) (hl : l.submits = false) : binds t.log = binds s.log := by
  have hsf := failure_of_step hs.2
  obtain ⟨I, HL⟩ := Inv.of_reachable h hsf
  rcases step_sim I HL hsf hs.1 hl hs.2 with ⟨-, -, hsteps⟩ | ⟨hf', -⟩
  · exact hsteps.binds
  · cases hf'.symm.trans hf

theorem submits_of_still (hs : (system cfg).step s l t) (hstill : Still s.log t.log) :
    l.submits = false := by
  cases l with
  | process =>
    cases agentMove_of_step hs.2 rfl with
    | process => cases hstill.not_milestone
  | cpu | resume | poll | completion | mpi => rfl

theorem frozen_of_step (h : (system cfg).Reachable s) (hs : (system cfg).step s l t)
    (hf : t.failure = none) (hstill : Still s.log t.log) : (s.life cfg).Frozen (t.life cfg) := by
  have hsf := failure_of_step hs.2
  obtain ⟨I, HL⟩ := Inv.of_reachable h hsf
  rcases step_sim I HL hsf hs.1 (submits_of_still hs hstill) hs.2 with
    ⟨-, -, hsteps⟩ | ⟨hf', -⟩
  · exact hsteps.frozen hstill
  · cases hf'.symm.trans hf

/-- The polling task gives a new request an operation, or only reports. -/
theorem PollMove.mpi (M : s.PollMove cfg a t) :
    (∃ owner call r, s.mpi r = none ∧ t.mpi = update s.mpi r (some ⟨owner, none⟩) ∧
      t.log = s.log ++ [.issue owner call (some r)]) ∨ s.mpi.Reported t.mpi := by
  cases M with
  | transfer hp M =>
    cases M with
    | issue _ _ _ hnone => exact .inl ⟨_, _, _, hnone, rfl, rfl⟩
    | test _ T | tested _ T => exact .inr T.mpi
    | filter => exact .inr fun r => .inl (congrFun (stored_frame s _ _).2.2.2.2.1 r)
    | _ => exact .inr .refl
  | check hp M =>
    cases M with
    | test _ T | tested _ T => exact .inr T.mpi
    | store =>
      obtain ⟨memory, es, h, -⟩ := checkStored_eq s _ _
      rw [h]
      exact .inr .refl
    | _ => exact .inr .refl
  | _ => exact .inr .refl

/-- Without a milestone only MPI changes the state of a request. -/
theorem mpi_of_still (h : (system cfg).Reachable s) (hs : (system cfg).step s l t)
    (hf : t.failure = none) (hstill : Still s.log t.log) (hl : l.isMpi = false) :
    t.mpi = s.mpi := by
  have F := frozen_of_step h hs hf hstill
  obtain ⟨-, HL⟩ := Inv.of_reachable (h.step hs) hf
  rcases move_of_step hs.2 hf with ⟨a, rfl, M⟩ | ⟨-, M⟩
  · funext r
    have hR := M.mpi.resolve_left fun ⟨_, _, _, _, _, hlog⟩ => by
      rw [hlog] at hstill
      cases hstill.not_milestone
    rcases hR r with heq | ⟨hnone, hfin⟩
    · exact heq
    · -- the slot of the request is still in flight
      obtain ⟨owner, status, hm⟩ := Mpi.finished_iff.mp hfin
      obtain ⟨slot, hslot, rfl, -⟩ := claimed_of_reachable h (failure_of_step hs.2) r _ hm
      obtain ⟨_, hactive⟩ := HL.registered.active slot (F.inflight ▸ hslot)
      cases hnone.symm.trans hactive
  · cases M with
    | mpi => cases hl
    | _ => rfl

end Sys
end Tampi
