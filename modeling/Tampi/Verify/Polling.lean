import Tampi.Model.Polling

/-! # The teardown of a polling instance

The thread that unregisters deletes the instance when it has read `_finished`, which the callback of
the runtime sets last of all accesses by the task. -/

namespace Tampi.Polling
open Transition

variable {mode : PollingMode} {p p' : Polling}

/-- `_mustFinish` is set. -/
def mark : PollingEvent := .write .mustFinish

structure PollingInv (p : Polling) : Prop where
  completed : p.finished = true ↔ p.task = .completed
  mustFinish : p.mustFinish = true ↔ p.unregister ≠ .before
  finished : p.unregister ≠ .before → p.unregister ≠ .test → p.unregister ≠ .pausing →
    p.finished = true
  marked : mark ∈ p.log ↔ p.mustFinish = true
  deleted : .deleted ∈ p.log ↔ p.unregister = .leaving ∨ p.unregister = .returned
  unregistered : .unregistered ∈ p.log ↔ p.unregister = .returned
  starts : (since mark p.log).count .start ≤ 1
  load : p.task = .load → (since mark p.log).count .start = 0
  accesses : ∀ e ∈ since .deleted p.log, e.isAccess = false
  started : .start ∉ since .unregistered p.log
  calls : p.log.count .start = p.log.count .stop + if p.task = .calling then 1 else 0

namespace PollingInv

theorem registered : PollingInv registered where
  completed := by simp [Polling.registered]
  mustFinish := by simp [Polling.registered]
  finished h := by simp [Polling.registered] at h
  marked := by simp [Polling.registered]
  deleted := by simp [Polling.registered]
  unregistered := by simp [Polling.registered]
  starts := by simp [Polling.registered, since]
  load := by simp [Polling.registered]
  accesses := by simp [Polling.registered, since]
  started := by simp [Polling.registered, since]
  calls := by simp [Polling.registered]

/-- While the task has not completed, the instance is not deleted. -/
theorem not_deleted (I : PollingInv p) (h : p.task ≠ .completed) :
    .deleted ∉ p.log ∧ .unregistered ∉ p.log := by
  have hf : ¬ p.finished = true := fun hf => h (I.completed.mp hf)
  have hfin := I.finished
  rw [I.deleted, I.unregistered]
  constructor
  · rintro (h | h) <;> exact hf (hfin (by simp [h]) (by simp [h]) (by simp [h]))
  · intro h
    exact hf (hfin (by simp [h]) (by simp [h]) (by simp [h]))

/-- A step of the task, with the events it adds. -/
theorem task (I : PollingInv p) (t : PollingTask) (es : List PollingEvent)
    (hp : p.task ≠ .completed) (ht : t ≠ .completed)
    (hes : mark ∉ es ∧ .deleted ∉ es ∧ .unregistered ∉ es)
    (hstart : es.count .start ≤ if p.task = .load then 1 else 0)
    (hload : t = .load → p.mustFinish = false)
    (hcalls : (if p.task = .calling then 1 else 0) + es.count .start =
      es.count .stop + if t = .calling then 1 else 0) :
    PollingInv { p with task := t, log := p.log ++ es } := by
  obtain ⟨hmark, hdel, hunreg⟩ := hes
  obtain ⟨hdel', hunreg'⟩ := I.not_deleted hp
  have hsince : .deleted ∉ p.log ++ es ∧ .unregistered ∉ p.log ++ es := by
    simp [hdel, hunreg, hdel', hunreg']
  have hstarts : (since mark (p.log ++ es)).count .start ≤ 1 := by
    by_cases hm : mark ∈ p.log
    · rw [since_append hm, List.count_append]
      have hle := I.starts
      split at hstart
      · rw [I.load ‹_›]
        omega
      · omega
    · rw [since_append_of_not_mem hm, since_eq_nil hmark]
      simp
  refine { I with completed := ?_, marked := ?_, deleted := ?_, unregistered := ?_, starts := hstarts,
                  load := ?_, accesses := ?_, started := ?_, calls := ?_ }
  · have hf : ¬ p.finished = true := fun h => hp (I.completed.mp h)
    simp [hf, ht]
  · simpa [hmark] using I.marked
  · simpa [hdel] using I.deleted
  · simpa [hunreg] using I.unregistered
  · intro h
    have hm : mark ∉ p.log ++ es := by
      have := mt I.marked.mp (by simp [hload h])
      simp [this, hmark]
    simp [since_eq_nil hm]
  · simp [since_eq_nil hsince.1]
  · simp [since_eq_nil hsince.2]
  · have := I.calls
    simp only [List.count_append]
    omega

theorem genericPolling (I : PollingInv p) (h : p.genericPolling = some p') : PollingInv p' := by
  unfold Polling.genericPolling at h
  cases hp : p.task <;> rw [hp] at h <;> cases h
  · simpa using I.task .test [] (by simp [hp]) (by decide) (by simp) (by simp) (by simp)
      (by simp [hp])
  · cases hm : p.mustFinish with
    | true =>
      simpa [hm] using I.task .finished [.read .mustFinish] (by simp [hp]) (by decide) (by decide)
        (by simp) (by simp) (by simp [hp])
    | false =>
      simpa [hm] using I.task .load [.read .mustFinish] (by simp [hp]) (by decide) (by decide)
        (by simp) (by simp [hm]) (by simp [hp])
  · exact I.task .calling [.read .function, .read .args, .start] (by simp [hp]) (by decide)
      (by decide) (by simp [hp]) (by simp) (by simp [hp])
  · exact I.task .pausing [.stop] (by simp [hp]) (by decide) (by decide) (by simp) (by simp)
      (by simp [hp])
  · simpa using I.task .test [] (by simp [hp]) (by decide) (by simp) (by simp) (by simp)
      (by simp [hp])

theorem suspendPolling (I : PollingInv p) (h : p.suspendPolling = some p') : PollingInv p' := by
  unfold Polling.suspendPolling at h
  split at h
  · rename_i hp
    cases h
    simpa using I.task .ready [] (by simp [hp]) (by decide) (by simp) (by simp) (by simp)
      (by simp [hp])
  · exact I.genericPolling h

theorem genericCompleted (I : PollingInv p) (h : p.genericCompleted = some p') :
    PollingInv p' := by
  unfold Polling.genericCompleted at h
  split at h <;> cases h
  rename_i hp
  have J := I.task .finished [.write .finished] (by simp [hp]) (by decide) (by decide) (by simp)
    (by simp) (by simp [hp])
  exact { J with
    completed := by simp
    finished := fun _ _ _ => rfl
    load := by simp
    calls := by simpa using J.calls }

theorem count_since_append (hm : e ≠ mark) (hs : e ≠ .start) :
    (since mark (p.log ++ [e])).count .start = (since mark p.log).count .start := by
  by_cases h : mark ∈ p.log
  · simp [since_append h, hs]
  · have hnil : mark ∉ p.log ++ [e] := by simp [h, hm.symm]
    rw [since_eq_nil h, since_eq_nil hnil]

/-- A step of the thread that unregisters once `_mustFinish` is set, with the event it adds. -/
theorem caller (I : PollingInv p) (u : Unregister) (e : PollingEvent)
    (hp : p.unregister ≠ .before) (hu : u ≠ .before) (hm : e ≠ mark) (hstart : e ≠ .start)
    (hstop : e ≠ .stop) (hfinished : u ≠ .test → u ≠ .pausing → p.finished = true)
    (hdel : .deleted ∈ p.log ++ [e] ↔ u = .leaving ∨ u = .returned)
    (hunreg : .unregistered ∈ p.log ++ [e] ↔ u = .returned)
    (haccess : .deleted ∈ p.log ++ [e] → e.isAccess = false) :
    PollingInv { p with unregister := u, log := p.log ++ [e] } := by
  refine { I with mustFinish := ?_, finished := fun _ => hfinished, marked := ?_, deleted := hdel,
                  unregistered := hunreg, starts := ?_, load := ?_, accesses := ?_, started := ?_,
                  calls := ?_ }
  · simpa [hp, hu] using I.mustFinish
  · simpa [hm.symm] using I.marked
  · rw [count_since_append hm hstart]
    exact I.starts
  · rw [count_since_append hm hstart]
    exact I.load
  · intro d hd
    by_cases hmem : .deleted ∈ p.log ++ [e]
    · rcases mem_since_append_singleton hd with hd | rfl
      · exact I.accesses d hd
      · exact haccess hmem
    · rw [since_eq_nil hmem] at hd
      cases hd
  · intro hd
    rcases mem_since_append_singleton hd with hd | hd
    · exact I.started hd
    · exact hstart hd.symm
  · simpa [hstart, hstop] using I.calls

theorem unregisterPolling (I : PollingInv p) (h : p.unregisterPolling = some p') :
    PollingInv p' := by
  unfold Polling.unregisterPolling at h
  have hdel := I.deleted
  have hunreg := I.unregistered
  cases hu : p.unregister <;> rw [hu] at h hdel hunreg <;> cases h <;> simp at hdel hunreg
  case before =>
    have hm : mark ∉ p.log := by simp [I.marked, I.mustFinish, hu]
    have hcount : (since mark (p.log ++ [mark])).count .start = 0 := by
      rw [since_append_of_not_mem hm]
      decide
    refine { I with mustFinish := by simp, finished := by simp, marked := ?_, deleted := ?_,
                    unregistered := ?_, starts := ?_, load := ?_, accesses := ?_, started := ?_,
                    calls := ?_ }
    · simp [mark]
    · simp [hdel]
    · simp [hunreg]
    · exact Nat.le_trans (Nat.le_of_eq hcount) (by decide)
    · exact fun _ => hcount
    · simp [since_eq_nil, hdel]
    · simp [since_eq_nil, hunreg]
    · simpa using I.calls
  case test =>
    apply I.caller _ (.read .finished) <;> cases p.finished <;> simp [hu, mark, hdel, hunreg]
  case pausing =>
    exact { I with
      mustFinish := by simpa [hu] using I.mustFinish
      finished := by simp
      deleted := by simp [hdel]
      unregistered := by simp [hunreg] }
  case delete =>
    have hf := I.finished (by simp [hu]) (by simp [hu]) (by simp [hu])
    apply I.caller .leaving .deleted <;> simp [hu, mark, hunreg, hf, PollingEvent.isAccess]
  case leaving =>
    have hf := I.finished (by simp [hu]) (by simp [hu]) (by simp [hu])
    apply I.caller .returned .unregistered <;> simp [hu, mark, hdel, hf, PollingEvent.isAccess]

theorem step (I : PollingInv p) (h : p.step mode l = some p') : PollingInv p' := by
  cases l with
  | body =>
    cases mode with
    | generic => exact I.genericPolling h
    | suspend => exact I.suspendPolling h
  | callback => exact I.genericCompleted h
  | unregister => exact I.unregisterPolling h

theorem of_reachable (h : (system mode).Reachable p) : PollingInv p := by
  refine h.rec_inv ?_ ?_
  · rintro p rfl
    exact .registered
  · intro p l p' _ hs I
    exact I.step hs

end PollingInv

/-- For both bodies and every interleaving: at most one call of the polling function starts after
`_mustFinish` is set, when `unregisterPolling` has returned no call is in progress and none starts
after it, and nobody accesses a deleted instance. -/
theorem teardown (h : (system mode).Reachable p) :
    (since (.write .mustFinish) p.log).count .start ≤ 1 ∧
    (.unregistered ∈ p.log → p.log.count .start = p.log.count .stop ∧
      .start ∉ since .unregistered p.log) ∧
    ∀ e ∈ since .deleted p.log, e.isAccess = false := by
  have I := PollingInv.of_reachable h
  refine ⟨I.starts, fun hu => ⟨?_, I.started⟩, I.accesses⟩
  have hu' := I.unregistered.mp hu
  have ht := I.completed.mp (I.finished (by simp [hu']) (by simp [hu']) (by simp [hu']))
  simpa [ht] using I.calls

/-- `_mustFinish` is set right after the task has tested it, so that one more call starts. -/
def lastCall : List PollingParty :=
  [.body, .body, .unregister, .body, .unregister, .body, .unregister, .body, .body, .unregister,
    .body, .callback, .unregister, .unregister, .unregister, .unregister]

theorem teardown_lastCall : ∃ p, (system .suspend).Reachable p ∧ .unregistered ∈ p.log ∧
    (since (.write .mustFinish) p.log).count .start = 1 ∧
    p.log.count .start = p.log.count .stop := by
  obtain ⟨p, hp, hu, hone⟩ : ∃ p, (system .suspend).Reachable p ∧ .unregistered ∈ p.log ∧
      (since (.write .mustFinish) p.log).count .start = 1 :=
    ⟨_, ⟨_, lastCall, rfl, .of_run (f := Polling.step .suspend) (fun _ _ _ _ h => h) rfl⟩,
      by decide, by decide⟩
  exact ⟨p, hp, hu, hone, ((teardown hp).2.1 hu).1⟩

end Tampi.Polling
