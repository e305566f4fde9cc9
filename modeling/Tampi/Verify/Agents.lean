import Tampi.Model.System

/-! # Steps of the other agents

`AgentMove` has one constructor for each thing a task, the completion task or MPI can do in a step
of the system, with what it checks; the steps of the polling task are `PollMove`. -/

namespace Tampi
open Function (update)

def Label.isPoll : Label → Bool
  | .poll _ => true
  | _ => false

namespace Sys

/-- A step of the system other than one of the polling task. -/
inductive AgentMove (cfg : Config) (s : Sys) : Label → Sys → Prop
  | process : s.cpus cpu = .idle → s.tasks task = .ready → cpu < cfg.cpus →
    AgentMove cfg s (.process cpu task nature args) (s.process cpu task nature args)
  | noObjects : s.cpus cpu = .bound op → (s.allocators op.kind).alloc cpu = none →
    AgentMove cfg s (.cpu cpu) (s.fail .noObjects)
  | alloc : s.cpus cpu = .bound op → (s.allocators op.kind).alloc cpu = some (object, a) →
    AgentMove cfg s (.cpu cpu) { s with
      allocators := update s.allocators op.kind a
      objects := update s.objects op.kind (update (s.objects op.kind) object op)
      cpus := update s.cpus cpu (.allocated op.kind object op.context) }
  | startPush : s.cpus cpu = .allocated .p2p object ctx →
    AgentMove cfg s (.cpu cpu) { s with
      p2pOperations := s.p2pOperations.push cpu object
      cpus := update s.cpus cpu (.pushing object ctx) }
  | push : s.cpus cpu = .pushing object ctx →
    s.p2pOperations.producerStep cfg.queue cpu = some q → (∀ ok, q.producer cpu ≠ .returned ok) →
    AgentMove cfg s (.cpu cpu) { s with p2pOperations := q }
  | pushed : s.cpus cpu = .pushing object ctx →
    s.p2pOperations.producerStep cfg.queue cpu = some q → q.producer cpu = .returned true →
    AgentMove cfg s (.cpu cpu) ({ s with p2pOperations := q }.pushDone cpu .p2p object ctx)
  | queueFull : s.cpus cpu = .pushing object ctx →
    s.p2pOperations.producerStep cfg.queue cpu = some q → q.producer cpu = .returned false →
    cfg.p2pFullFailure = true →
    AgentMove cfg s (.cpu cpu) ({ s with p2pOperations := q }.fail .queueFull)
  | retryPush : s.cpus cpu = .pushing object ctx →
    s.p2pOperations.producerStep cfg.queue cpu = some q → q.producer cpu = .returned false →
    cfg.p2pFullFailure = false →
    AgentMove cfg s (.cpu cpu) { s with
      p2pOperations := q, cpus := update s.cpus cpu (.allocated .p2p object ctx) }
  | pushColl : s.cpus cpu = .allocated .coll object ctx →
    s.collOperations.length < cfg.sizes.collQueue →
    AgentMove cfg s (.cpu cpu)
      ({ s with collOperations := s.collOperations ++ [object] }.pushDone cpu .coll object ctx)
  | collFull : s.cpus cpu = .allocated .coll object ctx →
    ¬ s.collOperations.length < cfg.sizes.collQueue → cfg.collFullFailure = true →
    AgentMove cfg s (.cpu cpu) (s.fail .collQueueFull)
  | retryColl : s.cpus cpu = .allocated .coll object ctx →
    ¬ s.collOperations.length < cfg.sizes.collQueue → cfg.collFullFailure = false →
    AgentMove cfg s (.cpu cpu) s
  | block : s.cpus cpu = .pushed ctx →
    AgentMove cfg s (.cpu cpu) { s with
      cpus := update s.cpus cpu .idle
      tasks := update s.tasks ctx.task (.blocked ctx)
      log := s.log ++ [.block ctx] }
  | resume : s.tasks task = .blocked ctx → 0 < s.permits task →
    AgentMove cfg s (.resume task) { s with
      tasks := update s.tasks task .ready
      permits := update s.permits task (s.permits task - 1)
      log := s.log ++ [.resume ctx] }
  | consume : s.consuming = none → s.completions.contents ≠ [] →
    AgentMove cfg s .completion { s with consuming := some s.completions.contents.length }
  | consumed : s.consuming = some 0 →
    AgentMove cfg s .completion { s with
      completions := { s.completions with unreleased := 0 }, consuming := none }
  | complete : s.consuming = some (left + 1) → s.completions.contents = ctx :: rest →
    AgentMove cfg s .completion ({ s with
      completions := ⟨rest, s.completions.unreleased + 1⟩
      consuming := some left }.complete ctx)
  | mpi : s.mpi request = some ⟨owner, none⟩ →
    AgentMove cfg s (.mpi request status)
      { s with mpi := update s.mpi request (some ⟨owner, some status⟩) }

variable {cfg : Config} {s t : Sys}

theorem failure_of_step (h : s.step cfg l = some t) : s.failure = none := by
  unfold step at h
  split at h
  next => cases h
  next hf => simpa using hf

theorem step_poll (h : s.step cfg (.poll a) = some t) : s.pollStep cfg a = some t := by
  unfold step at h
  split at h
  next => cases h
  next => exact h

/-- The steps of a call of `process`. -/
theorem agentMove_of_cpuStep (h : s.cpuStep cfg cpu = some t) : s.AgentMove cfg (.cpu cpu) t := by
  unfold cpuStep at h
  split at h
  next => cases h
  next op hc =>
    cases h
    unfold alloc
    split
    next ha => exact .noObjects hc ha
    next object a ha => exact .alloc hc ha
  next object ctx hc =>
    cases h
    exact .startPush hc
  next object ctx hc =>
    cases h
    unfold Sys.pushColl
    split
    next hlt => exact .pushColl hc hlt
    next hfull =>
      split
      next hfail => exact .collFull hc hfull hfail
      next hfail => exact .retryColl hc hfull (Bool.eq_false_of_not_eq_true hfail)
  next object ctx hc =>
    obtain ⟨q, hq, rfl⟩ := Option.map_eq_some_iff.mp h
    dsimp only
    split
    next hret => exact .pushed hc hq hret
    next hret =>
      split
      next hfail => exact .queueFull hc hq hret hfail
      next hfail => exact .retryPush hc hq hret (Bool.eq_false_of_not_eq_true hfail)
    next htrue hfalse =>
      refine .push hc hq fun ok hret => ?_
      cases ok with
      | true => exact htrue hret
      | false => exact hfalse hret
  next ctx hc =>
    cases h
    exact .block hc

theorem agentMove_of_completionStep (h : s.completionStep = some t) :
    s.AgentMove cfg .completion t := by
  unfold completionStep at h
  split at h
  next hnone =>
    split at h
    next => cases h
    next hne =>
      cases h
      exact .consume hnone hne
  next hzero =>
    cases h
    exact .consumed hzero
  next left hleft =>
    split at h
    next => cases h
    next ctx rest hctx =>
      cases h
      exact .complete hleft hctx

/-- A step that is not the polling task's is one of `AgentMove`. -/
theorem agentMove_of_step (h : s.step cfg l = some t) (hl : l.isPoll = false) :
    s.AgentMove cfg l t := by
  unfold step at h
  split at h
  next => cases h
  cases l with
  | poll => cases hl
  | process cpu task nature args =>
    dsimp only at h
    split at h
    next hcpu htask =>
      split at h
      next hlt =>
        cases h
        exact .process hcpu htask hlt
      next => cases h
    next => cases h
  | cpu cpu => exact agentMove_of_cpuStep h
  | resume task =>
    dsimp only [Sys.resume] at h
    split at h
    next ctx htask =>
      split at h
      next hpos =>
        cases h
        exact .resume htask hpos
      next => cases h
    next => cases h
  | completion => exact agentMove_of_completionStep h
  | mpi request status =>
    dsimp only at h
    split at h
    next owner hmpi =>
      cases h
      exact .mpi hmpi
    next => cases h

end Sys

end Tampi
