import Tampi.Theory.Transition

/-! # Polling instances (`TaskingModel.hpp`)

A polling instance is shared by the polling task, by the callback the runtime runs when the task has
completed, and by the thread that unregisters the instance. Each access to a field of the instance is
a step and an event of the history, so that their order can be told. The runtime calls
`genericCompleted` once, after the body of the task has finally finished; a body that has called the
suspend function is run again instead. -/

namespace Tampi

/-- The body of the polling task: `genericPolling` or `suspendPolling`. -/
inductive PollingMode
  | generic
  | suspend
  deriving DecidableEq, Repr

/-- Where the polling task is. -/
inductive PollingTask
  /-- Spawned, or submitted again by the suspend function. -/
  | ready
  /-- About to read `_mustFinish`. -/
  | test
  /-- `_mustFinish` was not set: about to read `_function` and `_args`. -/
  | load
  /-- In the call of the polling function. -/
  | calling
  /-- The polling function has returned: in `waitfor`, or in `suspendCurrentWithTimeout`. -/
  | pausing
  /-- The body has finished: the runtime is about to call `genericCompleted`. -/
  | finished
  | completed
  deriving DecidableEq, Repr

/-- Where the call of `unregisterPolling` is. -/
inductive Unregister
  /-- Not called yet. -/
  | before
  /-- `_mustFinish` is set: about to read `_finished`. -/
  | test
  /-- In `waitfor`. -/
  | pausing
  /-- `_finished` was set: about to delete the instance. -/
  | delete
  /-- The instance is deleted: about to return. -/
  | leaving
  | returned
  deriving DecidableEq, Repr

inductive InstanceField
  | mustFinish
  | finished
  | function
  | args
  deriving DecidableEq, Repr

inductive PollingEvent
  | read (field : InstanceField)
  | write (field : InstanceField)
  /-- The polling function is called, and returns. -/
  | start
  | stop
  | deleted
  | unregistered
  deriving DecidableEq, Repr

/-- A read or write of the instance. -/
def PollingEvent.isAccess : PollingEvent → Bool
  | .read _ | .write _ => true
  | _ => false

/-- A registered instance with its three users. -/
structure Polling where
  mustFinish : Bool
  finished : Bool
  task : PollingTask
  unregister : Unregister
  log : List PollingEvent

namespace Polling

/-- `registerPolling` has returned. -/
def registered : Polling where
  mustFinish := false
  finished := false
  task := .ready
  unregister := .before
  log := []

variable (p : Polling)

/-- The next step of the loop of `genericPolling`. -/
def genericPolling : Option Polling :=
  match p.task with
  | .ready => some { p with task := .test }
  | .test =>
    some { p with
      task := if p.mustFinish then .finished else .load
      log := p.log ++ [.read .mustFinish] }
  | .load =>
    some { p with
      task := .calling
      log := p.log ++ [.read .function, .read .args, .start] }
  | .calling => some { p with task := .pausing, log := p.log ++ [.stop] }
  | .pausing => some { p with task := .test }
  | .finished | .completed => none

/-- The next step of `suspendPolling`, which differs in what follows the polling function: the body
calls the suspend function and returns, and the runtime runs it from its start. -/
def suspendPolling : Option Polling :=
  match p.task with
  | .pausing => some { p with task := .ready }
  | _ => p.genericPolling

/-- The callback of the runtime. -/
def genericCompleted : Option Polling :=
  match p.task with
  | .finished =>
    some { p with task := .completed, finished := true, log := p.log ++ [.write .finished] }
  | _ => none

/-- The next step of `unregisterPolling`. -/
def unregisterPolling : Option Polling :=
  match p.unregister with
  | .before =>
    some { p with mustFinish := true, unregister := .test, log := p.log ++ [.write .mustFinish] }
  | .test =>
    some { p with
      unregister := if p.finished then .delete else .pausing
      log := p.log ++ [.read .finished] }
  | .pausing => some { p with unregister := .test }
  | .delete => some { p with unregister := .leaving, log := p.log ++ [.deleted] }
  | .leaving => some { p with unregister := .returned, log := p.log ++ [.unregistered] }
  | .returned => none

end Polling

/-- Who moves: the body of the task, the runtime, or the thread that unregisters. -/
inductive PollingParty
  | body
  | callback
  | unregister
  deriving DecidableEq, Repr

namespace Polling

def step (mode : PollingMode) (p : Polling) : PollingParty → Option Polling
  | .body =>
    match mode with
    | .generic => p.genericPolling
    | .suspend => p.suspendPolling
  | .callback => p.genericCompleted
  | .unregister => p.unregisterPolling

def system (mode : PollingMode) : Transition.System Polling PollingParty where
  init p := p = registered
  step p l p' := p.step mode l = some p'

end Polling

end Tampi
