import Mathlib.Data.Multiset.AddSub
import Tampi.Theory.Transition
import Tampi.Model.Interface

/-! # What the library is for

`Life` follows each operation from its submission to the notification of its task, without queues,
arrays, batches or indices: an operation waits in its line, is taken for issuing, is in flight
with an MPI request, has completed, has its context handed over, and is notified. `Move` says
when each of these steps may happen. -/

namespace Tampi
open Function (update)

/-- The order an operation keeps with others: the queue of a CPU, or the collective queue. -/
inductive Line
  | p2p (cpu : Nat)
  | coll
  deriving DecidableEq, Repr

def OpKind.line (cpu : Nat) : OpKind → Line
  | .p2p => .p2p cpu
  | .coll => .coll

def OpId.line (id : OpId) : Line := id.kind.line id.cpu

def Ticket.id (t : Ticket) : OpId := t.context.id

@[simp] theorem Op.context_id (op : Op) : op.context.id = op.id := rfl

@[simp] theorem Op.context_task (op : Op) : op.context.task = op.task := rfl

@[simp] theorem Ticket.ofOp_id (op : Op) : (Ticket.ofOp op).id = op.id := rfl

/-- The request of the operation was null, or its completion was reported and the status stored. -/
def Settled (log : List Event) (t : Ticket) : Prop :=
  (∃ call, .issue t.id call none ∈ log) ∨
  ∃ status, .report t.id status ∈ log ∧
    ∀ location, t.firstStatus = .addr location → .store t.id location status ∈ log

/-! ## The history of a run -/

namespace Event

@[simp] def bound? : Event → Option Op
  | bind op => some op
  | _ => none

@[simp] def pushed? : Event → Option Op
  | push op => some op
  | _ => none

@[simp] def issued? : Event → Option OpId
  | issue id _ _ => some id
  | _ => none

@[simp] def null? : Event → Option OpId
  | issue id _ none => some id
  | _ => none

@[simp] def reported? : Event → Option OpId
  | report id _ => some id
  | _ => none

@[simp] def notified? : Event → Option TaskContext
  | notify ctx => some ctx
  | _ => none

@[simp] def blocked? : Event → Option TaskContext
  | block ctx => some ctx
  | _ => none

@[simp] def resumed? : Event → Option TaskContext
  | resume ctx => some ctx
  | _ => none

end Event

section
open Transition (select)
variable (log : List Event)

abbrev binds : List Op := select Event.bound? log

abbrev pushes : List Op := select Event.pushed? log

/-- The operations issued, in order, and those of them whose request was null. -/
abbrev issues : List OpId := select Event.issued? log

abbrev nulls : List OpId := select Event.null? log

abbrev reports : List OpId := select Event.reported? log

abbrev notifies : List TaskContext := select Event.notified? log

abbrev blocks : List TaskContext := select Event.blocked? log

abbrev resumes : List TaskContext := select Event.resumed? log

end

/-- The effect of an event on the memory of the callers. -/
def Event.write (memory : Nat → Status) : Event → Nat → Status
  | .store _ location status => update memory location status
  | _ => memory

/-! ## The life of the operations -/

/-- What a task is doing of a call of `process`. -/
inductive Agent
  | ready
  | bound (op : Op)
  | pushed (ctx : TaskContext)
  | blocked (ctx : TaskContext)

/-- An operation in flight, with its request. -/
structure Slot where
  ticket : Ticket
  request : Nat

/-- Where each operation is, and what the tasks, MPI and the memory of the callers hold of it. -/
@[ext] structure Life where
  queue : Line → List Op
  /-- Taken from the queues, not yet issued. -/
  batch : List Op
  inflight : Multiset Slot
  /-- Completed, the context not yet handed over or notified. -/
  completed : Multiset Ticket
  completions : List TaskContext
  agents : Handle → Agent
  permits : Handle → Nat
  mpi : Mpi
  memory : Nat → Status
  serial : Nat
  log : List Event

namespace Life

def append (L : Life) (e : Event) : Life := { L with log := L.log ++ [e] }

def setAgent (L : Life) (task : Handle) (a : Agent) : Life :=
  { L with agents := update L.agents task a }

/-- The unblock of a blocking operation gives its task a permit. -/
def notified (L : Life) (ctx : TaskContext) : Life :=
  { L with
    permits := if ctx.blocking then update L.permits ctx.task (L.permits ctx.task + 1)
      else L.permits
    log := L.log ++ [.notify ctx] }

def initial (memory : Nat → Status) : Life where
  queue _ := []
  batch := []
  inflight := 0
  completed := 0
  completions := []
  agents _ := .ready
  permits _ := 0
  mpi _ := none
  memory := memory
  serial := 0
  log := []

/-- `take` moves a chunk of a queue to the batch, and `complete` is a step of MPI; the others are the
events of the history. -/
inductive Act
  | bind (op : Op)
  | push (op : Op)
  | block (ctx : TaskContext)
  | resume (ctx : TaskContext)
  | take (line : Line) (chunk : List Op)
  | issue (op : Op) (call : MpiCall) (request : Request)
  | test
  | complete (request : Nat) (status : Status)
  | report (slot : Slot) (status : Status)
  | store (ticket : Ticket) (location : Nat) (status : Status)
  | transfer (ticket : Ticket)
  | notify (ticket : Ticket)
  | consume (ctx : TaskContext)

/-- When each step may happen, and what it changes. -/
inductive Move : Life → Act → Life → Prop
  | bind : L.agents op.task = .ready → op.id.serial = L.serial → op.id.kind = op.kind →
    Move L (.bind op) ({ L with serial := L.serial + 1 }.setAgent op.task (.bound op)
      |>.append (.bind op))
  | push : L.agents op.task = .bound op →
    Move L (.push op)
      ({ L with queue := update L.queue op.id.line (L.queue op.id.line ++ [op]) }.setAgent op.task
        (if op.context.blocking then .pushed op.context else .ready) |>.append (.push op))
  | block : L.agents ctx.task = .pushed ctx →
    Move L (.block ctx) (L.setAgent ctx.task (.blocked ctx) |>.append (.block ctx))
  | resume : L.agents ctx.task = .blocked ctx → 0 < L.permits ctx.task →
    Move L (.resume ctx)
      ({ L with permits := update L.permits ctx.task (L.permits ctx.task - 1) }.setAgent ctx.task
        .ready |>.append (.resume ctx))
  | take : L.queue line = chunk ++ rest →
    Move L (.take line chunk)
      { L with queue := update L.queue line rest, batch := L.batch ++ chunk }
  | issueNull : L.batch = op :: rest → op.issue = some call →
    Move L (.issue op call none)
      ({ L with batch := rest, completed := .ofOp op ::ₘ L.completed }.append
        (.issue op.id call none))
  | issue : L.batch = op :: rest → op.issue = some call → L.mpi h = none →
    Move L (.issue op call (some h))
      ({ L with
        batch := rest
        inflight := ⟨.ofOp op, h⟩ ::ₘ L.inflight
        mpi := update L.mpi h (some ⟨op.id, none⟩) }.append (.issue op.id call (some h)))
  | test : L.inflight ≠ 0 → Move L .test (L.append .test)
  | complete : L.mpi h = some ⟨owner, none⟩ →
    Move L (.complete h status) { L with mpi := update L.mpi h (some ⟨owner, some status⟩) }
  | report : L.inflight = slot ::ₘ rest → L.mpi slot.request = some ⟨owner, some status⟩ →
    Move L (.report slot status)
      ({ L with
        inflight := rest
        completed := slot.ticket ::ₘ L.completed
        mpi := update L.mpi slot.request none }.append (.report owner status))
  | store : t ∈ L.completed → .report t.id status ∈ L.log → t.firstStatus = .addr location →
    Move L (.store t location status)
      ({ L with memory := update L.memory location status }.append (.store t.id location status))
  | transfer : L.completed = t ::ₘ rest → Settled L.log t →
    Move L (.transfer t)
      ({ L with completed := rest, completions := L.completions ++ [t.context] }.append
        (.transfer t.context))
  | notify : L.completed = t ::ₘ rest → Settled L.log t →
    Move L (.notify t) ({ L with completed := rest }.notified t.context)
  | consume : L.completions = ctx :: rest →
    Move L (.consume ctx) ({ L with completions := rest }.notified ctx)

def system : Transition.System Life Act where
  init L := ∃ memory, L = initial memory
  step := Move

end Life

end Tampi
