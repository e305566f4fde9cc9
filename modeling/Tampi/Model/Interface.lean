import Mathlib.Logic.Function.Basic
import Tampi.Model.Operation

/-! # Task contexts, tickets, MPI requests and the history of a run
(`TaskContext.hpp`, `Ticket.hpp`, `Interface.hpp`)

MPI is a table of active requests. `Active.op` is the submission the request was issued for and
`Active.status` is set once the communication has completed; a test call may report a request only
then, and nulls the handle it was given. -/

namespace Tampi
open Function (update)

/-! ## ALPI and task contexts -/

inductive AlpiCall
  | increase (task : Handle) (units : Nat)
  | decrease (task : Handle) (units : Nat)
  | block (task : Handle)
  | unblock (task : Handle)
  deriving DecidableEq, Repr

/-- The context of the task that owns an operation; `id` is a history variable. -/
structure TaskContext where
  blocking : Bool
  task : Handle
  id : OpId
  deriving DecidableEq, Repr

namespace TaskContext
variable (ctx : TaskContext)

def bindEvents (num : Nat) : List AlpiCall :=
  if ctx.blocking then [] else [.increase ctx.task num]

def completeEvents (num : Nat) (allCompleted : Bool) : List AlpiCall :=
  if !ctx.blocking then [.decrease ctx.task num]
  else if allCompleted then [.unblock ctx.task] else []

def waitEventsCompletion : List AlpiCall := [.block ctx.task]

end TaskContext

def Op.context (o : Op) : TaskContext := ⟨o.nature == .BLK, o.task, o.id⟩

/-! ## Tickets -/

structure Ticket where
  context : TaskContext
  firstStatus : StatusPtr
  deriving DecidableEq, Repr

def Ticket.ofOp (o : Op) : Ticket := ⟨o.context, o.status⟩

def Ticket.ignoreStatus (t : Ticket) : Bool := t.firstStatus == .ignore

instance : Inhabited Ticket := ⟨⟨⟨false, 0, ⟨.p2p, 0, 0⟩⟩, .ignore⟩⟩

/-! ## Requests -/

/-- `request_t`; `none` is `REQUEST_NULL`. -/
abbrev Request := Option Nat

structure Status where
  source : Int
  tag : Int
  error : Int
  deriving DecidableEq, Repr, Inhabited

structure Active where
  op : OpId
  status : Option Status
  deriving DecidableEq, Repr

abbrev Mpi := Nat → Option Active

/-! ## History -/

/-- What the run has done so far, in order. -/
inductive Event
  /-- `process` built the context of the calling task and executed `bindEvents(1)`. -/
  | bind (op : Op)
  /-- The operation entered its pre-queue. -/
  | push (op : Op)
  /-- `waitEventsCompletion` was called, and returned. -/
  | block (ctx : TaskContext)
  | resume (ctx : TaskContext)
  | issue (id : OpId) (call : MpiCall) (request : Request)
  /-- An MPI test call was made. -/
  | test
  /-- The test call reported the request of this operation as complete, with this status. -/
  | report (id : OpId) (status : Status)
  /-- `storeStatus` wrote the location of the caller. -/
  | store (id : OpId) (location : Nat) (status : Status)
  /-- The context was handed to the completion manager. -/
  | transfer (ctx : TaskContext)
  /-- `completeEvents(1, true)` was executed. -/
  | notify (ctx : TaskContext)
  deriving DecidableEq, Repr

/-- The ALPI calls an event consists of. -/
def Event.alpiCalls : Event → List AlpiCall
  | .bind op => op.context.bindEvents 1
  | .block ctx => ctx.waitEventsCompletion
  | .notify ctx => ctx.completeEvents 1 true
  | _ => []

/-! ## Testing requests -/

inductive TestingApproach
  | test
  | testSome
  | testAny
  | none
  deriving DecidableEq, Repr

/-- The arguments and local variables of `internalTestRequests`: the requests start at `roff` of
their array and the indices go to `ioff` of theirs; `next` is `processed` under `testAny` and `r`
under `test`. -/
structure Test where
  roff : Nat
  ioff : Nat
  count : Nat
  next : Nat
  completed : Nat
  deriving DecidableEq, Repr

def Test.start (roff ioff count : Nat) : Test := ⟨roff, ioff, count, 0, 0⟩

/-- The memory `internalTestRequests` works on. -/
structure Buffers where
  requests : Nat → Request
  indices : Nat → Nat
  statuses : Nat → Status
  mpi : Mpi
  log : List Event

/-- MPI reports request `i`: its index and status go to the next places of the output arrays and
its handle is nulled. `none` when the request is not a completed active one. -/
def Test.report (t : Test) (b : Buffers) (i : Nat) : Option (Test × Buffers) :=
  match b.requests (t.roff + i) with
  | some h =>
    match b.mpi h with
    | some ⟨id, some status⟩ =>
      some ({ t with completed := t.completed + 1 },
        { requests := update b.requests (t.roff + i) none
          indices := update b.indices (t.ioff + t.completed) i
          statuses := update b.statuses t.completed status
          mpi := update b.mpi h none
          log := b.log ++ [.report id status] })
    | _ => none
  | none => none

def Test.reportAll (t : Test) (b : Buffers) : List Nat → Option (Test × Buffers)
  | [] => some (t, b)
  | i :: is => (t.report b i).bind fun p => reportAll p.1 p.2 is

/-- No request of the slice from `first` on is active: MPI then answers `MPI_UNDEFINED`. -/
def Test.undefined (t : Test) (b : Buffers) (first : Nat) : Bool :=
  (List.range (t.count - first)).all fun i => (b.requests (t.roff + first + i)).isNone

/-- What MPI answers: the indices of `MPI_Testsome`, the index of `MPI_Testany` relative to the
slice it was given, the flag of `MPI_Test`, or the request of an immediate call; or the time. -/
inductive Answer
  | silent
  | issued (request : Request)
  | some (indices : List Nat)
  | any (index : Option Nat)
  | flag (completed : Bool)
  | now (ms : Rat)
  deriving DecidableEq

inductive TestResult
  /-- `Unexpected output from MPI_Testany` or `MPI_Testsome`. -/
  | failed (b : Buffers)
  | running (t : Test) (b : Buffers)
  | returned (completed : Nat) (b : Buffers)

def Buffers.call (b : Buffers) : Buffers := { b with log := b.log ++ [.test] }

/-- The next MPI call of `internalTestRequests` and what follows it. -/
def internalTestRequests (approach : TestingApproach) (t : Test) (b : Buffers) (a : Answer) :
    Option TestResult :=
  match approach with
  | .testSome =>
    if t.undefined b 0 then some (.failed b.call)
    else match a with
      | .some is =>
        if is.all (· < t.count) then
          (t.reportAll b.call is).map fun p => .returned p.1.completed p.2
        else none
      | _ => none
  | .testAny =>
    if t.next < t.count then
      if t.undefined b t.next then some (.failed b.call)
      else match a with
        | .any none => some (.returned t.completed b.call)
        | .any (some index) =>
          let index := index + t.next
          if index < t.count then
            (t.report b.call index).map fun p => .running { p.1 with next := index + 1 } p.2
          else none
        | _ => none
    else some (.returned t.completed b)
  | .test =>
    if t.next < t.count then
      match b.requests (t.roff + t.next), a with
      | none, _ =>
        -- MPI_Test on a null request: complete, with an empty status
        some (.running { t with next := t.next + 1, completed := t.completed + 1 }
          { b.call with
            indices := update b.indices (t.ioff + t.completed) t.next
            statuses := update b.statuses t.completed default })
      | _, .flag true =>
        (t.report b.call t.next).map fun p => .running { p.1 with next := t.next + 1 } p.2
      | _, .flag false => some (.running { t with next := t.next + 1 } b.call)
      | _, _ => none
    else some (.returned t.completed b)
  | .none => some (.returned 0 b)

end Tampi
