import Tampi.Model.Allocator
import Tampi.Model.MultiLockFreeQueue
import Tampi.Model.TicketManager

/-! # The library under its tasks
(`OperationManager.hpp`, `TicketManager.hpp`, `CompletionManager.hpp`)

User tasks run `OperationManager::process` on the logical CPUs, the polling task runs
`TicketManager::checkRequests`, the completion task runs `CompletionManager::process`, and MPI
completes requests, in any interleaving of the steps that touch shared memory. There is no
scheduling point between `bindEvents` and the end of the push, so a CPU runs one such section at a
time and owns the producer side of its queue during it. -/

namespace Tampi
open Function (update)

/-- The sizes fixed in the source, and the objects of the allocators. -/
structure Sizes where
  p2pQueue : Nat
  collQueue : Nat
  completionQueue : Nat
  operations : Nat
  collOperations : Nat
  two_le : 2 ≤ p2pQueue
  lt_word : p2pQueue < 2 ^ 64

def Sizes.source : Sizes where
  p2pQueue := 32 * 1024
  collQueue := 32 * 1024
  completionQueue := 32 * 1024
  operations := 64 * 1000
  collOperations := 8 * 1000
  two_le := by decide
  lt_word := by decide

def Sizes.objects (z : Sizes) : OpKind → Nat
  | .p2p => z.operations
  | .coll => z.collOperations

/-- What the environment of the process fixes. The constructor of the ticket manager rejects
`none` as the general approach. -/
structure Config where
  sizes : Sizes
  cpus : Nat
  cpus_pos : 0 < cpus
  generalTesting : TestingApproach
  immediateTesting : TestingApproach
  general_ne : generalTesting ≠ .none
  completionEnabled : Bool
  capacityCtrl : CapacityCtrl
  p2pFullFailure : Bool
  collFullFailure : Bool

/-- The configuration when no environment variable is set. -/
def Config.defaults (cpus : Nat) (h : 0 < cpus) : Config where
  sizes := .source
  cpus := cpus
  cpus_pos := h
  generalTesting := .testSome
  immediateTesting := .testSome
  general_ne := by decide
  completionEnabled := true
  capacityCtrl := .defaults
  p2pFullFailure := true
  collFullFailure := false

def Config.queue (cfg : Config) : QueueParams where
  capacity := cfg.sizes.p2pQueue
  queues := cfg.cpus
  policy := .cyclicRoundRobin
  two_le := cfg.sizes.two_le
  lt_word := cfg.sizes.lt_word

/-- Where the code stops: `ErrorHandler::fail`, a failed assertion, or a read outside an array. -/
inductive Failure
  | queueFull
  | collQueueFull
  | noObjects
  | contextsFull
  | testany
  | testsome
  | invalidOperation
  | invalidCollOperation
  | assertion (condition : String)
  deriving DecidableEq, Repr

def Failure.message : Failure → String
  | .queueFull => "MultiLockFreeQueue is full"
  | .collQueueFull => "BoostLockFreeQueue is full"
  | .noObjects => "Unavailable allocator objects"
  | .contextsFull => "Failed to push task contexts"
  | .testany => "Unexpected output from MPI_Testany"
  | .testsome => "Unexpected output from MPI_Testsome"
  | .invalidOperation => "Invalid operation "
  | .invalidCollOperation => "Invalid large operation "
  | .assertion condition => condition

/-- What a CPU is doing of a call of `process`. -/
inductive Cpu
  | idle
  /-- The events are bound; `op` is the operation about to be constructed. -/
  | bound (op : Op)
  /-- The object is constructed, about to enter `addOperation`. -/
  | allocated (kind : OpKind) (object : Nat) (ctx : TaskContext)
  /-- In the push of a point-to-point operation. -/
  | pushing (object : Nat) (ctx : TaskContext)
  /-- A blocking operation is pushed, about to wait for it. -/
  | pushed (ctx : TaskContext)

inductive TaskState
  /-- Outside `process`. -/
  | ready
  | inProcess (cpu : Nat)
  /-- In `alpi_task_block`. -/
  | blocked (ctx : TaskContext)
  deriving DecidableEq

structure Sys where
  allocators : OpKind → ObjAllocator
  objects : OpKind → Nat → Op
  p2pOperations : MultiLockFreeQueue Nat
  collOperations : List Nat
  manager : TicketManager
  completions : SpscQueue TaskContext
  /-- The contexts the completion task still has to complete, when it is in `process`. -/
  consuming : Option Nat
  mpi : Mpi
  /-- The memory the callers gave for the statuses. -/
  memory : Nat → Status
  cpus : Nat → Cpu
  tasks : Handle → TaskState
  /-- The unblocks of a task not yet consumed by a block. -/
  permits : Handle → Nat
  poll : Poll
  failure : Option Failure
  serial : Nat
  log : List Event

namespace Sys
variable (cfg : Config) (s : Sys)

def fail (f : Failure) : Sys := { s with failure := some f }

/-! ## `OperationManager::process` -/

/-- `process` is entered: the task context is constructed and one event bound to it. -/
def process (cpu : Nat) (task : Handle) (nature : OpNature) (args : Op) : Sys :=
  let op := args.construct s.serial cpu task nature
  { s with
    cpus := update s.cpus cpu (.bound op)
    tasks := update s.tasks task (.inProcess cpu)
    serial := s.serial + 1
    log := s.log ++ [.bind op] }

def alloc (cpu : Nat) (op : Op) : Sys :=
  match (s.allocators op.kind).alloc cpu with
  | none => s.fail .noObjects
  | some (object, a) =>
    { s with
      allocators := update s.allocators op.kind a
      objects := update s.objects op.kind (update (s.objects op.kind) object op)
      cpus := update s.cpus cpu (.allocated op.kind object op.context) }

/-- `addOperation` has returned. -/
def pushDone (cpu : Nat) (kind : OpKind) (object : Nat) (ctx : TaskContext) : Sys :=
  { s with
    cpus := update s.cpus cpu (if ctx.blocking then .pushed ctx else .idle)
    tasks := if ctx.blocking then s.tasks else update s.tasks ctx.task .ready
    log := s.log ++ [.push (s.objects kind object)] }

/-- `_collOperations.push`, under the lock of the producers; without the full failure the producer
keeps trying. -/
def pushColl (cpu object : Nat) (ctx : TaskContext) : Sys :=
  if s.collOperations.length < cfg.sizes.collQueue then
    { s with collOperations := s.collOperations ++ [object] }.pushDone cpu .coll object ctx
  else if cfg.collFullFailure then s.fail .collQueueFull else s

/-- The next step of `_p2pOperations.push`. -/
def pushP2P (cpu object : Nat) (ctx : TaskContext) : Option Sys :=
  (s.p2pOperations.producerStep cfg.queue cpu).map fun q =>
    let s := { s with p2pOperations := q }
    match q.producer cpu with
    | .returned true => s.pushDone cpu .p2p object ctx
    | .returned false =>
      if cfg.p2pFullFailure then s.fail .queueFull
      else { s with cpus := update s.cpus cpu (.allocated .p2p object ctx) }
    | _ => s

def cpuStep (cpu : Nat) : Option Sys :=
  match s.cpus cpu with
  | .idle => none
  | .bound op => some (s.alloc cpu op)
  | .allocated .p2p object ctx =>
    some { s with
      p2pOperations := s.p2pOperations.push cpu object
      cpus := update s.cpus cpu (.pushing object ctx) }
  | .allocated .coll object ctx => some (s.pushColl cfg cpu object ctx)
  | .pushing object ctx => s.pushP2P cfg cpu object ctx
  | .pushed ctx =>
    some { s with
      cpus := update s.cpus cpu .idle
      tasks := update s.tasks ctx.task (.blocked ctx)
      log := s.log ++ [.block ctx] }

/-- `alpi_task_block` returns. -/
def resume (task : Handle) : Option Sys :=
  match s.tasks task with
  | .blocked ctx =>
    if 0 < s.permits task then
      some { s with
        tasks := update s.tasks task .ready
        permits := update s.permits task (s.permits task - 1)
        log := s.log ++ [.resume ctx] }
    else none
  | _ => none

/-! ## Completions -/

/-- `completeEvents(1, true)`. -/
def complete (ctx : TaskContext) : Sys :=
  { s with
    permits := if ctx.blocking then update s.permits ctx.task (s.permits ctx.task + 1)
      else s.permits
    log := s.log ++ [.notify ctx] }

/-- `CompletionManager::transfer`. -/
def transferContexts (contexts : List TaskContext) : Sys :=
  if s.completions.room cfg.sizes.completionQueue < contexts.length then
    { s with completions := s.completions.push cfg.sizes.completionQueue contexts }.fail
      .contextsFull
  else
    { s with
      completions := s.completions.push cfg.sizes.completionQueue contexts
      log := s.log ++ contexts.map .transfer }

/-- The next step of `CompletionManager::process`. -/
def completionStep : Option Sys :=
  match s.consuming with
  | none =>
    if s.completions.contents = [] then none
    else some { s with consuming := some s.completions.contents.length }
  | some 0 =>
    some { s with completions := { s.completions with unreleased := 0 }, consuming := none }
  | some (left + 1) =>
    match s.completions.contents with
    | [] => none
    | ctx :: rest =>
      some ({ s with
        completions := ⟨rest, s.completions.unreleased + 1⟩
        consuming := some left }.complete ctx)

/-! ## `transferOperations` -/

def storeStatus (ticket : Ticket) (status : Status) (position : Nat) : Sys :=
  match ticket.firstStatus with
  | .ignore => s
  | .addr location =>
    { s with
      memory := update s.memory (location + position) status
      log := s.log ++ [.store ticket.context.id (location + position) status] }

/-- `Ticket(*operations[e])` and `operations[e]->issue()`; the request MPI returns is not in use. -/
def issue (x : Transfer) (op : Op) (call : MpiCall) (request : Request) :
    Option (Sys × Transfer) :=
  let x' := { x with
    tickets := x.tickets ++ [Ticket.ofOp op]
    requests := update x.requests x.req2entry.length request }
  let log := s.log ++ [.issue op.id call request]
  match request with
  | none =>
    some ({ s with log := log }, { x' with complentries := x.complentries ++ [x.tickets.length] })
  | some h =>
    if s.mpi h = none then
      some ({ s with mpi := update s.mpi h (some ⟨op.id, none⟩), log := log },
        { x' with req2entry := x.req2entry ++ [some x.tickets.length] })
    else none

/-- The next step of `transferOperations`, with the poll point it leads to. -/
def transferStep (total : Nat) (w : Window) (np2p : Nat) (x : Transfer) (a : Answer) :
    Option Sys :=
  let go (s : Sys) (x : Transfer) : Sys := { s with poll := .transfer total w np2p x }
  match x.phase with
  | .issue =>
    match x.operations[x.tickets.length]? with
    | some object =>
      let op := s.objects x.kind object
      match op.issue, a with
      | none, _ =>
        some (s.fail (match op.kind with
          | .p2p => .invalidOperation
          | .coll => .invalidCollOperation))
      | some call, .issued request => (s.issue x op call request).map fun p => go p.1 p.2
      | _, _ => none
    | none =>
      some (go s { x with
        phase := if 0 < x.req2entry.length then .test (.start 0 0 x.req2entry.length)
          else .filter 0 0 })
  | .test t =>
    let b : Buffers := ⟨x.requests, x.testcompl2req, x.statuses, s.mpi, s.log⟩
    let put (b : Buffers) (phase : TransferPhase) : Sys :=
      go { s with mpi := b.mpi, log := b.log } { x with
        requests := b.requests, testcompl2req := b.indices, statuses := b.statuses, phase := phase }
    (internalTestRequests cfg.immediateTesting t b a).map fun
      | .failed b =>
        { s with log := b.log }.fail
          (if cfg.immediateTesting = TestingApproach.testSome then .testsome else .testany)
      | .running t b => put b (.test t)
      | .returned n b => put b (.filter 0 n)
  | .filter c n =>
    if c < n then
      let req := x.testcompl2req c
      match x.req2entry.getD req none with
      | none => some (s.fail (.assertion "0 <= req2entry[req]"))
      | some entry =>
        let ticket := x.tickets.getD entry default
        let s := if ticket.ignoreStatus then s else s.storeStatus ticket (x.statuses c) 0
        some (go s { x with
          complentries := x.complentries ++ [entry]
          req2entry := x.req2entry.set req none
          phase := .filter (c + 1) n })
    else some (go s { x with phase := .process 0 })
  | .process c =>
    if c < x.complentries.length then
      let ticket := x.tickets.getD (x.complentries.getD c 0) default
      if cfg.completionEnabled then
        some (go s { x with contexts := x.contexts ++ [ticket.context], phase := .process (c + 1) })
      else some (go (s.complete ticket.context) { x with phase := .process (c + 1) })
    else some (go s { x with phase := .handoff })
  | .handoff =>
    let s := if cfg.completionEnabled ∧ 0 < x.complentries.length then
      s.transferContexts cfg x.contexts else s
    some (if s.failure.isSome then s else go s { x with phase := .append 0 })
  | .append r =>
    if r < x.req2entry.length then
      match x.req2entry.getD r none with
      | none => some (go s { x with phase := .append (r + 1) })
      | some entry =>
        let position := s.manager.pending
        let arrays := (s.manager.arrays.allocateTicket position
          (x.tickets.getD entry default)).associateRequest position (x.requests r) position 0
        some (go { s with manager := { s.manager with arrays := arrays, pending := position + 1 } }
          { x with phase := .append (r + 1) })
    else some (go s { x with phase := .free })
  | .free =>
    let count := x.operations.length
    let allocator := s.allocators x.kind
    let w := { w with ntotal := w.ntotal + count }
    if cfg.sizes.objects x.kind - allocator.central.length < count then
      some (s.fail (.assertion "pushed == n"))
    else
      some { s with
        allocators := update s.allocators x.kind
          (allocator.free (cfg.sizes.objects x.kind) x.operations)
        poll := match x.kind with
          | .p2p => .coll total w count
          | .coll => nextWindow total w np2p count }

/-- `transferOperations` is entered. -/
def enterTransfer (total : Nat) (w : Window) (np2p : Nat) (kind : OpKind) (objects : List Nat) :
    Sys :=
  if BatchSize < objects.length then s.fail (.assertion "count <= BatchSize")
  else if s.manager.capacityCtrl.capacity < s.manager.pending + objects.length then
    s.fail (.assertion "_pending + count <= _capacityCtrl.get()")
  else { s with poll := .transfer total w np2p (.start kind objects) }

/-! ## `internalCheckRequests` -/

def checkStep (total inserted : Nat) (k : Check) (a : Answer) : Option Sys :=
  let go (s : Sys) (k : Check) : Sys := { s with poll := .check total inserted k }
  let arrays := s.manager.arrays
  match k.phase with
  | .test t =>
    let b : Buffers := ⟨arrays.requests, arrays.indices, arrays.statuses, s.mpi, s.log⟩
    let put (b : Buffers) (phase : CheckPhase) : Sys :=
      go { s with
        manager := { s.manager with
          arrays := { arrays with
            requests := b.requests, indices := b.indices, statuses := b.statuses } }
        mpi := b.mpi, log := b.log } { k with phase := phase }
    (internalTestRequests cfg.generalTesting t b a).map fun
      | .failed b =>
        { s with log := b.log }.fail
          (if cfg.generalTesting = TestingApproach.testSome then .testsome else .testany)
      | .running t b => put b (.test t)
      | .returned n b => put b (.store 0 n)
  | .store c n =>
    if c < n then
      let index := arrays.indices (k.completed + c) + k.checked
      let s := { s with
        manager := { s.manager with
          arrays := { arrays with indices := update arrays.indices (k.completed + c) index } } }
      let ticket := arrays.getAssociatedTicket index
      let s := if ticket.ignoreStatus then s
        else s.storeStatus ticket (arrays.statuses c) (arrays.getLocalPositionInTicket index)
      some (go s { k with phase := .deliver c n })
    else some (go s { k with phase := .handoff n })
  | .deliver c n =>
    let ticket := arrays.getAssociatedTicket (arrays.indices (k.completed + c))
    if cfg.completionEnabled then
      some (go s { k with contexts := k.contexts ++ [ticket.context], phase := .store (c + 1) n })
    else some (go (s.complete ticket.context) { k with phase := .store (c + 1) n })
  | .handoff n =>
    let s := if cfg.completionEnabled ∧ 0 < n then s.transferContexts cfg k.contexts else s
    let checked := k.checked + min (s.manager.pending - k.checked) BatchSize
    some (if s.failure.isSome then s
      else if checked < s.manager.pending then
        go s (.batch s.manager.pending checked (k.completed + n))
      else go s ⟨checked, k.completed + n, [], .replace⟩)
  | .replace =>
    match arrays.replace s.manager.pending k.completed with
    | none => some (s.fail (.assertion "source != destination"))
    | some arrays =>
      some { s with
        manager := { s.manager with
          arrays := arrays, pending := s.manager.pending - k.completed }
        poll := nextRound total inserted k.completed }

/-! ## `checkRequests` -/

/-- The next step of the polling task. -/
def pollStep (a : Answer) : Option Sys :=
  match s.poll with
  | .idle => some { s with poll := .top 0 }
  | .top total =>
    let pending := s.manager.pending
    let capacity := s.manager.capacityCtrl.capacity
    some { s with
      poll := if pending < capacity then .p2p total ⟨min (capacity - pending) (BatchSize * 2), 0⟩
        else .bottom total 0 }
  | .p2p total w =>
    some { s with
      p2pOperations := s.p2pOperations.pop cfg.queue (min (w.navailable - w.ntotal) BatchSize)
      poll := .popping total w }
  | .popping total w =>
    match s.p2pOperations.consumer with
    | .returned objects =>
      let s := { s with p2pOperations := { s.p2pOperations with consumer := .idle } }
      if objects = [] then some { s with poll := .coll total w 0 }
      else some (s.enterTransfer total w 0 .p2p objects)
    | _ =>
      (s.p2pOperations.consumerStep cfg.queue).map fun q => { s with p2pOperations := q }
  | .coll total w np2p =>
    let n := min (w.navailable - w.ntotal) BatchSize
    let objects := s.collOperations.take n
    let s := { s with collOperations := s.collOperations.drop n }
    if objects = [] then some { s with poll := nextWindow total w np2p 0 }
    else some (s.enterTransfer total w np2p .coll objects)
  | .transfer total w np2p x => s.transferStep cfg total w np2p x a
  | .bottom total inserted =>
    some { s with
      poll := if 0 < s.manager.pending then .check total inserted (.batch s.manager.pending 0 0)
        else nextRound total inserted 0 }
  | .check total inserted k => s.checkStep cfg total inserted k a
  | .evaluate total =>
    match a with
    | .now ms =>
      some { s with
        manager := { s.manager with
          capacityCtrl := s.manager.capacityCtrl.evaluate s.manager.pending total ms }
        poll := .idle }
    | _ => none

/-- The state after the constructors; the memory of the arrays and of the slots is arbitrary. -/
def initial (data : Nat → Nat → Nat) (objects : OpKind → Nat → Op) (arrays : Arrays)
    (memory : Nat → Status) : Sys where
  allocators kind := .init (cfg.sizes.objects kind)
  objects := objects
  p2pOperations := .init data
  collOperations := []
  manager := ⟨0, arrays, cfg.capacityCtrl⟩
  completions := .empty
  consuming := none
  mpi _ := none
  memory := memory
  cpus _ := .idle
  tasks _ := .ready
  permits _ := 0
  poll := .idle
  failure := none
  serial := 0
  log := []

end Sys

inductive Label
  /-- Task `task`, running on `cpu`, calls `process`. -/
  | process (cpu : Nat) (task : Handle) (nature : OpNature) (args : Op)
  /-- The task in `process` on `cpu` takes its next step. -/
  | cpu (cpu : Nat)
  /-- The `alpi_task_block` of the task returns. -/
  | resume (task : Handle)
  /-- The polling task takes its next step, with this answer of MPI. -/
  | poll (answer : Answer)
  /-- The completion task takes its next step. -/
  | completion
  /-- MPI completes a request. -/
  | mpi (request : Nat) (status : Status)

namespace Sys

def step (cfg : Config) (s : Sys) (l : Label) : Option Sys :=
  if s.failure.isSome then none
  else match l with
    | .process cpu task nature args =>
      match s.cpus cpu, s.tasks task with
      | .idle, .ready => if cpu < cfg.cpus then some (s.process cpu task nature args) else none
      | _, _ => none
    | .cpu cpu => s.cpuStep cfg cpu
    | .resume task => s.resume task
    | .poll a => s.pollStep cfg a
    | .completion => s.completionStep
    | .mpi request status =>
      match s.mpi request with
      | some ⟨id, none⟩ => some { s with mpi := update s.mpi request (some ⟨id, some status⟩) }
      | _ => none

end Sys

/-- `MPI_Testsome` returns its indices in ascending order. -/
def Label.Ascending : Label → Prop
  | .poll (.some is) => is.Pairwise (· < ·)
  | _ => True

instance : DecidablePred Label.Ascending
  | .poll (.some is) => inferInstanceAs (Decidable (is.Pairwise (· < ·)))
  | .poll .silent | .poll (.issued _) | .poll (.any _) | .poll (.flag _) | .poll (.now _)
  | .process .. | .cpu _ | .resume _ | .completion | .mpi .. => inferInstanceAs (Decidable True)

/-- The runs in which MPI reports indices in ascending order. -/
def system (cfg : Config) : Transition.System Sys Label where
  init s := ∃ data objects arrays memory, s = .initial cfg data objects arrays memory
  step s l s' := l.Ascending ∧ s.step cfg l = some s'

/-- All runs, whatever the order MPI reports indices in. -/
def openSystem (cfg : Config) : Transition.System Sys Label where
  init := (system cfg).init
  step s l s' := s.step cfg l = some s'

end Tampi
