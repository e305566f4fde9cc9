import Tampi.Model.System
import Tampi.Spec.Invariants
import Tampi.Verify.Compaction
import Tampi.Verify.QueueCalls
import Tampi.Verify.TestRequests

/-! # The life a state stands for, and the invariant of the code

`Sys.life` reads the life of the operations off the queues, the local variables of the polling task
and the in-flight arrays; `Sys.Inv` is what holds of them in every reachable state. -/

namespace Tampi
open Function (update)
open Compaction (valid)

/-! ## `transferOperations` -/

namespace Transfer
variable (x : Transfer)

def ticketAt (entry : Nat) : Ticket := x.tickets.getD entry default

/-- The ticket of a request; it is not read once the entry of the request is `-1`. -/
def ticketOf (r : Nat) : Ticket := x.ticketAt ((x.req2entry.getD r none).getD 0)

/-- The requests not yet moved to the in-flight arrays. -/
def waiting : List Nat :=
  match x.phase with
  | .append r => List.range' r (x.req2entry.length - r)
  | .free => []
  | _ => List.range' 0 x.req2entry.length

def inflight : Multiset Slot := slots x.waiting x.requests x.ticketOf

/-- The tickets that have completed and are not yet delivered. -/
def undelivered (completionEnabled : Bool) : List Ticket :=
  match x.phase with
  | .issue => x.complentries.map x.ticketAt
  | .test t => x.complentries.map x.ticketAt ++ (t.reported x.testcompl2req).map x.ticketOf
  | .filter c n =>
    x.complentries.map x.ticketAt ++
      (List.range' c (n - c)).map fun j => x.ticketOf (x.testcompl2req j)
  | .process c => (x.complentries.drop (if completionEnabled then 0 else c)).map x.ticketAt
  | .handoff => if completionEnabled then x.complentries.map x.ticketAt else []
  | .append _ | .free => []

end Transfer

/-! ## `internalCheckRequests` -/

namespace Check
variable (k : Check)

/-- The positions the current batch has found completed; the code adds the batch offset to an
index when it comes to it. -/
def batchPositions (indices : Nat → Nat) : List Nat :=
  match k.phase with
  | .test t => (t.reported indices).map (k.checked + ·)
  | .store c n => (List.range n).map fun j =>
    if j < c then indices (k.completed + j) else k.checked + indices (k.completed + j)
  | .deliver c n => (List.range n).map fun j =>
    if j < c + 1 then indices (k.completed + j) else k.checked + indices (k.completed + j)
  | .handoff n => (List.range n).map fun j => indices (k.completed + j)
  | .replace => []

/-- How many of them have been delivered. -/
def delivered (completionEnabled : Bool) : Nat :=
  if completionEnabled then 0
  else match k.phase with
    | .store c _ | .deliver c _ => c
    | .handoff n => n
    | _ => 0

def undelivered (completionEnabled : Bool) (arrays : Arrays) : List Ticket :=
  ((k.batchPositions arrays.indices).drop (k.delivered completionEnabled)).map
    arrays.getAssociatedTicket

end Check

/-! ## The life of the operations -/

def Line.kind : Line → OpKind
  | .p2p _ => .p2p
  | .coll => .coll

theorem OpId.line_kind (id : OpId) : id.line.kind = id.kind := by
  unfold OpId.line
  cases id.kind <;> rfl

namespace Sys
variable (cfg : Config) (s : Sys)

/-- The objects that wait in a line. -/
def waiting : Line → List Nat
  | .p2p cpu => s.p2pOperations.contents cfg.queue cpu
  | .coll => s.collOperations

def queue (line : Line) : List Op := (s.waiting cfg line).map (s.objects line.kind)

def batch : List Op :=
  match s.poll with
  | .transfer _ _ _ x => (x.operations.drop x.tickets.length).map (s.objects x.kind)
  | _ => s.p2pOperations.consumer.vals.map (s.objects .p2p)

def inflight : Multiset Slot :=
  slots (List.range s.manager.pending) s.manager.arrays.requests
    s.manager.arrays.getAssociatedTicket +
  match s.poll with
  | .transfer _ _ _ x => x.inflight
  | _ => 0

def undelivered : List Ticket :=
  match s.poll with
  | .transfer _ _ _ x => x.undelivered cfg.completionEnabled
  | .check _ _ k => k.undelivered cfg.completionEnabled s.manager.arrays
  | _ => []

def agent (task : Handle) : Agent :=
  match s.tasks task with
  | .ready => .ready
  | .blocked ctx => .blocked ctx
  | .inProcess cpu =>
    match s.cpus cpu with
    | .idle => .ready
    | .bound op => .bound op
    | .allocated kind object _ => .bound (s.objects kind object)
    | .pushing object _ => .bound (s.objects .p2p object)
    | .pushed ctx => .pushed ctx

def life : Life where
  queue := s.queue cfg
  batch := s.batch
  inflight := s.inflight
  completed := s.undelivered cfg
  completions := s.completions.contents
  agents := s.agent
  permits := s.permits
  mpi := s.mpi
  memory := s.memory
  serial := s.serial
  log := s.log

end Sys

/-! ## The invariant -/

/-- The object holds the operation the task is submitting on this CPU. -/
structure Submitting (objects : OpKind → Nat → Op) (tasks : Handle → TaskState) (cpu : Nat)
    (kind : OpKind) (object : Nat) (ctx : TaskContext) : Prop where
  context : (objects kind object).context = ctx
  id_cpu : (objects kind object).id.cpu = cpu
  id_kind : (objects kind object).id.kind = kind
  task : tasks ctx.task = .inProcess cpu

def CpuInv (objects : OpKind → Nat → Op) (tasks : Handle → TaskState) (producer : Producer Nat)
    (cpu : Nat) : Cpu → Prop
  | .idle => producer.free
  | .bound op => producer.free ∧ op.id.cpu = cpu ∧ op.id.kind = op.kind ∧
    tasks op.task = .inProcess cpu
  | .allocated kind object ctx => producer.free ∧ Submitting objects tasks cpu kind object ctx
  | .pushing object ctx => producer.Pushes object ∧ Submitting objects tasks cpu .p2p object ctx
  | .pushed ctx => producer.free ∧ tasks ctx.task = .inProcess cpu

/-- The task that is in `process` on a CPU. -/
def Cpu.task : Cpu → Option Handle
  | .idle => none
  | .bound op => some op.task
  | .allocated _ _ ctx | .pushing _ ctx | .pushed ctx => some ctx.task

def TaskInv (cpus : Nat → Cpu) (task : Handle) : TaskState → Prop
  | .ready => True
  | .inProcess cpu => (cpus cpu).task = some task
  | .blocked ctx => ctx.task = task

/-- The object a CPU has allocated and not yet pushed. -/
def Cpu.held (kind : OpKind) : Cpu → Multiset Nat
  | .allocated k object _ => if k = kind then {object} else 0
  | .pushing object _ => if kind = .p2p then {object} else 0
  | _ => 0

def Poll.transferring (kind : OpKind) : Poll → Multiset Nat
  | .transfer _ _ _ x => if x.kind = kind then x.operations else 0
  | _ => 0

namespace Sys
variable (cfg : Config) (s : Sys)

def queued : OpKind → Multiset Nat
  | .p2p => ∑ c ∈ Finset.range cfg.cpus, (s.p2pOperations.contents cfg.queue c : Multiset Nat) +
    s.p2pOperations.consumer.vals
  | .coll => s.collOperations

/-- The objects that hold an operation. -/
def live (kind : OpKind) : Multiset Nat :=
  ∑ c ∈ Finset.range cfg.cpus, (s.cpus c).held kind + s.queued cfg kind + s.poll.transferring kind

end Sys

def ObjAllocator.unused (a : ObjAllocator) (cpus : Nat) : Multiset Nat :=
  a.central + ∑ c ∈ Finset.range cpus, (a.caches c : Multiset Nat)

/-- The window leaves room in the in-flight arrays for what it still admits. -/
structure Window.Fits (w : Window) (pending capacity : Nat) : Prop where
  le : w.ntotal ≤ w.navailable
  room : pending + (w.navailable - w.ntotal) ≤ capacity

/-- The requests at the positions from `first` to `last` are not null. -/
def Arrays.Active (a : Arrays) (first last : Nat) : Prop :=
  ∀ p, first ≤ p → p < last → a.requests p ≠ none

namespace Transfer
variable (cfg : Config) (log : List Event) (x : Transfer)

/-- The immediately completed requests from the `c`-th on are still to be filtered out. -/
structure FilterInv (c n : Nat) : Prop where
  le : c ≤ n
  sorted : ∀ i j, c ≤ i → i < j → j < n → x.testcompl2req i < x.testcompl2req j
  lt_nreqs : ∀ j, c ≤ j → j < n → x.testcompl2req j < x.req2entry.length
  entry : ∀ j, c ≤ j → j < n → x.req2entry.getD (x.testcompl2req j) none ≠ none
  null_iff : ∀ r < x.req2entry.length, x.requests r = none ↔
    x.req2entry.getD r none = none ∨ ∃ j, c ≤ j ∧ j < n ∧ x.testcompl2req j = r
  status : ∀ j, c ≤ j → j < n →
    .report (x.ticketOf (x.testcompl2req j)).id (x.statuses j) ∈ log

/-- The requests that have not completed are those that kept their entry. -/
def Filtered : Prop :=
  ∀ r < x.req2entry.length, x.requests r = none ↔ x.req2entry.getD r none = none

def PhaseInv : Prop :=
  match x.phase with
  | .issue =>
    (∀ r < x.req2entry.length, x.requests r ≠ none ∧ x.req2entry.getD r none ≠ none) ∧
    x.contexts = []
  | .test t =>
    t.roff = 0 ∧ t.ioff = 0 ∧ t.count = x.req2entry.length ∧
    (∀ r < x.req2entry.length, x.req2entry.getD r none ≠ none) ∧
    Testing cfg.immediateTesting x.ticketOf t x.requests x.testcompl2req x.statuses log ∧
    x.contexts = []
  | .filter c n => x.FilterInv log c n ∧ x.contexts = []
  | .process c => x.Filtered ∧ c ≤ x.complentries.length ∧
    x.contexts = if cfg.completionEnabled then
      (x.complentries.take c).map fun e => (x.ticketAt e).context else []
  | .handoff => x.Filtered ∧
    x.contexts = if cfg.completionEnabled then
      x.complentries.map fun e => (x.ticketAt e).context else []
  | .append _ => x.Filtered
  | .free => True

/-- The slots of the in-flight arrays the transfer may still need. -/
def toAppend : Nat :=
  match x.phase with
  | .append r => x.req2entry.length - r
  | .free => 0
  | _ => x.operations.length

def Issued : Prop :=
  match x.phase with
  | .issue => True
  | _ => x.tickets.length = x.operations.length

structure Inv (w : Window) (pending capacity : Nat) : Prop where
  count_le : x.operations.length ≤ min (w.navailable - w.ntotal) BatchSize
  tickets_le : x.tickets.length ≤ x.operations.length
  issued : x.Issued
  nreqs_le : x.req2entry.length ≤ x.tickets.length
  room : pending + x.toAppend + (w.navailable - w.ntotal - x.operations.length) ≤ capacity
  complentries_lt : ∀ e ∈ x.complentries, e < x.tickets.length
  req2entry_lt : ∀ r e, x.req2entry.getD r none = some e → e < x.tickets.length
  settled : ∀ e ∈ x.complentries, Settled log (x.ticketAt e)
  phase : x.PhaseInv cfg log

end Transfer

namespace Check
variable (cfg : Config) (log : List Event) (pending : Nat) (arrays : Arrays) (k : Check)

/-- The length of the current batch. -/
def count : Nat := min (pending - k.checked) BatchSize

/-- The positions of the current batch, found completed; for the first `d` of them the status is
stored and of the first `c` the contexts are collected. -/
structure BatchInv (positions : List Nat) (d c : Nat) : Prop where
  sorted : positions.Pairwise (· < ·)
  null_iff : ∀ p, k.checked ≤ p → p < k.checked + k.count pending →
    (arrays.requests p = none ↔ p ∈ positions)
  mem : ∀ p ∈ positions, k.checked ≤ p ∧ p < k.checked + k.count pending
  active : arrays.Active (k.checked + k.count pending) pending
  settled : ∀ p ∈ positions.take d, Settled log (arrays.getAssociatedTicket p)
  status : ∀ j (h : j < positions.length), d ≤ j →
    .report (arrays.getAssociatedTicket positions[j]).id (arrays.statuses j) ∈ log
  contexts : k.contexts = if cfg.completionEnabled then
    (positions.take c).map fun p => (arrays.getAssociatedTicket p).context else []

def PhaseInv : Prop :=
  match k.phase with
  | .test t =>
    t.roff = k.checked ∧ t.ioff = k.completed ∧ t.count = k.count pending ∧ k.contexts = [] ∧
    arrays.Active (k.checked + k.count pending) pending ∧
    Testing cfg.generalTesting arrays.getAssociatedTicket t arrays.requests arrays.indices
      arrays.statuses log
  | .store c n => c ≤ n ∧
    k.BatchInv cfg log pending arrays (k.batchPositions arrays.indices) c c
  | .deliver c n => c < n ∧
    k.BatchInv cfg log pending arrays (k.batchPositions arrays.indices) (c + 1) c
  | .handoff n => k.BatchInv cfg log pending arrays (k.batchPositions arrays.indices) n n
  | .replace => k.checked = pending

structure Inv : Prop where
  sorted : ∀ i j, i < j → j < k.completed → arrays.indices i < arrays.indices j
  lt_checked : ∀ j < k.completed, arrays.indices j < k.checked
  null_iff : ∀ p < k.checked, arrays.requests p = none ↔ ∃ j < k.completed, arrays.indices j = p
  checked_le : k.checked ≤ pending
  phase : k.PhaseInv cfg log pending arrays

end Check

def PollInv (cfg : Config) (m : TicketManager) (consumer : Consumer Nat) (log : List Event) :
    Poll → Prop
  | .idle | .top _ | .evaluate _ | .bottom _ _ => consumer = .idle ∧ m.arrays.Active 0 m.pending
  | .p2p _ w | .coll _ w _ =>
    consumer = .idle ∧ m.arrays.Active 0 m.pending ∧ w.Fits m.pending m.capacityCtrl.capacity
  | .popping _ w =>
    consumer.limit ≤ min (w.navailable - w.ntotal) BatchSize ∧
    m.arrays.Active 0 m.pending ∧ w.Fits m.pending m.capacityCtrl.capacity
  | .transfer _ w _ x =>
    consumer = .idle ∧ m.arrays.Active 0 m.pending ∧ w.ntotal ≤ w.navailable ∧
    x.Inv cfg log w m.pending m.capacityCtrl.capacity
  | .check _ _ k => consumer = .idle ∧ k.Inv cfg log m.pending m.arrays

namespace Sys

structure Inv (cfg : Config) (s : Sys) : Prop where
  queue : MultiLockFreeQueue.QueueInv cfg.queue s.p2pOperations
  cpus : ∀ c, CpuInv s.objects s.tasks (s.p2pOperations.producer c) c (s.cpus c)
  tasks : ∀ task, TaskInv s.cpus task (s.tasks task)
  outside : ∀ c, cfg.cpus ≤ c → s.cpus c = .idle ∧ s.p2pOperations.contents cfg.queue c = []
  objects : ∀ kind, (s.allocators kind).unused cfg.cpus + s.live cfg kind =
    Multiset.range (cfg.sizes.objects kind)
  self : s.manager.arrays.SelfMapped s.manager.pending
  pending_le : s.manager.pending ≤ s.manager.capacityCtrl.capacity
  consuming : ∀ left, s.consuming = some left → left ≤ s.completions.contents.length
  poll : PollInv cfg s.manager s.p2pOperations.consumer s.log s.poll

end Sys

/-- The failures the invariant leaves possible: a full queue, no more objects, and an operation
that cannot be issued. -/
def Failure.Allowed : Failure → Prop
  | .queueFull | .collQueueFull | .noObjects | .contextsFull | .invalidOperation
  | .invalidCollOperation => True
  | .testany | .testsome | .assertion _ => False

/-- The completed operations do not fit in the completion queue. -/
def Sys.Crowded (cfg : Config) (s : Sys) : Prop :=
  cfg.sizes.completionQueue <
    (s.undelivered cfg).length + s.completions.contents.length + s.completions.unreleased

/-- A step of the code is a run of the life, or it stops at an allowed failure. -/
inductive Sim (cfg : Config) (s s' : Sys) : Prop
  | ok : s'.failure = none → s'.Inv cfg → (s.life cfg).Steps (s'.life cfg) → Sim cfg s s'
  | failed : s'.failure = some f → f.Allowed → (f = .contextsFull → s.Crowded cfg) →
    s'.log = s.log → s'.memory = s.memory → Sim cfg s s'

end Tampi
