import Tampi.Model.Interface

/-! # The in-flight arrays and the points of a polling call
(`TicketManagerInternals.hpp`, `TicketManagerCapacityCtrl.hpp`, `TicketManager.hpp`)

`Poll` is where the polling task is in `checkRequests`. A step of it ends at each access to memory
it shares with other tasks: an MPI call, a pop, a status store, a notification, a hand-off. -/

namespace Tampi
open Function (update)

/-! ## The arrays -/

structure Mapping where
  /-- The position in `_tickets` the pointer refers to. -/
  ticket : Nat
  localPosition : Nat
  deriving DecidableEq, Repr

structure Arrays where
  requests : Nat → Request
  statuses : Nat → Status
  mappings : Nat → Mapping
  tickets : Nat → Ticket
  indices : Nat → Nat

namespace Arrays
variable (a : Arrays)

def getAssociatedTicket (position : Nat) : Ticket := a.tickets (a.mappings position).ticket

def getLocalPositionInTicket (position : Nat) : Nat := (a.mappings position).localPosition

def allocateTicket (position : Nat) (ticket : Ticket) : Arrays :=
  { a with tickets := update a.tickets position ticket }

def associateRequest (position : Nat) (request : Request) (ticket localPosition : Nat) : Arrays :=
  { a with
    requests := update a.requests position request
    mappings := update a.mappings position ⟨ticket, localPosition⟩ }

/-- `none` is the failed assertion `source != destination`. -/
def moveRequest (source destination : Nat) : Option Arrays :=
  if source = destination then none
  else
    let a' := { a with
      requests := update a.requests destination (a.requests source)
      mappings := update a.mappings destination (a.mappings source) }
    if (a.mappings source).ticket = source then
      some { a' with
        tickets := update a.tickets destination (a.tickets source)
        mappings := update a'.mappings destination
          { a'.mappings destination with ticket := destination } }
    else some a'

/-- The inner loop of the replacement: `(replace, replacement, reverse)`. The two cursors start at
the last position of their arrays and can fall to `-1`; they are stored plus one. `none` is a read
of `indices` outside its `completed` entries. -/
def findReplacement (indices : Nat → Nat) (current : Nat) :
    (replacement reverse : Nat) → Option (Bool × Nat × Nat)
  | 0, reverse => some (false, 0, reverse)
  | replacement + 1, reverse =>
    if replacement > current then
      match reverse with
      | 0 => none
      | reverse + 1 =>
        if replacement ≠ indices reverse then some (true, replacement + 1, reverse + 1)
        else findReplacement indices current replacement reverse
    else some (false, replacement + 1, reverse)

/-- The iterations of the replacement loop for the last `todo` of `completed` indices. -/
def replaceLoop (completed : Nat) :
    (todo replacement reverse : Nat) → Arrays → Option Arrays
  | 0, _, _, a => some a
  | todo + 1, replacement, reverse, a =>
    let current := a.indices (completed - (todo + 1))
    match findReplacement a.indices current replacement reverse with
    | none => none
    | some (true, replacement, reverse) =>
      (a.moveRequest (replacement - 1) current).bind
        (replaceLoop completed todo (replacement - 1) reverse)
    | some (false, replacement, reverse) => replaceLoop completed todo replacement reverse a

/-- The smart replacement that keeps the arrays compact. -/
def replace (pending completed : Nat) : Option Arrays :=
  a.replaceLoop completed completed pending completed

end Arrays

/-! ## The capacity controller -/

def CapacityLimit : Nat := 32 * 1024

structure CapacityCtrl where
  capacityMin : Nat
  capacityMax : Nat
  capacity : Nat
  timeout : Nat
  saturation : Bool
  saturationBegin : Rat
  min_le : capacityMin ≤ capacity
  le_max : capacity ≤ capacityMax
  max_le : capacityMax ≤ CapacityLimit

namespace CapacityCtrl

/-- The controller for the bounds given by `TAMPI_CAPACITY`, which the constructor clips. -/
def ofBounds (min max timeout : Nat) (h : min ≤ max) : CapacityCtrl where
  capacityMin := Nat.min min CapacityLimit
  capacityMax := Nat.min max CapacityLimit
  capacity := Nat.min min CapacityLimit
  timeout := timeout
  saturation := false
  saturationBegin := 0
  min_le := Nat.le_refl _
  le_max := Nat.le_min.mpr ⟨Nat.le_trans (Nat.min_le_left ..) h, Nat.min_le_right ..⟩
  max_le := Nat.min_le_right ..

/-- The controller when neither `TAMPI_CAPACITY` nor `TAMPI_CAPACITY_TIMEOUT` is set. -/
def defaults : CapacityCtrl := .ofBounds 128 CapacityLimit 10 (by decide)

/-- `evaluate(pending, completed)` at time `now`. -/
def evaluate (c : CapacityCtrl) (pending completed : Nat) (now : Rat) : CapacityCtrl :=
  if c.capacity = c.capacityMax then c
  else if pending = c.capacity ∧ completed = 0 then
    if c.saturation = false then { c with saturation := true, saturationBegin := now }
    else if now - c.saturationBegin > c.timeout then
      { c with
        saturation := false
        capacity := Nat.min (c.capacity * 2) c.capacityMax
        min_le := Nat.le_min.mpr ⟨Nat.le_trans c.min_le (Nat.le_mul_of_pos_right _ (by decide)),
          Nat.le_trans c.min_le c.le_max⟩
        le_max := Nat.min_le_right .. }
    else c
  else { c with saturation := false }

end CapacityCtrl

/-! ## The polling call -/

def BatchSize : Nat := 64

inductive TransferPhase
  /-- The loop that builds the ticket of the next operation and issues it. -/
  | issue
  | test (t : Test)
  /-- The loop over the immediately completed requests, at `c` of `ntestcompl`. -/
  | filter (c ntestcompl : Nat)
  /-- The loop over the completed tickets, at `c`. -/
  | process (c : Nat)
  | handoff
  /-- The loop that moves the pending tickets to the arrays, at request `r`. -/
  | append (r : Nat)
  | free

/-- The local variables of `transferOperations`. A local array that is filled from the front is a
list, and its counter (`ncompl`, `nreqs`) is the length. -/
structure Transfer where
  kind : OpKind
  operations : List Nat
  tickets : List Ticket
  requests : Nat → Request
  statuses : Nat → Status
  complentries : List Nat
  /-- The marker `-1` is `none`. -/
  req2entry : List (Option Nat)
  testcompl2req : Nat → Nat
  contexts : List TaskContext
  phase : TransferPhase

def Transfer.start (kind : OpKind) (operations : List Nat) : Transfer where
  kind := kind
  operations := operations
  tickets := []
  requests _ := none
  statuses _ := default
  complentries := []
  req2entry := []
  testcompl2req _ := 0
  contexts := []
  phase := .issue

inductive CheckPhase
  | test (t : Test)
  /-- The loop over the requests the batch completed, at `c` of `batchCompleted`: before the status
  store, and between it and the completion. -/
  | store (c batchCompleted : Nat)
  | deliver (c batchCompleted : Nat)
  | handoff (batchCompleted : Nat)
  | replace

/-- The local variables of `internalCheckRequests`. -/
structure Check where
  checked : Nat
  completed : Nat
  contexts : List TaskContext
  phase : CheckPhase

/-- The local variables of `internalCheckOperationQueues`. -/
structure Window where
  navailable : Nat
  ntotal : Nat
  deriving DecidableEq, Repr

inductive Poll
  | idle
  /-- The top of the `do` loop of `checkRequests`. -/
  | top (totalCompleted : Nat)
  /-- Before and in the pop of point-to-point operations. -/
  | p2p (totalCompleted : Nat) (w : Window)
  | popping (totalCompleted : Nat) (w : Window)
  /-- Before the pop of collective operations. -/
  | coll (totalCompleted : Nat) (w : Window) (np2p : Nat)
  | transfer (totalCompleted : Nat) (w : Window) (np2p : Nat) (x : Transfer)
  /-- Before the check of the in-flight requests. -/
  | bottom (totalCompleted inserted : Nat)
  | check (totalCompleted inserted : Nat) (k : Check)
  /-- Before the evaluation of the capacity. -/
  | evaluate (totalCompleted : Nat)

/-- Outside the bodies of `transferOperations` and `internalCheckRequests`, and of a pop. -/
def Poll.outside : Poll → Bool
  | .popping .. | .transfer .. | .check .. => false
  | _ => true

structure TicketManager where
  pending : Nat
  arrays : Arrays
  capacityCtrl : CapacityCtrl

/-- The `while` condition of `internalCheckOperationQueues`. -/
def nextWindow (totalCompleted : Nat) (w : Window) (np2p ncoll : Nat) : Poll :=
  if w.ntotal < w.navailable ∧ (0 < np2p ∨ 0 < ncoll) then .p2p totalCompleted w
  else .bottom totalCompleted w.ntotal

/-- The `while` condition of `checkRequests`. -/
def nextRound (totalCompleted inserted completed : Nat) : Poll :=
  if 0 < completed ∨ 0 < inserted then .top (totalCompleted + completed)
  else .evaluate (totalCompleted + completed)

/-- One more batch of `internalCheckRequests`, from position `checked`. -/
def Check.batch (pending checked completed : Nat) : Check where
  checked := checked
  completed := completed
  contexts := []
  phase := .test (.start checked completed (min (pending - checked) BatchSize))

end Tampi
