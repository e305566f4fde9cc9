import Mathlib.Logic.Function.Basic
import Tampi.Theory.Transition

/-! # Operation objects and the completion queue (`Allocator.hpp`, `CompletionManager.hpp`) -/

namespace Tampi
open Function (update)

/-- `ObjAllocator`: the central queue and the per-CPU caches, each a stack with its top first.
Objects are named by their position in `_data`. -/
structure ObjAllocator where
  central : List Nat
  caches : Nat → List Nat

namespace ObjAllocator

def BatchSize : Nat := 64

def init (capacity : Nat) : ObjAllocator where
  central := List.range' 0 capacity
  caches _ := []

/-- `alloc` on a CPU; `none` is the failure `Unavailable allocator objects`. -/
def alloc (a : ObjAllocator) (cache : Nat) : Option (Nat × ObjAllocator) :=
  match a.caches cache with
  | object :: rest => some (object, { a with caches := update a.caches cache rest })
  | [] =>
    match a.central.take BatchSize with
    | [] => none
    | object :: objects =>
      some (object, {
        central := a.central.drop BatchSize
        caches := update a.caches cache objects.reverse })

/-- `free`: the objects that fit go back to the central queue. -/
def free (a : ObjAllocator) (capacity : Nat) (objects : List Nat) : ObjAllocator :=
  { a with central := a.central ++ objects.take (capacity - a.central.length) }

end ObjAllocator

/-- Where a call of `alloc` on a CPU is. -/
inductive AllocPoint
  | idle
  /-- The cache of the CPU was empty: about to pop a batch from the central queue, under the lock. -/
  | refill
  /-- The batch is popped: about to push all of it but `object` to the cache. -/
  | fill (object : Nat) (objects : List Nat)
  deriving DecidableEq, Repr

/-- Where the code of the allocator stops. The last two are assertions. -/
inductive AllocFailure
  | unavailable
  | stackFull
  | pushedShort
  deriving DecidableEq, Repr

def AllocFailure.message : AllocFailure → String
  | .unavailable => "Unavailable allocator objects"
  | .stackFull => "_size + n <= Capacity"
  | .pushedShort => "pushed == n"

/-- An allocator under the calls of `alloc` on its CPUs and of `free` by the polling task.
`returned` is a history variable: the objects `alloc` has returned and `free` was not given yet. -/
structure Allocation where
  allocator : ObjAllocator
  points : Nat → AllocPoint
  returned : List Nat
  failure : Option AllocFailure

inductive AllocLabel
  /-- A task on the CPU calls `alloc`. -/
  | alloc (cpu : Nat)
  /-- The call in progress on the CPU takes its next step. -/
  | next (cpu : Nat)
  | free (objects : List Nat)

namespace Allocation
variable (a : Allocation)

def init (capacity : Nat) : Allocation where
  allocator := .init capacity
  points _ := .idle
  returned := []
  failure := none

/-- `alloc` is entered: an object of the cache is returned at once. -/
def alloc (cpu : Nat) : Allocation :=
  match a.allocator.caches cpu with
  | object :: rest =>
    { a with
      allocator := { a.allocator with caches := update a.allocator.caches cpu rest }
      returned := a.returned ++ [object] }
  | [] => { a with points := update a.points cpu .refill }

/-- The next step of the call on the CPU. The pop of the batch and the test for an empty one are a
step, and so are the push to the cache and the return. -/
def next (cpu : Nat) : Option Allocation :=
  match a.points cpu with
  | .idle => none
  | .refill =>
    match a.allocator.central.take ObjAllocator.BatchSize with
    | [] => some { a with failure := some .unavailable }
    | object :: objects =>
      some { a with
        allocator := { a.allocator with
          central := a.allocator.central.drop ObjAllocator.BatchSize }
        points := update a.points cpu (.fill object objects) }
  | .fill object objects =>
    if (a.allocator.caches cpu).length + objects.length ≤ ObjAllocator.BatchSize then
      some { a with
        allocator := { a.allocator with
          caches := update a.allocator.caches cpu (objects.reverse ++ a.allocator.caches cpu) }
        points := update a.points cpu .idle
        returned := a.returned ++ [object] }
    else some { a with failure := some .stackFull }

/-- `free`: the central queue takes the objects it has room for. -/
def free (capacity : Nat) (objects : List Nat) : Allocation :=
  let a' := { a with
    allocator := a.allocator.free capacity objects
    returned := a.returned.diff objects }
  if capacity - a.allocator.central.length < objects.length then
    { a' with failure := some .pushedShort }
  else a'

/-- One step with `ncaches` CPUs. A CPU runs one `alloc` at a time, and the polling task frees
distinct objects that were returned. -/
def step (capacity ncaches : Nat) : AllocLabel → Option Allocation
  | .alloc cpu =>
    if a.failure = none ∧ cpu < ncaches ∧ a.points cpu = .idle then some (a.alloc cpu) else none
  | .next cpu => if a.failure = none ∧ cpu < ncaches then a.next cpu else none
  | .free objects =>
    if a.failure = none ∧ objects.Nodup ∧ ∀ object ∈ objects, object ∈ a.returned then
      some (a.free capacity objects)
    else none

def system (capacity ncaches : Nat) : Transition.System Allocation AllocLabel where
  init a := a = init capacity
  step a l a' := a.step capacity ncaches l = some a'

end Allocation

/-- A `boost::lockfree::spsc_queue` whose consumer may be in the middle of `consume_all`:
`unreleased` slots were handed to the functor and are given back when the call ends. The queue is not
part of the repository; what it documents is assumed: a bounded FIFO for one producer and one
consumer, where a push stores what there is room for, and where the slots of the elements read are
room again once the consumer has published its counter. -/
structure SpscQueue (α : Type) where
  contents : List α
  unreleased : Nat

namespace SpscQueue

def empty : SpscQueue α := ⟨[], 0⟩

/-- The elements `push(elements, count)` has room for. -/
def room (q : SpscQueue α) (size : Nat) : Nat := size - (q.contents.length + q.unreleased)

def push (q : SpscQueue α) (size : Nat) (elements : List α) : SpscQueue α :=
  { q with contents := q.contents ++ elements.take (q.room size) }

end SpscQueue

end Tampi
