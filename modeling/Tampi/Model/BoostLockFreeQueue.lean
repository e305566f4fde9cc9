import Tampi.Model.SpinLock

/-! # The queue of the collective operations (`util/BoostLockFreeQueue.hpp`)

A ring with one producer and one consumer. With `_multipleProducers` the pushes take turns at the
producer side under `_adderMutex`. A push to the ring loads the counter of the consumer and then
publishes the elements there is room for; a pop loads the counter of the producer and then releases
the slots it has read. Between any two of these steps other threads may move. `entered` and `popped`
are history variables: the pushes in the order they came to the ring, and the elements popped.

The ring is a `boost::lockfree::spsc_queue`, which is not part of the repository. What it documents
for one producer and one consumer is assumed: a FIFO of at most `size` elements, where a push stores
as many elements as there is room for and returns their number, and where the slots of the elements
read are room again once the consumer has published its counter. -/

namespace Tampi
open Function (update)

/-- The template and construction parameters, and the slots of the lock. -/
structure BoostParams where
  size : Nat
  slots : Nat
  multipleProducers : Bool
  fullFailure : Bool

/-- The point a thread has reached in its call of `push(elements, count)`. -/
inductive Pusher (T : Type)
  | idle
  /-- In `_adderMutex.lock()`. -/
  | locking (elements : List T)
  /-- About to load the counter of the consumer, with `pushed` elements in the ring. -/
  | pushing (elements : List T) (pushed : Nat)
  /-- About to publish the next `count` elements. -/
  | storing (elements : List T) (pushed count : Nat)
  /-- In `_adderMutex.unlock()`. -/
  | unlocking

/-- The elements that are not in the ring yet, of a push that has come to the ring. -/
def Pusher.rest : Pusher T → Option (List T)
  | .pushing elements pushed | .storing elements pushed _ => some (elements.drop pushed)
  | _ => none

/-- `θ` is the type of the threads. -/
structure BoostLockFreeQueue (θ T : Type) where
  adderMutex : SpinLock θ
  queue : List T
  pusher : θ → Pusher T
  /-- The elements the `pop` in progress has found. -/
  popper : Option Nat
  /-- `ErrorHandler::fail("BoostLockFreeQueue is full")` was called. -/
  failed : Bool
  entered : List (θ × List T)
  popped : List T

/-- `push` and `pop` enter a call, the others take the next step of it. -/
inductive BoostLabel (θ T : Type)
  | push (t : θ) (elements : List T)
  | advance (t : θ)
  | pop (count : Nat)
  | take

namespace BoostLockFreeQueue

def init : BoostLockFreeQueue θ T where
  adderMutex := .init
  queue := []
  pusher _ := .idle
  popper := none
  failed := false
  entered := []
  popped := []

variable [DecidableEq θ] (P : BoostParams) (s : BoostLockFreeQueue θ T)

/-- `pushOrFail` or `pushCont` is entered. -/
def enter (t : θ) (elements : List T) : BoostLockFreeQueue θ T :=
  { s with
    pusher := update s.pusher t (.pushing elements 0)
    entered := s.entered ++ [(t, elements)] }

/-- `_queue.push(&elements[pushed], elements.length - pushed)` publishes `count` elements and returns
`count`. `pushOrFail` calls it once, `pushCont` until all elements are pushed. -/
def store (t : θ) (elements : List T) (pushed count : Nat) : BoostLockFreeQueue θ T :=
  let s := { s with queue := s.queue ++ (elements.drop pushed).take count }
  if pushed + count = elements.length then
    { s with pusher := update s.pusher t (if P.multipleProducers then .unlocking else .idle) }
  else
    { s with
      pusher := update s.pusher t (.pushing elements (pushed + count))
      failed := P.fullFailure }

/-- The next step of `_adderMutex.unlock()`. -/
def unlockStep (t : θ) : Option (SpinLock θ) :=
  match s.adderMutex.point t with
  | .holding _ => s.adderMutex.step P.slots (.unlock t)
  | .unlockLoaded .. => s.adderMutex.step P.slots (.unlockNext t)
  | .unlockStore .. => s.adderMutex.step P.slots (.unlockSlot t)
  | _ => none

/-- The next step of the call of `push` of `t`. -/
def advance (t : θ) : Option (BoostLockFreeQueue θ T) :=
  match s.pusher t with
  | .idle => none
  | .locking elements =>
    (s.adderMutex.step P.slots (.spin t)).map fun m =>
      let s := { s with adderMutex := m }
      if (m.point t).held = none then s else s.enter t elements
  | .pushing elements pushed =>
    let count := min (elements.length - pushed) (P.size - s.queue.length)
    some { s with pusher := update s.pusher t (.storing elements pushed count) }
  | .storing elements pushed count => some (s.store P t elements pushed count)
  | .unlocking =>
    (s.unlockStep P t).map fun m =>
      { s with
        adderMutex := m
        pusher := if m.point t = .idle then update s.pusher t .idle else s.pusher }

/-- Nothing moves any more when the process was aborted. -/
def step (l : BoostLabel θ T) : Option (BoostLockFreeQueue θ T) :=
  if s.failed then none
  else
    match l with
    | .push t elements =>
      match s.pusher t with
      | .idle =>
        if P.multipleProducers then
          (s.adderMutex.step P.slots (.lock t)).map fun m =>
            { s with adderMutex := m, pusher := update s.pusher t (.locking elements) }
        else some (s.enter t elements)
      | _ => none
    | .advance t => s.advance P t
    | .pop count =>
      match s.popper with
      | none => some { s with popper := some (min count s.queue.length) }
      | some _ => none
    | .take =>
      match s.popper with
      | none => none
      | some count =>
        some { s with
          queue := s.queue.drop count
          popper := none
          popped := s.popped ++ s.queue.take count }

def system (θ T : Type) [DecidableEq θ] (P : BoostParams) :
    Transition.System (BoostLockFreeQueue θ T) (BoostLabel θ T) where
  init s := s = init
  step s l s' := s.step P l = some s'

end BoostLockFreeQueue
end Tampi
