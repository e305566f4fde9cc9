import Mathlib.Algebra.Group.Nat.Defs
import Tampi.Theory.Transition
import Tampi.Theory.Ring

/-! # The point-to-point pre-queues (`util/MultiLockFreeQueue.hpp`)

One ring per logical CPU, each with a single producer, and one consumer for all of them. The
producer of a queue caches how many free slots it still has (`_available`), the consumer how many
elements it still may take (`_remaining`, `_totalRemaining`); each side reads the counter of the
other only to refresh its cache.

The model runs at the granularity of the shared accesses: a load of the other side's counter, the
write or read of one slot, and the publication of the own counter are steps of their own, and the
iterations of the consumer's local loops are steps too. A `Producer` or `Consumer` value is the
point a call has reached with its local variables. `pushed` and `popped` are history variables. -/

namespace Tampi

/-- `size_t` subtraction. -/
def sub64 (a b : Nat) : Nat := (a + 2 ^ 64 - b) % 2 ^ 64

/-- `size_t` addition. -/
def add64 (a b : Nat) : Nat := (a + b) % 2 ^ 64

inductive MultiQueuePopPolicy
  | cyclicRoundRobin
  | blockRoundRobin
  deriving DecidableEq, Repr

/-- The template and construction parameters. `capacity` is a `size_t`. -/
structure QueueParams where
  capacity : Nat
  queues : Nat
  policy : MultiQueuePopPolicy
  two_le : 2 ≤ capacity
  lt_word : capacity < 2 ^ 64

/-- A call of `push(element, queue)`. -/
inductive Producer (T : Type)
  | idle
  /-- `_available[queue]` was zero: about to load the consumer's counter. -/
  | refresh (elem : T)
  /-- In `unsafePush`, `_available[queue]` lowered: about to write `elems[i]`. -/
  | write (elems : List T) (i : Nat)
  /-- In `unsafePush`, all slots written: about to store `_head[queue]`. -/
  | publish (elems : List T)
  | returned (ok : Bool)

/-- A call of `pop(values, n)` or `empty()`. -/
inductive Consumer (T : Type)
  | idle
  /-- In `updateRemaining`, about to load `_head[q]`; `goal` is the `n` of a `pop`, or `none` in
  `empty`. -/
  | refresh (goal : Option Nat) (q total : Nat)
  /-- The first loop of `cyclicRoundRobinPop`; `left` is its local array `remaining`. -/
  | assign (n queue0 missing perQueue q : Nat) (left : Nat → Nat)
  /-- The second loop of `cyclicRoundRobinPop`. -/
  | sweep (n i q : Nat) (left : Nat → Nat) (vals : List T)
  /-- The loop of `blockRoundRobinPop`. -/
  | block (n i : Nat) (vals : List T)
  /-- In `unsafePop(q, values + i, assigned)`, with `chunk` read so far. -/
  | read (n i q assigned : Nat) (left : Nat → Nat) (vals chunk : List T)
  | returned (vals : List T)
  | returnedEmpty (isEmpty : Bool)

/-- The elements the call has taken out of the queues. -/
def Consumer.vals : Consumer T → List T
  | .sweep _ _ _ _ vals | .block _ _ vals | .read _ _ _ _ _ vals _ | .returned vals => vals
  | _ => []

/-- No call of `pop` or `empty` is in progress. -/
def Consumer.free : Consumer T → Bool
  | .idle | .returned _ | .returnedEmpty _ => true
  | _ => false

def Producer.free : Producer T → Bool
  | .idle | .returned _ => true
  | _ => false

structure MultiLockFreeQueue (T : Type) where
  data : Nat → Nat → T
  tail : Nat → Nat
  remaining : Nat → Nat
  head : Nat → Nat
  available : Nat → Nat
  totalRemaining : Nat
  current : Nat
  producer : Nat → Producer T
  consumer : Consumer T
  pushed : Nat → List T
  popped : Nat → List T

namespace MultiLockFreeQueue
open Function (update)
variable (P : QueueParams) (m : MultiLockFreeQueue T)

/-- The constructor; the slots hold whatever `alignedAlloc` returned. -/
def init (data : Nat → Nat → T) : MultiLockFreeQueue T where
  data := data
  tail _ := 0
  remaining _ := 0
  head _ := 0
  available _ := 0
  totalRemaining := 0
  current := 0
  producer _ := .idle
  consumer := .idle
  pushed _ := []
  popped _ := []

def getRemaining (queue : Nat) : Nat :=
  if m.tail queue ≤ m.head queue then m.head queue - m.tail queue
  else add64 (sub64 (m.head queue) (m.tail queue)) P.capacity

def getAvailable (queue : Nat) : Nat := sub64 P.capacity (add64 (getRemaining P m queue) 1)

/-- The slot of the `i`-th of `n` elements copied from or to position `start`: the copy loops of
`unsafePush` and `unsafePop` split at the end of the ring. -/
def slot (start n i : Nat) : Nat :=
  if i < min n (P.capacity - start) then start + i else i - min n (P.capacity - start)

/-- `unsafePush` up to its first slot write. -/
def unsafePush (queue : Nat) (elems : List T) : MultiLockFreeQueue T :=
  { m with
    available := update m.available queue (m.available queue - elems.length)
    producer := update m.producer queue (.write elems 0) }

/-- `push(element, queue)` is entered. -/
def push (queue : Nat) (elem : T) : MultiLockFreeQueue T :=
  if m.available queue = 0 then { m with producer := update m.producer queue (.refresh elem) }
  else m.unsafePush queue [elem]

/-- The next step of the call in progress on the producer side of `queue`. -/
def producerStep (queue : Nat) : Option (MultiLockFreeQueue T) :=
  match m.producer queue with
  | .refresh elem =>
    let m' := { m with available := update m.available queue (getAvailable P m queue) }
    if getAvailable P m queue = 0 then
      some { m' with producer := update m.producer queue (.returned false) }
    else some (m'.unsafePush queue [elem])
  | .write elems i =>
    elems[i]?.map fun x =>
      { m with
        data := update m.data queue
          (update (m.data queue) (slot P (m.head queue) elems.length i) x)
        producer := update m.producer queue
          (if i + 1 < elems.length then .write elems (i + 1) else .publish elems) }
  | .publish elems =>
    some { m with
      head := update m.head queue ((m.head queue + elems.length) % P.capacity)
      producer := update m.producer queue (.returned true)
      pushed := update m.pushed queue (m.pushed queue ++ elems) }
  | _ => none

/-- A `pop` that knows there are `n` elements to take. -/
def beginTake (n : Nat) : MultiLockFreeQueue T :=
  match P.policy with
  | .cyclicRoundRobin =>
    { m with consumer := .assign n m.current n (max (n / P.queues) 1) 0 m.remaining }
  | .blockRoundRobin =>
    { m with totalRemaining := m.totalRemaining - n, consumer := .block n 0 [] }

/-- `pop(values, n)` is entered. -/
def pop (n : Nat) : MultiLockFreeQueue T :=
  if n = 0 then { m with consumer := .returned [] }
  else if m.totalRemaining < n then { m with consumer := .refresh (some n) 0 0 }
  else beginTake P m n

/-- `empty()` is entered. -/
def empty : MultiLockFreeQueue T :=
  if m.totalRemaining ≠ 0 then { m with consumer := .returnedEmpty false }
  else { m with consumer := .refresh none 0 0 }

/-- `unsafePop` up to its first slot read. -/
def unsafePop (q assigned n i : Nat) (left : Nat → Nat) (vals : List T) : MultiLockFreeQueue T :=
  { m with
    remaining := update m.remaining q (m.remaining q - assigned)
    consumer := .read n i q assigned left vals [] }

/-- `updateRemaining` returned `total`. -/
def refreshed (goal : Option Nat) (total : Nat) : MultiLockFreeQueue T :=
  let m' := { m with totalRemaining := total }
  match goal with
  | none => { m' with consumer := .returnedEmpty (total == 0) }
  | some n =>
    if total = 0 then { m' with consumer := .returned [] } else beginTake P m' (min n total)

/-- Where `unsafePop(q, ..)` returns to, with `i` elements taken. -/
def popLoop (n i q : Nat) (left : Nat → Nat) (vals : List T) : Consumer T :=
  match P.policy with
  | .cyclicRoundRobin => .sweep n i ((q + 1) % P.queues) left vals
  | .blockRoundRobin => .block n i vals

/-- The next step of the call in progress on the consumer side. -/
def consumerStep : Option (MultiLockFreeQueue T) :=
  match m.consumer with
  | .refresh goal q total =>
    if q < P.queues then
      let val := getRemaining P m q
      some { m with
        remaining := update m.remaining q val
        consumer := .refresh goal (q + 1) (total + val) }
    else some (refreshed P m goal total)
  | .assign n queue0 missing perQueue q left =>
    if missing = 0 then
      some { m with
        totalRemaining := m.totalRemaining - n
        consumer := .sweep n 0 queue0 left [] }
    else if q < P.queues then
      let avail := min (left m.current) perQueue
      some { m with
        current := (m.current + 1) % P.queues
        consumer := .assign n queue0 (missing - avail) perQueue (q + 1)
          (update left m.current (left m.current - avail)) }
    else
      some { m with
        consumer := .assign n queue0 missing (max (missing / P.queues) 1) 0 left }
  | .sweep n i q left vals =>
    if i < n then
      let assigned := m.remaining q - left q
      if 0 < assigned then some (m.unsafePop q assigned n i left vals)
      else some { m with consumer := .sweep n i ((q + 1) % P.queues) left vals }
    else some { m with consumer := .returned vals }
  | .block n i vals =>
    if i < n then
      let assigned := min (m.remaining m.current) (n - i)
      if assigned = 0 then some { m with current := (m.current + 1) % P.queues }
      else some (m.unsafePop m.current assigned n i m.remaining vals)
    else some { m with consumer := .returned vals }
  | .read n i q assigned left vals chunk =>
    if chunk.length < assigned then
      some { m with
        consumer := .read n i q assigned left vals
          (chunk ++ [m.data q (slot P (m.tail q) assigned chunk.length)]) }
    else
      some { m with
        tail := update m.tail q ((m.tail q + assigned) % P.capacity)
        popped := update m.popped q (m.popped q ++ chunk)
        consumer := popLoop P n (i + assigned) q left (vals ++ chunk) }
  | _ => none

/-- The number of elements in a queue, and the elements in push order. -/
def length (q : Nat) : Nat := Ring.dist P.capacity (m.tail q) (m.head q)

def contents (q : Nat) : List T :=
  Ring.window (m.data q) P.capacity (m.tail q) (length P m q)

end MultiLockFreeQueue

/-- Who moves: a producer enters `push` on its queue or takes the next step of it, and likewise for
the consumer. -/
inductive QueueLabel (T : Type)
  | push (queue : Nat) (elem : T)
  | producer (queue : Nat)
  | pop (n : Nat)
  | empty
  | consumer

namespace MultiLockFreeQueue

/-- One step of the queues with at most one producer at a time on each queue and one consumer. -/
def step (P : QueueParams) (m : MultiLockFreeQueue T) : QueueLabel T → Option (MultiLockFreeQueue T)
  | .push queue elem =>
    if queue < P.queues ∧ (m.producer queue).free then some (m.push queue elem) else none
  | .producer queue => m.producerStep P queue
  | .pop n => if m.consumer.free then some (m.pop P n) else none
  | .empty => if m.consumer.free then some m.empty else none
  | .consumer => m.consumerStep P

def system (T : Type) (P : QueueParams) :
    Transition.System (MultiLockFreeQueue T) (QueueLabel T) where
  init m := ∃ data, m = init data
  step m l m' := m.step P l = some m'

end MultiLockFreeQueue

end Tampi
