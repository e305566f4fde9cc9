import Mathlib.Algebra.Group.Nat.Defs
import Mathlib.Logic.Function.Basic
import Tampi.Theory.Transition
import Tampi.Model.MultiLockFreeQueue

/-! # The ticket array lock (`util/SpinLock.hpp`)

Every shared access of `lock`, `try_lock` and `unlock` is a step of its own, so a thread can be
overtaken between any two of them. `_buffer` and `_head` are atomic; `_next` is a plain variable
that `unlock` loads, stores and loads again. `takers`, `acquirers` and `releasers` are history
variables: the threads that took a ticket, that acquired the lock and that released it, with their
tickets. -/

namespace Tampi
open Function (update)

/-- The point a thread has reached in its last call. From the acquisition on, `ticket` names the
ticket it was made with. -/
inductive LockPoint
  | idle
  /-- In the loop of `lock`: about to load the slot of `head`. -/
  | waiting (head : Nat)
  /-- In `try_lock`, `_head` loaded: about to load the slot of `head`. -/
  | tryLoaded (head : Nat)
  /-- In `try_lock`, the slot holds `head`: about to compare and exchange `_head`. -/
  | tryChecked (head : Nat)
  /-- `lock` or `try_lock` has acquired the lock. -/
  | holding (ticket : Nat)
  /-- In `unlock`, `_next` loaded for its increment. -/
  | unlockLoaded (ticket next : Nat)
  /-- In `unlock`, `_next` incremented: about to store it in the slot `idx`. -/
  | unlockStore (ticket idx : Nat)
  deriving DecidableEq, Repr

/-- The ticket of a thread that is between a successful acquisition and its unlock. -/
def LockPoint.held : LockPoint → Option Nat
  | .holding ticket | .unlockLoaded ticket _ | .unlockStore ticket _ => some ticket
  | _ => none

/-- `θ` is the type of the threads. -/
structure SpinLock (θ : Type) where
  buffer : Nat → Nat
  head : Nat
  next : Nat
  point : θ → LockPoint
  takers : List (θ × Nat)
  acquirers : List (θ × Nat)
  releasers : List (θ × Nat)

/-- Which thread moves. The first three enter a call, the others take the next step of it. -/
inductive LockLabel (θ : Type)
  | lock (t : θ)
  | tryLock (t : θ)
  | unlock (t : θ)
  | spin (t : θ)
  | trySlot (t : θ)
  | tryExchange (t : θ)
  | unlockNext (t : θ)
  | unlockSlot (t : θ)

namespace SpinLock

def init : SpinLock θ where
  buffer _ := 0
  head := 0
  next := 0
  point _ := .idle
  takers := []
  acquirers := []
  releasers := []

variable [DecidableEq θ] (size : Nat) (s : SpinLock θ)

/-- One step with `size` slots. `unlock` is called only by a thread that has acquired the lock, and
no thread calls `lock` or `try_lock` while it holds it. -/
def step : LockLabel θ → Option (SpinLock θ)
  | .lock t =>
    match s.point t with
    | .idle =>
      some { s with
        head := add64 s.head 1
        point := update s.point t (.waiting s.head)
        takers := s.takers ++ [(t, s.head)] }
    | _ => none
  | .spin t =>
    match s.point t with
    | .waiting head =>
      if s.buffer (head % size) ≠ head then some s
      else
        some { s with
          point := update s.point t (.holding head)
          acquirers := s.acquirers ++ [(t, head)] }
    | _ => none
  | .tryLock t =>
    match s.point t with
    | .idle => some { s with point := update s.point t (.tryLoaded s.head) }
    | _ => none
  | .trySlot t =>
    match s.point t with
    | .tryLoaded head =>
      if s.buffer (head % size) ≠ head then some { s with point := update s.point t .idle }
      else some { s with point := update s.point t (.tryChecked head) }
    | _ => none
  | .tryExchange t =>
    match s.point t with
    | .tryChecked head =>
      if s.head = head then
        some { s with
          head := add64 head 1
          point := update s.point t (.holding head)
          takers := s.takers ++ [(t, head)]
          acquirers := s.acquirers ++ [(t, head)] }
      else some { s with point := update s.point t .idle }
    | _ => none
  | .unlock t =>
    match s.point t with
    | .holding ticket => some { s with point := update s.point t (.unlockLoaded ticket s.next) }
    | _ => none
  | .unlockNext t =>
    match s.point t with
    | .unlockLoaded ticket next =>
      some { s with
        next := add64 next 1
        point := update s.point t (.unlockStore ticket (add64 next 1 % size)) }
    | _ => none
  | .unlockSlot t =>
    match s.point t with
    | .unlockStore ticket idx =>
      some { s with
        buffer := update s.buffer idx s.next
        point := update s.point t .idle
        releasers := s.releasers ++ [(t, ticket)] }
    | _ => none

def system (θ : Type) [DecidableEq θ] (size : Nat) :
    Transition.System (SpinLock θ) (LockLabel θ) where
  init s := s = init
  step s l s' := s.step size l = some s'

end SpinLock

end Tampi
