import Tampi.Model.BoostLockFreeQueue
import Tampi.Verify.LockProgress

/-! # The queue of the collective operations is a bounded FIFO

`Locked` says where each thread is in the lock, by its point in `push`. So at most one push is at the
ring, and `Flow` says how far it has come: what was popped, what is in the ring and what this push
still has to store are together the elements of all pushes, in the order of their tickets. -/

namespace Tampi
open Function (update)
open Transition System

namespace SpinLock
variable [DecidableEq θ] {s s' : SpinLock θ}

theorem lock_spec (h : s.step size (.lock t) = some s') :
    (∃ k, s'.point t = .waiting k) ∧ s'.acquirers = s.acquirers := by
  simp only [step] at h
  split at h <;> cases h
  simp

theorem Advances.thread (h : Advances t l) : l.thread = t := by
  cases l <;> first | exact h | cases h

/-- The acquirers are the threads whose loop of `lock` has ended. -/
theorem spin_spec (h : s.step size (.spin t) = some s') :
    (∃ k, s'.point t = .waiting k) ∧ s'.acquirers = s.acquirers ∨
    ∃ k, s'.point t = .holding k ∧ s'.acquirers = s.acquirers ++ [(t, k)] := by
  simp only [step] at h
  split at h
  next hp =>
    split at h <;> cases h
    · exact .inl ⟨⟨_, hp⟩, rfl⟩
    · exact .inr ⟨_, by simp, rfl⟩
  next => cases h

end SpinLock

/-- The point in the lock of a thread at a point of `push`; without multiple producers the lock is not
used. -/
def Pusher.Linked (multipleProducers : Bool) : Pusher T → LockPoint → Prop
  | .idle, p => p = .idle
  | .locking _, p => multipleProducers = true ∧ ∃ k, p = .waiting k
  | .pushing .., p | .storing .., p =>
    if multipleProducers then ∃ k, p = .holding k else p = .idle
  | .unlocking, p => multipleProducers = true ∧ p.held ≠ none

/-- With `length` elements in the ring there is room for what the push is about to publish. -/
def Pusher.Fits (size length : Nat) : Pusher T → Prop
  | .pushing elements pushed => pushed ≤ elements.length
  | .storing elements pushed count => pushed + count ≤ elements.length ∧ length + count ≤ size
  | _ => True

theorem Pusher.Linked.held {q : Pusher T} (h : q.Linked true p) (hr : q.rest ≠ none) :
    p.held ≠ none := by
  cases q with
  | idle | locking | unlocking => cases hr rfl
  | pushing | storing =>
    obtain ⟨k, rfl⟩ : ∃ k, p = .holding k := by simpa [Pusher.Linked] using h
    simp [LockPoint.held]

namespace BoostLockFreeQueue
variable [DecidableEq θ] {P : BoostParams} {s s' : BoostLockFreeQueue θ T}

/-! ## Steps -/

/-- What a step can do. -/
inductive Move (P : BoostParams) (s : BoostLockFreeQueue θ T) :
    BoostLabel θ T → BoostLockFreeQueue θ T → Prop
  | lock (hP : P.multipleProducers = true) (hp : s.pusher t = .idle)
    (hm : s.adderMutex.step P.slots (.lock t) = some m) :
    Move P s (.push t elements)
      { s with adderMutex := m, pusher := update s.pusher t (.locking elements) }
  | enter (hP : P.multipleProducers = false) (hp : s.pusher t = .idle) :
    Move P s (.push t elements) (s.enter t elements)
  | spin (hp : s.pusher t = .locking elements)
    (hm : s.adderMutex.step P.slots (.spin t) = some m) (hw : m.point t = .waiting k)
    (ha : m.acquirers = s.adderMutex.acquirers) :
    Move P s (.advance t) { s with adderMutex := m }
  | acquire (hp : s.pusher t = .locking elements)
    (hm : s.adderMutex.step P.slots (.spin t) = some m) (hk : m.point t = .holding k)
    (ha : m.acquirers = s.adderMutex.acquirers ++ [(t, k)]) :
    Move P s (.advance t) ({ s with adderMutex := m }.enter t elements)
  | load (hp : s.pusher t = .pushing elements pushed)
    (hc : count = min (elements.length - pushed) (P.size - s.queue.length)) :
    Move P s (.advance t)
      { s with pusher := update s.pusher t (.storing elements pushed count) }
  | store (hp : s.pusher t = .storing elements pushed count) :
    Move P s (.advance t) (s.store P t elements pushed count)
  | unlock (hp : s.pusher t = .unlocking) (hl : SpinLock.Advances t l)
    (hm : s.adderMutex.step P.slots l = some m) (ha : m.acquirers = s.adderMutex.acquirers)
    (hk : (m.point t).held ≠ none) : Move P s (.advance t) { s with adderMutex := m }
  | unlocked (hp : s.pusher t = .unlocking) (hl : SpinLock.Advances t l)
    (hm : s.adderMutex.step P.slots l = some m) (ha : m.acquirers = s.adderMutex.acquirers)
    (hk : m.point t = .idle) :
    Move P s (.advance t) { s with adderMutex := m, pusher := update s.pusher t .idle }
  | pop (hp : s.popper = none) :
    Move P s (.pop count) { s with popper := some (min count s.queue.length) }
  | take (hp : s.popper = some count) :
    Move P s .take { s with
      queue := s.queue.drop count
      popper := none
      popped := s.popped ++ s.queue.take count }

theorem move_of_unlock (hp : s.pusher t = .unlocking) (hm : s.unlockStep P t = some m) :
    Move P s (.advance t) { s with
      adderMutex := m
      pusher := if m.point t = .idle then update s.pusher t .idle else s.pusher } := by
  unfold unlockStep at hm
  split at hm
  next hpt =>
    have hm' := hm
    simp only [SpinLock.step, hpt] at hm'
    cases hm'
    simpa using Move.unlock (l := .unlock t) hp rfl hm rfl (by simp [LockPoint.held])
  next hpt =>
    have hm' := hm
    simp only [SpinLock.step, hpt] at hm'
    cases hm'
    simpa using Move.unlock (l := .unlockNext t) hp rfl hm rfl (by simp [LockPoint.held])
  next hpt =>
    have hm' := hm
    simp only [SpinLock.step, hpt] at hm'
    cases hm'
    simpa using Move.unlocked (l := .unlockSlot t) hp rfl hm rfl (by simp)
  next => cases hm

theorem move_of_step (h : s.step P l = some s') : s.failed = false ∧ Move P s l s' := by
  unfold step at h
  split at h
  · cases h
  next hf =>
    refine ⟨Bool.eq_false_of_not_eq_true hf, ?_⟩
    cases l with
    | push t elements =>
      dsimp only at h
      split at h
      next hp =>
        split at h
        next hP =>
          obtain ⟨m, hm, rfl⟩ := Option.map_eq_some_iff.mp h
          exact .lock hP hp hm
        next hP =>
          cases h
          exact .enter (Bool.eq_false_of_not_eq_true hP) hp
      next => cases h
    | advance t =>
      dsimp only [advance] at h
      split at h
      next => cases h
      next hp =>
        obtain ⟨m, hm, rfl⟩ := Option.map_eq_some_iff.mp h
        rcases SpinLock.spin_spec hm with ⟨⟨k, hw⟩, ha⟩ | ⟨k, hk, ha⟩
        · simpa [hw, LockPoint.held] using Move.spin hp hm hw ha
        · simpa [hk, LockPoint.held] using Move.acquire hp hm hk ha
      next hp =>
        cases h
        exact .load hp rfl
      next hp =>
        cases h
        exact .store hp
      next hp =>
        obtain ⟨m, hm, rfl⟩ := Option.map_eq_some_iff.mp h
        exact move_of_unlock hp hm
    | pop count =>
      dsimp only at h
      split at h <;> cases h
      exact .pop ‹_›
    | take =>
      dsimp only at h
      split at h <;> cases h
      exact .take ‹_›

/-! ## Who is at the ring -/

structure Locked (P : BoostParams) (s : BoostLockFreeQueue θ T) : Prop where
  reachable : (SpinLock.system θ P.slots).Reachable s.adderMutex
  linked : ∀ t, (s.pusher t).Linked P.multipleProducers (s.adderMutex.point t)
  acquired : P.multipleProducers = true →
    s.entered.map Prod.fst = s.adderMutex.acquirers.map Prod.fst

namespace Locked

theorem init : Locked P (init : BoostLockFreeQueue θ T) where
  reachable := .of_init rfl
  linked _ := rfl
  acquired _ := rfl

/-- A step of the lock in `push`. -/
theorem lock (L : Locked P s) (hm : s.adderMutex.step P.slots l = some m) (ht : l.thread = t)
    (hq : q.Linked P.multipleProducers (m.point t)) (he : P.multipleProducers = true →
      bs.map Prod.fst = m.acquirers.map Prod.fst) :
    Locked P { s with adderMutex := m, pusher := update s.pusher t q, entered := bs } where
  reachable := L.reachable.step hm
  linked u := by
    rcases eq_or_ne u t with rfl | hne
    · simpa using hq
    · have hu := L.linked u
      rw [← SpinLock.point_of_ne hm (ht ▸ hne)] at hu
      simpa [hne] using hu
  acquired := he

/-- A step of `push` beside the lock. -/
theorem ring (L : Locked P s) (hq : q.Linked P.multipleProducers (s.adderMutex.point t))
    (he : P.multipleProducers = true → bs = s.entered) :
    Locked P { s with pusher := update s.pusher t q, queue := xs, failed := b, entered := bs } where
  reachable := L.reachable
  linked u := by
    rcases eq_or_ne u t with rfl | hne
    · simpa using hq
    · simpa [hne] using L.linked u
  acquired hP := he hP ▸ L.acquired hP

theorem move (L : Locked P s) (M : Move P s l s') : Locked P s' := by
  cases M with
  | lock hP hp hm =>
    obtain ⟨hk, ha⟩ := SpinLock.lock_spec hm
    exact L.lock (q := .locking _) hm rfl ⟨hP, hk⟩ (ha ▸ L.acquired)
  | @enter t elements hP hp =>
    have ht := L.linked t
    rw [hp] at ht
    refine L.ring (q := .pushing elements 0) ?_ ?_ <;> simp [Pusher.Linked, hP]
    exact ht
  | @spin t elements m k hp hm hw ha =>
    have ht := L.linked t
    rw [hp] at ht
    have hself := L.lock (q := .locking elements) (t := t) hm rfl ⟨ht.1, k, hw⟩ (ha ▸ L.acquired)
    rwa [← hp, Function.update_eq_self] at hself
  | @acquire t elements m k hp hm hk ha =>
    have ht := L.linked t
    rw [hp] at ht
    refine L.lock (q := .pushing elements 0) hm rfl ?_ fun hP => ?_
    · simpa [Pusher.Linked, ht.1] using ⟨k, hk⟩
    rw [ha, List.map_append, List.map_append, L.acquired hP]
    rfl
  | @load t elements pushed count hp hc =>
    have ht := L.linked t
    rw [hp] at ht
    exact L.ring (q := .storing elements pushed count) ht fun _ => rfl
  | @store t elements pushed count hp =>
    have ht := L.linked t
    rw [hp] at ht
    unfold store
    dsimp only
    split
    · refine L.ring ?_ fun _ => rfl
      cases hP : P.multipleProducers with
      | false => simpa [Pusher.Linked, hP] using ht
      | true =>
        obtain ⟨k, hk⟩ : ∃ k, s.adderMutex.point t = .holding k := by
          simpa [Pusher.Linked, hP] using ht
        simp [Pusher.Linked, hk, LockPoint.held]
    · exact L.ring (q := .pushing elements (pushed + count)) ht fun _ => rfl
  | @unlock t l m hp hl hm ha hk =>
    have ht := L.linked t
    rw [hp] at ht
    have hself := L.lock (q := .unlocking) hm hl.thread ⟨ht.1, hk⟩ (ha ▸ L.acquired)
    rwa [← hp, Function.update_eq_self] at hself
  | unlocked hp hl hm ha hk => exact L.lock (q := .idle) hm hl.thread hk (ha ▸ L.acquired)
  | pop | take => exact { L with }

/-- At most one push is at the ring. -/
theorem unique (L : Locked P s) (hN : s.adderMutex.takers.length < 2 ^ 64)
    (hS : P.multipleProducers = false → Subsingleton θ) (ht : (s.pusher t).rest ≠ none)
    (hu : (s.pusher u).rest ≠ none) : t = u := by
  cases hP : P.multipleProducers with
  | false =>
    have := hS hP
    exact Subsingleton.elim t u
  | true =>
    have I := SpinLock.LockInv.of_reachable L.reachable hN
    obtain ⟨k, hk⟩ := Option.ne_none_iff_exists'.mp ((hP ▸ L.linked t).held ht)
    obtain ⟨k', hk'⟩ := Option.ne_none_iff_exists'.mp ((hP ▸ L.linked u).held hu)
    exact I.held_unique hk hk'

end Locked

/-! ## How far the push at the ring has come -/

structure Flow (P : BoostParams) (s : BoostLockFreeQueue θ T) : Prop where
  size : s.queue.length ≤ P.size
  popper : ∀ n, s.popper = some n → n ≤ s.queue.length
  fits : ∀ t, (s.pusher t).Fits P.size s.queue.length
  between : (∀ t, (s.pusher t).rest = none) → s.popped ++ s.queue = s.entered.flatMap Prod.snd
  during : ∀ t xs, (s.pusher t).rest = some xs → ∃ bs ys, s.entered = bs ++ [(t, ys ++ xs)] ∧
    s.popped ++ s.queue = bs.flatMap Prod.snd ++ ys

namespace Flow

omit [DecidableEq θ] in
theorem init : Flow P (init : BoostLockFreeQueue θ T) := by
  constructor <;> simp [BoostLockFreeQueue.init, Pusher.rest, Pusher.Fits]

theorem keep (F : Flow P s) (hq : q.rest = (s.pusher t).rest) (hf : q.Fits P.size s.queue.length) :
    Flow P { s with adderMutex := m, pusher := update s.pusher t q } where
  size := F.size
  popper := F.popper
  fits := (Function.forall_update_iff _ _).mpr ⟨hf, fun u _ => F.fits u⟩
  between h := by
    refine F.between fun u => ?_
    rcases eq_or_ne u t with rfl | hne
    · simpa [hq] using h u
    · simpa [hne] using h u
  during u xs h := by
    refine F.during u xs ?_
    rcases eq_or_ne u t with rfl | hne
    · simpa [hq] using h
    · simpa [hne] using h

/-- A push comes to the ring when no other one is there. -/
theorem enter (F : Flow P s) (ht : (s.pusher t).rest = none)
    (hone : ∀ u, (update s.pusher t (.pushing elements 0) u).rest ≠ none → u = t) :
    Flow P ({ s with adderMutex := m }.enter t elements) where
  size := F.size
  popper := F.popper
  fits := (Function.forall_update_iff _ _).mpr ⟨Nat.zero_le _, fun u _ => F.fits u⟩
  between h := by
    have := h t
    simp [BoostLockFreeQueue.enter, Pusher.rest] at this
  during u xs h := by
    rcases eq_or_ne u t with rfl | hne
    · have hxs : elements = xs := by simpa [BoostLockFreeQueue.enter, Pusher.rest] using h
      subst hxs
      refine ⟨s.entered, [], rfl, ?_⟩
      rw [List.append_nil]
      refine F.between fun u' => ?_
      rcases eq_or_ne u' u with rfl | hne
      · exact ht
      · by_contra hu
        exact hne (hone u' (by rwa [Function.update_of_ne hne]))
    · exact absurd (hone u (by simpa [BoostLockFreeQueue.enter, h] using h ▸ nofun)) hne

/-- The elements there was room for are published. -/
theorem store (F : Flow P s) (hp : s.pusher t = .storing elements pushed count)
    (hone : ∀ u, u ≠ t → (s.pusher u).rest = none) :
    Flow P (s.store P t elements pushed count) := by
  have hroom := F.fits t
  rw [hp] at hroom
  obtain ⟨hle, hroom⟩ := hroom
  obtain ⟨bs, ys, hentered, hflow⟩ := F.during t (elements.drop pushed) (by rw [hp]; rfl)
  have hlen : (s.queue ++ (elements.drop pushed).take count).length = s.queue.length + count := by
    rw [List.length_append, List.length_take, List.length_drop, Nat.min_eq_left (by omega)]
  have hfits {q : Pusher T} (hq : q.Fits P.size (s.queue.length + count)) (u : θ) :
      (update s.pusher t q u).Fits P.size (s.queue.length + count) := by
    rcases eq_or_ne u t with rfl | hne
    · rwa [Function.update_self]
    · have h := hone u hne
      rw [Function.update_of_ne hne]
      revert h
      cases s.pusher u <;> simp [Pusher.rest, Pusher.Fits]
  have hpopper (n : Nat) (hn : s.popper = some n) : n ≤ s.queue.length + count :=
    Nat.le_add_right_of_le (F.popper n hn)
  have hflow' : s.popped ++ (s.queue ++ (elements.drop pushed).take count) =
      bs.flatMap Prod.snd ++ (ys ++ (elements.drop pushed).take count) := by
    rw [← List.append_assoc, hflow, List.append_assoc]
  unfold BoostLockFreeQueue.store
  dsimp only
  split
  next hlast =>
    -- the push leaves the ring
    have hall : (elements.drop pushed).take count = elements.drop pushed :=
      List.take_of_length_le (by rw [List.length_drop]; omega)
    have hq : (if P.multipleProducers then .unlocking else .idle : Pusher T).rest = none := by
      split <;> rfl
    refine ⟨hlen ▸ hroom, hlen ▸ hpopper, hlen ▸ hfits (by split <;> trivial), fun _ => ?_, ?_⟩
    · rw [hflow', hentered, hall]
      simp
    · intro u xs h
      rcases eq_or_ne u t with rfl | hne
      · simp [hq] at h
      · simp [hne, hone u hne] at h
  next hmore =>
    refine ⟨hlen ▸ hroom, hlen ▸ hpopper, hlen ▸ hfits hle, fun h => ?_, ?_⟩
    · have := h t
      simp [Pusher.rest] at this
    · intro u xs h
      rcases eq_or_ne u t with rfl | hne
      · have hxs : elements.drop (pushed + count) = xs := by simpa [Pusher.rest] using h
        subst hxs
        refine ⟨bs, _, ?_, hflow'⟩
        rw [hentered, List.append_assoc, ← List.drop_drop, List.take_append_drop]
      · simp [hne, hone u hne] at h

omit [DecidableEq θ] in
theorem pop (F : Flow P s) : Flow P { s with popper := some (min count s.queue.length) } where
  __ := F
  popper n h := by
    cases h
    exact Nat.min_le_right ..

omit [DecidableEq θ] in
theorem take (F : Flow P s) : Flow P { s with
    queue := s.queue.drop count, popper := none, popped := s.popped ++ s.queue.take count } where
  size := Nat.le_trans (by simp) F.size
  popper n h := by cases h
  fits t := by
    have h := F.fits t
    revert h
    cases s.pusher t <;> simp [Pusher.Fits]
    intro hle hroom
    exact ⟨hle, by omega⟩
  between h := by simpa using F.between h
  during t xs h := by simpa using F.during t xs h

/-- When at most one push is at the ring, before the step and after it. -/
theorem move (F : Flow P s) (M : Move P s l s')
    (hone : ∀ t u, (s.pusher t).rest ≠ none → (s.pusher u).rest ≠ none → t = u)
    (hone' : ∀ t u, (s'.pusher t).rest ≠ none → (s'.pusher u).rest ≠ none → t = u) :
    Flow P s' := by
  have hothers {t : θ} (ht : (s.pusher t).rest ≠ none) (u : θ) (hne : u ≠ t) :
      (s.pusher u).rest = none := by
    by_contra hu
    exact hne (hone u t hu ht)
  cases M with
  | lock hP hp hm => exact F.keep (by rw [hp]; rfl) trivial
  | enter hP hp =>
    exact F.enter (by rw [hp]; rfl) fun u hu =>
      hone' u _ hu (by simp [BoostLockFreeQueue.enter, Pusher.rest])
  | spin | unlock => exact { F with }
  | acquire hp hm hk ha =>
    exact F.enter (by rw [hp]; rfl) fun u hu =>
      hone' u _ hu (by simp [BoostLockFreeQueue.enter, Pusher.rest])
  | @load t elements pushed count hp hc =>
    have hle := F.fits t
    rw [hp] at hle
    have := F.size
    refine F.keep (by rw [hp]; rfl) ⟨?_, ?_⟩ <;> simp only [Pusher.Fits] at hle <;> omega
  | store hp => exact F.store hp (hothers (by rw [hp]; simp [Pusher.rest]))
  | unlocked hp => exact F.keep (by rw [hp]; rfl) trivial
  | pop => exact F.pop
  | take => exact F.take

end Flow

/-! ## Runs -/

theorem Move.adderMutex (M : Move P s l s') :
    s'.adderMutex = s.adderMutex ∨
      ∃ k, s.adderMutex.step P.slots k = some s'.adderMutex := by
  cases M with
  | lock _ _ hm | spin _ hm | acquire _ hm | unlock _ _ hm | unlocked _ _ hm => exact .inr ⟨_, hm⟩
  | enter | load | pop | take => exact .inl rfl
  | store =>
    unfold BoostLockFreeQueue.store
    dsimp only
    split <;> exact .inl rfl

theorem Move.failed (M : Move P s l s') (h : s.failed = false) :
    s'.failed = true → P.fullFailure = true := by
  cases M with
  | store hp =>
    unfold BoostLockFreeQueue.store
    dsimp only
    split
    · simp [h]
    · exact id
  | _ => simp [h, BoostLockFreeQueue.enter]

theorem of_reachable (h : (system θ T P).Reachable s)
    (hN : s.adderMutex.takers.length < 2 ^ 64)
    (hS : P.multipleProducers = false → Subsingleton θ) :
    Locked P s ∧ Flow P s ∧ (s.failed = true → P.fullFailure = true) := by
  obtain ⟨s₀, ls, rfl, hr⟩ := h
  induction hr with
  | refl => exact ⟨.init, .init, by simp [BoostLockFreeQueue.init]⟩
  | @tail ls s l s' _ hs ih =>
    obtain ⟨hf, M⟩ := move_of_step hs
    have hle : s.adderMutex.takers.length ≤ s'.adderMutex.takers.length := by
      rcases M.adderMutex with heq | ⟨k, hk⟩
      · rw [heq]
      · exact SpinLock.takers_le_of_step hk
    have hN' := Nat.lt_of_le_of_lt hle hN
    obtain ⟨L, F, -⟩ := ih hN'
    have L' := L.move M
    exact ⟨L', F.move M (fun _ _ => L.unique hN' hS) (fun _ _ => L'.unique hN hS), M.failed hf⟩

/-- Along every interleaving of the producers and the consumer, with any number of threads and any
capacity, as long as fewer than `2^64` tickets of the lock are taken: the ring never holds more
elements than its capacity, and the pushes come to it one at a time in the order they took their
tickets. What was popped and what is in the ring are together the elements of these pushes one after
the other, up to the elements the last one still has to store. -/
theorem fifo_in_ticket_order (h : (system θ T P).Reachable s)
    (hN : s.adderMutex.takers.length < 2 ^ 64)
    (hS : P.multipleProducers = false → Subsingleton θ) :
    s.queue.length ≤ P.size ∧
    (P.multipleProducers = true →
      s.entered.map Prod.fst <+: s.adderMutex.takers.map Prod.fst) ∧
    ((∀ t, (s.pusher t).rest = none) ∧ s.popped ++ s.queue = s.entered.flatMap Prod.snd ∨
      ∃ t bs ys xs, (s.pusher t).rest = some xs ∧ (∀ u, u ≠ t → (s.pusher u).rest = none) ∧
        s.entered = bs ++ [(t, ys ++ xs)] ∧
        s.popped ++ s.queue = bs.flatMap Prod.snd ++ ys) := by
  obtain ⟨L, F, -⟩ := of_reachable h hN hS
  refine ⟨F.size, fun hP => ?_, ?_⟩
  · rw [L.acquired hP, (SpinLock.LockInv.of_reachable L.reachable hN).acquired]
    exact (List.take_prefix ..).map _
  · by_cases hall : ∀ t, (s.pusher t).rest = none
    · exact .inl ⟨hall, F.between hall⟩
    · push Not at hall
      obtain ⟨t, ht⟩ := hall
      obtain ⟨xs, hxs⟩ := Option.ne_none_iff_exists'.mp ht
      obtain ⟨bs, ys, hentered, hflow⟩ := F.during t xs hxs
      refine .inr ⟨t, bs, ys, xs, hxs, fun u hne => ?_, hentered, hflow⟩
      by_contra hu
      exact hne (L.unique hN hS hu ht)

/-- Thread 0 pushes two elements to a ring of one slot while thread 1 waits for the lock. -/
def demoBoost : BoostParams := ⟨1, 2, true, false⟩

def twoPushes : List (BoostLabel Nat Nat) :=
  [.push 0 [7, 8], .advance 0, .push 1 [9], .advance 0, .advance 1, .advance 0, .advance 0, .pop 4,
    .advance 0, .advance 0, .take, .advance 0, .advance 0, .advance 0, .advance 1]

theorem fifo_twoPushes : ∃ s, (system Nat Nat demoBoost).Reachable s ∧ s.popped = [7] ∧
    s.queue = [8] ∧ s.entered = [(0, [7, 8])] ∧ s.queue.length ≤ 1 ∧
    s.entered.map Prod.fst <+: s.adderMutex.takers.map Prod.fst := by
  obtain ⟨s, hs, hreach, hpopped, hqueue, hentered, htakers⟩ :
      ∃ s, run (step demoBoost) init twoPushes = some s ∧
        (system Nat Nat demoBoost).Reachable s ∧ s.popped = [7] ∧ s.queue = [8] ∧
        s.entered = [(0, [7, 8])] ∧ s.adderMutex.takers = [(0, 0), (1, 1)] :=
    ⟨_, rfl, ⟨_, twoPushes, rfl, .of_run (f := step demoBoost) (fun _ _ _ _ h => h) rfl⟩,
      rfl, rfl, rfl, rfl⟩
  obtain ⟨hsize, horder, -⟩ := fifo_in_ticket_order hreach (by simp [htakers]) nofun
  exact ⟨s, hreach, hpopped, hqueue, hentered, hsize, horder rfl⟩

end BoostLockFreeQueue
end Tampi
