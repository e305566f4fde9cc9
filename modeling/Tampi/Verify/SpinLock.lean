import Tampi.Model.SpinLock

/-! # Mutual exclusion and ticket order

`LockInv` relates `_head`, `_next`, every slot and the point of every thread. The lock has released
as many tickets as `releasers` is long; the slot of that ticket holds its number, no slot holds a
greater number, and a thread that is inside was let in by it. -/

namespace Tampi.SpinLock
open Function (update forall_update_iff)
open Transition

variable {size : Nat} {s s' : SpinLock θ}

/-- What is known of a thread at each point. -/
def PointInv (size : Nat) (s : SpinLock θ) (t : θ) : LockPoint → Prop
  | .idle | .tryLoaded _ => True
  | .waiting head => s.takers[head]? = some (t, head) ∧ s.acquirers.length ≤ head
  | .tryChecked head => head ≤ s.releasers.length
  | .holding ticket =>
    s.acquirers.length = s.releasers.length + 1 ∧ ticket = s.releasers.length ∧
    s.takers[ticket]? = some (t, ticket) ∧ s.next = s.releasers.length
  | .unlockLoaded ticket next =>
    s.acquirers.length = s.releasers.length + 1 ∧ ticket = s.releasers.length ∧
    s.takers[ticket]? = some (t, ticket) ∧ next = s.releasers.length
  | .unlockStore ticket idx =>
    s.acquirers.length = s.releasers.length + 1 ∧ ticket = s.releasers.length ∧
    s.takers[ticket]? = some (t, ticket) ∧ s.next = s.releasers.length + 1 ∧
    idx = (s.releasers.length + 1) % size

structure LockInv (size : Nat) (s : SpinLock θ) : Prop where
  head : s.head = s.takers.length
  tickets : s.takers.map Prod.snd = List.range s.takers.length
  acquired : s.acquirers = s.takers.take s.acquirers.length
  released : s.releasers = s.acquirers.take s.releasers.length
  acquirers_le : s.acquirers.length ≤ s.releasers.length + 1
  buffer_le : ∀ i, s.buffer i ≤ s.releasers.length
  slot : s.buffer (s.releasers.length % size) = s.releasers.length
  next : s.acquirers.length = s.releasers.length → s.next = s.releasers.length
  points : ∀ t, PointInv size s t (s.point t)
  waiters : ∀ t k, s.takers[k]? = some (t, k) → s.acquirers.length ≤ k → s.point t = .waiting k
  holder : ∀ t k, s.acquirers[k]? = some (t, k) → s.releasers.length ≤ k →
    (s.point t).held = some k

namespace LockInv

theorem init : LockInv size (init : SpinLock θ) := by
  constructor <;> simp [SpinLock.init, PointInv]

theorem releasers_le (I : LockInv size s) : s.releasers.length ≤ s.acquirers.length := by
  rw [I.released]
  exact List.length_take_le' ..

theorem acquirers_le_takers (I : LockInv size s) : s.acquirers.length ≤ s.takers.length := by
  rw [I.acquired]
  exact List.length_take_le' ..

/-- A thread inside holds the first ticket that is not released. -/
theorem of_held (I : LockInv size s) (h : (s.point t).held = some k) :
    s.acquirers.length = s.releasers.length + 1 ∧ k = s.releasers.length ∧
      s.takers[k]? = some (t, k) := by
  have hp := I.points t
  cases hpt : s.point t <;> simp only [hpt, LockPoint.held, Option.some.injEq, reduceCtorEq] at h
  all_goals
    subst h
    simp only [hpt, PointInv] at hp
    exact ⟨hp.1, hp.2.1, hp.2.2.1⟩

theorem held_unique (I : LockInv size s) (h : (s.point t).held = some k)
    (h' : (s.point u).held = some k') : t = u := by
  obtain ⟨_, rfl, ht⟩ := I.of_held h
  obtain ⟨_, rfl, hu⟩ := I.of_held h'
  rw [ht] at hu
  simpa using hu

theorem held_eq_none (I : LockInv size s) (h : (s.point t).held = some k) (hu : u ≠ t) :
    (s.point u).held = none := by
  cases hk : (s.point u).held with
  | none => rfl
  | some k' => exact absurd (I.held_unique hk h) hu

/-- A waiter whose slot shows its ticket is the next to enter, and nobody is inside. -/
theorem turn (I : LockInv size s) (hp : s.point t = .waiting k) (hk : s.buffer (k % size) = k) :
    s.acquirers.length = k ∧ s.releasers.length = k := by
  have hw := I.points t
  rw [hp] at hw
  have hle := I.buffer_le (k % size)
  have := I.releasers_le
  have := hw.2
  omega

/-- When `try_lock` finds `_head` where it loaded it, every ticket taken has been released. -/
theorem free (I : LockInv size s) (hp : s.point t = .tryChecked s.head) :
    s.releasers.length = s.head := by
  have ht := I.points t
  rw [hp] at ht
  have hle : s.head ≤ s.releasers.length := ht
  have := I.head
  have := I.releasers_le
  have := I.acquirers_le_takers
  omega

/-- A waiter sees its ticket in its slot exactly when it is its turn. -/
theorem waiting (I : LockInv size s) (hp : s.point t = .waiting k) :
    s.releasers.length ≤ k ∧ (s.buffer (k % size) = k ↔ k = s.releasers.length) := by
  have ht := I.points t
  rw [hp] at ht
  refine ⟨Nat.le_trans I.releasers_le ht.2, fun h => (I.turn hp h).2.symm, ?_⟩
  rintro rfl
  exact I.slot

theorem slot_of_not_released (I : LockInv size s) (hk : k ≤ s.releasers.length)
    (hnot : k ∉ s.releasers.map Prod.snd) : s.buffer (k % size) = k := by
  have hrange : s.releasers.map Prod.snd = List.range s.releasers.length := by
    have hle := Nat.le_trans I.releasers_le I.acquirers_le_takers
    conv_lhs => rw [I.released, I.acquired]
    rw [List.take_take, Nat.min_eq_left I.releasers_le, List.map_take, I.tickets, List.take_range,
      Nat.min_eq_left hle]
  rw [hrange, List.mem_range] at hnot
  obtain rfl : k = s.releasers.length := by omega
  exact I.slot

/-- A thread with a ticket that is not released is waiting with it or inside with it. -/
theorem in_progress (I : LockInv size s) (ht : s.takers[k]? = some (t, k))
    (hk : s.releasers.length ≤ k) : s.point t = .waiting k ∨ (s.point t).held = some k := by
  by_cases hA : s.acquirers.length ≤ k
  · exact .inl (I.waiters t k ht hA)
  · refine .inr (I.holder t k ?_ hk)
    rw [I.acquired, List.getElem?_take_of_lt (by omega)]
    exact ht

/-! ## What each step keeps -/

variable [DecidableEq θ]

/-- A step that changes only the point of a thread, between points with the same ticket. -/
theorem move (I : LockInv size s) (hw : ∀ k, s.point t ≠ .waiting k)
    (hh : (s.point t).held = p.held) (hp : PointInv size s t p) :
    LockInv size { s with point := update s.point t p } where
  __ := I
  points := (forall_update_iff _ _).mpr ⟨hp, fun u _ => I.points u⟩
  waiters u k hk hle := by
    have hu : u ≠ t := by
      rintro rfl
      exact hw k (I.waiters u k hk hle)
    simpa [hu] using I.waiters u k hk hle
  holder u k hk hle := by
    have h := I.holder u k hk hle
    by_cases hu : u = t
    · subst hu
      simpa [← hh] using h
    · simpa [hu] using h

/-- `_head` is incremented for a thread that waits for nothing and holds nothing. -/
theorem take (I : LockInv size s) (hw : ∀ k, s.point t ≠ .waiting k)
    (hh : (s.point t).held = none) (hN : s.takers.length + 1 < 2 ^ 64) :
    LockInv size { s with
      head := add64 s.head 1
      point := update s.point t (.waiting s.head)
      takers := s.takers ++ [(t, s.head)] } where
  head := by rw [I.head, add64, Nat.mod_eq_of_lt hN, List.length_append, List.length_singleton]
  tickets := by simp [I.tickets, I.head, List.range_succ]
  acquired := by
    rw [List.take_append_of_le_length I.acquirers_le_takers]
    exact I.acquired
  released := I.released
  acquirers_le := I.acquirers_le
  buffer_le := I.buffer_le
  slot := I.slot
  next := I.next
  points := by
    refine (forall_update_iff _ _).mpr ⟨?_, fun u _ => ?_⟩
    · simp [PointInv, I.head, I.acquirers_le_takers]
    · have := I.points u
      cases hp : s.point u <;> simp only [hp, PointInv] at this ⊢ <;> grind
  waiters u k hk hle := by
    by_cases hlt : k < s.takers.length
    · rw [List.getElem?_append_left hlt] at hk
      have h := I.waiters u k hk hle
      have hu : u ≠ t := by
        rintro rfl
        exact hw k h
      simpa [hu] using h
    · simp only [List.getElem?_append_right (Nat.le_of_not_lt hlt), List.getElem?_singleton] at hk
      split at hk
      · cases hk
        simp
      · cases hk
  holder u k hk hle := by
    have h := I.holder u k hk hle
    have hu : u ≠ t := by
      rintro rfl
      rw [hh] at h
      cases h
    simpa [hu] using h

/-- The slot shows a waiter its ticket. -/
theorem acquire (I : LockInv size s) (hp : s.point t = .waiting k)
    (hk : s.buffer (k % size) = k) :
    LockInv size { s with
      point := update s.point t (.holding k)
      acquirers := s.acquirers ++ [(t, k)] } := by
  obtain ⟨hA, hR⟩ := I.turn hp hk
  have hw := I.points t
  rw [hp] at hw
  refine { I with acquired := ?_, released := ?_, acquirers_le := ?_, next := ?_, points := ?_,
                  waiters := ?_, holder := ?_ }
  · rw [List.length_append, List.length_singleton, List.take_add_one, ← I.acquired, hA, hw.1]
    rfl
  · rw [List.take_append_of_le_length I.releasers_le]
    exact I.released
  · simp [hA, hR]
  · simp [hA, hR]
  · refine (forall_update_iff _ _).mpr ⟨?_, fun u hu => ?_⟩
    · exact ⟨by simp [hA, hR], hR.symm, hw.1, I.next (hA.trans hR.symm)⟩
    · have hpu := I.points u
      cases hpt : s.point u with
      | idle | tryLoaded _ => trivial
      | tryChecked head =>
        rw [hpt] at hpu
        exact hpu
      | waiting head =>
        rw [hpt] at hpu
        have hne : head ≠ k := by
          rintro rfl
          exact hu (by simpa [hpu.1] using hw.1)
        have := hpu.2
        exact ⟨hpu.1, by simp; omega⟩
      | _ =>
        -- nobody else is inside, since no acquired ticket is unreleased
        rw [hpt] at hpu
        have := hpu.1
        omega
  · intro u k' hk' hle
    rw [List.length_append, List.length_singleton] at hle
    have h := I.waiters u k' hk' (by omega)
    have hu : u ≠ t := by
      rintro rfl
      rw [hp] at h
      cases h
      omega
    simpa [hu] using h
  · intro u k' hk' hle
    have hlt := (List.getElem?_eq_some_iff.mp hk').1
    rw [List.length_append, List.length_singleton] at hlt
    obtain rfl : k' = k := by
      dsimp only at hle
      omega
    rw [← hA, List.getElem?_concat_length] at hk'
    cases hk'
    simp [LockPoint.held]

/-- `_next` is incremented by the thread that holds the lock. -/
theorem increment (I : LockInv size s) (hp : s.point t = .unlockLoaded k n)
    (hN : s.takers.length < 2 ^ 64) :
    LockInv size { s with
      next := add64 n 1
      point := update s.point t (.unlockStore k (add64 n 1 % size)) } := by
  have ht := I.points t
  rw [hp] at ht
  obtain ⟨hA, hk, htaken, rfl⟩ := ht
  have hle := I.acquirers_le_takers
  have hadd : add64 s.releasers.length 1 = s.releasers.length + 1 := Nat.mod_eq_of_lt (by omega)
  refine { I with next := ?_, points := ?_, waiters := ?_, holder := ?_ }
  · simp [hA]
  · refine (forall_update_iff _ _).mpr ⟨⟨hA, hk, htaken, hadd, by rw [hadd]⟩, fun u hu => ?_⟩
    · have hpu := I.points u
      have hout := I.held_eq_none (k := k) (by rw [hp]; rfl) hu
      cases hpt : s.point u <;> simp_all [PointInv, LockPoint.held]
  · intro u k' hk' hle
    have h := I.waiters u k' hk' hle
    have hu : u ≠ t := by
      rintro rfl
      rw [hp] at h
      cases h
    simpa [hu] using h
  · intro u k' hk' hle
    have h := I.holder u k' hk' hle
    by_cases hu : u = t
    · subst hu
      rw [hp] at h
      simpa [LockPoint.held] using h
    · simpa [hu] using h

/-- The holder passes the lock on by writing the slot of the next ticket. -/
theorem release (I : LockInv size s) (hp : s.point t = .unlockStore k idx) :
    LockInv size { s with
      buffer := update s.buffer idx s.next
      point := update s.point t .idle
      releasers := s.releasers ++ [(t, k)] } := by
  have ht := I.points t
  rw [hp] at ht
  obtain ⟨hA, rfl, htaken, hnext, rfl⟩ := ht
  have hacq : s.acquirers[s.releasers.length]? = some (t, s.releasers.length) := by
    rw [I.acquired, List.getElem?_take_of_lt (by omega)]
    exact htaken
  refine { I with released := ?_, acquirers_le := ?_, buffer_le := ?_, slot := ?_, next := ?_,
                  points := ?_, waiters := ?_, holder := ?_ }
  · rw [List.length_append, List.length_singleton, List.take_add_one, ← I.released, hacq]
    rfl
  · simp [hA]
  · intro i
    have := I.buffer_le i
    simp only [Function.update_apply, List.length_append, List.length_singleton]
    split <;> omega
  · simp [hnext]
  · simp [hnext]
  · refine (forall_update_iff _ _).mpr ⟨trivial, fun u hu => ?_⟩
    · have hpu := I.points u
      have hout := I.held_eq_none (k := s.releasers.length) (by rw [hp]; rfl) hu
      cases hpt : s.point u <;> simp_all [PointInv, LockPoint.held]
      omega
  · intro u k' hk' hle
    have h := I.waiters u k' hk' hle
    have hu : u ≠ t := by
      rintro rfl
      rw [hp] at h
      cases h
    simpa [hu] using h
  · intro u k' hk' hle
    have hlt := (List.getElem?_eq_some_iff.mp hk').1
    rw [List.length_append, List.length_singleton] at hle
    dsimp only at hlt
    omega

/-- A `try_lock` that finds its ticket free takes it and enters: as `lock` does when it need not
wait. -/
theorem exchange (I : LockInv size s) (hp : s.point t = .tryChecked s.head)
    (hN : s.takers.length + 1 < 2 ^ 64) :
    LockInv size { s with
      head := add64 s.head 1
      point := update s.point t (.holding s.head)
      takers := s.takers ++ [(t, s.head)]
      acquirers := s.acquirers ++ [(t, s.head)] } := by
  have hslot : s.buffer (s.head % size) = s.head := by
    rw [← I.free hp]
    exact I.slot
  have J := I.take (t := t) (by simp [hp]) (by simp [hp, LockPoint.held]) hN
  simpa using J.acquire (t := t) (k := s.head) (by simp) hslot

/-- Along a run that takes fewer than `2 ^ 64` tickets each step keeps the invariant. -/
theorem step (I : LockInv size s) (h : s.step size l = some s')
    (hN : s'.takers.length < 2 ^ 64) : LockInv size s' := by
  cases l with
  | lock t =>
    simp only [SpinLock.step] at h
    split at h <;> cases h
    rename_i hp
    exact I.take (by simp [hp]) (by simp [hp, LockPoint.held]) (by simpa using hN)
  | tryLock t =>
    simp only [SpinLock.step] at h
    split at h <;> cases h
    rename_i hp
    exact I.move (by simp [hp]) (by simp [hp, LockPoint.held]) trivial
  | unlock t =>
    simp only [SpinLock.step] at h
    split at h <;> cases h
    rename_i ticket hp
    have ht := I.points t
    rw [hp] at ht
    exact I.move (by simp [hp]) (by simp [hp, LockPoint.held]) ht
  | spin t =>
    simp only [SpinLock.step] at h
    split at h
    · rename_i head hp
      split at h <;> cases h
      · exact I
      · rename_i hslot
        exact I.acquire hp (not_not.mp hslot)
    · cases h
  | trySlot t =>
    simp only [SpinLock.step] at h
    split at h
    · rename_i head hp
      split at h <;> cases h
      · exact I.move (by simp [hp]) (by simp [hp, LockPoint.held]) trivial
      · rename_i hslot
        have hle := I.buffer_le (head % size)
        rw [not_not.mp hslot] at hle
        exact I.move (by simp [hp]) (by simp [hp, LockPoint.held]) hle
    · cases h
  | tryExchange t =>
    simp only [SpinLock.step] at h
    split at h
    · rename_i head hp
      split at h <;> cases h
      · rename_i hhead
        subst hhead
        exact I.exchange hp (by simpa using hN)
      · exact I.move (by simp [hp]) (by simp [hp, LockPoint.held]) trivial
    · cases h
  | unlockNext t =>
    simp only [SpinLock.step] at h
    split at h <;> cases h
    exact I.increment ‹_› hN
  | unlockSlot t =>
    simp only [SpinLock.step] at h
    split at h <;> cases h
    exact I.release ‹_›

end LockInv

section
variable [DecidableEq θ]

theorem takers_le_of_step (h : s.step size l = some s') :
    s.takers.length ≤ s'.takers.length := by
  cases l <;> simp only [step] at h <;> repeat' split at h
  all_goals cases h <;> simp

theorem LockInv.of_reachable (h : (system θ size).Reachable s) (hN : s.takers.length < 2 ^ 64) :
    LockInv size s := by
  obtain ⟨s₀, ls, rfl, hr⟩ := h
  induction hr with
  | refl => exact .init
  | tail _ hs ih => exact (ih (Nat.lt_of_le_of_lt (takers_le_of_step hs) hN)).step hs hN

/-- `try_lock` succeeds only when nobody holds the lock or waits for it, with the next ticket. -/
theorem LockInv.tryExchange (I : LockInv size s) (h : s.step size (.tryExchange t) = some s')
    (hheld : (s'.point t).held ≠ none) :
    (∀ u, (s.point u).held = none) ∧ (∀ u k, s.point u ≠ .waiting k) ∧
      s'.takers = s.takers ++ [(t, s.takers.length)] ∧
      s'.acquirers = s.acquirers ++ [(t, s.takers.length)] := by
  simp only [SpinLock.step] at h
  split at h
  · rename_i head hp
    split at h <;> cases h
    · rename_i hhead
      subst hhead
      have hR := I.free hp
      have hA := I.releasers_le
      have hN := I.acquirers_le_takers
      have hhead := I.head
      refine ⟨fun u => ?_, fun u k hw => ?_, by rw [I.head], by rw [I.head]⟩
      · cases hk : (s.point u).held with
        | none => rfl
        | some k =>
          have := (I.of_held hk).1
          omega
      · have hu := I.points u
        rw [hw] at hu
        have := (List.getElem?_eq_some_iff.mp hu.1).1
        have := hu.2
        omega
    · simp [LockPoint.held] at hheld
  · cases h

/-- `unlock` writes the number of the next ticket in the slot of that ticket. -/
theorem LockInv.unlockSlot (I : LockInv size s) (h : s.step size (.unlockSlot t) = some s') :
    s'.releasers.length = s.releasers.length + 1 ∧
      s'.buffer = update s.buffer (s'.releasers.length % size) s'.releasers.length := by
  simp only [SpinLock.step] at h
  split at h <;> cases h
  rename_i ticket idx hp
  have ht := I.points t
  rw [hp] at ht
  obtain ⟨_, _, _, hnext, rfl⟩ := ht
  simp [hnext]

/-- Along every run that takes fewer than `2 ^ 64` tickets, with any number of threads and slots: at
most one thread is inside, the tickets are given out and the lock is acquired in the order `_head`
was incremented, a successful `try_lock` finds the lock free, and the slot of a ticket keeps the
number of the ticket until the ticket is released, so that its owner does not miss its turn. -/
theorem mutual_exclusion_in_ticket_order (h : (system θ size).Reachable s)
    (hN : s.takers.length < 2 ^ 64) :
    (∀ t u k k', (s.point t).held = some k → (s.point u).held = some k' → t = u) ∧
    (s.takers.map Prod.snd = List.range s.takers.length ∧ s.acquirers <+: s.takers) ∧
    (∀ t s', s.step size (.tryExchange t) = some s' → (s'.point t).held ≠ none →
      (∀ u, (s.point u).held = none) ∧ (∀ u k, s.point u ≠ .waiting k) ∧
      s'.takers = s.takers ++ [(t, s.takers.length)] ∧
      s'.acquirers = s.acquirers ++ [(t, s.takers.length)]) ∧
    (∀ t s', s.step size (.unlockSlot t) = some s' →
      s'.releasers.length = s.releasers.length + 1 ∧
      s'.buffer = update s.buffer (s'.releasers.length % size) s'.releasers.length) ∧
    (s.releasers <+: s.acquirers ∧ ∀ k, k ≤ s.releasers.length → k ∉ s.releasers.map Prod.snd →
      s.buffer (k % size) = k) ∧
    (∀ t k, s.point t = .waiting k →
      s.releasers.length ≤ k ∧ (s.buffer (k % size) = k ↔ k = s.releasers.length)) ∧
    (∀ t k, s.takers[k]? = some (t, k) → s.releasers.length ≤ k →
      s.point t = .waiting k ∨ (s.point t).held = some k) := by
  have I := LockInv.of_reachable h hN
  refine ⟨fun t u k k' ht hu => I.held_unique ht hu, ⟨I.tickets, ?_⟩,
    fun t s' hs hheld => I.tryExchange hs hheld, fun t s' hs => I.unlockSlot hs,
    ⟨?_, fun k hk hnot => I.slot_of_not_released hk hnot⟩, fun t k hp => I.waiting hp,
    fun t k ht hk => I.in_progress ht hk⟩
  · rw [I.acquired]
    exact List.take_prefix ..
  · rw [I.released]
    exact List.take_prefix ..

end

/-- Four threads and one slot: a `try_lock` of thread 0 loses its ticket to thread 3, which passes the
lock to thread 1 while thread 2 waits. -/
def handedOver : List (LockLabel Nat) :=
  [.tryLock 0, .trySlot 0, .lock 3, .tryExchange 0, .spin 3, .lock 1, .lock 2, .spin 2, .unlock 3,
    .tryLock 0, .unlockNext 3, .spin 1, .unlockSlot 3, .trySlot 0, .spin 2, .spin 1]

theorem mutual_exclusion_handedOver :
    ∃ s, (system Nat 1).Reachable s ∧ s.takers = [(3, 0), (1, 1), (2, 2)] ∧
      s.acquirers = [(3, 0), (1, 1)] ∧ s.point 1 = .holding 1 ∧ s.point 2 = .waiting 2 ∧
      (∀ t k, (s.point t).held = some k → t = 1) := by
  obtain ⟨s, hs, htakers, hacquirers, h1, h2⟩ : ∃ s, (system Nat 1).Reachable s ∧
      s.takers = [(3, 0), (1, 1), (2, 2)] ∧ s.acquirers = [(3, 0), (1, 1)] ∧
      s.point 1 = .holding 1 ∧ s.point 2 = .waiting 2 :=
    ⟨_, ⟨_, handedOver, rfl, .of_run (f := step 1) (fun _ _ _ _ h => h) rfl⟩, rfl, rfl, rfl, rfl⟩
  have H := mutual_exclusion_in_ticket_order hs (by rw [htakers]; decide)
  exact ⟨s, hs, htakers, hacquirers, h1, h2, fun t k ht => H.1 t 1 k 1 ht (by rw [h1]; rfl)⟩

end Tampi.SpinLock
