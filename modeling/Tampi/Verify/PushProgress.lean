import Tampi.Verify.BoostLockFreeQueue

/-! # Every push to the collective queue returns

As long as the consumer keeps asking for elements, a push at the ring finds room, leaves the ring and
passes the lock on. So the turn of every push comes (`Fair.delivers`), if the ring has a slot and the
tickets of the lock do not wrap around. The elements a push still has to store are the rank at the
ring; it is only looked at once the consumer has emptied the ring, because a push that has found no
room does not get on. -/

namespace Tampi
open Function (update)
open Transition System

/-- The steps at the ring a push has before it when the ring is empty. -/
def Pusher.rank : Pusher T → Nat
  | .pushing elements pushed => 3 * (elements.length - pushed) + 2
  | .storing elements pushed count =>
    3 * (elements.length - pushed) + if count = 0 ∧ pushed < elements.length then 3 else 1
  | .idle | .locking _ | .unlocking => 0

namespace BoostLockFreeQueue
variable [DecidableEq θ] {P : BoostParams} {s s' : BoostLockFreeQueue θ T}

/-! ## Steps -/

theorem store_pusher_of_ne (hne : u ≠ t) :
    (s.store P t elements pushed count).pusher u = s.pusher u := by
  unfold store
  dsimp only
  split <;> exact Function.update_of_ne hne ..

namespace Move

/-- A thread in a call of `push` gets on only with its own steps. -/
theorem pusher_of_ne (M : Move P s l s') (ht : s.pusher t ≠ .idle) (hl : l ≠ .advance t) :
    s'.pusher t = s.pusher t := by
  have hne {u : θ} (h : s.pusher u = .idle) : t ≠ u := by
    rintro rfl
    exact ht h
  have hne' {u : θ} (h : BoostLabel.advance u ≠ .advance (T := T) t) : t ≠ u := by
    rintro rfl
    exact h rfl
  cases M with
  | lock _ hp | enter _ hp => exact Function.update_of_ne (hne hp) ..
  | load | acquire | unlocked => exact Function.update_of_ne (hne' hl) ..
  | store => exact store_pusher_of_ne (hne' hl)
  | spin | unlock | pop | take => rfl

theorem grows (M : Move P s l s') :
    s.entered <+: s'.entered ∧ s.popped <+: s'.popped ∧
      s.popped ++ s.queue <+: s'.popped ++ s'.queue := by
  cases M with
  | store =>
    unfold BoostLockFreeQueue.store
    dsimp only
    split <;> simp
  | take => simp
  | enter | acquire => simp [BoostLockFreeQueue.enter]
  | _ => simp

/-- The consumer takes what it has found. -/
theorem popper_cases (M : Move P s l s') (hp : s.popper = some count) :
    s'.popper = some count ∨ s'.popped = s.popped ++ s.queue.take count := by
  cases M with
  | store =>
    unfold BoostLockFreeQueue.store
    dsimp only
    split <;> exact .inl hp
  | pop hnone =>
    rw [hnone] at hp
    cases hp
  | take hc =>
    rw [hc] at hp
    cases hp
    exact .inr rfl
  | _ => exact .inl hp

/-- While a push is at the ring no other one comes to it. -/
theorem entered_eq (M : Move P s l s') (ht : (s.pusher t).rest ≠ none)
    (ht' : (s'.pusher t).rest ≠ none)
    (hone : ∀ t u, (s'.pusher t).rest ≠ none → (s'.pusher u).rest ≠ none → t = u) :
    s'.entered = s.entered := by
  cases M with
  | @enter u elements hP hp =>
    obtain rfl : t = u := hone t u ht' (by simp [BoostLockFreeQueue.enter, Pusher.rest])
    simp [hp, Pusher.rest] at ht
  | @acquire u elements m k hp =>
    obtain rfl : t = u := hone t u ht' (by simp [BoostLockFreeQueue.enter, Pusher.rest])
    simp [hp, Pusher.rest] at ht
  | store =>
    unfold BoostLockFreeQueue.store
    dsimp only
    split <;> rfl
  | _ => rfl

/-- Beside the ring each step of a push is a step of the lock. -/
theorem lock_of_advance (M : Move P s (.advance t) s') (ht : (s.pusher t).rest = none) :
    ∃ l, SpinLock.Advances t l ∧ s.adderMutex.step P.slots l = some s'.adderMutex := by
  cases M with
  | spin _ hm | acquire _ hm => exact ⟨.spin t, rfl, hm⟩
  | unlock _ hl hm | unlocked _ hl hm => exact ⟨_, hl, hm⟩
  | load hp | store hp => simp [hp, Pusher.rest] at ht

/-- A push leaves the ring for the end of its call. -/
theorem leaves (M : Move P s l s') (ht : (s.pusher t).rest ≠ none)
    (ht' : (s'.pusher t).rest = none) : s'.pusher t = .unlocking ∨ s'.pusher t = .idle := by
  by_cases hl : l = .advance t
  · subst hl
    cases M with
    | spin hp | acquire hp | unlock hp | unlocked hp => simp [hp, Pusher.rest] at ht
    | load => simp [Pusher.rest] at ht'
    | store =>
      unfold BoostLockFreeQueue.store at ht' ⊢
      dsimp only at ht' ⊢
      split
      · simp only [Function.update_self]
        split
        · exact .inl rfl
        · exact .inr rfl
      next h => simp [h, Pusher.rest] at ht'
  · have hidle : s.pusher t ≠ .idle := by
      intro hp
      simp [hp, Pusher.rest] at ht
    rw [M.pusher_of_ne hidle hl] at ht'
    exact absurd ht' ht

/-- The push that leaves the ring leaves it empty of pushes. -/
theorem all_left (M : Move P s l s') (ht : (s.pusher t).rest ≠ none)
    (ht' : (s'.pusher t).rest = none) (hone : ∀ u, u ≠ t → (s.pusher u).rest = none) (u : θ) :
    (s'.pusher u).rest = none := by
  rcases eq_or_ne u t with rfl | hne
  · exact ht'
  · by_cases hl : l = .advance t
    · subst hl
      cases M with
      | spin hp | acquire hp | unlock hp | unlocked hp => simp [hp, Pusher.rest] at ht
      | load => simp [Pusher.rest] at ht'
      | store =>
        rw [store_pusher_of_ne hne]
        exact hone u hne
    · have hidle : s.pusher t ≠ .idle := by
        intro hp
        simp [hp, Pusher.rest] at ht
      rw [M.pusher_of_ne hidle hl] at ht'
      exact absurd ht' ht

theorem unlocking_step (M : Move P s l s') (ht : s.pusher t = .unlocking) :
    s'.pusher t = .unlocking ∨ s'.pusher t = .idle := by
  by_cases hl : l = .advance t
  · subst hl
    cases M with
    | spin hp | acquire hp | load hp | store hp => simp [ht] at hp
    | unlock => exact .inl ht
    | unlocked => simp
  · rw [M.pusher_of_ne (by simp [ht]) hl]
    exact .inl ht

/-- A push at an empty ring gets on with each of its steps. -/
theorem rank_lt (M : Move P s (.advance t) s') (F : Flow P s) (ht : (s.pusher t).rest ≠ none)
    (hq : s.queue = []) (hsize : 0 < P.size) : (s'.pusher t).rank < (s.pusher t).rank := by
  have hfits := F.fits t
  cases M with
  | spin hp | acquire hp | unlock hp | unlocked hp => simp [hp, Pusher.rest] at ht
  | @load t elements pushed count hp hc =>
    rw [hp] at hfits ⊢
    simp only [Pusher.Fits] at hfits
    simp only [Function.update_self, Pusher.rank]
    rw [hq, List.length_nil, Nat.sub_zero] at hc
    split <;> omega
  | @store t elements pushed count hp =>
    rw [hp] at hfits ⊢
    simp only [Pusher.Fits] at hfits
    unfold BoostLockFreeQueue.store
    dsimp only
    split
    · have hout : (if P.multipleProducers then .unlocking else .idle : Pusher T).rank = 0 := by
        split <;> rfl
      simp only [Function.update_self]
      rw [hout, Pusher.rank]
      split <;> omega
    · simp only [Function.update_self, Pusher.rank]
      split <;> omega

end Move

omit [DecidableEq θ] in
theorem Flow.stored (F : Flow P s) : s.popped ++ s.queue <+: s.entered.flatMap Prod.snd := by
  by_cases hall : ∀ t, (s.pusher t).rest = none
  · rw [F.between hall]
  · push Not at hall
    obtain ⟨t, ht⟩ := hall
    obtain ⟨xs, hxs⟩ := Option.ne_none_iff_exists'.mp ht
    obtain ⟨bs, ys, hentered, hflow⟩ := F.during t xs hxs
    simp [hentered, hflow]

theorem exists_advance (L : Locked P s) (hf : s.failed = false) (ht : s.pusher t ≠ .idle) :
    ∃ s', s.step P (.advance t) = some s' := by
  have hl := L.linked t
  suffices h : ∃ s', s.advance P t = some s' by simpa [step, hf] using h
  unfold advance
  cases hp : s.pusher t with
  | idle => exact absurd hp ht
  | locking elements =>
    rw [hp] at hl
    obtain ⟨-, k, hk⟩ := hl
    obtain ⟨m, hm⟩ : ∃ m, s.adderMutex.step P.slots (.spin t) = some m := by
      simp only [SpinLock.step, hk]
      split <;> exact ⟨_, rfl⟩
    exact ⟨_, by rw [hm]; rfl⟩
  | pushing | storing => exact ⟨_, rfl⟩
  | unlocking =>
    rw [hp] at hl
    obtain ⟨m, hm⟩ : ∃ m, s.unlockStep P t = some m := by
      have hheld := hl.2
      cases hk : s.adderMutex.point t with
      | holding | unlockLoaded | unlockStore => simp [unlockStep, SpinLock.step, hk]
      | _ => simp [hk, LockPoint.held] at hheld
    exact ⟨_, by rw [hm]; rfl⟩

/-! ## Executions -/

/-- No thread that can go on in `push` is passed over for ever, and the consumer asks for elements
again and again. Fewer than `2^64` tickets of the lock are taken; each push of multiple producers
takes one. Without multiple producers there is at most one thread, and it takes none. -/
structure Fair (P : BoostParams) (σ : Nat → BoostLockFreeQueue θ T) (ls : Nat → BoostLabel θ T) :
    Prop where
  execution : (system θ T P).Execution σ ls
  advance : ∀ t, (system θ T P).WeaklyFair (· = .advance t) σ ls
  pops : ∀ n, ∃ m ≥ n, ∃ count > 0, ls m = .pop count
  tickets : ∀ n, (σ n).adderMutex.takers.length < 2 ^ 64
  producers : P.multipleProducers = false → Subsingleton θ

namespace Fair
variable {σ : Nat → BoostLockFreeQueue θ T} {ls : Nat → BoostLabel θ T} (F : Fair P σ ls)
include F

theorem locked (n : Nat) : Locked P (σ n) :=
  (of_reachable (F.execution.reachable n) (F.tickets n) F.producers).1

theorem flow (n : Nat) : Flow P (σ n) :=
  (of_reachable (F.execution.reachable n) (F.tickets n) F.producers).2.1

theorem move (n : Nat) : Move P (σ n) (ls n) (σ (n + 1)) :=
  (move_of_step (F.execution.step n)).2

theorem unique (n : Nat) (ht : ((σ n).pusher t).rest ≠ none) (hu : ((σ n).pusher u).rest ≠ none) :
    t = u :=
  (F.locked n).unique (F.tickets n) F.producers ht hu

theorem grows (h : n ≤ m) : (σ n).entered <+: (σ m).entered ∧ (σ n).popped <+: (σ m).popped ∧
    (σ n).popped ++ (σ n).queue <+: (σ m).popped ++ (σ m).queue := by
  refine always_from (P := fun m => (σ n).entered <+: (σ m).entered ∧
    (σ n).popped <+: (σ m).popped ∧ (σ n).popped ++ (σ n).queue <+: (σ m).popped ++ (σ m).queue)
    ⟨List.prefix_rfl, List.prefix_rfl, List.prefix_rfl⟩ ?_ m h
  rintro m _ ⟨he, hp, hq⟩
  obtain ⟨he', hp', hq'⟩ := (F.move m).grows
  exact ⟨he.trans he', hp.trans hp', hq.trans hq'⟩

/-- A thread that is in `push` again and again takes a step of it. -/
theorem enabled (n : Nat) (ht : (σ n).pusher t ≠ .idle) :
    (system θ T P).Enabled (· = .advance t) (σ n) := by
  obtain ⟨s', hs⟩ := exists_advance (F.locked n) (move_of_step (F.execution.step n)).1 ht
  exact ⟨_, s', rfl, hs⟩

/-- The consumer takes an element out of a queue that stays nonempty. -/
theorem exists_popped (hq : ∀ m ≥ n, (σ m).queue ≠ []) :
    ∃ m ≥ n, (σ n).popped.length < (σ m).popped.length := by
  obtain ⟨m, hm, count, hpos, hl⟩ := F.pops n
  have M := F.move m
  rw [hl] at M
  obtain ⟨c, hc, hpop⟩ : ∃ c > 0, (σ (m + 1)).popper = some c := by
    generalize hs : σ (m + 1) = s' at M
    cases M with
    | pop hp =>
      have hlen := List.length_pos_iff.mpr (hq m hm)
      exact ⟨_, by omega, rfl⟩
  -- the next `pop` finds the consumer idle
  obtain ⟨m', hm', count', -, hl'⟩ := F.pops (m + 1)
  have hnone : (σ m').popper ≠ some c := by
    have M := F.move m'
    rw [hl'] at M
    generalize hs : σ (m' + 1) = s' at M
    cases M with
    | pop hp => simp [hp]
  obtain ⟨j, hj, hjc, hjc'⟩ := exists_switch (P := fun n => (σ n).popper ≠ some c)
    (not_not.mpr hpop) hm' hnone
  have htake := ((F.move j).popper_cases (not_not.mp hjc)).resolve_left hjc'
  have hlen := List.length_pos_iff.mpr (hq j (by omega))
  have hle := (F.grows (n := n) (m := j) (by omega)).2.1.length_le
  refine ⟨j + 1, by omega, ?_⟩
  rw [htake, List.length_append, List.length_take]
  omega

/-- The push at the ring leaves it. -/
theorem exists_left (hsize : 0 < P.size) (t : θ) (n : Nat) :
    ∃ m ≥ n, ((σ m).pusher t).rest = none := by
  by_contra hno
  push Not at hno
  have hentered {m : Nat} (hm : m ≥ n) : (σ m).entered = (σ n).entered := by
    refine always_from (P := fun m => (σ m).entered = (σ n).entered) rfl ?_ m hm
    intro m hm heq
    rw [(F.move m).entered_eq (hno m hm) (hno (m + 1) (Nat.le_succ_of_le hm))
      (fun _ _ => F.unique (m + 1)), heq]
  -- from some time on the push stores nothing and the consumer takes nothing
  obtain ⟨j, hj⟩ := eventually_eq_of_le (f := fun j => ((σ (j + n)).popped ++ (σ (j + n)).queue).length)
    (b := ((σ n).entered.flatMap Prod.snd).length)
    (fun j => (F.grows (by omega)).2.2.length_le) fun j => by
      rw [← hentered (Nat.le_add_left n j)]
      exact (F.flow (j + n)).stored.length_le
  obtain ⟨j', hj'⟩ := eventually_eq_of_le (f := fun j => (σ (j + n)).popped.length)
    (b := ((σ n).entered.flatMap Prod.snd).length)
    (fun j => (F.grows (by omega)).2.1.length_le) fun j => by
      rw [← hentered (Nat.le_add_left n j)]
      exact ((List.prefix_append ..).trans (F.flow (j + n)).stored).length_le
  obtain ⟨k, hk, hfix⟩ : ∃ k ≥ n, ∀ m ≥ k, (σ m).popped.length = (σ k).popped.length ∧
      (σ m).queue.length = (σ k).queue.length := by
    refine ⟨max j j' + n, Nat.le_add_left .., fun m hm => ?_⟩
    refine always_from (P := fun m => (σ m).popped.length = (σ (max j j' + n)).popped.length ∧
      (σ m).queue.length = (σ (max j j' + n)).queue.length) ⟨rfl, rfl⟩ ?_ m hm
    rintro m hm ⟨hp, hq⟩
    obtain ⟨d, rfl⟩ := Nat.exists_eq_add_of_le' (Nat.le_trans (Nat.le_add_left n _) hm)
    have hstored := hj d (by omega)
    have hpopped := hj' d (by omega)
    simp only [List.length_append, Nat.add_right_comm d 1 n] at hstored hpopped
    omega
  have hempty : (σ k).queue = [] := by
    by_contra hne
    obtain ⟨m, hm, hlt⟩ := F.exists_popped (n := k) fun m hm hq => by
      have := (hfix m hm).2
      rw [hq, List.length_nil] at this
      exact hne (List.length_eq_zero_iff.mp this.symm)
    exact absurd (hfix m hm).1 (Nat.ne_of_gt hlt)
  have hq {m : Nat} (hm : m ≥ k) : (σ m).queue = [] := by
    have := (hfix m hm).2
    rw [hempty] at this
    exact List.length_eq_zero_iff.mp this
  have hbusy {m : Nat} (hm : m ≥ k) : (σ m).pusher t ≠ .idle := by
    intro hidle
    have := hno m (Nat.le_trans hk hm)
    simp [hidle, Pusher.rest] at this
  have hlt {m : Nat} (hm : m ≥ k) (hl : ls m = .advance t) :
      ((σ (m + 1)).pusher t).rank < ((σ m).pusher t).rank :=
    Move.rank_lt (hl ▸ F.move m) (F.flow m) (hno m (Nat.le_trans hk hm)) (hq hm) hsize
  obtain ⟨m, hm, hdis⟩ := (F.advance t).exists_disabled (k := k) (μ := fun s => (s.pusher t).rank)
    (fun m hm => by
      by_cases hl : ls m = .advance t
      · exact (hlt hm hl).le
      · exact (congrArg Pusher.rank ((F.move m).pusher_of_ne (hbusy hm) hl)).le)
    fun m hm hl => hlt hm hl
  exact hdis (F.enabled m (hbusy hm))

/-! ## The turn of every push -/

theorem mutex : ∃ ks, (SpinLock.system θ P.slots).beside.Execution (fun n => (σ n).adderMutex) ks := by
  have hstep (n : Nat) : ∃ k, (SpinLock.system θ P.slots).beside.step (σ n).adderMutex k
      (σ (n + 1)).adderMutex := by
    rcases (F.move n).adderMutex with heq | ⟨k, hk⟩
    · exact ⟨none, heq⟩
    · exact ⟨some k, hk⟩
  choose ks hks using hstep
  exact ⟨ks, (F.locked 0).reachable.beside, hks⟩

theorem lockInv (n : Nat) : SpinLock.LockInv P.slots (σ n).adderMutex :=
  .of_reachable (F.locked n).reachable (F.tickets n)

/-- The thread whose turn it is in the lock is in `push`. -/
theorem ne_idle_of_owner (ht : (σ n).adderMutex.takers[(σ n).adderMutex.releasers.length]? =
    some (t, (σ n).adderMutex.releasers.length)) : (σ n).pusher t ≠ .idle := by
  intro hidle
  have hl := (F.locked n).linked t
  rw [hidle] at hl
  exact (F.lockInv n).rank_owner ht (by rw [show (σ n).adderMutex.point t = .idle from hl]; rfl)

/-- The thread whose turn it is in the lock does not stay away from the ring without releasing it. -/
theorem owner_moves (ht : ∀ m ≥ n, (σ m).adderMutex.takers[(σ m).adderMutex.releasers.length]? =
    some (t, (σ m).adderMutex.releasers.length)) : ∃ m ≥ n, ((σ m).pusher t).rest ≠ none := by
  by_contra hno
  push Not at hno
  obtain ⟨m, hm, hdis⟩ := (F.advance t).exists_disabled (k := n)
    (μ := fun s => (s.adderMutex.point t).rank)
    (fun m hm => by
      rcases (F.move m).adderMutex with heq | ⟨k, hk⟩
      · simp only [heq, Nat.le_refl]
      · exact SpinLock.rank_step_le hk ((F.lockInv m).rank_owner (ht m hm)))
    fun m hm hl => by
      have M := F.move m
      rw [hl] at M
      obtain ⟨l, hadv, hs⟩ := M.lock_of_advance (hno m hm)
      exact (F.lockInv m).rank_advance_lt (ht m hm) hadv hs
  exact hdis (F.enabled m (F.ne_idle_of_owner (ht m hm)))

theorem exists_released (hsize : 0 < P.size)
    (h : (σ n).adderMutex.releasers.length < (σ n).adderMutex.takers.length) :
    ∃ m ≥ n, (σ n).adderMutex.releasers.length < (σ m).adderMutex.releasers.length := by
  obtain ⟨t, ht⟩ := (F.lockInv n).exists_owner h
  by_contra hno
  push Not at hno
  obtain ⟨ks, E⟩ := F.mutex
  have howner (m : Nat) (hm : m ≥ n) := SpinLock.owner_of_execution E ht hno hm
  obtain ⟨i, hi, hring⟩ := F.owner_moves howner
  obtain ⟨i', hi', hleft⟩ := F.exists_left hsize t i
  obtain ⟨j, hj, hin, hout⟩ := exists_switch (P := fun m => ((σ m).pusher t).rest = none)
    hring hi' hleft
  have hunlocking (m : Nat) (hm : m ≥ j + 1) : (σ m).pusher t = .unlocking := by
    refine always_from (P := fun m => (σ m).pusher t = .unlocking) ?_ ?_ m hm
    · exact ((F.move j).leaves hin hout).resolve_right (F.ne_idle_of_owner (howner _ (by omega)))
    · intro m hm hp
      exact ((F.move m).unlocking_step hp).resolve_right
        (F.ne_idle_of_owner (howner _ (by omega)))
  obtain ⟨m, hm, hring⟩ := F.owner_moves (n := j + 1) fun m hm => howner m (by omega)
  exact hring (by rw [hunlocking m hm]; rfl)

theorem returns_of_held (hsize : 0 < P.size) (hP : P.multipleProducers = true)
    (hk : ((σ n).adderMutex.point t).held = some k) : ∃ m ≥ n, (σ m).pusher t = .idle := by
  obtain ⟨ks, E⟩ := F.mutex
  obtain ⟨m, hm, hidle, -⟩ := SpinLock.returns_of_released E F.tickets
    (fun n h => F.exists_released hsize h) hk
  have hl := (F.locked m).linked t
  refine ⟨m, hm, ?_⟩
  cases hp : (σ m).pusher t with
  | idle => rfl
  | _ => simp [hp, hidle, Pusher.Linked, hP, LockPoint.held] at hl

theorem returns (hsize : 0 < P.size) (t : θ) (n : Nat) : ∃ m ≥ n, (σ m).pusher t = .idle := by
  have hl := (F.locked n).linked t
  cases hp : (σ n).pusher t with
  | idle => exact ⟨n, Nat.le_refl n, hp⟩
  | locking elements =>
    rw [hp] at hl
    obtain ⟨hP, k, hk⟩ := hl
    obtain ⟨ks, E⟩ := F.mutex
    obtain ⟨m, hm, hhold⟩ := SpinLock.acquires_of_released E F.tickets
      (fun n h => F.exists_released hsize h) hk
    obtain ⟨m', hm', hidle⟩ := F.returns_of_held (n := m) (t := t) hsize hP (by rw [hhold]; rfl)
    exact ⟨m', Nat.le_trans hm hm', hidle⟩
  | unlocking =>
    rw [hp] at hl
    obtain ⟨k, hk⟩ := Option.ne_none_iff_exists'.mp hl.2
    exact F.returns_of_held hsize hl.1 hk
  | pushing | storing =>
    have hring : ((σ n).pusher t).rest ≠ none := by simp [hp, Pusher.rest]
    cases hP : P.multipleProducers with
    | true =>
      obtain ⟨k, hk⟩ := Option.ne_none_iff_exists'.mp ((hP ▸ hl).held hring)
      exact F.returns_of_held hsize hP hk
    | false =>
      obtain ⟨m, hm, hleft⟩ := F.exists_left hsize t n
      obtain ⟨j, hj, hin, hout⟩ := exists_switch (P := fun m => ((σ m).pusher t).rest = none)
        hring hm hleft
      refine ⟨j + 1, Nat.le_succ_of_le hj, ((F.move j).leaves hin hout).resolve_left ?_⟩
      intro hunlocking
      have hl' := (F.locked (j + 1)).linked t
      rw [hunlocking, hP] at hl'
      cases hl'.1

/-- Again and again no push is at the ring. -/
theorem exists_between (hsize : 0 < P.size) (n : Nat) :
    ∃ m ≥ n, ∀ t, ((σ m).pusher t).rest = none := by
  by_cases hall : ∀ t, ((σ n).pusher t).rest = none
  · exact ⟨n, Nat.le_refl n, hall⟩
  · push Not at hall
    obtain ⟨t, ht⟩ := hall
    obtain ⟨m, hm, hleft⟩ := F.exists_left hsize t n
    obtain ⟨j, hj, hin, hout⟩ := exists_switch (P := fun m => ((σ m).pusher t).rest = none)
      ht hm hleft
    refine ⟨j + 1, Nat.le_succ_of_le hj, (F.move j).all_left hin hout fun u hne => ?_⟩
    by_contra hu
    exact hne (F.unique j hu hin)

/-- The elements of the pushes that have come to the ring are popped. -/
theorem exists_popped_all (hsize : 0 < P.size) (n : Nat) :
    ∃ m ≥ n, (σ n).entered.flatMap Prod.snd <+: (σ m).popped := by
  obtain ⟨m, hm, hlt⟩ := exists_lt_of_progress (f := fun m => (σ m).popped.length + 1) (k := n)
    (b := ((σ n).entered.flatMap Prod.snd).length) fun m hm hle => by
      by_contra hno
      push Not at hno
      obtain ⟨k, hk, hall⟩ := F.exists_between hsize m
      have hentered := (F.grows (Nat.le_trans hm hk)).1
      have hlen := congrArg List.length ((F.flow k).between hall)
      have hgrow := (hentered.flatMap Prod.snd).length_le
      rw [List.length_append] at hlen
      obtain ⟨k', hk', hlt⟩ := F.exists_popped (n := k) fun k' hk' hq => by
        have hstored := (F.grows hk').2.2.length_le
        have hpopped := (F.grows hk).2.1.length_le
        have := hno k' (Nat.le_trans hk hk')
        rw [hq, List.length_append, List.length_append, List.length_nil] at hstored
        omega
      have := hno k' (Nat.le_trans hk hk')
      have := (F.grows hk).2.1.length_le
      omega
  refine ⟨m, hm, ?_⟩
  have hentered := (F.grows hm).1.flatMap Prod.snd
  have hpopped := (List.prefix_append _ _).trans (F.flow m).stored
  exact List.prefix_of_prefix_length_le hentered hpopped (by omega)

/-- With a ring of at least one slot, every push returns and every element of it is popped, whatever
the number of threads, and however many elements are pushed at once: no push waits for the lock or for
room for ever. As fewer than `2^64` tickets are taken, multiple producers start finitely many pushes
in all. With the full failure this holds of the executions that do not fail. -/
theorem delivers (hsize : 0 < P.size) :
    (∀ t n, ∃ m ≥ n, (σ m).pusher t = .idle) ∧
    ∀ n, ∃ m ≥ n, (σ n).entered.flatMap Prod.snd <+: (σ m).popped :=
  ⟨F.returns hsize, F.exists_popped_all hsize⟩

end Fair

theorem takers_of_execution {σ : Nat → BoostLockFreeQueue θ T} (E : (system θ T P).Execution σ ls)
    (h : n ≤ m) : (σ n).adderMutex.takers.length ≤ (σ m).adderMutex.takers.length := by
  refine always_from (P := fun m => (σ n).adderMutex.takers.length ≤
    (σ m).adderMutex.takers.length) (Nat.le_refl _) ?_ m h
  intro m _ hle
  rcases (move_of_step (E.step m)).2.adderMutex with heq | ⟨k, hk⟩
  · rwa [heq]
  · exact Nat.le_trans hle (SpinLock.takers_le_of_step hk)

/-- After `twoPushes` thread 0 returns, and then thread 1 pushes its element. -/
def bothReturn : List (BoostLabel Nat Nat) :=
  [.advance 0, .advance 0, .advance 0, .advance 1, .advance 1, .pop 1, .take, .advance 1, .advance 1,
    .advance 1, .advance 1, .advance 1, .advance 1, .pop 1, .take]

theorem delivers_twoPushes : ∃ σ ls, Fair demoBoost (θ := Nat) (T := Nat) σ ls ∧
    (σ 0).entered = [(0, [7, 8])] ∧ (∃ m, (σ m).pusher 1 = .idle) ∧
    ∃ m, [7, 8] <+: (σ m).popped := by
  obtain ⟨s, hs, hreach, hentered⟩ : ∃ s, run (step demoBoost) init twoPushes = some s ∧
      (system Nat Nat demoBoost).Reachable s ∧ s.entered = [(0, [7, 8])] :=
    ⟨_, rfl, ⟨_, twoPushes, rfl, .of_run (f := step demoBoost) (fun _ _ _ _ h => h) rfl⟩, rfl⟩
  obtain ⟨t, ht, hN, hidle, hloop, u, hpop, hu⟩ : ∃ t, run (step demoBoost) s bothReturn = some t ∧
      t.adderMutex.takers.length < 2 ^ 64 ∧ (∀ v, t.pusher v = .idle) ∧
      run (step demoBoost) t [.pop 1, .take] = some t ∧
      ∃ u, run (step demoBoost) t [.pop 1] = some u ∧ u.pusher = t.pusher := by
    cases hs
    refine ⟨_, rfl, by decide, fun v => ?_, rfl, _, rfl, rfl⟩
    rcases v with _ | _ | v <;> rfl
  have hreach' := hreach.reaches (.of_run (f := step demoBoost) (fun _ _ _ _ h => h) ht)
  -- in the end the consumer asks for elements in vain
  obtain ⟨σ₁, ls₁, E₁, rfl, hls₁, hrun⟩ := exists_loop (f := step demoBoost) (fun _ _ _ h => h)
    hreach' (by decide) hloop
  have hσ₁ (n : Nat) : (σ₁ n).pusher = (σ₁ 0).pusher := by
    have hn := hrun n
    rcases Nat.mod_two_eq_zero_or_one n with h | h <;>
      simp only [List.length_cons, List.length_nil, Nat.zero_add, Nat.reduceAdd, h] at hn
    · exact congrArg _ (Option.some.inj hn).symm
    · rw [← hu]
      exact congrArg _ (Option.some.inj (hpop.symm.trans hn)).symm
  obtain ⟨σ, ls, E, rfl, hσ, hls⟩ := E₁.of_run (f := step demoBoost) (fun _ _ _ h => h) hreach ht
  have F : Fair demoBoost σ ls := by
    refine ⟨E, fun v => .of_drop (k := bothReturn.length) fun hen => ?_, fun n => ?_, fun n => ?_,
      nofun⟩
    · obtain ⟨n, l, s', rfl, hs'⟩ := hen.exists
      have hpusher : (σ (n + bothReturn.length)).pusher v = .idle := by
        rw [hσ, hσ₁, hidle]
      cases (move_of_step hs').2 <;> simp_all
    · refine ⟨2 * n + bothReturn.length, by omega, 1, by decide, ?_⟩
      have := hls₁ (2 * n)
      simp only [List.length_cons, List.length_nil, Nat.zero_add, Nat.reduceAdd,
        Nat.mul_mod_right] at this
      rw [hls]
      exact (Option.some.inj this).symm
    · have hle := takers_of_execution E (show n ≤ 2 * n + bothReturn.length by omega)
      have := hrun (2 * n)
      simp only [List.length_cons, List.length_nil, Nat.zero_add, Nat.reduceAdd,
        Nat.mul_mod_right] at this
      rw [hσ, ← Option.some.inj this] at hle
      exact Nat.lt_of_le_of_lt hle hN
  obtain ⟨hreturns, hpopped⟩ := F.delivers (by decide)
  obtain ⟨m, -, h1⟩ := hreturns 1 0
  obtain ⟨m', -, h0⟩ := hpopped 0
  exact ⟨σ, ls, F, hentered, ⟨m, h1⟩, m', by simpa [hentered] using h0⟩

end BoostLockFreeQueue
end Tampi
