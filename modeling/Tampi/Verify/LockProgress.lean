import Tampi.Theory.Execution
import Tampi.Verify.SpinLock

/-! # No thread waits for the lock for ever

Each step of the owner of the first ticket that is not released brings its release nearer, and no
step of another thread does the opposite. So the tickets are released one after the other, and the
turn of every waiting thread comes. -/

namespace Tampi

/-- The steps from the last test of the slot to the end of `unlock` that a thread has before it. -/
def LockPoint.rank : LockPoint → Nat
  | .waiting _ => 4
  | .holding _ => 3
  | .unlockLoaded .. => 2
  | .unlockStore .. => 1
  | .idle | .tryLoaded _ | .tryChecked _ => 0

/-- The thread that moves. -/
def LockLabel.thread : LockLabel θ → θ
  | .lock t | .tryLock t | .unlock t | .spin t | .trySlot t | .tryExchange t | .unlockNext t
  | .unlockSlot t => t

namespace SpinLock
open Function (update)
open Transition System

variable [DecidableEq θ] {size : Nat} {s s' : SpinLock θ}

/-- The steps of `t` in `lock` and `unlock`, and its call of `unlock`. -/
def Advances (t : θ) : LockLabel θ → Prop
  | .spin u | .unlock u | .unlockNext u | .unlockSlot u => u = t
  | .lock _ | .tryLock _ | .trySlot _ | .tryExchange _ => False

theorem point_of_ne (h : s.step size l = some s') (hne : t ≠ l.thread) :
    s'.point t = s.point t := by
  cases l <;> simp only [step] at h <;> repeat' split at h
  all_goals cases h <;> first | rfl | exact Function.update_of_ne hne ..

/-- A thread that has a ticket does not move back. -/
theorem rank_step_le (h : s.step size l = some s') (ht : (s.point t).rank ≠ 0) :
    (s'.point t).rank ≤ (s.point t).rank := by
  by_cases hne : t = l.thread
  · subst hne
    cases l <;> simp only [step] at h <;> repeat' split at h
    all_goals cases h <;> simp_all [LockLabel.thread, LockPoint.rank]
  · rw [point_of_ne h hne]

theorem histories_grow (h : s.step size l = some s') :
    s.takers <+: s'.takers ∧ s.releasers <+: s'.releasers := by
  cases l <;> simp only [step] at h <;> repeat' split at h
  all_goals cases h <;> simp

/-- A waiting thread waits until it acquires the lock with its ticket. -/
theorem waiting_step (h : s.step size l = some s') (hp : s.point t = .waiting k) :
    s'.point t = .waiting k ∨ s'.point t = .holding k := by
  by_cases hne : t = l.thread
  · subst hne
    cases l <;> simp only [step] at h <;> repeat' split at h
    all_goals cases h <;> simp_all [LockLabel.thread]
  · rw [point_of_ne h hne]
    exact .inl hp

/-- A thread that is inside stays there until it releases its ticket. -/
theorem held_step (h : s.step size l = some s') (hk : (s.point t).held = some k) :
    (s'.point t).held = some k ∨ s'.point t = .idle ∧ (t, k) ∈ s'.releasers := by
  by_cases hne : t = l.thread
  · subst hne
    cases l <;> simp only [step] at h <;> repeat' split at h
    all_goals cases h <;> simp_all [LockLabel.thread, LockPoint.held]
  · rw [point_of_ne h hne]
    exact .inl hk

namespace LockInv

/-- The owner of the first ticket that is not released gets on with each of its steps. -/
theorem rank_advance_lt (I : LockInv size s)
    (ht : s.takers[s.releasers.length]? = some (t, s.releasers.length)) (ha : Advances t l)
    (h : s.step size l = some s') : (s'.point t).rank < (s.point t).rank := by
  have hin := I.in_progress ht (Nat.le_refl _)
  cases l with
  | lock | tryLock | trySlot | tryExchange => cases ha
  | spin u =>
    cases ha
    simp only [SpinLock.step] at h
    split at h
    next head hp =>
      -- the slot shows the ticket
      obtain rfl : head = s.releasers.length := by simpa [hp, LockPoint.held] using hin
      rw [if_neg (by simpa using I.slot)] at h
      cases h
      simp [hp, LockPoint.rank]
    next => cases h
  | unlock u | unlockNext u | unlockSlot u =>
    cases ha
    simp only [SpinLock.step] at h
    split at h <;> cases h
    simp [*, LockPoint.rank]

theorem exists_advance (I : LockInv size s)
    (ht : s.takers[s.releasers.length]? = some (t, s.releasers.length)) :
    ∃ l s', Advances t l ∧ s.step size l = some s' := by
  have hin := I.in_progress ht (Nat.le_refl _)
  cases hp : s.point t with
  | waiting head => exact ⟨.spin t, by simp only [SpinLock.step, hp]; split <;> exact ⟨_, rfl, rfl⟩⟩
  | holding ticket => exact ⟨.unlock t, _, rfl, by simp only [SpinLock.step, hp]; rfl⟩
  | unlockLoaded ticket next => exact ⟨.unlockNext t, _, rfl, by simp only [SpinLock.step, hp]; rfl⟩
  | unlockStore ticket idx => exact ⟨.unlockSlot t, _, rfl, by simp only [SpinLock.step, hp]; rfl⟩
  | _ => simp [hp, LockPoint.held] at hin

omit [DecidableEq θ] in
theorem exists_owner (I : LockInv size s) (h : s.releasers.length < s.takers.length) :
    ∃ t, s.takers[s.releasers.length]? = some (t, s.releasers.length) := by
  have hk : (s.takers.map Prod.snd)[s.releasers.length]? = some s.releasers.length := by
    rw [I.tickets, List.getElem?_range h]
  rw [List.getElem?_map] at hk
  obtain ⟨⟨t, k⟩, ht, hk⟩ := Option.map_eq_some_iff.mp hk
  cases hk
  exact ⟨t, ht⟩

omit [DecidableEq θ] in
theorem rank_owner (I : LockInv size s)
    (ht : s.takers[s.releasers.length]? = some (t, s.releasers.length)) :
    (s.point t).rank ≠ 0 := by
  have hin := I.in_progress ht (Nat.le_refl _)
  cases hp : s.point t <;> simp_all [LockPoint.rank, LockPoint.held]

end LockInv

/-! ## Executions of the lock beside the rest of the program -/

section
variable {σ : Nat → SpinLock θ} {ls : Nat → Option (LockLabel θ)}

theorem step_of_execution (E : (system θ size).beside.Execution σ ls) (n : Nat) :
    σ (n + 1) = σ n ∨ ∃ l, ls n = some l ∧ (σ n).step size l = some (σ (n + 1)) := by
  have hs := E.step n
  cases hl : ls n with
  | none =>
    rw [hl] at hs
    exact .inl hs
  | some l =>
    rw [hl] at hs
    exact .inr ⟨l, rfl, hs⟩

theorem histories_of_execution (E : (system θ size).beside.Execution σ ls) (h : n ≤ m) :
    (σ n).takers <+: (σ m).takers ∧ (σ n).releasers <+: (σ m).releasers := by
  refine always_from (P := fun m => (σ n).takers <+: (σ m).takers ∧
    (σ n).releasers <+: (σ m).releasers) ⟨List.prefix_rfl, List.prefix_rfl⟩ ?_ m h
  rintro m _ ⟨ht, hr⟩
  rcases step_of_execution E m with heq | ⟨l, -, hs⟩
  · rw [heq]
    exact ⟨ht, hr⟩
  · obtain ⟨ht', hr'⟩ := histories_grow hs
    exact ⟨ht.trans ht', hr.trans hr'⟩

/-- Where the tickets are released one after the other, a waiting thread acquires the lock. -/
theorem acquires_of_released (E : (system θ size).beside.Execution σ ls)
    (hN : ∀ n, (σ n).takers.length < 2 ^ 64)
    (hrel : ∀ n, (σ n).releasers.length < (σ n).takers.length →
      ∃ m ≥ n, (σ n).releasers.length < (σ m).releasers.length)
    (h : (σ n).point t = .waiting k) : ∃ m ≥ n, (σ m).point t = .holding k := by
  have I (n : Nat) : LockInv size (σ n) := .of_reachable (E.reachable n).of_beside (hN n)
  have htaken := (I n).points t
  rw [h] at htaken
  have hlt := (List.getElem?_eq_some_iff.mp htaken.1).1
  obtain ⟨m, hm, hk⟩ := exists_lt_of_progress (f := fun n => (σ n).releasers.length) (k := n)
    (b := k) fun m hm hle => hrel m
      (Nat.lt_of_le_of_lt hle (Nat.lt_of_lt_of_le hlt (histories_of_execution E hm).1.length_le))
  have hout : (σ m).point t ≠ .waiting k := by
    intro hw
    exact absurd ((I m).waiting hw).1 (Nat.not_le_of_lt hk)
  obtain ⟨j, hj, hw, hnot⟩ := exists_switch (P := fun n => (σ n).point t ≠ .waiting k)
    (not_not.mpr h) hm hout
  rcases step_of_execution E j with heq | ⟨l, -, hs⟩
  · exact absurd (heq ▸ hw) (not_not.mpr hnot)
  · exact ⟨j + 1, Nat.le_succ_of_le hj, (waiting_step hs (not_not.mp hw)).resolve_left hnot⟩

/-- Where the tickets are released one after the other, a thread inside releases its ticket. -/
theorem returns_of_released (E : (system θ size).beside.Execution σ ls)
    (hN : ∀ n, (σ n).takers.length < 2 ^ 64)
    (hrel : ∀ n, (σ n).releasers.length < (σ n).takers.length →
      ∃ m ≥ n, (σ n).releasers.length < (σ m).releasers.length)
    (h : ((σ n).point t).held = some k) :
    ∃ m ≥ n, (σ m).point t = .idle ∧ (t, k) ∈ (σ m).releasers := by
  have I (n : Nat) : LockInv size (σ n) := .of_reachable (E.reachable n).of_beside (hN n)
  obtain ⟨hacq, rfl, -⟩ := (I n).of_held h
  have := (I n).acquirers_le_takers
  obtain ⟨m, hm, hlt⟩ := hrel n (by omega)
  have hout : ((σ m).point t).held ≠ some (σ n).releasers.length := by
    intro hk
    have := ((I m).of_held hk).2.1
    omega
  obtain ⟨j, hj, hk, hnot⟩ := exists_switch
    (P := fun m => ((σ m).point t).held ≠ some (σ n).releasers.length) (not_not.mpr h) hm hout
  rcases step_of_execution E j with heq | ⟨l, -, hs⟩
  · exact absurd (heq ▸ hk) (not_not.mpr hnot)
  · exact ⟨j + 1, Nat.le_succ_of_le hj, (held_step hs (not_not.mp hk)).resolve_left hnot⟩

/-- The owner of the first ticket stays the same until it releases it. -/
theorem owner_of_execution (E : (system θ size).beside.Execution σ ls)
    (ht : (σ n).takers[(σ n).releasers.length]? = some (t, (σ n).releasers.length))
    (hno : ∀ m ≥ n, (σ m).releasers.length ≤ (σ n).releasers.length) (hm : m ≥ n) :
    (σ m).takers[(σ m).releasers.length]? = some (t, (σ m).releasers.length) := by
  obtain ⟨⟨later, htakers⟩, hreleasers⟩ := histories_of_execution E hm
  have hlt := (List.getElem?_eq_some_iff.mp ht).1
  rw [Nat.le_antisymm (hno m hm) hreleasers.length_le, ← htakers, List.getElem?_append_left hlt]
  exact ht

variable (E : (system θ size).beside.Execution σ ls) (hN : ∀ n, (σ n).takers.length < 2 ^ 64)
  (F : ∀ t, (system θ size).beside.WeaklyFair (fun l => ∃ k ∈ l, Advances t k) σ ls)
include E hN F

/-- The owner of the first ticket that is not released releases it. -/
theorem exists_released (h : (σ n).releasers.length < (σ n).takers.length) :
    ∃ m ≥ n, (σ n).releasers.length < (σ m).releasers.length := by
  have I (n : Nat) : LockInv size (σ n) := .of_reachable (E.reachable n).of_beside (hN n)
  obtain ⟨t, ht⟩ := (I n).exists_owner h
  by_contra hno
  push Not at hno
  have howner {m : Nat} (hm : m ≥ n) :
      (σ m).takers[(σ m).releasers.length]? = some (t, (σ m).releasers.length) :=
    owner_of_execution E ht hno hm
  have hstep {m : Nat} (hm : m ≥ n) :
      ((σ (m + 1)).point t).rank ≤ ((σ m).point t).rank := by
    rcases step_of_execution E m with heq | ⟨l, -, hs⟩
    · rw [heq]
    · exact rank_step_le hs ((I m).rank_owner (howner hm))
  obtain ⟨m, hm, hdis⟩ := (F t).exists_disabled (k := n) (μ := fun s => (s.point t).rank)
    (fun m hm => hstep hm) fun m hm ⟨l, hl, ha⟩ => by
      have hs := E.step m
      rw [hl] at hs
      exact (I m).rank_advance_lt (howner hm) ha hs
  obtain ⟨l, s', ha, hs⟩ := (I m).exists_advance (howner hm)
  exact hdis ⟨some l, s', ⟨l, rfl, ha⟩, hs⟩

/-- No thread waits for the lock for ever, and none is in `unlock` for ever: where every thread that
can take a step in `lock` or `unlock` takes one in the end, and the lock is not kept by a thread
that never calls `unlock`, every waiting thread acquires the lock with its ticket and every thread
inside releases its ticket, with any number of threads and slots. -/
theorem no_starvation :
    (∀ n t k, (σ n).point t = .waiting k → ∃ m ≥ n, (σ m).point t = .holding k) ∧
    (∀ n t k, ((σ n).point t).held = some k →
      ∃ m ≥ n, (σ m).point t = .idle ∧ (t, k) ∈ (σ m).releasers) := by
  have hrel (n : Nat) (h : (σ n).releasers.length < (σ n).takers.length) :
      ∃ m ≥ n, (σ n).releasers.length < (σ m).releasers.length := exists_released E hN F h
  exact ⟨fun n t k h => acquires_of_released E hN hrel h,
    fun n t k h => returns_of_released E hN hrel h⟩

end

/-- After `handedOver`, thread 1 releases the lock, and thread 2 acquires and releases it. -/
def servedInTurn : List (LockLabel Nat) :=
  [.unlock 1, .unlockNext 1, .spin 2, .unlockSlot 1, .spin 2, .unlock 2, .unlockNext 2,
    .unlockSlot 2]

theorem no_starvation_handedOver : ∃ σ ls, (system Nat 1).beside.Execution σ ls ∧
    (σ 0).point 1 = .holding 1 ∧ (σ 0).point 2 = .waiting 2 ∧
    (∃ m, (σ m).point 1 = .idle ∧ (1, 1) ∈ (σ m).releasers) ∧
    ∃ m, (σ m).point 2 = .holding 2 := by
  obtain ⟨s, hs, h1, h2⟩ : ∃ s, run (step 1) init handedOver = some s ∧
      s.point 1 = .holding 1 ∧ s.point 2 = .waiting 2 := ⟨_, rfl, rfl, rfl⟩
  obtain ⟨t, ht, hN, hidle⟩ : ∃ t, run (step 1) s servedInTurn = some t ∧
      t.takers.length < 2 ^ 64 ∧ ∀ u, t.point u = .idle := by
    cases hs
    refine ⟨_, rfl, by decide, fun u => ?_⟩
    rcases u with _ | _ | _ | _ | u <;> rfl
  have hreach : (system Nat 1).Reachable s :=
    ⟨_, handedOver, rfl, .of_run (f := step 1) (fun _ _ _ _ h => h) hs⟩
  obtain ⟨σ, ls, E, rfl, htail, hfair⟩ := exists_resting (f := step 1) (fun _ _ _ h => h) hreach ht
  have H := no_starvation E (fun n => ?_) fun u => hfair _ (by simp) ?_
  · obtain ⟨m, -, h⟩ := H.1 0 2 2 h2
    obtain ⟨m', -, h'⟩ := H.2 0 1 1 (by rw [h1]; rfl)
    exact ⟨σ, ls, E, h1, h2, ⟨m', h'⟩, m, h⟩
  · have hle := (histories_of_execution E (Nat.le_add_right n servedInTurn.length)).1
    rw [htail] at hle
    exact Nat.lt_of_le_of_lt hle.length_le hN
  · -- nothing is left to do when the run has ended
    rintro k s' ⟨_, ⟨⟩, ha⟩ hs'
    cases k <;> simp [Advances, system, step, hidle] at ha hs'

end SpinLock
end Tampi
