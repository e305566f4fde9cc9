import Tampi.Verify.Delivery
import Tampi.Verify.Drain

/-! # Every operation passed to MPI is notified

`Fair.drains` is about runs in which submissions come to an end. Here they may go on for ever. The
check of a round passes over a request that has completed only with `MPI_Testany`, which may report
another one each time; with the other approaches a completed request is gone from the arrays where a
check has been (`Cleared`), so it does not outlive a round (`Fair.exists_reported`). -/

namespace Tampi
open Function (update)
open Transition (select)

/-! ## What a check has left behind -/

/-- From `b` to `b'` the test has come to position `n`; the positions it passed do not hold request
`r`, and no position holds it that did not. -/
structure Test.Clears (t : Test) (b b' : Buffers) (r n : Nat) : Prop where
  requests : ∀ p, b'.requests p = some r → b.requests p = some r
  passed : ∀ i, t.next ≤ i → i < n → b'.requests (t.roff + i) ≠ some r

theorem Buffers.ne_of_not_finished {b : Buffers} (hfin : b.mpi.finished r)
    (h : b.finished p = false) : b.requests p ≠ some r := by
  intro hr
  rw [finished, hr, Option.any_some, hfin] at h
  cases h

theorem Test.report_requests {t t' : Test} {b b' : Buffers} (h : t.report b i = some (t', b')) :
    b'.requests = update b.requests (t.roff + i) none := by
  obtain ⟨r, owner, status, -, -, heq⟩ := Test.report_eq_some h
  cases heq
  rfl

theorem TestMove.clears {t : Test} {b : Buffers} (T : TestMove t b approach a res)
    (hne : approach ≠ .none) (hany : approach ≠ .testAny) (H : t.Honest b approach a)
    (hfin : b.mpi.finished r) :
    match res with
    | .running t' b' => t.Clears b b' r t'.next
    | .returned _ b' => t.Clears b b' r t.count
    | .failed _ => True := by
  -- after a step of `MPI_Test`
  have hone {b' : Buffers} {i : Nat} (hle : t.next ≤ i) (hlt : i < t.next + 1)
      (h : b'.requests (t.roff + t.next) ≠ some r) : b'.requests (t.roff + i) ≠ some r := by
    obtain rfl : i = t.next := Nat.le_antisymm (Nat.le_of_lt_succ hlt) hle
    exact h
  cases T with
  | @testsome is t' b' _ _ hr =>
    have R := Test.reportAll_spec hr
    constructor
    · intro p hp
      rw [R.requests] at hp
      split at hp
      · cases hp
      · exact hp
    · intro i _ hi hp
      rw [R.requests] at hp
      split at hp
      next => cases hp
      next hno =>
        refine Buffers.ne_of_not_finished hfin (H i hi ?_) hp
        simpa [Test.passes] using hno
  | testanyNone | testany | testanyEnd => exact absurd rfl hany
  | @testNull _ hlt hnull =>
    refine ⟨fun _ hp => hp, fun i hle hi => hone hle hi fun hr => ?_⟩
    cases hnull.symm.trans hr
  | @test t' b' hlt hr =>
    have hreq := Test.report_requests hr
    have hnext := Test.report_next hr
    constructor
    · intro p hp
      rw [hreq] at hp
      by_cases heq : p = t.roff + t.next
      · rw [heq, Function.update_self] at hp
        cases hp
      · rwa [Function.update_of_ne heq] at hp
    · intro i hle hi
      refine hone hle (by simpa [hnext] using hi) ?_
      rw [hreq, Function.update_self]
      exact (Option.some_ne_none r).symm
  | testNot hlt =>
    refine ⟨fun _ hp => hp, fun i hle hi => hone hle hi ?_⟩
    exact Buffers.ne_of_not_finished hfin (H _ hlt (by simp [Test.passes]))
  | testEnd hge => exact ⟨fun _ hp => hp, fun i hle hlt => absurd (Nat.lt_of_le_of_lt hle hlt) hge⟩
  | none => exact absurd rfl hne

/-! ## A round -/

/-- The positions a check has passed over. -/
def Check.passed (pending : Nat) (k : Check) : Nat :=
  match k.phase with
  | .test t => k.checked + t.next
  | .store .. | .deliver .. | .handoff _ => k.checked + k.count pending
  | .replace => pending

theorem Check.passed_advance_le {k : Check} (hk : k.phase = .handoff n) :
    (k.advance pending n).passed pending ≤ k.passed pending := by
  unfold advance
  split
  next => simp [passed, hk, batch, Test.start]
  next hge => simpa [passed, hk] using hge

namespace Sys
variable {cfg : Config} {s t : Sys}

/-- A check in progress has left request `r` nowhere behind. -/
def Cleared (r : Nat) (s : Sys) : Prop :=
  match s.poll with
  | .check _ _ k => ∀ p < k.passed s.manager.pending, s.manager.arrays.requests p ≠ some r
  | .evaluate _ => False
  | _ => True

theorem requests_checkStored (s : Sys) (k : Check) (c : Nat) :
    (s.checkStored k c).manager.arrays.requests = s.manager.arrays.requests := by
  obtain ⟨memory, es, h, -⟩ := checkStored_eq s k c
  rw [h]
  rfl

theorem CheckMove.cleared {k k' : Check} (M : s.CheckMove cfg k a t k')
    (K : k.Inv cfg s.log s.manager.pending s.manager.arrays)
    (H : ∀ t, k.phase = .test t → t.Honest s.checkBuffers cfg.generalTesting a)
    (hany : cfg.generalTesting ≠ .testAny) (hfin : s.mpi.finished r)
    (C : ∀ p < k.passed s.manager.pending, s.manager.arrays.requests p ≠ some r) :
    ∀ p < k'.passed s.manager.pending, t.manager.arrays.requests p ≠ some r := by
  have hK := K.phase
  -- the batch of the test starts where the check is
  have htest {u : Test} {b : Buffers} {n : Nat} (hp : k.phase = .test u)
      (T : u.Clears s.checkBuffers b r n) : ∀ p < k.checked + n, b.requests p ≠ some r := by
    simp only [Check.PhaseInv, hp] at hK
    simp only [Check.passed, hp] at C
    intro p hlt
    by_cases hpass : p < k.checked + u.next
    · exact fun hr => C p hpass (T.requests p hr)
    · have := T.passed (p - u.roff) (by omega) (by omega)
      rwa [Nat.add_sub_cancel' (by omega)] at this
  cases M with
  | test hp T => exact htest hp (T.clears cfg.general_ne hany (H _ hp) hfin)
  | tested hp T =>
    have := htest hp (T.clears cfg.general_ne hany (H _ hp) hfin)
    simp only [Check.PhaseInv, hp] at hK
    rwa [hK.2.2.1] at this
  | store hp =>
    simp only [Check.passed, hp] at C
    rw [requests_checkStored]
    exact C
  | stored hp | collect hp | complete hp =>
    simp only [Check.passed, hp] at C
    exact C
  | handoff hp | keep hp =>
    exact fun p hlt => C p (Nat.lt_of_lt_of_le hlt (Check.passed_advance_le hp))

/-- While a completed request stays in flight, no round comes to its end. -/
theorem PollMove.cleared (M : s.PollMove cfg a t) (I : s.Inv cfg)
    (H : s.honest cfg (.poll a)) (hany : cfg.generalTesting ≠ .testAny)
    (hfin : s.mpi.finished slot.request) (hslot : slot ∈ s.inflight)
    (C : s.Cleared slot.request) :
    t.Cleared slot.request ∧ (t.poll.starts → s.poll.starts) := by
  unfold Cleared at C
  -- outside of the transfers the slot is in the arrays
  have harrays (hp : s.poll.isTransfer = false) :
      ∃ p < s.manager.pending, s.manager.arrays.requests p = some slot.request := by
    unfold inflight at hslot
    split at hslot
    next htransfer =>
      rw [htransfer] at hp
      cases hp
    next =>
      rw [add_zero] at hslot
      obtain ⟨p, hmem, r, hr, rfl⟩ := mem_slots_iff.mp hslot
      exact ⟨p, List.mem_range.mp hmem, hr⟩
  have hwindow {total : Nat} {w : Window} {np2p ncoll : Nat} :
      ({ s with poll := nextWindow total w np2p ncoll } : Sys).Cleared slot.request ∧
        (nextWindow total w np2p ncoll).starts = false := by
    unfold nextWindow
    split <;> exact ⟨trivial, rfl⟩
  cases M with
  | enter hp => exact ⟨trivial, fun _ => by rw [hp]; rfl⟩
  | top | full | pop | noP2P | takeP2P | takeColl | transfer => exact ⟨trivial, fun h => by cases h⟩
  | popping hp =>
    simp only [Cleared, hp]
    exact ⟨trivial, fun h => h⟩
  | noColl => exact ⟨hwindow.1, fun h => by cases hwindow.2.symm.trans h⟩
  | free =>
    split
    · exact ⟨trivial, fun h => by cases h⟩
    · exact ⟨hwindow.1, fun h => by cases hwindow.2.symm.trans h⟩
  | bottom => exact ⟨fun p hp => absurd hp (Nat.not_lt_zero p), fun h => by cases h⟩
  | bottomEmpty hp hz =>
    obtain ⟨p, hlt, -⟩ := harrays (by rw [hp]; rfl)
    exact absurd (Nat.zero_lt_of_lt hlt) hz
  | @check total inserted k a t k' hp M =>
    rw [hp] at C
    have hH (u : Test) (hu : k.phase = .test u) :
        u.Honest s.checkBuffers cfg.generalTesting a := by
      simpa [honest, checking, hp, hu] using H
    refine ⟨?_, fun h => by cases h⟩
    have := M.cleared (I.check hp) hH hany hfin C
    rwa [← M.manager.1] at this
  | replace hp hk =>
    rw [hp] at C
    simp only [Check.passed, hk] at C
    obtain ⟨p, hlt, hr⟩ := harrays (by rw [hp]; rfl)
    exact absurd hr (C p hlt)
  | evaluate hp =>
    rw [hp] at C
    exact C.elim

end Sys

/-! ## An operation in flight -/

/-- A slot is in flight until its operation is reported. -/
theorem Life.Move.inflight {L L' : Life} (M : L.Move a L') (H : L.Inv) (hs : slot ∈ L.inflight) :
    slot ∈ L'.inflight ∨ slot.ticket.id ∈ reports L'.log := by
  cases M with
  | issue => exact .inl (Multiset.mem_cons_of_mem hs)
  | @report slot' rest _ status owner heq hm =>
    have hs' := hs
    rw [heq] at hs
    rcases Multiset.mem_cons.mp hs with rfl | hs
    · obtain ⟨_, hactive⟩ := H.registered.active slot hs'
      cases hm.symm.trans hactive
      exact .inr (by simp [Life.append])
    · exact .inl hs
  | bind | push | block | resume | take | issueNull | test | complete | store | transfer | notify
  | consume => exact .inl hs

namespace Sys
variable {cfg : Config} {s t : Sys}

theorem inflight_of_step (h : (system cfg).Reachable s) (hs : (system cfg).step s l t)
    (hf : t.failure = none) (hslot : slot ∈ s.inflight) :
    slot ∈ t.inflight ∨ slot.ticket.id ∈ reports t.log := by
  obtain ⟨L, hL, hR⟩ := (simulation cfg).reachable h
  obtain ⟨-, rfl⟩ := hR.running (failure_of_step hs.2)
  obtain ⟨ks, L', hr, -, hR'⟩ := (simulation cfg).step _ _ _ _ hL hR hs
  obtain ⟨-, rfl⟩ := hR'.running hf
  refine (hr.inv (P := fun L => L.Inv ∧ (slot ∈ L.inflight ∨ slot.ticket.id ∈ reports L.log))
    ⟨.of_reachable hL, .inl hslot⟩ ?_).2
  rintro L k L' - M ⟨H, hin⟩
  refine ⟨H.move M, ?_⟩
  rcases hin with hin | hrep
  · exact Life.Move.inflight M H hin
  · exact .inr (((Life.Move.log_extends M).filterMap _).subset hrep)

theorem finished_of_step (h : (system cfg).Reachable s) (hs : (system cfg).step s l t)
    (hf : t.failure = none) (hslot : slot ∈ t.inflight) (hfin : s.mpi.finished slot.request) :
    t.mpi.finished slot.request := by
  obtain ⟨owner, status, hm⟩ := Mpi.finished_iff.mp hfin
  have hkeep (heq : t.mpi slot.request = s.mpi slot.request) : t.mpi.finished slot.request :=
    Mpi.finished_iff.mpr ⟨owner, status, heq.trans hm⟩
  rcases move_of_step hs.2 hf with ⟨a, rfl, M⟩ | ⟨-, M⟩
  · rcases M.mpi with ⟨_, _, r, hnone, heq, -⟩ | hR
    · refine hkeep (heq ▸ Function.update_of_ne ?_ ..)
      rintro rfl
      cases hnone.symm.trans hm
    · rcases hR slot.request with heq | ⟨hnone, -⟩
      · exact hkeep heq
      · obtain ⟨-, HL⟩ := Inv.of_reachable (h.step hs) hf
        obtain ⟨_, hactive⟩ := HL.registered.active slot hslot
        cases hnone.symm.trans hactive
  · cases M with
    | @mpi r owner' status' hnone =>
      refine hkeep (Function.update_of_ne ?_ ..)
      rintro rfl
      cases hnone.symm.trans hm
    | _ => exact hkeep rfl

variable {σ : Nat → Sys} {l : Nat → Label}

/-- The steps of the polling task up to the first round of a call. -/
def entry (s : Sys) : Nat :=
  match s.poll with
  | .idle => 1
  | _ => 0

/-- A round does not stay at its start. -/
theorem exists_not_starts (E : (system cfg).Execution σ l) (hpoll : ∀ n, ∃ m ≥ n, (l m).isPoll)
    (k : Nat) : ∃ n ≥ k, ¬ (σ n).poll.starts := by
  by_contra hno
  push Not at hno
  have hmove (n : Nat) (hn : n ≥ k) : (σ (n + 1)).entry ≤ (σ n).entry ∧
      ((l n).isPoll → (σ (n + 1)).entry < (σ n).entry) := by
    have hstep := (E.step n).2
    have hstarts := hno n hn
    have hstarts' := hno (n + 1) (Nat.le_succ_of_le hn)
    rcases move_of_step hstep (failure_of_execution E (n + 1)) with ⟨a, -, M⟩ | ⟨hl, -⟩
    · generalize σ (n + 1) = t at M hstarts'
      have hlt : t.entry < (σ n).entry := by
        cases M with
        | enter hp => simp [entry, hp]
        | top | full => cases hstarts'
        | pop hp | popping hp | noP2P hp | takeP2P hp | noColl hp | takeColl hp | transfer hp
        | free hp | bottom hp | bottomEmpty hp | check hp | replace hp | evaluate hp =>
          rw [hp] at hstarts
          cases hstarts
      exact ⟨hlt.le, fun _ => hlt⟩
    · have heq : (σ (n + 1)).entry = (σ n).entry := by
        unfold entry
        rw [(step_manager hstep hl).2]
      refine ⟨heq.le, fun h => ?_⟩
      cases hl.symm.trans h
  obtain ⟨m, -, hm⟩ := Transition.eventually_not_of_lt (f := fun n => (σ n).entry)
    (P := fun n => (l n).isPoll) (fun n hn => (hmove n hn).1) fun n hn => (hmove n hn).2
  obtain ⟨n, hn, hP⟩ := hpoll m
  exact hm n hn hP

/-- The request of an operation that stays in flight completes. -/
theorem Fair.exists_finished (F : Fair cfg σ l) (hin : ∀ m ≥ n, slot ∈ (σ m).inflight) :
    ∃ k ≥ n, ∀ m ≥ k, (σ m).mpi.finished slot.request := by
  have hf := failure_of_execution F.execution
  obtain ⟨k, hk, hfin⟩ : ∃ k ≥ n, (σ k).mpi.finished slot.request := by
    by_contra hno
    push Not at hno
    obtain ⟨m, hm, hdis⟩ := (F.mpi slot.request).exists_disabled_of_not (k := n) (by
      rintro m hm ⟨status, hl⟩
      have hstep := (F.execution.step m).2
      rw [hl] at hstep
      obtain ⟨owner, -, heq⟩ := mpi_of_step hstep
      refine hno (m + 1) (Nat.le_succ_of_le hm) (Mpi.finished_iff.mpr ⟨owner, status, ?_⟩)
      rw [heq, Function.update_self])
    obtain ⟨-, HL⟩ := Inv.of_reachable (F.execution.reachable m) (hf m)
    obtain ⟨status, hactive⟩ := HL.registered.active slot (hin m hm)
    cases status with
    | none => exact hdis (mpi_enabled (hf m) hactive)
    | some status => exact hno m hm (Mpi.finished_iff.mpr ⟨_, status, hactive⟩)
  refine ⟨k, hk, Transition.always_from hfin fun m hm => ?_⟩
  exact finished_of_step (F.execution.reachable m) (F.execution.step m) (hf (m + 1))
    (hin (m + 1) (Nat.le_succ_of_le (hk.trans hm)))

/-- However many operations are admitted meanwhile, an operation in flight is reported. -/
theorem Fair.exists_reported (F : Fair cfg σ l) (hany : cfg.generalTesting ≠ .testAny)
    (hslot : slot ∈ (σ n).inflight) : ∃ m ≥ n, slot.ticket.id ∈ reports (σ m).log := by
  by_contra hno
  push Not at hno
  have hf := failure_of_execution F.execution
  have hin : ∀ m ≥ n, slot ∈ (σ m).inflight := Transition.always_from hslot fun m hm h =>
    (inflight_of_step (F.execution.reachable m) (F.execution.step m) (hf (m + 1)) h).resolve_right
      (hno (m + 1) (Nat.le_succ_of_le hm))
  obtain ⟨k, hk, hfin⟩ := F.exists_finished hin
  have hmove (m : Nat) (hm : m ≥ k) (C : (σ m).Cleared slot.request) :
      (σ (m + 1)).Cleared slot.request ∧ ((σ (m + 1)).poll.starts → (σ m).poll.starts) := by
    have hstep := (F.execution.step m).2
    have hH := F.honest m
    rcases move_of_step hstep (hf (m + 1)) with ⟨a, hl, M⟩ | ⟨hl, -⟩
    · rw [hl] at hH
      obtain ⟨I, -⟩ := Inv.of_reachable (F.execution.reachable m) (hf m)
      exact M.cleared I hH hany (hfin m hm) (hin m (hk.trans hm)) C
    · obtain ⟨hman, hpoll⟩ := step_manager hstep hl
      rw [hpoll]
      refine ⟨?_, fun h => h⟩
      unfold Cleared at C ⊢
      rwa [hpoll, hman]
  -- a round that starts with the request completed has no end
  obtain ⟨j, hj, hstarts⟩ := exists_starts F.execution F.exists_poll k
  have hclear : ∀ m ≥ j, (σ m).Cleared slot.request := by
    refine Transition.always_from ?_ fun m hm C => (hmove m (hj.trans hm) C).1
    obtain hp | ⟨total, hp⟩ := Poll.starts_cases hstarts <;> simp only [Cleared, hp]
  obtain ⟨i, hi, hin'⟩ := exists_not_starts F.execution F.exists_poll j
  obtain ⟨i', hi', hstarts'⟩ := exists_starts F.execution F.exists_poll i
  obtain ⟨m, hm, hns, hs⟩ :=
    Transition.exists_switch (P := fun m => (σ m).poll.starts) hin' hi' hstarts'
  have hjm : j ≤ m := hi.trans hm
  exact hns ((hmove m (hj.trans hjm) (hclear m hjm)).2 hs)

/-! ## From the report to the notification -/

theorem log_of_execution (E : (system cfg).Execution σ l) (h : n ≤ m) :
    (σ n).log <+: (σ m).log :=
  Transition.always_from (P := fun m => (σ n).log <+: (σ m).log) List.prefix_rfl
    (fun m _ hp => hp.trans (log_extends_of_execution E m)) m h

/-- What has happened stays in the history. -/
theorem mem_select_of_le (E : (system cfg).Execution σ l) {f : Event → Option α} (h : n ≤ m)
    (ha : a ∈ select f (σ n).log) : a ∈ select f (σ m).log :=
  ((log_of_execution E h).filterMap f).subset ha

/-- By the end of the round a completed operation is notified or handed over. -/
theorem Fair.exists_delivered {id : OpId} (F : Fair cfg σ l)
    (h : id ∈ nulls (σ n).log ∨ id ∈ reports (σ n).log) :
    ∃ m ≥ n, id ∈ (σ m).completions.contents.map TaskContext.id ∨
      id ∈ (notifies (σ m).log).map TaskContext.id := by
  obtain ⟨m, hm, hstarts⟩ := exists_starts F.execution F.exists_poll n
  refine ⟨m, hm, ?_⟩
  obtain ⟨-, HL⟩ := Inv.of_reachable (F.execution.reachable m) (failure_of_execution F.execution m)
  have hres := HL.tracked.resolved
  simp only [life, undelivered_of_plain (Poll.plain_of_starts hstarts), Multiset.coe_nil, Multiset.map_zero, zero_add]
    at hres
  have hmem : id ∈ (nulls (σ m).log + reports (σ m).log : Multiset OpId) := by
    rw [Multiset.mem_add]
    exact h.imp (mem_select_of_le F.execution hm) (mem_select_of_le F.execution hm)
  rw [hres, Multiset.mem_add] at hmem
  exact hmem

/-- The completion task gets to every context of its queue. -/
theorem Fair.exists_consumed_of_mem (F : Fair cfg σ l)
    (hctx : ctx ∈ (σ n).completions.contents) : ∃ m ≥ n, ctx ∈ notifies (σ m).log := by
  by_contra hno
  push Not at hno
  have hf := failure_of_execution F.execution
  have D (m : Nat) := delivery_of_reachable (F.execution.reachable m) (hf m)
  have hfifo (m : Nat) :
      transfers (σ m).log = notifies (σ m).log ++ (σ m).completions.contents := by
    have hn := D n
    have hm := D m
    unfold Delivery at hn hm
    split at hn
    next he => rwa [if_pos he] at hm
    next =>
      rw [hn.2] at hctx
      cases hctx
  have hmem (m : Nat) (hm : m ≥ n) : ctx ∈ (σ m).completions.contents := by
    have : ctx ∈ transfers (σ m).log :=
      mem_select_of_le F.execution hm (by simp [hfifo n, hctx])
    rw [hfifo m] at this
    exact (List.mem_append.mp this).resolve_left (hno m hm)
  -- at most the contexts handed over until now are notified
  have hbound (m : Nat) : (notifies (σ m).log).length ≤ (transfers (σ n).log).length := by
    by_contra hlt
    have hgrows := ((log_of_execution F.execution (Nat.le_max_left m n)).filterMap
      Event.notified?).length_le
    have hall : transfers (σ n).log <+: transfers (σ (max m n)).log :=
      (log_of_execution F.execution (Nat.le_max_right m n)).filterMap _
    have hdone : notifies (σ (max m n)).log <+: transfers (σ (max m n)).log := by
      rw [hfifo (max m n)]
      exact List.prefix_append ..
    have hpre : transfers (σ n).log <+: notifies (σ (max m n)).log :=
      List.prefix_of_prefix_length_le hall hdone
        (Nat.le_of_lt (Nat.lt_of_lt_of_le (Nat.lt_of_not_le hlt) hgrows))
    exact hno _ (Nat.le_max_right m n) (hpre.subset (by simp [hfifo n, hctx]))
  obtain ⟨k, hk⟩ := exists_select_eq F.execution Event.notified? hbound
  have hrank (m : Nat) (hm : m ≥ k) := consumingRank_of_notifies (F.execution.step m).2 (hf (m + 1))
    (hk m hm)
  obtain ⟨m, hm, hdis⟩ := F.completion.exists_disabled (k := max k n) (μ := consumingRank)
    (fun m hm => (hrank m ((Nat.le_max_left ..).trans hm)).1)
    fun m hm => (hrank m ((Nat.le_max_left ..).trans hm)).2
  obtain ⟨I, -⟩ := Inv.of_reachable (F.execution.reachable m) (hf m)
  exact hdis (completion_enabled I (hf m)
    (.inr (List.ne_nil_of_mem (hmem m ((Nat.le_max_right ..).trans hm)))))

/-- An operation passed to MPI is notified. -/
theorem Fair.exists_notified (F : Fair cfg σ l) (hany : cfg.generalTesting ≠ .testAny)
    (hop : op ∈ binds (σ n).log) (hi : op.id ∈ issues (σ n).log) :
    ∃ m ≥ n, op.context ∈ notifies (σ m).log := by
  have hf := failure_of_execution F.execution
  obtain ⟨k, hk, hdone⟩ : ∃ k ≥ n, op.id ∈ nulls (σ k).log ∨ op.id ∈ reports (σ k).log := by
    obtain ⟨-, HL⟩ := Inv.of_reachable (F.execution.reachable n) (hf n)
    have hissued := HL.tracked.issued
    have hmem : op.id ∈ (issues (σ n).log : Multiset OpId) := hi
    simp only [life] at hissued
    rw [hissued, Multiset.mem_add, Multiset.mem_add] at hmem
    rcases hmem with (hin | hnull) | hrep
    · obtain ⟨slot, hslot, hid⟩ := Multiset.mem_map.mp hin
      obtain ⟨m, hm, hrep⟩ := F.exists_reported hany hslot
      exact ⟨m, hm, .inr (hid ▸ hrep)⟩
    · exact ⟨n, Nat.le_refl n, .inl hnull⟩
    · exact ⟨n, Nat.le_refl n, .inr hrep⟩
  -- a context of the operation is its own
  have hown {m : Nat} (hm : m ≥ n) {ctx : TaskContext} (hid : ctx.id = op.id)
      (hctx : ctx ∈ notifies (σ m).log ∨ ctx ∈ (σ m).completions.contents) : ctx = op.context := by
    obtain ⟨-, HL⟩ := Inv.of_reachable (F.execution.reachable m) (hf m)
    obtain ⟨o, ho, rfl⟩ : ∃ o ∈ pushes (σ m).log, ctx = o.context :=
      hctx.elim (HL.owned.notifies ctx) (HL.owned.handed ctx)
    exact congrArg Op.context (HL.bind_inj (mem_select_of_le F.execution hm hop)
      (HL.submitted.push_bind o ho) hid)
  obtain ⟨m, hm, hdel⟩ := F.exists_delivered hdone
  have hnm := hk.trans hm
  rcases hdel with hc | hn
  · obtain ⟨ctx, hctx, hid⟩ := List.mem_map.mp hc
    obtain ⟨j, hj, hn⟩ := F.exists_consumed_of_mem hctx
    exact ⟨j, hnm.trans hj, hown hnm hid (.inr hctx) ▸ hn⟩
  · obtain ⟨ctx, hctx, hid⟩ := List.mem_map.mp hn
    exact ⟨m, hnm, hown hnm hid (.inl hctx) ▸ hctx⟩

end Sys

/-! ## From the notification to the task -/

namespace Life.Inv
variable {L : Life}

theorem waiting_of_notified (H : L.Inv) (hn : ctx ∈ notifies L.log) (hb : ctx.blocking)
    (hr : ctx ∉ resumes L.log) : ctx ∈ (L.agents ctx.task).waiting := by
  obtain ⟨op, hop, rfl⟩ := H.owned.notifies ctx hn
  have hmem : op.context ∈ ((pushes L.log).map Op.context).filter (waitsFor op.context.task) :=
    List.mem_filter.mpr ⟨List.mem_map_of_mem hop, by simp [waitsFor, hb]⟩
  rw [H.waits.waiting] at hmem
  exact (List.mem_append.mp hmem).resolve_left fun h => hr (List.mem_filter.mp h).1

/-- A task that has not returned from the block of a notified operation holds an unblock. -/
theorem permits_pos (H : L.Inv) (hn : ctx ∈ notifies L.log) (hb : ctx.blocking)
    (hr : ctx ∉ resumes L.log) : 0 < L.permits ctx.task := by
  have hw := H.waits.waiting ctx.task
  have hpushed : (((pushes L.log).map Op.context).filter (waitsFor ctx.task)).Nodup :=
    (nodup_context H.submitted.pushes_nodup).filter _
  have hnodup : (ctx :: (resumes L.log).filter (·.task = ctx.task)).Nodup := by
    rw [hw] at hpushed
    exact List.nodup_cons.mpr ⟨fun h => hr (List.mem_filter.mp h).1, hpushed.of_append_left⟩
  have hsub : ctx :: (resumes L.log).filter (·.task = ctx.task) ⊆
      (notifies L.log).filter (waitsFor ctx.task) := by
    intro c hc
    rcases List.mem_cons.mp hc with rfl | hc
    · exact List.mem_filter.mpr ⟨hn, by simp [waitsFor, hb]⟩
    · have hwaits : c ∈ ((pushes L.log).map Op.context).filter (waitsFor ctx.task) := by
        rw [hw]
        exact List.mem_append_left _ hc
      exact List.mem_filter.mpr
        ⟨H.notified_of_resumed (List.mem_filter.mp hc).1, (List.mem_filter.mp hwaits).2⟩
  have hlt := (hnodup.subperm hsub).length_le
  have hp := H.waits.permits ctx.task
  rw [List.length_cons] at hlt
  omega

end Life.Inv

namespace Sys
variable {cfg : Config} {s t : Sys}

theorem pushed_of_agent (h : s.agent task = .pushed ctx) : ∃ c, s.cpus c = .pushed ctx := by
  unfold agent at h
  split at h
  · cases h
  · cases h
  next c _ =>
    cases hc : s.cpus c with
    | pushed =>
      rw [hc] at h
      cases h
      exact ⟨c, hc⟩
    | idle | bound | allocated | pushing =>
      rw [hc] at h
      cases h

variable {σ : Nat → Sys} {l : Nat → Label}

/-- A task waiting for a notified operation returns from its block. -/
theorem Fair.exists_resumed (F : Fair cfg σ l) (hn : ctx ∈ notifies (σ n).log)
    (hb : ctx.blocking) : ∃ m ≥ n, ctx ∈ resumes (σ m).log := by
  by_contra hno
  push Not at hno
  have hf := failure_of_execution F.execution
  have hinv (m : Nat) := Inv.of_reachable (F.execution.reachable m) (hf m)
  have hwait (m : Nat) (hm : m ≥ n) : ctx ∈ ((σ m).agent ctx.task).waiting :=
    (hinv m).2.waiting_of_notified (mem_select_of_le F.execution hm hn) hb (hno m hm)
  -- it blocks
  obtain ⟨k, hk, hblocked⟩ : ∃ k ≥ n, ctx ∈ blocks (σ k).log := by
    by_contra hnone
    push Not at hnone
    have hpushed : ∃ c, (σ n).cpus c = .pushed ctx := by
      have hw := hwait n (Nat.le_refl n)
      cases ha : (σ n).agent ctx.task with
      | ready | bound =>
        rw [ha] at hw
        cases hw
      | pushed c =>
        rw [ha] at hw
        obtain rfl := List.mem_singleton.mp hw
        exact pushed_of_agent ha
      | blocked c =>
        rw [ha] at hw
        obtain rfl := List.mem_singleton.mp hw
        have hasleep := (hinv n).2.waits.asleep ctx.task
        simp only [life, ha] at hasleep
        have hmem : ctx ∈ (blocks (σ n).log).filter (·.task = ctx.task) := by
          rw [hasleep]
          exact List.mem_append_right _ (List.mem_singleton_self ctx)
        exact absurd (List.mem_filter.mp hmem).1 (hnone n (Nat.le_refl n))
    obtain ⟨c, hc⟩ := hpushed
    have hstay (m : Nat) (hm : m ≥ n) (hc : (σ m).cpus c = .pushed ctx) : l m ≠ .cpu c := by
      intro hl
      have hstep := (F.execution.step m).2
      have hnot := hnone (m + 1) (Nat.le_succ_of_le hm)
      rw [hl] at hstep
      generalize σ (m + 1) = t at hstep hnot
      cases agentMove_of_step hstep rfl with
      | block hc' =>
        cases hc.symm.trans hc'
        exact hnot (by simp)
      | noObjects h | alloc h | startPush h | push h | pushed h | queueFull h | retryPush h
      | pushColl h | collFull h | retryColl h => cases hc.symm.trans h
    have hall : ∀ m ≥ n, (σ m).cpus c = .pushed ctx := by
      refine Transition.always_from hc fun m hm hc => ?_
      have := cpu_of_step (F.execution.step m).2 (hf (m + 1)) (hstay m hm hc) (by simp [hc])
      exact this.1.trans hc
    obtain ⟨m, hm, hdis⟩ := (F.cpu c).exists_disabled_of_not fun m hm => hstay m hm (hall m hm)
    exact hdis (cpu_enabled (hinv m).1 (hf m) (by simp [hall m hm]))
  -- and wakes up
  have hasleep (m : Nat) (hm : m ≥ k) : (σ m).tasks ctx.task = .blocked ctx := by
    have hmem : ctx ∈ (blocks (σ m).log).filter (·.task = ctx.task) :=
      List.mem_filter.mpr ⟨mem_select_of_le F.execution hm hblocked, by simp⟩
    have heq := (hinv m).2.waits.asleep ctx.task
    simp only [life] at heq
    rw [heq] at hmem
    have hmem := (List.mem_append.mp hmem).resolve_left fun h =>
      hno m (hk.trans hm) (List.mem_filter.mp h).1
    cases ha : (σ m).agent ctx.task with
    | blocked c =>
      rw [ha] at hmem
      obtain rfl := List.mem_singleton.mp hmem
      exact blocked_of_agent ha
    | ready | bound | pushed =>
      rw [ha] at hmem
      cases hmem
  obtain ⟨m, hm, hdis⟩ := (F.resume ctx.task).exists_disabled_of_not (k := k) fun m hm hl => by
    have hstep := (F.execution.step m).2
    have hnot := hno (m + 1) (Nat.le_succ_of_le (hk.trans hm))
    rw [hl] at hstep
    generalize σ (m + 1) = t at hstep hnot
    cases agentMove_of_step hstep rfl with
    | resume ht =>
      cases (hasleep m hm).symm.trans ht
      exact hnot (by simp)
  exact hdis (resume_enabled (hf m) (hasleep m hm) ((hinv m).2.permits_pos
    (mem_select_of_le F.execution (hk.trans hm) hn) hb (hno m (hk.trans hm))))

/-- The call of a notified operation comes to its end. -/
theorem Fair.exists_returned {op : Op} (F : Fair cfg σ l)
    (hn : op.context ∈ notifies (σ n).log) : ∃ m ≥ n, op.context ∈ notifies (σ m).log ∧
      (op.context.blocking → op.context ∈ resumes (σ m).log) := by
  by_cases hb : op.context.blocking
  · obtain ⟨m, hm, hr⟩ := F.exists_resumed hn hb
    exact ⟨m, hm, mem_select_of_le F.execution hm hn, fun _ => hr⟩
  · exact ⟨n, Nat.le_refl n, hn, fun h => absurd h hb⟩

end Sys
end Tampi
