import Tampi.Verify.QueueProgress
import Tampi.Verify.Sweep

/-! # A round of `checkRequests` ends, whatever is pushed meanwhile

`Ongoing` is what the next step of a call rests on; it holds in every reachable state. `span` is what
is left of a round: every step of the polling task inside a round lowers it, and no other agent
changes it. A call that never returns therefore starts one round after another, and only a call
during which operations are pushed for ever does that. -/

namespace Tampi
open Function (update)

/-- Before a call of `checkRequests`, or before a round of one. -/
def Poll.starts : Poll → Bool
  | .idle | .top _ => true
  | _ => false

theorem Poll.starts_cases {p : Poll} (h : p.starts) : p = .idle ∨ ∃ total, p = .top total := by
  cases p with
  | idle => exact .inl rfl
  | top total => exact .inr ⟨total, rfl⟩
  | p2p | popping | coll | transfer | bottom | check | evaluate => cases h

theorem Poll.plain_of_starts {p : Poll} (h : p.starts) : p.plain := by
  obtain rfl | ⟨total, rfl⟩ := starts_cases h <;> rfl

namespace Sys
variable {cfg : Config} {s t : Sys}

/-! ## What the next step rests on -/

/-- The producer side of one queue is all that another agent changes of the pre-queues of
point-to-point operations. -/
theorem AgentMove.producerFrame (M : s.AgentMove cfg l t) : t.p2pOperations = s.p2pOperations ∨
    ∃ c, l = .cpu c ∧ MultiLockFreeQueue.ProducerFrame c s.p2pOperations t.p2pOperations := by
  cases M with
  | startPush => exact .inr ⟨_, rfl, MultiLockFreeQueue.push_frame⟩
  | push _ hq | pushed _ hq | queueFull _ hq | retryPush _ hq =>
    exact .inr ⟨_, rfl, MultiLockFreeQueue.producerStep_frame hq⟩
  | _ => exact .inl rfl

/-- What the steps of a call need of the state. -/
def Ongoing (s : Sys) : Prop :=
  match s.poll with
  | .popping .. => s.p2pOperations.Taking
  | .transfer _ _ _ x => x.operations ≠ []
  | .check _ _ k => k.phase ≠ .replace → k.checked < s.manager.pending
  | _ => True

/-- What is left of the round. -/
noncomputable def span (cfg : Config) (s : Sys) :
    (Nat ×ₗ Nat ×ₗ Nat) ×ₗ (Nat ×ₗ Nat ×ₗ Nat ×ₗ Nat) :=
  toLex (s.poll.ahead, s.inner cfg)

theorem Ongoing.other (O : s.Ongoing) (h : s.step cfg l = some t) (hl : l.isPoll = false) :
    t.Ongoing ∧ t.span cfg = s.span cfg := by
  obtain ⟨hm, hp⟩ := step_manager h hl
  have hc : t.p2pOperations.consumer = s.p2pOperations.consumer ∧
      t.p2pOperations.rest cfg.queue = s.p2pOperations.rest cfg.queue := by
    rcases (agentMove_of_step h hl).producerFrame with heq | ⟨c, -, F⟩
    · rw [heq]
      exact ⟨rfl, rfl⟩
    · refine ⟨F.consumer, ?_⟩
      unfold MultiLockFreeQueue.rest
      rw [F.consumer, F.remaining, F.current]
  constructor
  · unfold Ongoing MultiLockFreeQueue.Taking at O ⊢
    rwa [hm, hp, hc.1]
  · unfold span inner
    rw [hm, hp, hc.2]

theorem ongoing_nextWindow : ({ s with poll := nextWindow total w np2p ncoll } : Sys).Ongoing := by
  unfold nextWindow
  split <;> trivial

theorem ongoing_nextRound {m : TicketManager} :
    ({ s with manager := m, poll := nextRound total inserted completed } : Sys).Ongoing := by
  unfold nextRound
  split <;> trivial

theorem CheckMove.ongoing {k k' : Check} (M : s.CheckMove cfg k a t k')
    (hk : k.checked < s.manager.pending) (hne : k'.phase ≠ .replace) :
    k'.checked < s.manager.pending := by
  cases M with
  | handoff | keep =>
    unfold Check.advance at hne ⊢
    split at hne
    · rename_i h
      rwa [if_pos h]
    · exact absurd rfl hne
  | _ => exact hk

theorem Ongoing.move (O : s.Ongoing) (M : s.PollMove cfg a t) : t.Ongoing := by
  unfold Ongoing at O
  cases M with
  | enter | top | full | noP2P | evaluate => trivial
  | pop => exact .pop
  | popping hp hq =>
    rw [hp] at O
    simp only [Ongoing, hp]
    exact O.move (MultiLockFreeQueue.consumerMove_of_step hq)
  | takeP2P _ _ hne | takeColl _ _ hne => exact hne
  | noColl => exact ongoing_nextWindow
  | transfer hp M =>
    rw [hp] at O
    simp only [Ongoing, M.frame.2.2]
    exact O
  | free =>
    split
    · trivial
    · exact ongoing_nextWindow
  | bottom _ hpos => exact fun _ => hpos
  | bottomEmpty => exact ongoing_nextRound (m := s.manager)
  | replace => exact ongoing_nextRound
  | check hp M =>
    rw [hp] at O
    intro hne
    simp only [M.manager.1]
    exact M.ongoing (O M.phase_ne) hne

theorem ongoing_of_reachable (h : (system cfg).Reachable s) (hf : s.failure = none) :
    s.Ongoing := by
  refine h.rec_inv (I := fun s : Sys => s.failure = none → s.Ongoing) ?_ ?_ hf
  · rintro s ⟨data, objects, arrays, memory, rfl⟩ -
    trivial
  · intro s l t _ hstep ih hf
    have hs := failure_of_step hstep.2
    by_cases hl : l.isPoll
    · cases l with
      | process | cpu | resume | completion | mpi => cases hl
      | poll a => exact (ih hs).move (pollMove_of_step hstep.2 hf)
    · exact ((ih hs).other hstep.2 (Bool.eq_false_of_not_eq_true hl)).1

/-! ## Every step of a round gets on -/

theorem span_lt_of_ahead (h : t.poll.ahead < s.poll.ahead) : t.span cfg < s.span cfg :=
  Prod.Lex.left _ _ h

theorem span_lt_of_inner (h : t.poll.ahead = s.poll.ahead) (hi : t.inner cfg < s.inner cfg) :
    t.span cfg < s.span cfg := by
  unfold span
  rw [h]
  exact Prod.Lex.right _ hi

theorem ahead_nextWindow_lt (h : 0 < np2p ∨ 0 < ncoll → 2 * (w.navailable - w.ntotal) < k) :
    (nextWindow total w np2p ncoll).ahead < toLex (2, toLex (k, i)) := by
  unfold nextWindow
  split
  next hw => exact window_lt (.inl (h hw.2))
  next => exact Prod.Lex.left _ _ (by decide)

theorem Ongoing.span_lt (O : s.Ongoing) (I : s.Inv cfg) (M : s.PollMove cfg a t)
    (ht : t.poll.starts = false) : t.span cfg < s.span cfg := by
  unfold Ongoing at O
  cases M with
  | enter | evaluate => cases ht
  | top hp =>
    refine span_lt_of_ahead ?_
    rw [hp]
    exact Prod.Lex.left _ _ (by decide)
  | full hp =>
    refine span_lt_of_ahead ?_
    rw [hp]
    exact Prod.Lex.left _ _ (by decide)
  | pop hp | noP2P hp =>
    refine span_lt_of_ahead ?_
    rw [hp]
    exact window_lt (.inr ⟨rfl, by decide⟩)
  | takeP2P hp | takeColl hp =>
    refine span_lt_of_ahead ?_
    rw [hp]
    exact window_lt (.inr ⟨rfl, by simp [Transfer.start]⟩)
  | popping hp hq =>
    rw [hp] at O
    refine span_lt_of_inner rfl ?_
    simp only [inner, hp]
    exact O.rest_lt I.queue (MultiLockFreeQueue.consumerMove_of_step hq)
  | noColl hp =>
    refine span_lt_of_ahead ?_
    rw [hp]
    exact ahead_nextWindow_lt fun h => by omega
  | @transfer total w np2p x _ _ _ hp M =>
    refine span_lt_of_inner ?_ ?_
    · rw [hp]
      simp only [Poll.ahead, M.frame.2.1]
    · simp only [inner, hp]
      rcases M.rank_rest with hlt | ⟨heq, hlt⟩
      · exact Prod.Lex.left _ _ hlt
      · rw [heq]
        exact Prod.Lex.right _ (Prod.Lex.left _ _ hlt)
  | @free total w np2p x _ hp =>
    rw [hp] at O
    have hpos : 0 < x.operations.length := List.length_pos_iff.mpr O
    obtain ⟨-, -, -, X⟩ := I.transfer hp
    have hcount := X.count_le
    refine span_lt_of_ahead ?_
    rw [hp]
    split
    · exact window_lt (.inl (by simp only; omega))
    · exact ahead_nextWindow_lt fun _ => by simp only; omega
  | bottom hp =>
    refine span_lt_of_ahead ?_
    rw [hp]
    exact Prod.Lex.right _ (Prod.Lex.right _ (by decide))
  | bottomEmpty hp | replace hp =>
    refine span_lt_of_ahead ?_
    rw [hp]
    unfold nextRound at ht ⊢
    split at ht
    · cases ht
    · rename_i h
      rw [if_neg h]
      exact Prod.Lex.left _ _ (by decide)
  | check hp M =>
    rw [hp] at O
    refine span_lt_of_inner ?_ ?_
    · rw [hp]
      rfl
    · simp only [inner, hp, M.manager.1]
      rcases M.rank_rest (O M.phase_ne) with hlt | ⟨heq, hlt | ⟨heq', hlt⟩⟩
      · exact Prod.Lex.left _ _ hlt
      · rw [heq]
        exact Prod.Lex.right _ (Prod.Lex.left _ _ hlt)
      · rw [heq, heq']
        exact Prod.Lex.right _ (Prod.Lex.right _ (Prod.Lex.left _ _ hlt))

/-! ## The polling task is never stuck -/

theorem step_of_pollStep (hf : s.failure = none) (h : s.pollStep cfg a = some t) :
    s.step cfg (.poll a) = some t := by
  unfold Sys.step
  rwa [if_neg (by simp [hf])]

/-- Some answer of MPI lets the call go on. -/
theorem Ongoing.enabled (O : s.Ongoing) :
    ∃ a t, (Label.poll a).Ascending ∧ s.pollStep cfg a = some t := by
  have hasc {a : Answer} (h : ∀ is, a = .some is → is.Pairwise (· < ·)) :
      (Label.poll a).Ascending := by
    cases a with
    | some is => exact h is rfl
    | silent | issued | any | flag | now => trivial
  unfold pollStep
  cases hp : s.poll with
  | idle | top | p2p | bottom => exact ⟨.silent, _, trivial, rfl⟩
  | popping total w =>
    simp only [Ongoing, hp, MultiLockFreeQueue.Taking] at O
    cases hc : s.p2pOperations.consumer with
    | returned os =>
      refine ⟨.silent, ?_⟩
      dsimp only
      split <;> exact ⟨_, trivial, rfl⟩
    | idle | returnedEmpty =>
      rw [hc] at O
      exact O.elim
    | refresh | assign | sweep | block | read =>
      obtain ⟨q, hq⟩ := MultiLockFreeQueue.exists_consumerStep (P := cfg.queue)
        (m := s.p2pOperations) (by rw [hc]; rfl)
      exact ⟨.silent, _, trivial, congrArg (Option.map _) hq⟩
  | coll total w np2p =>
    refine ⟨.silent, ?_⟩
    dsimp only
    split <;> exact ⟨_, trivial, rfl⟩
  | transfer total w np2p x =>
    obtain ⟨a, t, h, ha⟩ := exists_transferStep cfg s total w np2p x
    exact ⟨a, t, hasc ha, h⟩
  | check total inserted k =>
    obtain ⟨a, t, h, ha⟩ := exists_checkStep cfg s total inserted k
    exact ⟨a, t, hasc ha, h⟩
  | evaluate => exact ⟨.now 0, _, trivial, rfl⟩

theorem step_of_checkStep {k : Check} (hf : s.failure = none)
    (hp : s.poll = .check total inserted k) (h : s.checkStep cfg total inserted k a = some t) :
    s.step cfg (.poll a) = some t := by
  refine step_of_pollStep hf ?_
  unfold pollStep
  simpa only [hp] using h

/-- Some truthful answer of MPI does. -/
theorem exists_honest_step (h : (system cfg).Reachable s) (hf : s.failure = none) :
    ∃ a t, s.honest cfg (.poll a) ∧ (system cfg).step s (.poll a) t := by
  obtain ⟨I, HL⟩ := Inv.of_reachable h hf
  cases hc : s.checking with
  | none =>
    have O : s.Ongoing := ongoing_of_reachable h hf
    obtain ⟨a, t, ha, h⟩ : ∃ a t, (Label.poll a).Ascending ∧ s.pollStep cfg a = some t := O.enabled
    exact ⟨a, t, by simp [honest, hc], ha, step_of_pollStep hf h⟩
  | some u =>
    have hcu := hc
    unfold checking at hc
    split at hc
    next total inserted k hp =>
      split at hc
      next u' hk =>
        cases hc
        have K := I.check hp
        have hK := K.phase
        simp only [Check.PhaseInv, hk, Check.count] at hK
        have hle := K.checked_le
        have hnodup := HL.registered.requests_nodup
        simp only [life, inflight, hp, add_zero] at hnodup
        -- the requests of the batch are distinct, so MPI can report any of them
        have hinj (i : Nat) (hi : i < u.count) (j : Nat) (hj : j < u.count)
            (hr : s.checkBuffers.requests (u.roff + i) ≠ none)
            (heq : s.checkBuffers.requests (u.roff + i) = s.checkBuffers.requests (u.roff + j)) :
            i = j := by
          obtain ⟨r, hr⟩ := Option.ne_none_iff_exists'.mp hr
          refine Nat.add_left_cancel (slots_inj List.nodup_range hnodup (p := u.roff + i)
            (q := u.roff + j) (List.mem_range.mpr ?_) (List.mem_range.mpr ?_) hr (heq.symm.trans hr))
          · omega
          · omega
        obtain ⟨a, res, hres, hH, hasc⟩ := Tampi.exists_honest cfg.generalTesting hinj
        have ha : (Label.poll a).Ascending := by
          cases a with
          | some is => exact hasc is rfl
          | silent | issued | any | flag | now => trivial
        have hstep : ∃ t, s.checkStep cfg total inserted k a = some t := by
          unfold checkStep
          simp only [hk]
          exact ⟨_, congrArg (Option.map _) hres⟩
        obtain ⟨t, hstep⟩ := hstep
        exact ⟨a, t, by simpa [honest, hcu] using hH, ha, step_of_checkStep hf hp hstep⟩
      next => cases hc
    next => cases hc

/-- A call ends with the evaluation of the capacity. -/
theorem PollMove.evaluate_of_idle (M : s.PollMove cfg a t) (ht : t.poll = .idle) :
    ∃ total ms, s.poll = .evaluate total ∧ a = .now ms := by
  cases M with
  | evaluate hp => exact ⟨_, _, hp, rfl⟩
  | popping hp =>
    rw [hp] at ht
    cases ht
  | noColl =>
    simp only [nextWindow] at ht
    split at ht <;> cases ht
  | free =>
    simp only [nextWindow] at ht
    split at ht
    · cases ht
    · split at ht <;> cases ht
  | bottomEmpty | replace =>
    simp only [nextRound] at ht
    split at ht <;> cases ht
  | enter | top | full | pop | noP2P | takeP2P | takeColl | transfer | bottom | check => cases ht

theorem capacityCtrl_of_evaluate (hp : s.poll = .evaluate total)
    (h : s.step cfg (.poll (.now ms)) = some t) :
    t.manager.capacityCtrl = s.manager.capacityCtrl.evaluate s.manager.pending total ms := by
  have h := step_poll h
  simp only [pollStep, hp] at h
  cases h
  rfl

/-- Only the evaluations at the ends of the calls change the controller. -/
theorem capacityCtrl_of_step (h : s.step cfg l = some t) (hf : t.failure = none) :
    t.manager.capacityCtrl = s.manager.capacityCtrl ∨
      ∃ total ms, s.poll = .evaluate total ∧ l = .poll (.now ms) ∧
        t.manager.capacityCtrl =
          s.manager.capacityCtrl.evaluate s.manager.pending total ms := by
  cases l with
  | poll a =>
    have M := pollMove_of_step h hf
    by_cases ht : t.poll = .idle
    · obtain ⟨total, ms, hp, rfl⟩ := M.evaluate_of_idle ht
      exact .inr ⟨total, ms, hp, rfl, capacityCtrl_of_evaluate hp h⟩
    · exact .inl (M.capacityCtrl ht)
  | process | cpu | resume | completion | mpi => exact .inl (by rw [(step_manager h rfl).1])

/-! ## Infinite runs -/

variable {σ : Nat → Sys} {l : Nat → Label}

/-- An infinite run meets no failure. -/
theorem failure_of_execution (E : (system cfg).Execution σ l) (n : Nat) : (σ n).failure = none :=
  failure_of_step (E.step n).2

theorem log_extends_of_execution (E : (system cfg).Execution σ l) (n : Nat) :
    (σ n).log <+: (σ (n + 1)).log :=
  log_extends (E.reachable n) (E.step n) (failure_of_execution E (n + 1))

/-- A kind of event that is bounded in number happens no more from some time on. -/
theorem exists_select_eq (E : (system cfg).Execution σ l) (f : Event → Option α)
    (hb : ∀ n, (Transition.select f (σ n).log).length ≤ b) :
    ∃ k, ∀ n ≥ k, Transition.select f (σ (n + 1)).log = Transition.select f (σ n).log := by
  have hgrows (n : Nat) : Transition.select f (σ n).log <+: Transition.select f (σ (n + 1)).log :=
    (log_extends_of_execution E n).filterMap f
  obtain ⟨k, hk⟩ := Transition.eventually_eq_of_le (fun n => (hgrows n).length_le) hb
  exact ⟨k, fun n hn => ((hgrows n).eq_of_length (hk n hn).symm).symm⟩

/-- A round of a call ends. -/
theorem exists_starts (E : (system cfg).Execution σ l) (hpoll : ∀ n, ∃ m ≥ n, (l m).isPoll)
    (k : Nat) : ∃ n ≥ k, (σ n).poll.starts := by
  by_contra hno
  push Not at hno
  have hmove (n : Nat) (hn : n ≥ k) : (σ (n + 1)).span cfg ≤ (σ n).span cfg ∧
      ((l n).isPoll → (σ (n + 1)).span cfg < (σ n).span cfg) := by
    have hf := failure_of_execution E (n + 1)
    have O := ongoing_of_reachable (E.reachable n) (failure_of_execution E n)
    obtain ⟨I, -⟩ := Inv.of_reachable (E.reachable n) (failure_of_execution E n)
    have hstep := (E.step n).2
    cases hl : l n with
    | poll a =>
      rw [hl] at hstep
      have hlt := O.span_lt I (pollMove_of_step hstep hf)
        (Bool.eq_false_of_not_eq_true (hno (n + 1) (Nat.le_succ_of_le hn)))
      exact ⟨hlt.le, fun _ => hlt⟩
    | process | cpu | resume | completion | mpi =>
      rw [hl] at hstep
      refine ⟨(O.other hstep rfl).2.le, ?_⟩
      intro h
      cases h
  obtain ⟨m, -, hm⟩ := Transition.eventually_not_of_lt (f := fun n => (σ n).span cfg)
    (P := fun n => (l n).isPoll) (fun n hn => (hmove n hn).1) fun n hn => (hmove n hn).2
  obtain ⟨n, hn, hP⟩ := hpoll m
  exact hm n hn hP

/-- Once nothing is pushed any more, a call ends. -/
theorem exists_idle (E : (system cfg).Execution σ l) (hpoll : ∀ n, ∃ m ≥ n, (l m).isPoll)
    (hpush : ∀ n ≥ k, pushes (σ (n + 1)).log = pushes (σ n).log) :
    ∃ n ≥ k, (σ n).poll = .idle := by
  obtain ⟨m, hm, hstarts⟩ := exists_starts E hpoll k
  by_contra hno
  push Not at hno
  have R : (σ m).Round cfg := by
    obtain ⟨total, hp⟩ := (Poll.starts_cases hstarts).resolve_left (hno m hm)
    simp only [Round, hp]
  have E' := E.drop m
  obtain ⟨j, hj⟩ := Round.finite (fun n => σ (n + m)) (fun n => l (n + m)) E'.start
    (by simpa using R) E'.step (fun n => hno (n + m) (by omega)) fun n => by
      rw [Nat.add_right_comm]
      exact hpush (n + m) (by omega)
  obtain ⟨n, hn, hP⟩ := hpoll (j + m)
  obtain ⟨d, rfl⟩ := Nat.exists_eq_add_of_le' (Nat.le_trans (Nat.le_add_left m j) hn)
  have := hj d (by omega)
  rw [hP] at this
  cases this

/-- What the rounds know from a time on at which there is no call, without pushes. -/
theorem round_from (E : (system cfg).Execution σ l) (hj : (σ j).poll = .idle)
    (hpush : ∀ n ≥ j, pushes (σ (n + 1)).log = pushes (σ n).log) :
    ∀ n ≥ j, (σ n).poll = .idle ∨ (σ n).Round cfg := by
  refine Transition.always_from (.inl hj) fun n hn hround => ?_
  have hstep := E.step n
  by_cases hp : (σ (n + 1)).poll = .idle
  · exact .inl hp
  · rcases hround with hidle | R
    · refine .inr ?_
      cases hl : l n with
      | poll a =>
        rw [hl] at hstep
        exact (Round.enter hidle hstep.2).1
      | process | cpu | resume | completion | mpi =>
        rw [hl] at hstep
        exact absurd ((step_manager hstep.2 rfl).2.trans hidle) hp
    · exact .inr (R.step (E.reachable n) hstep (failure_of_execution E (n + 1)) hp (hpush n hn)).1

/-- Without pushes the capacity is evaluated again and again. -/
theorem exists_evaluate (E : (system cfg).Execution σ l) (hpoll : ∀ n, ∃ m ≥ n, (l m).isPoll)
    (hpush : ∀ n ≥ k, pushes (σ (n + 1)).log = pushes (σ n).log) :
    ∃ n ≥ k, ∃ total ms, (σ n).poll = .evaluate total ∧ l n = .poll (.now ms) := by
  -- a call that is entered after `k`, and its end
  obtain ⟨m, hm, hpm⟩ := hpoll k
  have hbusy : ∃ n ≥ k, (σ n).poll ≠ .idle := by
    by_cases hp : (σ m).poll = .idle
    · refine ⟨m + 1, Nat.le_succ_of_le hm, ?_⟩
      have hstep := E.step m
      cases hl : l m with
      | poll a =>
        rw [hl] at hstep
        rw [enter_eq hp hstep.2]
        exact Poll.noConfusion
      | process | cpu | resume | completion | mpi =>
        rw [hl] at hpm
        cases hpm
    · exact ⟨m, hm, hp⟩
  obtain ⟨n₁, hn₁, hne⟩ := hbusy
  obtain ⟨n₂, hn₂, hidle⟩ := exists_idle E hpoll (k := n₁) fun n hn => hpush n (hn₁.trans hn)
  obtain ⟨n, hn, hne, hidle⟩ := Transition.exists_switch (P := fun n => (σ n).poll = .idle) hne
    hn₂ hidle
  have hstep := E.step n
  refine ⟨n, hn₁.trans hn, ?_⟩
  cases hl : l n with
  | process | cpu | resume | completion | mpi =>
    rw [hl] at hstep
    exact absurd ((step_manager hstep.2 rfl).2.symm.trans hidle) hne
  | poll a =>
    rw [hl] at hstep
    obtain ⟨total, ms, hp, rfl⟩ :=
      (pollMove_of_step hstep.2 (failure_of_execution E (n + 1))).evaluate_of_idle hidle
    exact ⟨total, ms, hp, rfl⟩

end Sys
end Tampi
