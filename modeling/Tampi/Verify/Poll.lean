import Tampi.Verify.Capacity
import Tampi.Verify.Check
import Tampi.Verify.Transfer

/-! # `checkRequests`

The polling task takes operations from the pre-queues while the in-flight arrays have room, checks
the requests, and evaluates the capacity. -/

namespace Tampi
open Function (update)

namespace Sys
variable {cfg : Config} {s s' : Sys} {total inserted np2p : Nat} {w : Window} {p : Poll}

/-! ## Steps that leave the queues alone -/

theorem plain_sim (I : s.Inv cfg) (hf : s.failure = none) (hp : s.poll.plain) (hp' : p.plain)
    {c : CapacityCtrl} (hcap : s.manager.pending ≤ c.capacity)
    (hpoll : PollInv cfg { s.manager with capacityCtrl := c } s.p2pOperations.consumer s.log p) :
    Sim cfg s { s with manager := { s.manager with capacityCtrl := c }, poll := p } := by
  refine .of_frame I hf ⟨rfl, rfl, rfl, rfl, rfl, rfl, rfl, rfl, rfl, le_refl _⟩ ?_ I.self hcap
    hpoll ?_
  · intro kind
    rw [transferring_of_plain hp, transferring_of_plain hp']
  · convert Life.Steps.refl using 1
    ext1 <;> try rfl
    · exact (batch_of_plain hp').trans (batch_of_plain hp).symm
    · exact (inflight_of_plain hp').trans (inflight_of_plain hp).symm
    · exact congrArg Multiset.ofList
        ((undelivered_of_plain hp').trans (undelivered_of_plain hp).symm)

theorem goto_sim (I : s.Inv cfg) (hf : s.failure = none) (hp : s.poll.plain) (hp' : p.plain)
    (hpoll : PollInv cfg s.manager s.p2pOperations.consumer s.log p) :
    Sim cfg s { s with poll := p } :=
  plain_sim I hf hp hp' I.pending_le hpoll

theorem enterCheck_sim (I : s.Inv cfg) (hf : s.failure = none) (hp : s.poll.plain)
    (hidle : s.p2pOperations.consumer = .idle) (hact : s.manager.arrays.Active 0 s.manager.pending)
    (hpos : 0 < s.manager.pending) :
    Sim cfg s { s with poll := .check total inserted (.batch s.manager.pending 0 0) } := by
  refine .of_frame I hf ⟨rfl, rfl, rfl, rfl, rfl, rfl, rfl, rfl, rfl, le_refl _⟩ ?_ I.self
    I.pending_le ⟨hidle, ?_⟩ ?_
  · intro kind
    rw [transferring_of_plain hp]
    rfl
  · exact {
      sorted := fun _ _ _ h => absurd h (Nat.not_lt_zero _)
      lt_checked := fun _ h => absurd h (Nat.not_lt_zero _)
      null_iff := fun _ h => absurd h (Nat.not_lt_zero _)
      checked_le := Nat.zero_le _
      phase := Check.phaseInv_batch hpos hact }
  · convert Life.Steps.refl using 1
    ext1 <;> try rfl
    · exact (batch_of_plain hp).symm
    · exact (add_zero _).trans (inflight_of_plain hp).symm
    · refine congrArg Multiset.ofList (Eq.trans ?_ (undelivered_of_plain hp).symm)
      exact Check.undelivered_batch

/-! ## Steps that take from the queues -/

/-- The part of the simulation that is common to the steps of the two pops. -/
theorem queues_sim (q : MultiLockFreeQueue Nat) (coll : List Nat) (I : s.Inv cfg)
    (hf : s.failure = none) (hp : s.poll.plain)
    (hq : MultiLockFreeQueue.QueueInv cfg.queue q)
    (hprod : q.producer = s.p2pOperations.producer)
    (hout : ∀ c, cfg.cpus ≤ c → q.contents cfg.queue c = [])
    (hqueued : ∀ kind, ({ s with p2pOperations := q, collOperations := coll } : Sys).queued cfg kind +
      p.transferring kind = s.queued cfg kind)
    (hpoll : PollInv cfg s.manager q.consumer s.log p)
    (hinflight : ({ s with poll := p } : Sys).inflight = s.inflight)
    (hundelivered : ({ s with poll := p } : Sys).undelivered cfg = [])
    (hsteps : (s.life cfg).Steps { s.life cfg with
      queue := ({ s with p2pOperations := q, collOperations := coll } : Sys).queue cfg
      batch := ({ s with p2pOperations := q, poll := p } : Sys).batch }) :
    Sim cfg s { s with p2pOperations := q, collOperations := coll, poll := p } := by
  refine .ok hf ?_ ?_
  · exact {
      queue := hq
      cpus := fun c => by simpa only [hprod] using I.cpus c
      tasks := I.tasks
      outside := fun c h => ⟨(I.outside c h).1, hout c h⟩
      objects := by
        intro kind
        have h := hqueued kind
        rw [← I.objects kind]
        simp only [live, transferring_of_plain hp, add_zero, ← h, add_assoc]
        rfl
      self := I.self
      pending_le := I.pending_le
      consuming := I.consuming
      poll := hpoll }
  · convert hsteps using 1
    ext1 <;> try rfl
    · exact hinflight
    · exact congrArg Multiset.ofList (hundelivered.trans (undelivered_of_plain hp).symm)

/-- A pop of point-to-point operations that took nothing in this step. -/
theorem popKeep_sim {q : MultiLockFreeQueue Nat} (I : s.Inv cfg) (hf : s.failure = none)
    (hp : s.poll.plain) (hp' : p.plain) (hq : MultiLockFreeQueue.QueueInv cfg.queue q)
    (hprod : q.producer = s.p2pOperations.producer)
    (hcont : q.contents cfg.queue = s.p2pOperations.contents cfg.queue)
    (hvals : q.consumer.vals = s.p2pOperations.consumer.vals)
    (hpoll : PollInv cfg s.manager q.consumer s.log p) :
    Sim cfg s { s with p2pOperations := q, poll := p } := by
  refine queues_sim q s.collOperations I hf hp hq hprod ?_ ?_ hpoll ?_ ?_ ?_
  · intro c h
    rw [hcont]
    exact (I.outside c h).2
  · intro kind
    rw [transferring_of_plain hp', add_zero]
    cases kind with
    | p2p => simp only [queued, hcont, hvals]
    | coll => rfl
  · exact (inflight_of_plain hp').trans (inflight_of_plain hp).symm
  · exact undelivered_of_plain hp'
  · convert Life.Steps.refl using 1
    ext1 <;> try rfl
    · funext line
      cases line with
      | p2p c => simp only [life, queue, waiting, hcont]
      | coll => rfl
    · dsimp only
      rw [batch_of_plain hp']
      simp only [life, batch_of_plain hp, hvals]

theorem sum_contents_take {q : MultiLockFreeQueue Nat} {cpu : Nat} {chunk rest : List Nat}
    (I : s.Inv cfg) (hsplit : s.p2pOperations.contents cfg.queue cpu = chunk ++ rest)
    (hcont : q.contents cfg.queue = update (s.p2pOperations.contents cfg.queue) cpu rest) :
    ∑ c ∈ Finset.range cfg.cpus, (q.contents cfg.queue c : Multiset Nat) + chunk =
      ∑ c ∈ Finset.range cfg.cpus, (s.p2pOperations.contents cfg.queue c : Multiset Nat) := by
  have hoff (c : Nat) (h : c ≠ cpu) :
      q.contents cfg.queue c = s.p2pOperations.contents cfg.queue c := by
    rw [hcont, Function.update_of_ne h]
  by_cases hlt : cpu < cfg.cpus
  · have hsum := Counting.sum_of_eq_off (q := cpu)
      (fun c => (s.p2pOperations.contents cfg.queue c : Multiset Nat))
      (fun c => (q.contents cfg.queue c : Multiset Nat)) hlt
      (fun c h => congrArg _ (hoff c h))
    rw [hsplit, ← Multiset.coe_add, ← add_assoc,
      show q.contents cfg.queue cpu = rest by rw [hcont, Function.update_self]] at hsum
    exact add_right_cancel hsum
  · have hnil : chunk = [] := by
      rw [(I.outside cpu (by omega)).2] at hsplit
      exact (List.append_eq_nil_iff.mp hsplit.symm).1
    rw [hnil, Multiset.coe_nil, add_zero]
    refine Finset.sum_congr rfl fun c hc => congrArg _ (hoff c ?_)
    have := Finset.mem_range.mp hc
    omega

/-- A pop of point-to-point operations that took the front of one queue. -/
theorem popTake_sim {q : MultiLockFreeQueue Nat} {cpu : Nat} {chunk rest : List Nat}
    (I : s.Inv cfg) (hf : s.failure = none)
    (hp : s.poll.plain) (hp' : p.plain) (hq : MultiLockFreeQueue.QueueInv cfg.queue q)
    (hprod : q.producer = s.p2pOperations.producer)
    (hsplit : s.p2pOperations.contents cfg.queue cpu = chunk ++ rest)
    (hcont : q.contents cfg.queue = update (s.p2pOperations.contents cfg.queue) cpu rest)
    (hvals : q.consumer.vals = s.p2pOperations.consumer.vals ++ chunk)
    (hpoll : PollInv cfg s.manager q.consumer s.log p) :
    Sim cfg s { s with p2pOperations := q, poll := p } := by
  refine queues_sim q s.collOperations I hf hp hq hprod ?_ ?_ hpoll ?_ ?_ ?_
  · intro c h
    rw [hcont]
    by_cases hc : c = cpu
    · subst hc
      rw [(I.outside c h).2] at hsplit
      rw [Function.update_self]
      exact (List.append_eq_nil_iff.mp hsplit.symm).2
    · rw [Function.update_of_ne hc]
      exact (I.outside c h).2
  · intro kind
    rw [transferring_of_plain hp', add_zero]
    cases kind with
    | p2p =>
      simp only [queued, hvals, ← Multiset.coe_add, ← sum_contents_take I hsplit hcont]
      abel
    | coll => rfl
  · exact (inflight_of_plain hp').trans (inflight_of_plain hp).symm
  · exact undelivered_of_plain hp'
  · refine .single (a := .take (.p2p cpu) (chunk.map (s.objects .p2p))) ?_ rfl
    have hline : (s.life cfg).queue (.p2p cpu) =
        chunk.map (s.objects .p2p) ++ rest.map (s.objects .p2p) := by
      simp only [life, queue, waiting, hsplit, Line.kind, List.map_append]
    convert Life.Move.take hline using 1
    ext1 <;> try rfl
    · funext line
      cases line with
      | p2p c =>
        by_cases hc : c = cpu
        · subst hc
          simp [queue, waiting, hcont, Line.kind]
        · simp [life, queue, waiting, hcont, hc]
      | coll => simp [life, queue, waiting]
    · dsimp only
      rw [batch_of_plain hp']
      simp only [life, batch_of_plain hp, hvals, List.map_append]

/-! ## Entering `transferOperations` -/

theorem start_inv {kind : OpKind} {objects : List Nat} {log : List Event} {pending capacity : Nat}
    (hw : w.Fits pending capacity)
    (hlen : objects.length ≤ min (w.navailable - w.ntotal) BatchSize) :
    (Transfer.start kind objects).Inv cfg log w pending capacity where
  count_le := hlen
  tickets_le := Nat.zero_le _
  issued := trivial
  nreqs_le := Nat.zero_le _
  room := by
    have := hw.room
    simp only [Transfer.toAppend, Transfer.start]
    omega
  complentries_lt e he := by simp [Transfer.start] at he
  req2entry_lt r e he := by simp [Transfer.start] at he
  settled e he := by simp [Transfer.start] at he
  phase := ⟨fun r hr => absurd hr (Nat.not_lt_zero _), rfl⟩

/-- Neither assertion at the head of `transferOperations` can fail. -/
theorem enterTransfer_eq {kind : OpKind} {objects : List Nat}
    (hw : w.Fits s.manager.pending s.manager.capacityCtrl.capacity)
    (hlen : objects.length ≤ min (w.navailable - w.ntotal) BatchSize) :
    s.enterTransfer total w np2p kind objects =
      { s with poll := .transfer total w np2p (.start kind objects) } := by
  have := hw.room
  rw [enterTransfer, if_neg (by omega), if_neg (by omega)]

theorem transferP2P_sim {objects : List Nat} (I : s.Inv cfg) (hf : s.failure = none)
    (hp : s.poll.plain) (hc : s.p2pOperations.consumer = .returned objects)
    (hact : s.manager.arrays.Active 0 s.manager.pending)
    (hw : w.Fits s.manager.pending s.manager.capacityCtrl.capacity)
    (hlen : objects.length ≤ min (w.navailable - w.ntotal) BatchSize) :
    Sim cfg s { s with
      p2pOperations := { s.p2pOperations with consumer := .idle }
      poll := .transfer total w np2p (.start .p2p objects) } := by
  refine queues_sim { s.p2pOperations with consumer := .idle } s.collOperations I hf hp
    (I.queue.release_pop (by simp [hc, Consumer.free])) rfl (fun c h => (I.outside c h).2) ?_
    ⟨rfl, hact, hw.le, start_inv hw hlen⟩ ?_ ?_ ?_
  · intro kind
    cases kind with
    | p2p =>
      simp only [queued, Poll.transferring, Transfer.start, if_true, hc, Consumer.vals,
        Multiset.coe_nil, add_zero]
      rfl
    | coll => simp [queued, Poll.transferring, Transfer.start]
  · rw [inflight_of_plain hp]
    exact add_zero _
  · rfl
  · convert Life.Steps.refl using 1
    ext1 <;> try rfl
    simp only [life, batch_of_plain hp, hc]
    rfl

theorem transferColl_sim {n : Nat} (I : s.Inv cfg) (hf : s.failure = none)
    (hp : s.poll.plain) (hc : s.p2pOperations.consumer = .idle)
    (hact : s.manager.arrays.Active 0 s.manager.pending)
    (hw : w.Fits s.manager.pending s.manager.capacityCtrl.capacity)
    (hn : n ≤ min (w.navailable - w.ntotal) BatchSize) :
    Sim cfg s { s with
      collOperations := s.collOperations.drop n
      poll := .transfer total w np2p (.start .coll (s.collOperations.take n)) } := by
  have hlen : (s.collOperations.take n).length ≤ min (w.navailable - w.ntotal) BatchSize := by
    rw [List.length_take]
    omega
  refine queues_sim s.p2pOperations (s.collOperations.drop n) I hf hp I.queue rfl
    (fun c h => (I.outside c h).2) ?_
    ⟨hc, hact, hw.le, start_inv hw hlen⟩ ?_ rfl ?_
  · intro kind
    cases kind with
    | p2p => simp [queued, Poll.transferring, Transfer.start]
    | coll =>
      simp only [queued, Poll.transferring, Transfer.start, if_true, Multiset.coe_add]
      exact Multiset.coe_eq_coe.mpr (List.perm_append_comm.trans (by rw [List.take_append_drop]))
  · rw [inflight_of_plain hp]
    exact add_zero _
  · refine .single (a := .take .coll ((s.collOperations.take n).map (s.objects .coll))) ?_ rfl
    have hline : (s.life cfg).queue .coll = (s.collOperations.take n).map (s.objects .coll) ++
        (s.collOperations.drop n).map (s.objects .coll) := by
      simp only [life, queue, waiting, Line.kind, ← List.map_append, List.take_append_drop]
    convert Life.Move.take hline using 1
    ext1 <;> try rfl
    · funext line
      cases line with
      | p2p c => simp [life, queue, waiting]
      | coll => simp [queue, waiting, Line.kind]
    · simp only [life, batch_of_plain hp, hc]
      rfl

/-! ## The next step of the polling task -/

theorem window_fits (h : s.manager.pending < s.manager.capacityCtrl.capacity) :
    (⟨min (s.manager.capacityCtrl.capacity - s.manager.pending) (BatchSize * 2), 0⟩ : Window).Fits
      s.manager.pending s.manager.capacityCtrl.capacity :=
  ⟨Nat.zero_le _, by dsimp only; omega⟩

theorem popping_sim (I : s.Inv cfg) (hf : s.failure = none) (hp : s.poll = .popping total w)
    (h : s.pollStep cfg a = some s') : Sim cfg s s' := by
  have hplain : s.poll.plain := by rw [hp]; rfl
  have hpoll := I.poll
  rw [hp] at hpoll
  obtain ⟨hlim, hact, hw⟩ := hpoll
  simp only [pollStep, hp] at h
  split at h
  · rename_i objects hc
    rw [hc] at hlim
    split at h
    · rename_i hnil
      subst hnil
      cases h
      exact popKeep_sim I hf hplain rfl (I.queue.release_pop (by simp [hc, Consumer.free])) rfl rfl
        (by simp [hc, Consumer.vals]) ⟨rfl, hact, hw⟩
    · rw [enterTransfer_eq (by exact hw) (by exact hlim)] at h
      cases h
      exact transferP2P_sim I hf hplain hc hact hw hlim
  · obtain ⟨q, hq, rfl⟩ := Option.map_eq_some_iff.mp h
    have Q := I.queue.consumerStep hq
    have F := MultiLockFreeQueue.consumerStep_frame hq
    have hlim' := (MultiLockFreeQueue.consumerStep_cases I.queue hq).1
    have hpinv : PollInv cfg s.manager q.consumer s.log (.popping total w) :=
      ⟨hlim'.trans hlim, hact, hw⟩
    rcases MultiLockFreeQueue.consumerStep_contents I.queue hq with
      ⟨hcont, hvals⟩ | ⟨cpu, chunk, rest, hsplit, hcont, hvals⟩
    · exact popKeep_sim I hf hplain rfl Q F.producer hcont hvals hpinv
    · exact popTake_sim I hf hplain rfl Q F.producer hsplit hcont hvals hpinv

theorem coll_sim (I : s.Inv cfg) (hf : s.failure = none) (hp : s.poll = .coll total w np2p)
    (h : s.pollStep cfg a = some s') : Sim cfg s s' := by
  have hplain : s.poll.plain := by rw [hp]; rfl
  have hpoll := I.poll
  rw [hp] at hpoll
  obtain ⟨hidle, hact, hw⟩ := hpoll
  simp only [pollStep, hp] at h
  split at h
  · rename_i hnil
    cases h
    have hdrop : s.collOperations.drop (min (w.navailable - w.ntotal) BatchSize) =
        s.collOperations := by
      rcases List.take_eq_nil_iff.mp hnil with h0 | h0
      · rw [h0, List.drop_zero]
      · simp [h0]
    rw [hdrop]
    exact goto_sim I hf hplain plain_nextWindow (pollInv_nextWindow hidle hact hw)
  · rw [enterTransfer_eq (by exact hw) (by rw [List.length_take]; exact Nat.min_le_left ..)] at h
    cases h
    exact transferColl_sim I hf hplain hidle hact hw (le_refl _)

theorem pollStep_sim (I : s.Inv cfg) (HL : (s.life cfg).Inv) (hf : s.failure = none)
    (hasc : ∀ is, a = .some is → is.Pairwise (· < ·)) (h : s.pollStep cfg a = some s') :
    Sim cfg s s' := by
  have hpoll := I.poll
  cases hp : s.poll with
  | idle =>
    rw [hp] at hpoll
    simp only [pollStep, hp] at h
    cases h
    exact goto_sim I hf (by rw [hp]; rfl) rfl hpoll
  | top total =>
    rw [hp] at hpoll
    simp only [pollStep, hp] at h
    cases h
    refine goto_sim I hf (by rw [hp]; rfl) (by split <;> rfl) ?_
    split
    · exact ⟨hpoll.1, hpoll.2, window_fits ‹_›⟩
    · exact hpoll
  | p2p total w =>
    rw [hp] at hpoll
    obtain ⟨hidle, hact, hw⟩ := hpoll
    simp only [pollStep, hp] at h
    cases h
    have hfree : s.p2pOperations.consumer.free := by rw [hidle]; rfl
    obtain ⟨hvals, hlim, -⟩ := MultiLockFreeQueue.pop_calls (P := cfg.queue) (m := s.p2pOperations)
      (min (w.navailable - w.ntotal) BatchSize)
    exact popKeep_sim I hf (by rw [hp]; rfl) rfl (I.queue.pop hfree)
      MultiLockFreeQueue.pop_frame.producer (MultiLockFreeQueue.pop_contents I.queue hfree)
      (by rw [hvals, hidle]; rfl) ⟨hlim, hact, hw⟩
  | popping total w => exact popping_sim I hf hp h
  | coll total w np2p => exact coll_sim I hf hp h
  | transfer total w np2p x =>
    simp only [pollStep, hp] at h
    exact transferStep_sim I HL hf hp hasc h
  | bottom total inserted =>
    rw [hp] at hpoll
    simp only [pollStep, hp] at h
    cases h
    by_cases hpos : 0 < s.manager.pending
    · simp only [hpos, if_true]
      exact enterCheck_sim I hf (by rw [hp]; rfl) hpoll.1 hpoll.2 hpos
    · simp only [hpos, if_false]
      exact goto_sim I hf (by rw [hp]; rfl) plain_nextRound (pollInv_nextRound hpoll.1 hpoll.2)
  | check total inserted k =>
    simp only [pollStep, hp] at h
    exact checkStep_sim I HL hf hp hasc h
  | evaluate total =>
    rw [hp] at hpoll
    simp only [pollStep, hp] at h
    split at h
    · cases h
      exact plain_sim I hf (by rw [hp]; rfl) rfl
        (I.pending_le.trans (CapacityCtrl.le_evaluate ..)) hpoll
    · cases h

end Sys

end Tampi
