import Tampi.Verify.PollFrame

/-! # `internalCheckRequests`

The batches find completed requests at ascending positions; each is delivered once, with its own
status, and the replacement leaves the pending ones at the front of the arrays. -/

namespace Tampi
open Function (update)
open Compaction (valid)

namespace Check
variable {cfg : Config} {log : List Event} {pending n : Nat} {arrays : Arrays} {k : Check}

theorem Inv.handoff (K : k.Inv cfg log pending arrays) (hk : k.phase = .handoff n) :
    k.BatchInv cfg log pending arrays
      ((List.range n).map fun j => arrays.indices (k.completed + j)) n n := by
  simpa only [Check.PhaseInv, Check.batchPositions, hk] using K.phase

/-- The positions found by the batches so far, up to the end of the current one. -/
theorem Inv.next (K : k.Inv cfg log pending arrays) (hk : k.phase = .handoff n) :
    (∀ i j, i < j → j < k.completed + n → arrays.indices i < arrays.indices j) ∧
    (∀ j < k.completed + n, arrays.indices j < k.checked + k.count pending) ∧
    (∀ p < k.checked + k.count pending, arrays.requests p = none ↔
      ∃ j < k.completed + n, arrays.indices j = p) ∧
    k.checked + k.count pending ≤ pending := by
  have B := K.handoff hk
  have hmem (j : Nat) (h1 : k.completed ≤ j) (h2 : j < k.completed + n) :
      k.checked ≤ arrays.indices j ∧ arrays.indices j < k.checked + k.count pending := by
    refine B.mem _ (List.mem_map.mpr ⟨j - k.completed, List.mem_range.mpr (by omega), ?_⟩)
    rw [Nat.add_sub_cancel' h1]
  refine ⟨fun i j hij hj => ?_, fun j hj => ?_, fun p hp => ?_, ?_⟩
  · rcases Nat.lt_or_ge j k.completed with hlt | hge
    · exact K.sorted i j hij hlt
    · rcases Nat.lt_or_ge i k.completed with hi | hi
      · exact lt_of_lt_of_le (K.lt_checked i hi) (hmem j hge hj).1
      · have := List.pairwise_iff_getElem.mp B.sorted (i - k.completed) (j - k.completed)
          (by simp; omega) (by simp; omega) (by omega)
        simpa [Nat.add_sub_cancel' hi, Nat.add_sub_cancel' hge] using this
  · rcases Nat.lt_or_ge j k.completed with hlt | hge
    · have := K.lt_checked j hlt
      omega
    · exact (hmem j hge hj).2
  · rcases Nat.lt_or_ge p k.checked with hlt | hge
    · rw [K.null_iff p hlt]
      refine exists_congr fun j => and_congr_left fun hj => ⟨fun h => by omega, fun h => ?_⟩
      by_contra hge
      have := (hmem j (by omega) h).1
      omega
    · rw [B.null_iff p hge hp]
      simp only [List.mem_map, List.mem_range]
      constructor
      · rintro ⟨j, hj, rfl⟩
        exact ⟨k.completed + j, by omega, rfl⟩
      · rintro ⟨j, hj, rfl⟩
        have : k.completed ≤ j := by
          by_contra hlt
          have := K.lt_checked j (by omega)
          omega
        exact ⟨j - k.completed, by omega, by rw [Nat.add_sub_cancel' this]⟩
  · have := K.checked_le
    simp only [Check.count]
    omega

/-- What the earlier batches have found is kept by a step that leaves their indices and requests
alone. -/
theorem Inv.keep {k' : Check} {log' : List Event} {arrays' : Arrays}
    (K : k.Inv cfg log pending arrays) (hchecked : k'.checked = k.checked)
    (hcompleted : k'.completed = k.completed)
    (hindices : ∀ j < k.completed, arrays'.indices j = arrays.indices j)
    (hrequests : ∀ p < k.checked, arrays'.requests p = arrays.requests p)
    (hphase : k'.PhaseInv cfg log' pending arrays') : k'.Inv cfg log' pending arrays' where
  sorted i j hij hj := by
    rw [hcompleted] at hj
    rw [hindices i (by omega), hindices j hj]
    exact K.sorted i j hij hj
  lt_checked j hj := by
    rw [hcompleted] at hj
    rw [hindices j hj, hchecked]
    exact K.lt_checked j hj
  null_iff p hp := by
    rw [hchecked] at hp
    rw [hrequests p hp, K.null_iff p hp, hcompleted]
    refine exists_congr fun j => and_congr_right fun hj => ?_
    rw [hindices j hj]
  checked_le := hchecked ▸ K.checked_le
  phase := hphase

/-- The test of the batch has returned: its indices are relative to the batch. -/
theorem batchInv_of_reported {t : Test} (T : TestInv arrays.getAssociatedTicket t arrays.requests
      arrays.indices arrays.statuses log)
    (hroff : t.roff = k.checked) (hcount : t.count = k.count pending) (hctx : k.contexts = [])
    (hact : arrays.Active (k.checked + k.count pending) pending) :
    k.BatchInv cfg log pending arrays ((t.reported arrays.indices).map (k.checked + ·)) 0 0 where
  sorted := by
    refine List.pairwise_map.mpr (T.sorted.imp fun h => ?_)
    omega
  null_iff p h1 h2 := by
    obtain ⟨i, rfl⟩ : ∃ i, p = k.checked + i := ⟨p - k.checked, by omega⟩
    have := T.null_iff i (by omega)
    rw [hroff] at this
    simpa using this
  mem p hp := by
    obtain ⟨i, hi, rfl⟩ := List.mem_map.mp hp
    have := T.lt_count i hi
    omega
  active := hact
  settled := by simp
  status j hj _ := by
    have := T.status j (by simpa using hj)
    rw [hroff] at this
    simpa only [List.getElem_map, Test.getElem_reported] using this
  contexts := by simp [hctx]

/-- Where the loop over the batches goes on: to the next batch, or to the replacement. -/
def advance (pending n : Nat) (k : Check) : Check :=
  if k.checked + k.count pending < pending then
    .batch pending (k.checked + k.count pending) (k.completed + n)
  else ⟨k.checked + k.count pending, k.completed + n, [], .replace⟩

theorem undelivered_batch {first m : Nat} : (batch pending first m).undelivered enabled arrays =
    [] := by
  simp [undelivered, batchPositions, batch, Test.reported, Test.start]

theorem undelivered_advance : (k.advance pending n).undelivered enabled arrays = [] := by
  unfold advance
  split
  · exact undelivered_batch
  · simp [undelivered, batchPositions]

/-- A batch starts with every request from its first position on active. -/
theorem phaseInv_batch {first m : Nat} (hlt : first < pending)
    (hact : arrays.Active first pending) :
    (batch pending first m).PhaseInv cfg log pending arrays := by
  refine ⟨rfl, rfl, rfl, rfl, fun p h1 h2 => hact p ?_ h2, Testing.start (fun i hi => ?_) ?_⟩
  · exact (Nat.le_add_right ..).trans h1
  · exact hact _ (Nat.le_add_right ..) (by omega)
  · have : 0 < BatchSize := by decide
    omega

theorem Inv.advance {log' : List Event} (K : k.Inv cfg log pending arrays)
    (hk : k.phase = .handoff n) : (k.advance pending n).Inv cfg log' pending arrays := by
  obtain ⟨hsorted, hlt, hnull, hle⟩ := K.next hk
  unfold Check.advance
  split
  · rename_i h
    exact ⟨hsorted, hlt, hnull, hle, phaseInv_batch h (K.handoff hk).active⟩
  · rename_i h
    exact ⟨hsorted, hlt, hnull, hle, Nat.le_antisymm hle (Nat.le_of_not_lt h)⟩

end Check

/-! ## The replacement -/

namespace Arrays
variable {a a' : Arrays} {n : Nat}

/-- The operation in flight an entry stands for. -/
def slotOf (e : Request × Ticket) : Option Slot := e.1.map fun r => ⟨e.2, r⟩

theorem SelfMapped.slots_eq (H : a.SelfMapped n) :
    slots (List.range n) a.requests a.getAssociatedTicket =
      ((Multiset.range n).map a.entry).filterMap slotOf := by
  have hticket : slots (List.range n) a.requests a.getAssociatedTicket =
      slots (List.range n) a.requests a.tickets :=
    slots_congr (fun _ _ => rfl) fun p hp _ => by
      rw [getAssociatedTicket, H p (List.mem_range.mp hp)]
  rw [hticket, Multiset.filterMap_map]
  rfl

/-- Positions whose request is null hold no operation. -/
theorem filterMap_valid {holes : List Nat} (hnull : ∀ p < n, p ∈ holes → a.requests p = none) :
    ((valid holes n).map a.entry).filterMap slotOf =
      ((Multiset.range n).map a.entry).filterMap slotOf := by
  rw [Multiset.filterMap_map, Multiset.filterMap_map, valid, Multiset.filterMap_filter]
  refine congrArg Multiset.ofList (List.filterMap_congr fun p hp => ?_)
  by_cases h : p ∈ holes
  · simp [h, slotOf, entry, hnull p (List.mem_range.mp hp) h]
  · simp [h]

end Arrays

namespace Sys
variable {cfg : Config} {s s' s'' : Sys} {k k' : Check} {total inserted : Nat}

theorem PollFrame.trans (F : s.PollFrame s') (F' : s'.PollFrame s'') : s.PollFrame s'' where
  allocators := F'.allocators.trans F.allocators
  objects := F'.objects.trans F.objects
  p2pOperations := F'.p2pOperations.trans F.p2pOperations
  collOperations := F'.collOperations.trans F.collOperations
  consuming := F'.consuming.trans F.consuming
  cpus := F'.cpus.trans F.cpus
  tasks := F'.tasks.trans F.tasks
  serial := F'.serial.trans F.serial
  failure := F'.failure.trans F.failure
  completions := F.completions.trans F'.completions

/-- The part of `Sim.of_frame` that is common to the steps of a check. -/
theorem check_sim (I : s.Inv cfg) (hf : s.failure = none)
    (hp : s.poll = .check total inserted k) (F : s.PollFrame s')
    (hp' : s'.poll = .check total inserted k')
    (hpend : s'.manager.pending = s.manager.pending)
    (hcap : s'.manager.capacityCtrl = s.manager.capacityCtrl)
    (hmap : s'.manager.arrays.mappings = s.manager.arrays.mappings)
    (htick : s'.manager.arrays.tickets = s.manager.arrays.tickets)
    (hK : k'.Inv cfg s'.log s.manager.pending s'.manager.arrays)
    (hsteps : (s.life cfg).Steps { s.life cfg with
      inflight := slots (List.range s.manager.pending) s'.manager.arrays.requests
        s.manager.arrays.getAssociatedTicket
      completed := k'.undelivered cfg.completionEnabled s'.manager.arrays
      completions := s'.completions.contents
      permits := s'.permits
      mpi := s'.mpi
      memory := s'.memory
      log := s'.log }) : Sim cfg s s' := by
  have hpoll := I.poll
  rw [hp] at hpoll
  have hget : s'.manager.arrays.getAssociatedTicket = s.manager.arrays.getAssociatedTicket := by
    funext p
    simp only [Arrays.getAssociatedTicket, hmap, htick]
  refine .of_frame I hf F ?_ ?_ ?_ ?_ ?_
  · intro kind
    simp only [hp, hp', Poll.transferring]
  · intro p hlt
    rw [hmap]
    exact I.self p (hpend ▸ hlt)
  · rw [hpend, hcap]
    exact I.pending_le
  · rw [hp']
    exact ⟨hpoll.1, hpend.symm ▸ hK⟩
  · have hbatch : s'.batch = (s.life cfg).batch := by
      simp only [life, batch, hp, hp', F.p2pOperations, F.objects]
    have hinflight : s'.inflight = slots (List.range s.manager.pending) s'.manager.arrays.requests
        s.manager.arrays.getAssociatedTicket := by
      simp only [inflight, hp', hpend, hget, add_zero]
    have hundel : s'.undelivered cfg = k'.undelivered cfg.completionEnabled s'.manager.arrays := by
      simp only [undelivered, hp']
    rw [hbatch, hinflight, hundel]
    exact hsteps

/-- A step that only moves on in the code. -/
theorem check_stutter (I : s.Inv cfg) (hf : s.failure = none)
    (hp : s.poll = .check total inserted k)
    (hK : k'.Inv cfg s.log s.manager.pending s.manager.arrays)
    (hu : k'.undelivered cfg.completionEnabled s.manager.arrays =
      k.undelivered cfg.completionEnabled s.manager.arrays) :
    Sim cfg s { s with poll := .check total inserted k' } := by
  refine check_sim I hf hp ⟨rfl, rfl, rfl, rfl, rfl, rfl, rfl, rfl, rfl, le_refl _⟩ rfl rfl rfl rfl
    rfl hK ?_
  convert Life.Steps.refl using 1
  ext1 <;> simp [life, inflight, undelivered, hp, hu]

theorem Inv.check (I : s.Inv cfg) (hp : s.poll = .check total inserted k) :
    k.Inv cfg s.log s.manager.pending s.manager.arrays := by
  have hpoll := I.poll
  rw [hp] at hpoll
  exact hpoll.2

/-! ## The test -/

theorem checkTest_sim (I : s.Inv cfg) (HL : (s.life cfg).Inv) (hf : s.failure = none)
    (hp : s.poll = .check total inserted k) (hk : k.phase = .test t)
    (hasc : ∀ is, a = .some is → is.Pairwise (· < ·))
    (h : s.checkStep cfg total inserted k a = some s') : Sim cfg s s' := by
  have K := I.check hp
  obtain ⟨hroff, hioff, hcount, hctx, hact, T⟩ : t.roff = k.checked ∧ t.ioff = k.completed ∧
      t.count = k.count s.manager.pending ∧ k.contexts = [] ∧
      s.manager.arrays.Active (k.checked + k.count s.manager.pending) s.manager.pending ∧
      Testing cfg.generalTesting s.manager.arrays.getAssociatedTicket t s.manager.arrays.requests
        s.manager.arrays.indices s.manager.arrays.statuses s.log := by
    simpa only [Check.PhaseInv, hk] using K.phase
  have hle : k.checked + k.count s.manager.pending ≤ s.manager.pending := by
    have := K.checked_le
    simp only [Check.count]
    omega
  simp only [checkStep, hk] at h
  obtain ⟨res, hres, rfl⟩ := Option.map_eq_some_iff.mp h
  have A : Agrees (List.range s.manager.pending) s.manager.arrays.getAssociatedTicket 0
      ⟨s.manager.arrays.requests, s.manager.arrays.indices, s.manager.arrays.statuses, s.mpi, s.log⟩
      (s.life cfg) := by
    refine ⟨rfl, rfl, ?_⟩
    simp only [life, inflight, hp, add_zero, zero_add]
  obtain ⟨is, t', b', R, S, hres⟩ := internalTestRequests_steps HL List.nodup_range
    (fun i hi => List.mem_range.mpr (by omega)) A T hasc hres
  have hold : (s.life cfg).completed = ((t.reported s.manager.arrays.indices).map fun i =>
      s.manager.arrays.getAssociatedTicket (k.checked + i) : List Ticket) := by
    simp only [life, undelivered, hp, Check.undelivered, Check.batchPositions, Check.delivered, hk,
      ite_self, List.drop_zero, List.map_map]
    rfl
  have hS : (s.life cfg).Steps { s.life cfg with
      inflight := slots (List.range s.manager.pending) b'.requests
        s.manager.arrays.getAssociatedTicket
      completed := ((t'.reported b'.indices).map fun i =>
        s.manager.arrays.getAssociatedTicket (k.checked + i) : List Ticket)
      mpi := b'.mpi
      log := b'.log } := by
    convert S using 1
    ext1 <;> try rfl
    · simp only [Life.tested, hold, R.reported, List.map_append, hroff]
      exact (Multiset.coe_add ..).symm
  have htest := R.test
  have hindices (j : Nat) (hj : j < k.completed) : b'.indices j = s.manager.arrays.indices j :=
    R.indices j (hioff ▸ hj)
  have hrequests (p : Nat) (hne : p < k.checked ∨ k.checked + k.count s.manager.pending ≤ p) :
      b'.requests p = s.manager.arrays.requests p :=
    R.requests p fun i hi => by omega
  have hact' : ({ s.manager.arrays with requests := b'.requests } : Arrays).Active
      (k.checked + k.count s.manager.pending) s.manager.pending := by
    intro p h1 h2
    dsimp only
    rw [hrequests p (.inr h1)]
    exact hact p h1 h2
  have hK (phase : CheckPhase) (hphase : ({ k with phase := phase } : Check).PhaseInv cfg b'.log
      s.manager.pending { s.manager.arrays with
        requests := b'.requests, indices := b'.indices, statuses := b'.statuses }) :
      ({ k with phase := phase } : Check).Inv cfg b'.log s.manager.pending { s.manager.arrays with
        requests := b'.requests, indices := b'.indices, statuses := b'.statuses } :=
    K.keep rfl rfl hindices (fun p hp => hrequests p (.inl hp)) hphase
  rcases hres with rfl | ⟨rfl, T'⟩
  · have hpos : (List.range t'.completed).map (fun j => if j < 0 then b'.indices (k.completed + j)
        else k.checked + b'.indices (k.completed + j)) =
        (t'.reported b'.indices).map (k.checked + ·) := by
      have : t'.ioff = k.completed := by rw [htest]; exact hioff
      simp [Test.reported, this]
    refine check_sim I hf hp ⟨rfl, rfl, rfl, rfl, rfl, rfl, rfl, rfl, rfl, le_refl _⟩ rfl rfl rfl rfl
      rfl (hK _ ⟨Nat.zero_le _, ?_⟩) ?_
    · simp only [Check.batchPositions, hpos]
      exact Check.batchInv_of_reported R.inv (htest ▸ hroff) (htest ▸ hcount) hctx hact'
    · convert hS using 3
      simp only [Check.undelivered, Check.batchPositions, Check.delivered, ite_self, List.drop_zero,
        hpos, List.map_map]
      rfl
  · refine check_sim I hf hp ⟨rfl, rfl, rfl, rfl, rfl, rfl, rfl, rfl, rfl, le_refl _⟩ rfl rfl rfl rfl
      rfl (hK _ ⟨?_, ?_, ?_, hctx, hact', T'⟩) ?_
    · rw [htest]; exact hroff
    · rw [htest]; exact hioff
    · rw [htest]; exact hcount
    · convert hS using 3
      simp only [Check.undelivered, Check.batchPositions, Check.delivered, ite_self, List.drop_zero,
        List.map_map]
      rfl

/-! ## Delivering the completed requests -/

/-- The index of the request at hand gets the batch offset. -/
theorem batchPositions_store (k : Check) (indices : Nat → Nat) (c n : Nat) :
    ({ k with phase := .deliver c n } : Check).batchPositions
      (update indices (k.completed + c) (indices (k.completed + c) + k.checked)) =
    ({ k with phase := .store c n } : Check).batchPositions indices := by
  simp only [Check.batchPositions]
  refine List.map_congr_left fun j _ => ?_
  rcases Nat.lt_trichotomy j c with h | rfl | h
  · rw [if_pos (by omega), if_pos h, Function.update_of_ne (by omega)]
  · rw [if_pos (by omega), if_neg (by omega), Function.update_self, Nat.add_comm]
  · rw [if_neg (by omega), if_neg (by omega), Function.update_of_ne (by omega)]

theorem store_sim (I : s.Inv cfg) (hf : s.failure = none)
    (hp : s.poll = .check total inserted k) (hk : k.phase = .store c n) (hlt : c < n)
    (h : s.checkStep cfg total inserted k a = some s') : Sim cfg s s' := by
  have K := I.check hp
  have hk' : k = { k with phase := .store c n } := by rw [← hk]
  obtain ⟨hle, B⟩ : c ≤ n ∧ k.BatchInv cfg s.log s.manager.pending s.manager.arrays
      (k.batchPositions s.manager.arrays.indices) c c := by
    simpa only [Check.PhaseInv, hk] using K.phase
  set arrays := s.manager.arrays with harrays
  set ps := k.batchPositions arrays.indices with hps
  have hlen : ps.length = n := by simp [hps, Check.batchPositions, hk]
  have hindex : arrays.indices (k.completed + c) + k.checked = ps[c] := by
    simp [hps, Check.batchPositions, hk, Nat.add_comm]
  have hmem : ps[c] ∈ ps := List.getElem_mem (by omega)
  have hlt_pending : ps[c] < s.manager.pending := by
    have h1 := (B.mem _ hmem).2
    have h2 := K.checked_le
    simp only [Check.count] at h1
    omega
  have hlocal : arrays.getLocalPositionInTicket ps[c] = 0 := by
    rw [Arrays.getLocalPositionInTicket, I.self _ hlt_pending]
  have hreport := B.status c (by omega) (le_refl c)
  simp only [checkStep, hk, hlt, if_true, ← harrays, hindex, hlocal] at h
  cases h
  set s₁ : Sys := { s with
    manager := { s.manager with
      arrays := { arrays with indices := update arrays.indices (k.completed + c) ps[c] } } } with hs₁
  change Sim cfg s { s₁.stored (arrays.getAssociatedTicket ps[c]) (arrays.statuses c) with
    poll := .check total inserted { k with phase := .deliver c n } }
  obtain ⟨F, hm, hcompl, hperm, hmpi, _, hlog⟩ :=
    stored_frame s₁ (arrays.getAssociatedTicket ps[c]) (arrays.statuses c)
  have hps' : ({ k with phase := .deliver c n } : Check).batchPositions
      (update arrays.indices (k.completed + c) ps[c]) = ps := by
    have := batchPositions_store k arrays.indices c n
    rwa [hindex, ← hk'] at this
  have hindices (j : Nat) (hj : j < k.completed) :
      update arrays.indices (k.completed + c) ps[c] j = arrays.indices j :=
    Function.update_of_ne (by omega) ..
  have hframe : s.PollFrame s₁ := ⟨rfl, rfl, rfl, rfl, rfl, rfl, rfl, rfl, rfl, le_refl _⟩
  have F' := hframe.trans F
  refine check_sim I hf hp ⟨F'.allocators, F'.objects, F'.p2pOperations, F'.collOperations,
    F'.consuming, F'.cpus, F'.tasks, F'.serial, F'.failure, F'.completions⟩ rfl
    (by dsimp only; rw [hm]) (by dsimp only; rw [hm]) (by dsimp only; rw [hm])
    (by dsimp only; rw [hm]) ?_ ?_
  · dsimp only
    rw [hm]
    refine K.keep rfl rfl hindices (fun _ _ => rfl) ⟨hlt, ?_⟩
    simp only [hs₁, hps']
    exact {
      sorted := B.sorted
      null_iff := B.null_iff
      mem := B.mem
      active := B.active
      settled := by
        intro p hp
        rw [List.take_succ_eq_append_getElem (by omega)] at hp
        rcases List.mem_append.mp hp with hp | hp
        · exact (B.settled p hp).mono hlog
        · rw [List.mem_singleton.mp hp]
          exact stored_settled hreport
      status := fun j hj hcj => hlog (B.status j hj (by omega))
      contexts := B.contexts }
  · have hmem' : arrays.getAssociatedTicket ps[c] ∈ (s.life cfg).completed := by
      simp only [life, undelivered, hp, Check.undelivered, Multiset.mem_coe, ← harrays, ← hps]
      refine List.mem_map_of_mem ?_
      have hd : k.delivered cfg.completionEnabled ≤ c := by
        simp only [Check.delivered, hk]
        split <;> omega
      exact List.mem_of_getElem (i := c - k.delivered cfg.completionEnabled)
        (h := by simp; omega) (by simp [Nat.add_sub_cancel' hd])
    convert stored_steps (s := s₁) hmem' hreport rfl rfl using 1
    ext1 <;> try rfl
    · simp only [life, inflight, hp, add_zero]
      rw [hm]
    · simp only [life, undelivered, hp, Check.undelivered, Check.delivered, hk]
      rw [hm]
      simp only [hs₁, hps']
      rfl
    · exact congrArg SpscQueue.contents hcompl
    · exact hperm
    · exact hmpi

theorem storeDone_sim (I : s.Inv cfg) (hf : s.failure = none)
    (hp : s.poll = .check total inserted k) (hk : k.phase = .store c n) (hlt : ¬c < n) :
    Sim cfg s { s with poll := .check total inserted { k with phase := .handoff n } } := by
  have K := I.check hp
  obtain ⟨hle, B⟩ : c ≤ n ∧ k.BatchInv cfg s.log s.manager.pending s.manager.arrays
      (k.batchPositions s.manager.arrays.indices) c c := by
    simpa only [Check.PhaseInv, hk] using K.phase
  obtain rfl : c = n := by omega
  have hps : ({ k with phase := .handoff c } : Check).batchPositions s.manager.arrays.indices =
      k.batchPositions s.manager.arrays.indices := by
    simp only [Check.batchPositions, hk]
    refine List.map_congr_left fun j hj => ?_
    rw [if_pos (List.mem_range.mp hj)]
  refine check_stutter I hf hp ?_ ?_
  · refine ⟨K.sorted, K.lt_checked, K.null_iff, K.checked_le, ?_⟩
    simp only [Check.PhaseInv, hps]
    exact ⟨B.sorted, B.null_iff, B.mem, B.active, B.settled, B.status, B.contexts⟩
  · simp only [Check.undelivered, hps, Check.delivered, hk]

theorem deliver_sim (I : s.Inv cfg) (hf : s.failure = none)
    (hp : s.poll = .check total inserted k) (hk : k.phase = .deliver c n)
    (h : s.checkStep cfg total inserted k a = some s') : Sim cfg s s' := by
  have K := I.check hp
  obtain ⟨hlt, B⟩ : c < n ∧ k.BatchInv cfg s.log s.manager.pending s.manager.arrays
      (k.batchPositions s.manager.arrays.indices) (c + 1) c := by
    simpa only [Check.PhaseInv, hk] using K.phase
  have hps : ({ k with phase := .store (c + 1) n } : Check).batchPositions
      s.manager.arrays.indices = k.batchPositions s.manager.arrays.indices := by
    simp only [Check.batchPositions, hk]
  have hlen : (k.batchPositions s.manager.arrays.indices).length = n := by
    simp [Check.batchPositions, hk]
  have hindex : s.manager.arrays.indices (k.completed + c) =
      (k.batchPositions s.manager.arrays.indices)[c] := by
    simp [Check.batchPositions, hk]
  simp only [checkStep, hk, hindex] at h
  split at h
  · rename_i hen
    cases h
    refine check_stutter I hf hp ?_ ?_
    · refine ⟨K.sorted, K.lt_checked, K.null_iff, K.checked_le, hlt, ?_⟩
      change ({ k with
        contexts := _, phase := .store (c + 1) n } : Check).BatchInv cfg s.log s.manager.pending
          s.manager.arrays (({ k with phase := .store (c + 1) n } : Check).batchPositions
            s.manager.arrays.indices) (c + 1) (c + 1)
      rw [hps]
      refine ⟨B.sorted, B.null_iff, B.mem, B.active, B.settled, B.status, ?_⟩
      rw [B.contexts]
      simp only [hen, if_true]
      rw [List.take_succ_eq_append_getElem (by omega), List.map_append, List.map_singleton]
    · simp only [Check.undelivered, Check.delivered, hen, if_true]
      exact congrArg (fun l => (List.drop 0 l).map s.manager.arrays.getAssociatedTicket) hps
  · rename_i hen
    cases h
    refine check_sim I hf hp ⟨rfl, rfl, rfl, rfl, rfl, rfl, rfl, rfl, rfl, le_refl _⟩ rfl rfl rfl rfl
      rfl ?_ ?_
    · refine ⟨K.sorted, K.lt_checked, K.null_iff, K.checked_le, hlt, ?_⟩
      simp only [complete, hps]
      refine ⟨B.sorted, B.null_iff, B.mem, B.active,
        fun p hp => (B.settled p hp).mono (List.subset_append_left ..),
        fun j hj hcj => List.mem_append_left _ (B.status j hj hcj), ?_⟩
      simpa [hen] using B.contexts
    · have hsplit : (s.life cfg).completed = s.manager.arrays.getAssociatedTicket
          (k.batchPositions s.manager.arrays.indices)[c] ::ₘ
          (((k.batchPositions s.manager.arrays.indices).drop (c + 1)).map
            s.manager.arrays.getAssociatedTicket : List Ticket) := by
        simp only [life, undelivered, hp, Check.undelivered, Check.delivered, hk, hen]
        rw [if_neg (by simp), List.drop_eq_getElem_cons (by omega), List.map_cons,
          Multiset.cons_coe]
      have hsettled := B.settled _ (List.mem_of_getElem (i := c)
        (h := by simp; omega) (List.getElem_take))
      refine .single (a := .notify (s.manager.arrays.getAssociatedTicket
        (k.batchPositions s.manager.arrays.indices)[c])) ?_ rfl
      convert Life.Move.notify hsplit hsettled using 1
      ext1 <;> try rfl
      · simp only [Life.notified, life, inflight, hp, complete, add_zero]
      · simp only [Life.notified, Check.undelivered, Check.delivered, hen, complete, hps]
        rfl

/-! ## The end of a batch -/

/-- The last step of a batch, after the hand-off `s'` of its contexts. -/
theorem advance_eq (hpend : s'.manager.pending = s.manager.pending) :
    (if k.checked + min (s'.manager.pending - k.checked) BatchSize < s'.manager.pending then
      { s' with
        poll := .check total inserted (.batch s'.manager.pending
          (k.checked + min (s'.manager.pending - k.checked) BatchSize) (k.completed + n)) }
    else { s' with
      poll := .check total inserted
        ⟨k.checked + min (s'.manager.pending - k.checked) BatchSize, k.completed + n, [],
          .replace⟩ }) =
    { s' with poll := .check total inserted (k.advance s.manager.pending n) } := by
  simp only [Check.advance, Check.count, hpend]
  by_cases h : k.checked + min (s.manager.pending - k.checked) BatchSize < s.manager.pending
  · simp only [h, if_true]
  · simp only [h, if_false]

theorem checkHandoff_sim (I : s.Inv cfg) (hf : s.failure = none)
    (hp : s.poll = .check total inserted k) (hk : k.phase = .handoff n)
    (h : s.checkStep cfg total inserted k a = some s') : Sim cfg s s' := by
  have K := I.check hp
  have B := K.handoff hk
  simp only [checkStep, hk] at h
  split at h
  · rename_i hen
    obtain ⟨hen, hpos⟩ := hen
    set ts := ((List.range n).map fun j => s.manager.arrays.indices (k.completed + j)).map
      s.manager.arrays.getAssociatedTicket with hts
    have htake : ((List.range n).map fun j => s.manager.arrays.indices (k.completed + j)).take n =
        (List.range n).map fun j => s.manager.arrays.indices (k.completed + j) :=
      List.take_of_length_le (by simp)
    have hcontexts : k.contexts = ts.map Ticket.context := by
      simp only [B.contexts, hen, if_true, htake, hts, List.map_map, Function.comp_def]
    rcases transferContexts_cases cfg s k.contexts with ⟨hfail, hroom, hlog, hmem⟩ | heq
    · simp only [hfail, Option.isSome_some, if_true] at h
      cases h
      refine .failed hfail trivial (fun _ => ?_) hlog hmem
      have hlen : (s.undelivered cfg).length = k.contexts.length := by
        simp only [undelivered, hp, Check.undelivered, Check.batchPositions, Check.delivered, hk, hen,
          if_true, List.drop_zero, hcontexts, hts, List.length_map]
      rwa [Crowded, hlen]
    · rw [heq, if_neg (by simp [hf]), advance_eq rfl] at h
      cases h
      refine check_sim I hf hp ⟨rfl, rfl, rfl, rfl, rfl, rfl, rfl, rfl, rfl, by simp⟩ rfl rfl rfl
        rfl rfl (K.advance hk) ?_
      have := Life.transfer_steps (L := s.life cfg) ts 0 (fun t ht => by
          obtain ⟨p, hp, rfl⟩ := List.mem_map.mp ht
          exact B.settled p (htake.symm ▸ hp))
        (by simp only [life, undelivered, hp, Check.undelivered, Check.batchPositions,
              Check.delivered, hk, hen, if_true, List.drop_zero, add_zero, hts])
      convert this using 1
      ext1 <;> try rfl
      · simp only [life, inflight, hp, add_zero]
      · simp only [Check.undelivered_advance]
        rfl
      · simp only [life, hcontexts]
      · simp only [life, hcontexts, List.map_map, Function.comp_def]
  · rename_i hen
    rw [if_neg (by simp [hf]), advance_eq rfl] at h
    cases h
    refine check_stutter I hf hp (K.advance hk) ?_
    rw [Check.undelivered_advance, Check.undelivered, Check.batchPositions, Check.delivered, hk]
    by_cases hc : cfg.completionEnabled
    · have : n = 0 := by
        by_contra hne
        exact hen ⟨hc, Nat.pos_of_ne_zero hne⟩
      simp [this]
    · simp [hc]

/-! ## The end of the check -/

theorem pollInv_nextRound {consumer : Consumer Nat} {m : TicketManager} {log : List Event}
    (hc : consumer = .idle) (hact : m.arrays.Active 0 m.pending) :
    PollInv cfg m consumer log (nextRound total inserted completed) := by
  unfold nextRound
  split <;> exact ⟨hc, hact⟩

theorem replace_sim (I : s.Inv cfg) (hf : s.failure = none)
    (hp : s.poll = .check total inserted k) (hk : k.phase = .replace)
    (h : s.checkStep cfg total inserted k a = some s') : Sim cfg s s' := by
  have K := I.check hp
  have hpoll := I.poll
  rw [hp] at hpoll
  have hchecked : k.checked = s.manager.pending := by
    simpa only [Check.PhaseInv, hk] using K.phase
  have hnull := K.null_iff
  rw [hchecked] at hnull
  obtain ⟨arrays, hrun, hself, hentries, -, -⟩ :=
    Arrays.replace_spec K.sorted (fun j hj => hchecked ▸ K.lt_checked j hj) I.self
  simp only [checkStep, hk, hrun] at h
  cases h
  have hact : arrays.Active 0 (s.manager.pending - k.completed) := by
    intro p _ hlt
    have hmem : arrays.entry p ∈ (valid (Arrays.holes s.manager.arrays.indices 0 k.completed)
        s.manager.pending).map s.manager.arrays.entry := by
      rw [← hentries]
      exact Multiset.mem_map_of_mem _ (Multiset.mem_range.mpr hlt)
    obtain ⟨q, hq, heq⟩ := Multiset.mem_map.mp hmem
    obtain ⟨hq, hnot⟩ := Compaction.mem_valid.mp hq
    intro hnone
    have hreq : s.manager.arrays.requests q = none := (congrArg Prod.fst heq).trans hnone
    obtain ⟨j, hj, hjq⟩ := (hnull q hq).mp hreq
    exact hnot (Arrays.mem_holes.mpr ⟨j, Nat.zero_le _, hj, hjq⟩)
  have hslots : slots (List.range (s.manager.pending - k.completed)) arrays.requests
      arrays.getAssociatedTicket = slots (List.range s.manager.pending) s.manager.arrays.requests
      s.manager.arrays.getAssociatedTicket := by
    rw [hself.slots_eq, hentries, I.self.slots_eq]
    refine Arrays.filterMap_valid fun p hlt hmem => ?_
    obtain ⟨j, -, hj, hjp⟩ := Arrays.mem_holes.mp hmem
    exact (hnull p hlt).mpr ⟨j, hj, hjp⟩
  have hplain : (nextRound total inserted k.completed).plain := plain_nextRound
  refine .of_frame I hf ⟨rfl, rfl, rfl, rfl, rfl, rfl, rfl, rfl, rfl, le_refl _⟩ ?_ hself
    ((Nat.sub_le ..).trans I.pending_le) (pollInv_nextRound hpoll.1 hact) ?_
  · intro kind
    rw [transferring_of_plain hplain, hp]
    rfl
  · convert Life.Steps.refl using 1
    ext1 <;> try rfl
    · dsimp only
      rw [batch_of_plain hplain]
      simp only [life, batch, hp]
    · dsimp only
      rw [inflight_of_plain hplain]
      simp only [life, inflight, hp, add_zero]
      exact hslots
    · dsimp only
      rw [undelivered_of_plain hplain]
      simp [life, undelivered, hp, Check.undelivered, Check.batchPositions, hk]

theorem checkStep_sim (I : s.Inv cfg) (HL : (s.life cfg).Inv) (hf : s.failure = none)
    (hp : s.poll = .check total inserted k)
    (hasc : ∀ is, a = .some is → is.Pairwise (· < ·))
    (h : s.checkStep cfg total inserted k a = some s') : Sim cfg s s' := by
  cases hk : k.phase with
  | test t => exact checkTest_sim I HL hf hp hk hasc h
  | store c n =>
    by_cases hlt : c < n
    · exact store_sim I hf hp hk hlt h
    · simp only [checkStep, hk, hlt, if_false] at h
      cases h
      exact storeDone_sim I hf hp hk hlt
  | deliver c n => exact deliver_sim I hf hp hk h
  | handoff n => exact checkHandoff_sim I hf hp hk h
  | replace => exact replace_sim I hf hp hk h

end Sys

end Tampi
