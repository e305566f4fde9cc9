import Tampi.Verify.Tracking

/-! # The in-flight arrays

Every test call is given active requests, every position refers to its own ticket, and the arrays
never hold more requests than the capacity allows; so the failures of the test calls and the
assertions of the ticket manager are out of reach. -/

namespace Tampi

/-- The test in progress, with the request array it works on. -/
def Sys.testing (s : Sys) : Option (Test × (Nat → Request)) :=
  match s.poll with
  | .transfer _ _ _ x =>
    match x.phase with
    | .test t => some (t, x.requests)
    | _ => none
  | .check _ _ k =>
    match k.phase with
    | .test t => some (t, s.manager.arrays.requests)
    | _ => none
  | _ => none

structure InFlightInv (s : Sys) : Prop where
  /-- The requests the test in progress has not passed yet, all of them when it starts, are active
  and known to MPI. -/
  active : ∀ t requests, s.testing = some (t, requests) → ∀ i, t.next ≤ i → i < t.count →
    ∃ h a, requests (t.roff + i) = some h ∧ s.mpi h = some a
  mappings : ∀ p < s.manager.pending, s.manager.arrays.mappings p = ⟨p, 0⟩
  pending_le : s.manager.pending ≤ s.manager.capacityCtrl.capacity
  capacity_le : s.manager.capacityCtrl.capacity ≤ CapacityLimit
  /-- The counter of the pending requests does not become negative. -/
  completed_le : ∀ total inserted k, s.poll = .check total inserted k →
    k.completed ≤ s.manager.pending

theorem CapacityCtrl.capacity_le (c : CapacityCtrl) : c.capacity ≤ CapacityLimit :=
  c.le_max.trans c.max_le

/-- The positions the test has not passed were not reported by it. -/
theorem Testing.active_of_next_le {requests : Nat → Request} {i : Nat}
    (T : Testing approach ticket t requests indices statuses log) (h : t.next ≤ i)
    (hi : i < t.count) : ∃ r, requests (t.roff + i) = some r := by
  refine Option.ne_none_iff_exists'.mp fun hnone => ?_
  have := T.lt_next i ((T.null_iff i hi).mp hnone)
  omega

/-- Ascending indices below `n` are at most `n`. -/
theorem le_of_ascending {f : Nat → Nat} {m n : Nat}
    (hsorted : ∀ i j, i < j → j < m → f i < f j) (hlt : ∀ j < m, f j < n) : m ≤ n := by
  have hinj : ((List.range m).map f).Nodup := by
    refine (List.nodup_map_iff_inj_on List.nodup_range).mpr fun i hi j hj heq => ?_
    rcases Nat.lt_trichotomy i j with h | h | h
    · have := hsorted i j h (List.mem_range.mp hj)
      omega
    · exact h
    · have := hsorted j i h (List.mem_range.mp hi)
      omega
  have hsub : (List.range m).map f ⊆ List.range n := by
    intro p hp
    obtain ⟨j, hj, rfl⟩ := List.mem_map.mp hp
    exact List.mem_range.mpr (hlt j (List.mem_range.mp hj))
  simpa using (hinj.subperm hsub).length_le

section
variable {cfg : Config} {s : Sys}

theorem Sys.Inv.active (I : s.Inv cfg) (HL : (s.life cfg).Inv) {t : Test} {requests : Nat → Request}
    (h : s.testing = some (t, requests)) {i : Nat} (hn : t.next ≤ i) (hi : i < t.count) :
    ∃ r a, requests (t.roff + i) = some r ∧ s.mpi r = some a := by
  have hpoll := I.poll
  unfold Sys.testing at h
  split at h
  · rename_i total w np2p x hp
    rw [hp] at hpoll
    split at h
    · rename_i t' hx
      cases h
      obtain ⟨hroff, -, hcount, -, T, -⟩ : t.roff = 0 ∧ t.ioff = 0 ∧ t.count = x.req2entry.length ∧
          (∀ r < x.req2entry.length, x.req2entry.getD r none ≠ none) ∧
          Testing cfg.immediateTesting x.ticketOf t x.requests x.testcompl2req x.statuses s.log ∧
          x.contexts = [] := by
        simpa only [Transfer.PhaseInv, hx] using hpoll.2.2.2.phase
      obtain ⟨r, hr⟩ := T.active_of_next_le hn hi
      have hmem : (⟨x.ticketOf (t.roff + i), r⟩ : Slot) ∈ (s.life cfg).inflight := by
        simp only [Sys.life, Sys.inflight, hp, Multiset.mem_add]
        refine .inr (mem_slots ?_ hr)
        simp only [Transfer.waiting, hx, List.mem_range'_1]
        omega
      obtain ⟨status, ha⟩ := HL.registered.active _ hmem
      exact ⟨r, _, hr, ha⟩
    · cases h
  · rename_i total inserted k hp
    rw [hp] at hpoll
    split at h
    · rename_i t' hk
      cases h
      obtain ⟨hroff, -, hcount, -, -, T⟩ : t.roff = k.checked ∧ t.ioff = k.completed ∧
          t.count = k.count s.manager.pending ∧ k.contexts = [] ∧
          s.manager.arrays.Active (k.checked + k.count s.manager.pending) s.manager.pending ∧
          Testing cfg.generalTesting s.manager.arrays.getAssociatedTicket t
            s.manager.arrays.requests s.manager.arrays.indices s.manager.arrays.statuses s.log := by
        simpa only [Check.PhaseInv, hk] using hpoll.2.phase
      obtain ⟨r, hr⟩ := T.active_of_next_le hn hi
      have hmem : (⟨s.manager.arrays.getAssociatedTicket (t.roff + i), r⟩ : Slot) ∈
          (s.life cfg).inflight := by
        simp only [Sys.life, Sys.inflight, hp, Multiset.mem_add]
        refine .inl (mem_slots (List.mem_range.mpr ?_) hr)
        have := hpoll.2.checked_le
        simp only [Check.count] at hcount
        omega
      obtain ⟨status, ha⟩ := HL.registered.active _ hmem
      exact ⟨r, _, hr, ha⟩
    · cases h
  · cases h

theorem Sys.Inv.inFlight (I : s.Inv cfg) (HL : (s.life cfg).Inv) : InFlightInv s where
  active t requests h i hn hi := I.active HL h hn hi
  mappings := I.self
  pending_le := I.pending_le
  capacity_le := s.manager.capacityCtrl.capacity_le
  completed_le total inserted k hp := by
    have K := I.check hp
    exact (le_of_ascending K.sorted K.lt_checked).trans K.checked_le

/-- The arrays are in order as long as the code runs, and it never stops at a failed assertion or
at an unexpected output of MPI. -/
theorem reachable_inFlight (h : (system cfg).Reachable s) :
    (s.failure = none → InFlightInv s) ∧
    ∀ f, s.failure = some f → f ≠ .testany ∧ f ≠ .testsome ∧ ∀ c, f ≠ .assertion c := by
  refine ⟨fun hf => ?_, fun f hf => ?_⟩
  · obtain ⟨I, HL⟩ := Sys.Inv.of_reachable h hf
    exact I.inFlight HL
  · obtain ⟨L, -, hR⟩ := exists_life h
    have hal := hR.failed f hf
    cases f <;> simp_all [Failure.Allowed]

end

theorem demoRun_inFlight : ∃ s, (system demoConfig).Reachable s ∧ s.failure = none ∧
    s.manager.pending = 1 ∧ s.testing.isSome ∧ InFlightInv s := by
  obtain ⟨s, hs, hf⟩ := demo_reachable 46
    (fun s => (s.failure, s.manager.pending, s.testing.isSome)) (a := (none, 1, true))
    (by decide +kernel)
  simp only [Prod.mk.injEq] at hf
  exact ⟨s, hs, hf.1, hf.2.1, hf.2.2, (reachable_inFlight hs).1 hf.1⟩

end Tampi
