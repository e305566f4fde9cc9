import Tampi.Spec.Invariants

/-! # Test calls

What `internalTestRequests` has reported so far, under every testing approach, and the moves a call
of it consists of. Positions are those of the request array; a slice of it starts at `roff`. -/

namespace Tampi
open Function (update)

/-! ## Requests in an array -/

/-- The operations in flight among the positions `ps` of a request array. -/
def slots (ps : List Nat) (requests : Nat → Request) (ticket : Nat → Ticket) : Multiset Slot :=
  (ps.filterMap fun p => (requests p).map fun h => (⟨ticket p, h⟩ : Slot) : List Slot)

section
variable {requests requests' : Nat → Request} {ticket ticket' : Nat → Ticket}

@[simp] theorem slots_nil : slots [] requests ticket = 0 := rfl

theorem slots_append : slots (ps ++ ps') requests ticket =
    slots ps requests ticket + slots ps' requests ticket := by simp [slots]

theorem slots_cons_some (h : requests p = some r) :
    slots (p :: ps) requests ticket = ⟨ticket p, r⟩ ::ₘ slots ps requests ticket := by
  simp [slots, h]

theorem slots_cons_none (h : requests p = none) :
    slots (p :: ps) requests ticket = slots ps requests ticket := by
  simp [slots, h]

theorem slots_congr (hr : ∀ p ∈ ps, requests p = requests' p)
    (ht : ∀ p ∈ ps, requests p ≠ none → ticket p = ticket' p) :
    slots ps requests ticket = slots ps requests' ticket' := by
  induction ps with
  | nil => rfl
  | cons p ps ih =>
    have ih := ih (fun q hq => hr q (by simp [hq])) (fun q hq => ht q (by simp [hq]))
    have hp := hr p (by simp)
    cases h : requests p with
    | none => rw [slots_cons_none h, slots_cons_none (hp ▸ h), ih]
    | some r =>
      rw [slots_cons_some h, slots_cons_some (hp ▸ h), ih, ht p (by simp) (by simp [h])]

theorem mem_slots (hp : p ∈ ps) (h : requests p = some r) :
    ⟨ticket p, r⟩ ∈ slots ps requests ticket := by
  simp only [slots, Multiset.mem_coe, List.mem_filterMap]
  exact ⟨p, hp, by simp [h]⟩

/-- Nulling the handle of one position takes its operation out. -/
theorem slots_report (hps : ps.Nodup) (hp : p ∈ ps) (h : requests p = some r) :
    slots ps requests ticket = ⟨ticket p, r⟩ ::ₘ slots ps (update requests p none) ticket := by
  obtain ⟨as, bs, rfl⟩ := List.append_of_mem hp
  have hnot : p ∉ as ++ bs := (List.nodup_middle.mp hps).notMem
  have hframe (qs : List Nat) (hq : qs ⊆ as ++ bs) :
      slots qs requests ticket = slots qs (update requests p none) ticket :=
    slots_congr (fun q hmem => by
      rw [Function.update_of_ne]
      rintro rfl
      exact hnot (hq hmem)) (fun _ _ _ => rfl)
  rw [slots_append, slots_append, slots_cons_some h, slots_cons_none (by simp),
    hframe as (by simp), hframe bs (by simp), Multiset.add_cons]

end

/-! ## Reports -/

/-- The slice positions reported so far, in the order of the output array. -/
def Test.reported (t : Test) (indices : Nat → Nat) : List Nat :=
  (List.range t.completed).map fun j => indices (t.ioff + j)

@[simp] theorem Test.length_reported (t : Test) : (t.reported indices).length = t.completed := by
  simp [reported]

theorem Test.getElem_reported (t : Test) (h : j < (t.reported indices).length) :
    (t.reported indices)[j] = indices (t.ioff + j) := by simp [reported]

/-- The output arrays of a test agree with the handles and the history. -/
structure TestInv (ticket : Nat → Ticket) (t : Test) (requests : Nat → Request)
    (indices : Nat → Nat) (statuses : Nat → Status) (log : List Event) : Prop where
  sorted : (t.reported indices).Pairwise (· < ·)
  lt_count : ∀ i ∈ t.reported indices, i < t.count
  null_iff : ∀ i < t.count, requests (t.roff + i) = none ↔ i ∈ t.reported indices
  status : ∀ j < t.completed,
    .report (ticket (t.roff + indices (t.ioff + j))).id (statuses j) ∈ log

theorem TestInv.mono (H : TestInv ticket t requests indices statuses log) (h : log ⊆ log') :
    TestInv ticket t requests indices statuses log' where
  __ := H
  status j hj := h (H.status j hj)

/-- A report of position `i`, after all positions reported before it. -/
theorem Test.report_eq_some {t : Test} (h : t.report b i = some p) :
    ∃ r owner status, b.requests (t.roff + i) = some r ∧ b.mpi r = some ⟨owner, some status⟩ ∧
    p = ({ t with completed := t.completed + 1 },
      { requests := update b.requests (t.roff + i) none
        indices := update b.indices (t.ioff + t.completed) i
        statuses := update b.statuses t.completed status
        mpi := update b.mpi r none
        log := b.log ++ [.report owner status] }) := by
  unfold report at h
  split at h
  · split at h
    · exact ⟨_, _, _, ‹_›, ‹_›, (Option.some.inj h).symm⟩
    · cases h
  · cases h

theorem Test.reported_succ (t : Test) :
    { t with completed := t.completed + 1 }.reported
      (update indices (t.ioff + t.completed) i) = t.reported indices ++ [i] := by
  simp only [reported, List.range_succ, List.map_append, List.map_cons, List.map_nil,
    Function.update_self, List.append_cancel_right_eq]
  refine List.map_congr_left fun j hj => ?_
  have := List.mem_range.mp hj
  rw [Function.update_of_ne]
  omega

theorem TestInv.report (H : TestInv ticket t requests indices statuses log) (value : Status)
    (hi : i < t.count)
    (hlt : ∀ j ∈ t.reported indices, j < i) (hid : (ticket (t.roff + i)).id = owner) :
    TestInv ticket { t with completed := t.completed + 1 } (update requests (t.roff + i) none)
      (update indices (t.ioff + t.completed) i) (update statuses t.completed value)
      (log ++ [.report owner value]) where
  sorted := by
    rw [Test.reported_succ]
    exact List.pairwise_append.mpr ⟨H.sorted, by simp, by simpa using hlt⟩
  lt_count j hj := by
    rw [Test.reported_succ] at hj
    rcases List.mem_append.mp hj with hj | hj
    · exact H.lt_count j hj
    · exact List.mem_singleton.mp hj ▸ hi
  null_iff j hj := by
    rw [Test.reported_succ]
    by_cases h : j = i
    · subst h; simp
    · rw [Function.update_of_ne (by simpa using h), H.null_iff j hj]
      simp [h]
  status j hj := by
    by_cases h : j = t.completed
    · subst h; simp [hid]
    · have hlt : j < t.completed := by
        have : j < t.completed + 1 := hj
        omega
      have hne : t.ioff + j ≠ t.ioff + t.completed := by omega
      rw [Function.update_of_ne hne, Function.update_of_ne h]
      simp [H.status j hlt]

/-- `b'` and `t'` are what `b` and `t` become when MPI reports the positions `is`. -/
structure Tested (ticket : Nat → Ticket) (t : Test) (b : Buffers) (is : List Nat) (t' : Test)
    (b' : Buffers) : Prop where
  test : t' = { t with completed := t.completed + is.length, next := t'.next }
  inv : TestInv ticket t' b'.requests b'.indices b'.statuses b'.log
  reported : t'.reported b'.indices = t.reported b.indices ++ is
  requests : ∀ p, (∀ i < t.count, p ≠ t.roff + i) → b'.requests p = b.requests p
  indices : ∀ j < t.ioff, b'.indices j = b.indices j
  log : b.log ⊆ b'.log

theorem Tested.refl (T : TestInv ticket t b.requests b.indices b.statuses b.log) :
    Tested ticket t b [] t b where
  test := rfl
  inv := T
  reported := by simp
  requests _ _ := rfl
  indices _ _ := rfl
  log _ h := h

/-- The requests at `ps` are those of the life `L`, next to others. -/
structure Agrees (ps : List Nat) (ticket : Nat → Ticket) (others : Multiset Slot) (b : Buffers)
    (L : Life) : Prop where
  mpi : L.mpi = b.mpi
  log : L.log = b.log
  inflight : L.inflight = others + slots ps b.requests ticket

/-- The life after a test call that leaves `b` and has reported the tickets `done`. -/
def Life.tested (L : Life) (b : Buffers) (inflight : Multiset Slot) (done : List Ticket) : Life :=
  { L with mpi := b.mpi, log := b.log, inflight := inflight, completed := L.completed + done }

theorem Agrees.tested_self (A : Agrees ps ticket others b L) :
    L.tested b (others + slots ps b.requests ticket) [] = L := by
  ext <;> simp [Life.tested, A.mpi, A.log, A.inflight]

section
variable {L : Life} {t : Test} {b : Buffers}

theorem reportAll_steps (H : L.Inv) (hps : ps.Nodup) (hslice : ∀ i < t.count, t.roff + i ∈ ps)
    (A : Agrees ps ticket others b L)
    (T : TestInv ticket t b.requests b.indices b.statuses b.log)
    (hsorted : is.Pairwise (· < ·)) (hcount : ∀ i ∈ is, i < t.count)
    (hafter : ∀ j ∈ t.reported b.indices, ∀ i ∈ is, j < i)
    (h : t.reportAll b is = some (t', b')) :
    Tested ticket t b is t' b' ∧ L.Steps (L.tested b' (others + slots ps b'.requests ticket)
      (is.map fun i => ticket (t.roff + i))) := by
  induction is generalizing t b L with
  | nil =>
    cases h
    exact ⟨.refl T, A.tested_self.symm ▸ .refl⟩
  | cons i is ih =>
    obtain ⟨p, hp, h⟩ := Option.bind_eq_some_iff.mp h
    obtain ⟨r, owner, status, hr, hm, rfl⟩ := Test.report_eq_some hp
    have hi := hcount i (by simp)
    obtain ⟨hlt, hsorted⟩ := List.pairwise_cons.mp hsorted
    have hsplit : L.inflight = ⟨ticket (t.roff + i), r⟩ ::ₘ
        (others + slots ps (update b.requests (t.roff + i) none) ticket) := by
      rw [A.inflight, slots_report hps (hslice i hi) hr, Multiset.add_cons]
    obtain ⟨_, hid⟩ := H.registered.active _ (hsplit ▸ Multiset.mem_cons_self ..)
    rw [A.mpi, hm] at hid
    cases hid
    have hmove := Life.Move.report hsplit (A.mpi ▸ hm)
    have T₁ := T.report status hi (fun j hj => hafter j hj i (by simp)) rfl
    obtain ⟨R, S⟩ := ih (t := { t with completed := t.completed + 1 }) (H.move hmove) hslice
      ⟨by simp only [← A.mpi]; rfl, by simp only [← A.log]; rfl, rfl⟩ T₁ hsorted
      (fun j hj => hcount j (by simp [hj]))
      (by
        rw [Test.reported_succ]
        intro j hj k hk
        rcases List.mem_append.mp hj with hj | hj
        · exact hafter j hj k (by simp [hk])
        · exact List.mem_singleton.mp hj ▸ hlt k hk) h
    refine ⟨?_, ?_⟩
    · exact {
        test := by rw [R.test]; simp; omega
        inv := R.inv
        reported := by rw [R.reported, Test.reported_succ]; simp
        requests := by
          intro q hq
          rw [R.requests q hq]
          exact Function.update_of_ne (hq i hi) ..
        indices := by
          intro j hj
          rw [R.indices j hj]
          exact Function.update_of_ne (by omega) ..
        log := fun e he => R.log (List.mem_append_left _ he) }
    · refine .head hmove rfl ?_
      have heq : (L.tested b' (others + slots ps b'.requests ticket)
          ((i :: is).map fun j => ticket (t.roff + j))).completed =
          (ticket (t.roff + i) ::ₘ L.completed) + ↑(is.map fun j => ticket (t.roff + j)) := by
        simp [Life.tested, ← Multiset.cons_coe]
      convert S using 1
      ext1 <;> try rfl
      exact heq

/-- The state of a test between two MPI calls. -/
structure Testing (approach : TestingApproach) (ticket : Nat → Ticket) (t : Test)
    (requests : Nat → Request) (indices : Nat → Nat) (statuses : Nat → Status) (log : List Event) :
    Prop extends TestInv ticket t requests indices statuses log where
  lt_next : ∀ i ∈ t.reported indices, i < t.next
  fresh : approach = .testSome ∨ approach = .none → t.completed = 0 ∧ t.next = 0
  count_pos : 0 < t.count

theorem Testing.start (hact : ∀ i < count, requests (roff + i) ≠ none) (hpos : 0 < count) :
    Testing approach ticket (.start roff ioff count) requests indices statuses log where
  sorted := by simp [Test.reported, Test.start]
  lt_count := by simp [Test.reported, Test.start]
  null_iff i hi := by simpa [Test.reported, Test.start] using hact i hi
  status := by simp [Test.start]
  lt_next := by simp [Test.reported, Test.start]
  fresh _ := ⟨rfl, rfl⟩
  count_pos := hpos

theorem Testing.active (T : Testing approach ticket t requests indices statuses log)
    (h : t.next < t.count) : ∃ r, requests (t.roff + t.next) = some r := by
  refine Option.ne_none_iff_exists'.mp fun hnone => ?_
  exact absurd (T.lt_next _ ((T.null_iff _ h).mp hnone)) (lt_irrefl _)

theorem Testing.not_undefined (T : Testing approach ticket t b.requests indices statuses log)
    (h : t.next < t.count) : t.undefined b t.next = false := by
  obtain ⟨r, hr⟩ := T.active h
  have hmem : 0 ∈ List.range (t.count - t.next) := List.mem_range.mpr (by omega)
  refine Bool.eq_false_iff.mpr fun hall => ?_
  have := List.all_eq_true.mp hall 0 hmem
  simp [hr] at this

/-- One MPI call. -/
theorem call_steps (hslice : ∀ i < t.count, t.roff + i ∈ ps)
    (A : Agrees ps ticket others b L)
    (T : Testing approach ticket t b.requests b.indices b.statuses b.log) (h : t.next < t.count) :
    L.Steps (L.append .test) ∧ Agrees ps ticket others b.call (L.append .test) := by
  obtain ⟨r, hr⟩ := T.active h
  have hne : L.inflight ≠ 0 := by
    intro h0
    have : ⟨ticket (t.roff + t.next), r⟩ ∈ L.inflight := by
      rw [A.inflight]
      exact Multiset.mem_add.mpr (.inr (mem_slots (hslice _ h) hr))
    simp [h0] at this
  refine ⟨.single (.test hne) rfl, ⟨A.mpi, ?_, A.inflight⟩⟩
  simp [Life.append, Buffers.call, A.log]

/-- A call that reports the positions `is`, or none. -/
theorem call_reportAll_steps (is : List Nat) (H : L.Inv) (hps : ps.Nodup)
    (hslice : ∀ i < t.count, t.roff + i ∈ ps) (A : Agrees ps ticket others b L)
    (T : Testing approach ticket t b.requests b.indices b.statuses b.log) (h : t.next < t.count)
    (hsorted : is.Pairwise (· < ·)) (hcount : ∀ i ∈ is, i < t.count)
    (hafter : ∀ i ∈ is, t.next ≤ i) (hr : t.reportAll b.call is = some (t', b')) :
    Tested ticket t b is t' b' ∧ L.Steps (L.tested b' (others + slots ps b'.requests ticket)
      (is.map fun i => ticket (t.roff + i))) := by
  obtain ⟨S, A'⟩ := call_steps hslice A T h
  obtain ⟨R, S'⟩ := reportAll_steps (b := b.call) (H.steps S) hps hslice A'
    (T.toTestInv.mono (List.subset_append_left ..)) hsorted hcount
    (fun j hj i hi => lt_of_lt_of_le (T.lt_next j hj) (hafter i hi)) hr
  exact ⟨{ R with log := fun e he => R.log (List.mem_append_left _ he) }, S.trans S'⟩

theorem Tested.setNext (R : Tested ticket t b is t' b') (n : Nat) :
    Tested ticket t b is { t' with next := n } b' where
  test := by rw [R.test]
  inv := ⟨R.inv.sorted, R.inv.lt_count, R.inv.null_iff, R.inv.status⟩
  reported := R.reported
  requests := R.requests
  indices := R.indices
  log := R.log

theorem Tested.testing (R : Tested ticket t b is t' b')
    (T : Testing approach ticket t b.requests b.indices b.statuses b.log)
    (hle : t.next ≤ t'.next) (hlt : ∀ i ∈ is, i < t'.next)
    (ha : approach ≠ .testSome ∧ approach ≠ .none) :
    Testing approach ticket t' b'.requests b'.indices b'.statuses b'.log where
  toTestInv := R.inv
  lt_next i hi := by
    rw [R.reported] at hi
    rcases List.mem_append.mp hi with hi | hi
    · exact lt_of_lt_of_le (T.lt_next i hi) hle
    · exact hlt i hi
  fresh h := by rcases h with h | h <;> simp [h] at ha
  count_pos := by rw [R.test]; exact T.count_pos

/-- The effect of one step of `internalTestRequests`: MPI never answers `MPI_UNDEFINED`. -/
theorem internalTestRequests_steps (H : L.Inv) (hps : ps.Nodup)
    (hslice : ∀ i < t.count, t.roff + i ∈ ps) (A : Agrees ps ticket others b L)
    (T : Testing approach ticket t b.requests b.indices b.statuses b.log)
    (hasc : ∀ is, a = .some is → is.Pairwise (· < ·))
    (h : internalTestRequests approach t b a = some res) :
    ∃ is t' b', Tested ticket t b is t' b' ∧
      L.Steps (L.tested b' (others + slots ps b'.requests ticket)
        (is.map fun i => ticket (t.roff + i))) ∧
      (res = .returned t'.completed b' ∨
        res = .running t' b' ∧
          Testing approach ticket t' b'.requests b'.indices b'.statuses b'.log) := by
  unfold internalTestRequests at h
  split at h
  · -- MPI_Testsome
    obtain ⟨hz, hnext⟩ := T.fresh (.inl rfl)
    have hlt : t.next < t.count := hnext ▸ T.count_pos
    rw [← hnext, T.not_undefined hlt] at h
    split at h
    · contradiction
    split at h
    · split at h
      · rename_i is hall
        obtain ⟨p, hp, rfl⟩ := Option.map_eq_some_iff.mp h
        obtain ⟨R, S⟩ := call_reportAll_steps is H hps hslice A T hlt (hasc is rfl)
          (by simpa using hall) (fun i _ => by omega) hp
        exact ⟨is, p.1, p.2, R, S, .inl rfl⟩
      · cases h
    · cases h
  · -- MPI_Testany
    split at h
    · rename_i hlt
      rw [T.not_undefined hlt] at h
      split at h
      · contradiction
      split at h
      · cases h
        obtain ⟨R, S⟩ := call_reportAll_steps [] H hps hslice A T hlt (by simp) (by simp)
          (by simp) rfl
        exact ⟨[], t, b.call, R, S, .inl rfl⟩
      · rename_i index
        dsimp only at h
        split at h
        · rename_i hindex
          obtain ⟨p, hp, rfl⟩ := Option.map_eq_some_iff.mp h
          obtain ⟨R, S⟩ := call_reportAll_steps [index + t.next] H hps hslice A T hlt
            (by simp) (by simpa using hindex) (by simp) (by
              simp only [Test.reportAll, hp, Option.bind_some]; rfl)
          have R' := R.setNext (index + t.next + 1)
          exact ⟨_, _, _, R', S, .inr ⟨rfl, R'.testing T (by simp; omega) (by simp) (by simp)⟩⟩
        · cases h
      · cases h
    · cases h
      exact ⟨[], t, b, .refl T.toTestInv, A.tested_self.symm ▸ .refl, .inl rfl⟩
  · -- MPI_Test
    split at h
    · rename_i hlt
      obtain ⟨r, hr⟩ := T.active hlt
      split at h
      · simp_all
      · obtain ⟨p, hp, rfl⟩ := Option.map_eq_some_iff.mp h
        obtain ⟨R, S⟩ := call_reportAll_steps [t.next] H hps hslice A T hlt (by simp)
          (by simpa using hlt) (by simp) (by
            simp only [Test.reportAll, hp, Option.bind_some]; rfl)
        have R' := R.setNext (t.next + 1)
        exact ⟨_, _, _, R', S, .inr ⟨rfl, R'.testing T (by simp) (by simp) (by simp)⟩⟩
      · cases h
        obtain ⟨R, S⟩ := call_reportAll_steps [] H hps hslice A T hlt (by simp) (by simp)
          (by simp) rfl
        have R' := R.setNext (t.next + 1)
        exact ⟨_, _, _, R', S, .inr ⟨rfl, R'.testing T (by simp) (by simp) (by simp)⟩⟩
      · cases h
    · cases h
      exact ⟨[], t, b, .refl T.toTestInv, A.tested_self.symm ▸ .refl, .inl rfl⟩
  · cases h
    exact ⟨[], t, b, .refl T.toTestInv, A.tested_self.symm ▸ .refl,
      .inl (by rw [(T.fresh (.inr rfl)).1])⟩

end

end Tampi
