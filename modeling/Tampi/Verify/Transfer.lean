import Tampi.Verify.PollFrame
import Tampi.Verify.Submission

/-! # `transferOperations`

Every operation of a batch is issued, and then either completes, with the status of its own request,
or moves to the in-flight arrays. -/

namespace Tampi
open Function (update)

namespace Transfer
variable {x : Transfer}

theorem ticketAt_append (h : e < x.tickets.length) :
    ({ x with tickets := x.tickets ++ ts } : Transfer).ticketAt e = x.ticketAt e := by
  simp [ticketAt, List.getElem?_append_left h]

theorem ticketAt_last (t : Ticket) :
    ({ x with tickets := x.tickets ++ [t] } : Transfer).ticketAt x.tickets.length = t := by
  simp [ticketAt]

theorem Inv.entries (X : x.Inv cfg log w pending capacity) (hx : x.phase = .issue) :
    (∀ r < x.req2entry.length, x.requests r ≠ none ∧ x.req2entry.getD r none ≠ none) ∧
    x.contexts = [] := by
  simpa only [PhaseInv, hx] using X.phase

/-- An operation without request is complete at once. -/
theorem Inv.issueNull (X : x.Inv cfg log w pending capacity) (hx : x.phase = .issue)
    (hlt : x.tickets.length < x.operations.length) (hs : Settled log' t) (hlog : log ⊆ log') :
    ({ x with
      tickets := x.tickets ++ [t]
      requests := update x.requests x.req2entry.length none
      complentries := x.complentries ++ [x.tickets.length] } : Transfer).Inv cfg log' w pending
        capacity where
  count_le := X.count_le
  tickets_le := by simpa using Nat.succ_le_of_lt hlt
  issued := by simp [Issued, hx]
  nreqs_le := by
    have := X.nreqs_le
    simp only [List.length_append, List.length_singleton]
    omega
  room := by simpa only [toAppend, hx] using X.room
  complentries_lt e he := by
    simp only [List.length_append, List.length_singleton]
    rcases List.mem_append.mp he with he | he
    · have := X.complentries_lt e he
      omega
    · rw [List.mem_singleton.mp he]
      omega
  req2entry_lt r e he := by
    have := X.req2entry_lt r e he
    simp only [List.length_append, List.length_singleton]
    omega
  settled e he := by
    rcases List.mem_append.mp he with he | he
    · have heq : ({ x with tickets := x.tickets ++ [t] } : Transfer).ticketAt e = x.ticketAt e :=
        ticketAt_append (X.complentries_lt e he)
      exact heq ▸ (X.settled e he).mono hlog
    · rw [List.mem_singleton.mp he]
      exact (ticketAt_last t).symm ▸ hs
  phase := by
    obtain ⟨hent, hctx⟩ := X.entries hx
    simp only [PhaseInv, hx]
    refine ⟨fun r hr => ?_, hctx⟩
    rw [Function.update_of_ne (by omega)]
    exact hent r hr

/-- An operation with a request is appended to those to be tested. -/
theorem Inv.issueActive (X : x.Inv cfg log w pending capacity) (hx : x.phase = .issue)
    (hlt : x.tickets.length < x.operations.length) (hlog : log ⊆ log') :
    ({ x with
      tickets := x.tickets ++ [t]
      requests := update x.requests x.req2entry.length (some h)
      req2entry := x.req2entry ++ [some x.tickets.length] } : Transfer).Inv cfg log' w pending
        capacity where
  count_le := X.count_le
  tickets_le := by simpa using Nat.succ_le_of_lt hlt
  issued := by simp [Issued, hx]
  nreqs_le := by
    have := X.nreqs_le
    simp only [List.length_append, List.length_singleton]
    omega
  room := by simpa only [toAppend, hx] using X.room
  complentries_lt e he := by
    have := X.complentries_lt e he
    simp only [List.length_append, List.length_singleton]
    omega
  req2entry_lt r e he := by
    simp only [List.length_append, List.length_singleton]
    rcases Nat.lt_trichotomy r x.req2entry.length with hr | hr | hr
    · rw [List.getD_eq_getElem?_getD, List.getElem?_append_left hr,
        ← List.getD_eq_getElem?_getD] at he
      have := X.req2entry_lt r e he
      omega
    · subst hr
      simp at he
      omega
    · simp [List.getElem?_append_right hr.le, show r - x.req2entry.length ≠ 0 by omega] at he
  settled e he := by
    have heq : ({ x with tickets := x.tickets ++ [t] } : Transfer).ticketAt e = x.ticketAt e :=
      ticketAt_append (X.complentries_lt e he)
    exact heq ▸ (X.settled e he).mono hlog
  phase := by
    obtain ⟨hent, hctx⟩ := X.entries hx
    simp only [PhaseInv, hx]
    refine ⟨fun r hr => ?_, hctx⟩
    rw [List.length_append, List.length_singleton] at hr
    rcases Nat.lt_or_eq_of_le (Nat.lt_succ_iff.mp hr) with hr | rfl
    · rw [Function.update_of_ne (by omega), List.getD_eq_getElem?_getD,
        List.getElem?_append_left hr, ← List.getD_eq_getElem?_getD]
      exact hent r hr
    · simp

/-! The filter loop marks the entry of a request that has completed. -/

theorem getD_mark {req : Nat} (hr : r ≠ req) :
    (x.req2entry.set req none).getD r none = x.req2entry.getD r none := by
  rw [List.getD_eq_getElem?_getD, List.getElem?_set_ne (Ne.symm hr), ← List.getD_eq_getElem?_getD]

theorem getD_mark_self {req : Nat} (h : req < x.req2entry.length) :
    (x.req2entry.set req none).getD req none = none := by
  rw [List.getD_eq_getElem?_getD, List.getElem?_set_self h]
  rfl

/-- The transfer after the `c`-th completed request. -/
def mark (x : Transfer) (c n entry : Nat) : Transfer :=
  { x with
    complentries := x.complentries ++ [entry]
    req2entry := x.req2entry.set (x.testcompl2req c) none
    phase := .filter (c + 1) n }

theorem ticketOf_mark (hr : r ≠ x.testcompl2req c) : (x.mark c n entry).ticketOf r = x.ticketOf r := by
  simp only [ticketOf, mark, getD_mark hr]
  rfl

theorem FilterInv.ne (F : x.FilterInv log c n) (hj : c < j) (hjn : j < n) :
    x.testcompl2req j ≠ x.testcompl2req c :=
  (F.sorted c j (le_refl c) hj hjn).ne'

theorem FilterInv.null (F : x.FilterInv log c n) (hlt : c < n) :
    x.requests (x.testcompl2req c) = none :=
  (F.null_iff _ (F.lt_nreqs c (le_refl c) hlt)).mpr (.inr ⟨c, le_refl c, hlt, rfl⟩)

theorem FilterInv.mark {entry : Nat} (F : x.FilterInv log c n) (hlt : c < n) (hlog : log ⊆ log') :
    (x.mark c n entry).FilterInv log' (c + 1) n where
  le := hlt
  sorted i j hi hij hj := F.sorted i j (by omega) hij hj
  lt_nreqs j hj hjn := by simpa [Transfer.mark] using F.lt_nreqs j (by omega) hjn
  entry j hj hjn := (getD_mark (F.ne hj hjn)).symm ▸ F.entry j (by omega) hjn
  null_iff r hr := by
    have hr : r < x.req2entry.length := by simpa [Transfer.mark] using hr
    by_cases hreq : r = x.testcompl2req c
    · subst hreq
      exact ⟨fun _ => .inl (getD_mark_self hr), fun _ => F.null hlt⟩
    · refine (F.null_iff r hr).trans ?_
      simp only [Transfer.mark, getD_mark hreq]
      refine or_congr_right ⟨?_, ?_⟩
      · rintro ⟨j, hj, hjn, rfl⟩
        refine ⟨j, ?_, hjn, rfl⟩
        rcases Nat.lt_or_eq_of_le hj with h | rfl
        · exact h
        · exact absurd rfl hreq
      · rintro ⟨j, hj, hjn, rfl⟩
        exact ⟨j, by omega, hjn, rfl⟩
  status j hj hjn := by
    have := F.status j (by omega) hjn
    rw [← ticketOf_mark (F.ne hj hjn)] at this
    exact hlog this

theorem Inv.mark (X : x.Inv cfg log w pending capacity) (hx : x.phase = .filter c n) (hlt : c < n)
    (hentry : x.req2entry.getD (x.testcompl2req c) none = some entry)
    (hs : Settled log' (x.ticketAt entry)) (hlog : log ⊆ log') :
    (x.mark c n entry).Inv cfg log' w pending capacity where
  count_le := X.count_le
  tickets_le := X.tickets_le
  issued := by
    have : x.tickets.length = x.operations.length := by simpa only [Issued, hx] using X.issued
    exact this
  nreqs_le := by simpa [Transfer.mark] using X.nreqs_le
  room := by
    have := X.room
    rwa [toAppend, hx] at this
  complentries_lt e he := by
    rcases List.mem_append.mp he with he | he
    · exact X.complentries_lt e he
    · exact List.mem_singleton.mp he ▸ X.req2entry_lt _ entry hentry
  req2entry_lt r e he := by
    obtain ⟨F, -⟩ : x.FilterInv log c n ∧ x.contexts = [] := by
      simpa only [PhaseInv, hx] using X.phase
    by_cases hr : r = x.testcompl2req c
    · subst hr
      cases (getD_mark_self (F.lt_nreqs c (le_refl c) hlt)).symm.trans he
    · exact X.req2entry_lt r e (getD_mark hr ▸ he)
  settled e he := by
    rcases List.mem_append.mp he with he | he
    · exact (X.settled e he).mono hlog
    · rw [List.mem_singleton.mp he]
      exact hs
  phase := by
    obtain ⟨F, hctx⟩ : x.FilterInv log c n ∧ x.contexts = [] := by
      simpa only [PhaseInv, hx] using X.phase
    exact ⟨F.mark hlt hlog, hctx⟩

end Transfer

namespace Sys
variable {cfg : Config} {s s' : Sys} {x x' : Transfer} {total np2p : Nat} {w : Window}

theorem Inv.transfer (I : s.Inv cfg) (hp : s.poll = .transfer total w np2p x) :
    s.p2pOperations.consumer = .idle ∧ s.manager.arrays.Active 0 s.manager.pending ∧
    w.ntotal ≤ w.navailable ∧
    x.Inv cfg s.log w s.manager.pending s.manager.capacityCtrl.capacity := by
  have hpoll := I.poll
  rwa [hp] at hpoll

/-- The part of `Sim.of_frame` that is common to the steps of a transfer. -/
theorem transfer_sim (I : s.Inv cfg) (hf : s.failure = none)
    (hp : s.poll = .transfer total w np2p x) (F : s.PollFrame s')
    (hp' : s'.poll = .transfer total w np2p x') (hk : x'.kind = x.kind)
    (ho : x'.operations = x.operations) (hm : s'.manager = s.manager)
    (hX : x'.Inv cfg s'.log w s.manager.pending s.manager.capacityCtrl.capacity)
    (hsteps : (s.life cfg).Steps { s.life cfg with
      batch := (x.operations.drop x'.tickets.length).map (s.objects x.kind)
      inflight := slots (List.range s.manager.pending) s.manager.arrays.requests
        s.manager.arrays.getAssociatedTicket + x'.inflight
      completed := x'.undelivered cfg.completionEnabled
      completions := s'.completions.contents
      permits := s'.permits
      mpi := s'.mpi
      memory := s'.memory
      log := s'.log }) : Sim cfg s s' := by
  obtain ⟨hcons, hact, hw, _⟩ := I.transfer hp
  refine .of_frame I hf F ?_ (hm ▸ I.self) (hm ▸ I.pending_le) ?_ ?_
  · intro k
    simp only [hp, hp', Poll.transferring, hk, ho]
  · rw [hp', hm]
    exact ⟨hcons, hact, hw, hX⟩
  · have hbatch : s'.batch = (x.operations.drop x'.tickets.length).map (s.objects x.kind) := by
      simp only [batch, hp', hk, ho, F.objects]
    have hinflight : s'.inflight = slots (List.range s.manager.pending) s.manager.arrays.requests
        s.manager.arrays.getAssociatedTicket + x'.inflight := by
      simp only [inflight, hp', hm]
    have hundel : s'.undelivered cfg = x'.undelivered cfg.completionEnabled := by
      simp only [undelivered, hp']
    rw [hbatch, hinflight, hundel]
    exact hsteps

/-- Both outcomes of an issue are moves: the next operation of the batch is complete or in flight. -/
theorem issue_sim (I : s.Inv cfg) (hf : s.failure = none)
    (hp : s.poll = .transfer total w np2p x) (hx : x.phase = .issue)
    (hobj : x.operations[x.tickets.length]? = some object)
    (hcall : (s.objects x.kind object).issue = some call)
    (h : s.issue x (s.objects x.kind object) call request = some p) :
    Sim cfg s { p.1 with poll := .transfer total w np2p p.2 } := by
  obtain ⟨hcons, hact, hw, X⟩ := I.transfer hp
  obtain ⟨hent, hctx⟩ := X.entries hx
  set op := s.objects x.kind object with hop
  obtain ⟨hlt, hget⟩ := List.getElem?_eq_some_iff.mp hobj
  have hdrop : (x.operations.drop x.tickets.length).map (s.objects x.kind) =
      op :: (x.operations.drop (x.tickets.length + 1)).map (s.objects x.kind) := by
    rw [List.drop_eq_getElem_cons hlt, List.map_cons, hget]
  have hbatch : (s.life cfg).batch =
      op :: (x.operations.drop (x.tickets.length + 1)).map (s.objects x.kind) := by
    simp only [life, batch, hp, hdrop]
  have hinflight : (s.life cfg).inflight = slots (List.range s.manager.pending)
      s.manager.arrays.requests s.manager.arrays.getAssociatedTicket + x.inflight := by
    simp only [life, inflight, hp]
  have hcompl : (s.life cfg).completed = (x.complentries.map x.ticketAt : List Ticket) := by
    simp only [life, undelivered, hp, Transfer.undelivered, hx]
  have hold (req : Request) (ticket : Nat → Ticket)
      (ht : ∀ r < x.req2entry.length, ticket r = x.ticketOf r) :
      slots (List.range' 0 x.req2entry.length) (update x.requests x.req2entry.length req) ticket =
        x.inflight := by
    simp only [Transfer.inflight, Transfer.waiting, hx]
    refine slots_congr (fun r hr => ?_) (fun r hr _ => ht r ?_) <;>
      have := (List.mem_range'_1.mp hr).2
    · rw [Function.update_of_ne (by omega)]
    · omega
  have hticketOf (r : Nat) (hr : r < x.req2entry.length) : (x.tickets ++ [Ticket.ofOp op]).getD
      ((x.req2entry.getD r none).getD 0) default = x.ticketOf r := by
    obtain ⟨e, he⟩ := Option.ne_none_iff_exists'.mp (hent r hr).2
    simp only [Transfer.ticketOf, he, Option.getD_some]
    exact Transfer.ticketAt_append (X.req2entry_lt r e he)
  have hticketAt : x.complentries.map
      ({ x with tickets := x.tickets ++ [.ofOp op] } : Transfer).ticketAt =
      x.complentries.map x.ticketAt :=
    List.map_congr_left fun e he => Transfer.ticketAt_append (X.complentries_lt e he)
  unfold issue at h
  cases request with
  | none =>
    cases h
    refine transfer_sim I hf hp ⟨rfl, rfl, rfl, rfl, rfl, rfl, rfl, rfl, rfl, le_refl _⟩ rfl rfl rfl
      rfl ?_ ?_
    · exact X.issueNull hx hlt (.inl ⟨call, by simp [Ticket.ofOp_id]⟩) (List.subset_append_left ..)
    · refine .single (a := .issue op call none) ?_ rfl
      convert Life.Move.issueNull (L := s.life cfg) hbatch hcall using 1
      ext1 <;> try rfl
      · simp [Life.append]
      · simp only [Life.append, hinflight]
        refine congrArg _ (Eq.trans ?_ (hold none _ hticketOf))
        simp only [Transfer.inflight, Transfer.waiting, hx]
        rfl
      · have hl : (x.complentries ++ [x.tickets.length]).map
            ({ x with tickets := x.tickets ++ [.ofOp op] } : Transfer).ticketAt =
            x.complentries.map x.ticketAt ++ [.ofOp op] := by
          rw [List.map_append, hticketAt, List.map_singleton, Transfer.ticketAt_last]
        simp only [Life.append, hcompl, Transfer.undelivered, hx]
        refine (congrArg _ hl).trans ?_
        rw [← Multiset.coe_add, Multiset.coe_singleton, add_comm, Multiset.singleton_add]
  | some r =>
    dsimp only at h
    split at h
    · rename_i hfree
      cases h
      refine transfer_sim I hf hp ⟨rfl, rfl, rfl, rfl, rfl, rfl, rfl, rfl, rfl, le_refl _⟩ rfl rfl
        rfl rfl ?_ ?_
      · exact X.issueActive hx hlt (List.subset_append_left ..)
      · refine .single (a := .issue op call (some r)) ?_ rfl
        convert Life.Move.issue (L := s.life cfg) hbatch hcall hfree using 1
        ext1 <;> try rfl
        · simp [Life.append]
        · simp only [Life.append, hinflight]
          rw [← Multiset.add_cons]
          refine congrArg _ ?_
          simp only [Transfer.inflight, Transfer.waiting, hx, List.length_append,
            List.length_singleton, List.range'_1_concat, slots_append, Nat.zero_add]
          rw [hold (some r), slots_cons_some (r := r) (by simp), slots_nil, Multiset.add_cons,
            add_zero, Transfer.inflight, Transfer.waiting, hx]
          · simp [Transfer.ticketOf, Transfer.ticketAt]
          · intro q hq
            rw [← hticketOf q hq]
            simp [Transfer.ticketOf, Transfer.ticketAt, List.getElem?_append_left hq]
        · simp only [Life.append, hcompl, Transfer.undelivered, hx]
          exact congrArg _ hticketAt
    · cases h

/-- A step that only moves on in the code. -/
theorem transfer_stutter (I : s.Inv cfg) (hf : s.failure = none)
    (hp : s.poll = .transfer total w np2p x) (hk : x'.kind = x.kind)
    (ho : x'.operations = x.operations) (ht : x'.tickets = x.tickets)
    (hX : x'.Inv cfg s.log w s.manager.pending s.manager.capacityCtrl.capacity)
    (hi : x'.inflight = x.inflight)
    (hu : x'.undelivered cfg.completionEnabled = x.undelivered cfg.completionEnabled) :
    Sim cfg s { s with poll := .transfer total w np2p x' } := by
  refine transfer_sim I hf hp ⟨rfl, rfl, rfl, rfl, rfl, rfl, rfl, rfl, rfl, le_refl _⟩ rfl hk ho rfl
    hX ?_
  convert Life.Steps.refl using 1
  ext1 <;> simp [life, batch, inflight, undelivered, hp, ht, hi, hu]

theorem issueDone_sim (I : s.Inv cfg) (hf : s.failure = none)
    (hp : s.poll = .transfer total w np2p x) (hx : x.phase = .issue)
    (hobj : x.operations[x.tickets.length]? = none) :
    Sim cfg s { s with poll := .transfer total w np2p { x with
      phase := if 0 < x.req2entry.length then .test (.start 0 0 x.req2entry.length)
        else .filter 0 0 } } := by
  obtain ⟨hcons, hact, hw, X⟩ := I.transfer hp
  obtain ⟨hent, hctx⟩ := X.entries hx
  have hlen : x.tickets.length = x.operations.length :=
    le_antisymm X.tickets_le (List.getElem?_eq_none_iff.mp hobj)
  have hroom : s.manager.pending + x.operations.length +
      (w.navailable - w.ntotal - x.operations.length) ≤ s.manager.capacityCtrl.capacity := by
    simpa only [Transfer.toAppend, hx] using X.room
  split
  · rename_i hpos
    refine transfer_stutter I hf hp rfl rfl rfl ?_ ?_ ?_
    · exact {
        __ := X
        issued := hlen
        room := hroom
        phase := by
          refine ⟨rfl, rfl, rfl, fun r hr => (hent r hr).2, .start (fun i hi => ?_) hpos, hctx⟩
          rw [Nat.zero_add]
          exact (hent i hi).1 }
    · simp only [Transfer.inflight, Transfer.waiting, hx]
      rfl
    · simp [Transfer.undelivered, hx, Test.reported, Test.start]
      exact fun _ _ => rfl
  · rename_i hzero
    have hzero : x.req2entry.length = 0 := by omega
    refine transfer_stutter I hf hp rfl rfl rfl ?_ ?_ ?_
    · exact {
        __ := X
        issued := hlen
        room := hroom
        phase := by
          refine ⟨⟨le_refl _, ?_, ?_, ?_, fun r hr => absurd (hzero ▸ hr : r < 0) (by omega), ?_⟩,
            hctx⟩ <;> intros <;> omega }
    · simp only [Transfer.inflight, Transfer.waiting, hx]
      rfl
    · simp [Transfer.undelivered, hx]
      exact fun _ _ => rfl

/-- The life after a test call of the transfer. -/
theorem transfer_tested (hp : s.poll = .transfer total w np2p x) (hx : x.phase = .test t)
    (hroff : t.roff = 0)
    (R : Tested x.ticketOf t ⟨x.requests, x.testcompl2req, x.statuses, s.mpi, s.log⟩ is t' b') :
    (s.life cfg).tested b' (slots (List.range s.manager.pending) s.manager.arrays.requests
        s.manager.arrays.getAssociatedTicket + slots (List.range' 0 x.req2entry.length) b'.requests
        x.ticketOf) (is.map fun i => x.ticketOf (t.roff + i)) =
      { s.life cfg with
        inflight := slots (List.range s.manager.pending) s.manager.arrays.requests
          s.manager.arrays.getAssociatedTicket + slots (List.range' 0 x.req2entry.length) b'.requests
          x.ticketOf
        completed := (x.complentries.map x.ticketAt ++ (t'.reported b'.indices).map x.ticketOf :
          List Ticket)
        mpi := b'.mpi
        log := b'.log } := by
  ext1 <;> try rfl
  simp only [Life.tested, life, undelivered, hp, Transfer.undelivered, hx, R.reported, hroff,
    Nat.zero_add, List.map_append, Multiset.coe_add, List.append_assoc]

/-- What the filter loop finds in the output arrays of the test. -/
theorem filterInv_of_tested (R : Tested x.ticketOf t b is t' b') (hroff : t.roff = 0)
    (hioff : t.ioff = 0) (hcount : t.count = x.req2entry.length)
    (hent : ∀ r < x.req2entry.length, x.req2entry.getD r none ≠ none) :
    ({ x with
      requests := b'.requests, testcompl2req := b'.indices, statuses := b'.statuses
      phase := .filter 0 t'.completed } : Transfer).FilterInv b'.log 0 t'.completed := by
  have hmem (r : Nat) : r ∈ t'.reported b'.indices ↔
      ∃ j, 0 ≤ j ∧ j < t'.completed ∧ b'.indices j = r := by
    have : t'.ioff = 0 := by rw [R.test]; exact hioff
    simp [Test.reported, this]
  have hcount' : t'.count = x.req2entry.length := by rw [R.test]; exact hcount
  have hroff' : t'.roff = 0 := by rw [R.test]; exact hroff
  have hioff' : t'.ioff = 0 := by rw [R.test]; exact hioff
  have hlt (j : Nat) (hj : j < t'.completed) : b'.indices j < x.req2entry.length :=
    hcount' ▸ R.inv.lt_count _ ((hmem _).mpr ⟨j, by omega, hj, rfl⟩)
  exact {
    le := by omega
    sorted := by
      intro i j _ hij hj
      have := List.pairwise_iff_getElem.mp R.inv.sorted i j (by simp; omega) (by simpa) hij
      simpa [Test.getElem_reported, hioff'] using this
    lt_nreqs := fun j _ hj => hlt j hj
    entry := fun j _ hj => hent _ (hlt j hj)
    null_iff := by
      intro r hr
      have := R.inv.null_iff r (hcount' ▸ hr)
      rw [hroff', Nat.zero_add] at this
      rw [this, hmem]
      exact ⟨.inr, fun h => h.resolve_left (hent r hr)⟩
    status := by
      intro j _ hj
      have := R.inv.status j hj
      rwa [hroff', hioff', Nat.zero_add, Nat.zero_add] at this }

/-- A test call of the transfer is a sequence of reports. -/
theorem test_sim (I : s.Inv cfg) (HL : (s.life cfg).Inv) (hf : s.failure = none)
    (hp : s.poll = .transfer total w np2p x) (hx : x.phase = .test t)
    (hasc : ∀ is, a = .some is → is.Pairwise (· < ·))
    (h : s.transferStep cfg total w np2p x a = some s') : Sim cfg s s' := by
  obtain ⟨hcons, hact, hw, X⟩ := I.transfer hp
  obtain ⟨hroff, hioff, hcount, hent, T, hctx⟩ : t.roff = 0 ∧ t.ioff = 0 ∧
      t.count = x.req2entry.length ∧ (∀ r < x.req2entry.length, x.req2entry.getD r none ≠ none) ∧
      Testing cfg.immediateTesting x.ticketOf t x.requests x.testcompl2req x.statuses s.log ∧
      x.contexts = [] := by simpa only [Transfer.PhaseInv, hx] using X.phase
  have hlen : x.tickets.length = x.operations.length := by
    simpa only [Transfer.Issued, hx] using X.issued
  have hroom : s.manager.pending + x.operations.length +
      (w.navailable - w.ntotal - x.operations.length) ≤ s.manager.capacityCtrl.capacity := by
    simpa only [Transfer.toAppend, hx] using X.room
  simp only [transferStep, hx] at h
  obtain ⟨res, hres, rfl⟩ := Option.map_eq_some_iff.mp h
  have A : Agrees (List.range' 0 x.req2entry.length) x.ticketOf
      (slots (List.range s.manager.pending) s.manager.arrays.requests
        s.manager.arrays.getAssociatedTicket)
      ⟨x.requests, x.testcompl2req, x.statuses, s.mpi, s.log⟩ (s.life cfg) := by
    refine ⟨rfl, rfl, ?_⟩
    simp only [life, inflight, hp, Transfer.inflight, Transfer.waiting, hx]
  obtain ⟨is, t', b', R, S, hres⟩ := internalTestRequests_steps HL List.nodup_range'
    (fun i hi => List.mem_range'_1.mpr (by omega)) A T hasc hres
  rw [transfer_tested hp hx hroff R] at S
  have hlog : s.log ⊆ b'.log := R.log
  have hbatch : (x.operations.drop x.tickets.length).map (s.objects x.kind) =
      (s.life cfg).batch := by simp only [life, batch, hp]
  have htest := R.test
  rcases hres with rfl | ⟨rfl, T'⟩
  · have hrep : t'.reported b'.indices = (List.range' 0 (t'.completed - 0)).map b'.indices := by
      have : t'.ioff = 0 := by rw [htest]; exact hioff
      simp [Test.reported, this, List.range_eq_range']
    refine transfer_sim I hf hp ⟨rfl, rfl, rfl, rfl, rfl, rfl, rfl, rfl, rfl, le_refl _⟩ rfl rfl rfl
      rfl ?_ ?_
    · exact {
        __ := X
        settled := fun e he => (X.settled e he).mono hlog
        issued := hlen
        room := hroom
        phase := ⟨filterInv_of_tested R hroff hioff hcount hent, hctx⟩ }
    · rw [hbatch]
      convert S using 3
      simp only [Transfer.undelivered, hrep, List.map_map]
      rfl
  · refine transfer_sim I hf hp ⟨rfl, rfl, rfl, rfl, rfl, rfl, rfl, rfl, rfl, le_refl _⟩ rfl rfl rfl
      rfl ?_ ?_
    · exact {
        __ := X
        settled := fun e he => (X.settled e he).mono hlog
        issued := hlen
        room := hroom
        phase := by
          refine ⟨?_, ?_, ?_, hent, T', hctx⟩
          · rw [htest]; exact hroff
          · rw [htest]; exact hioff
          · rw [htest]; exact hcount }
    · rw [hbatch]
      exact S

/-- The status stored by the filter loop is the one reported of that operation. -/
theorem filter_sim (I : s.Inv cfg) (hf : s.failure = none)
    (hp : s.poll = .transfer total w np2p x) (hx : x.phase = .filter c n) (hlt : c < n) :
    ∃ entry, x.req2entry.getD (x.testcompl2req c) none = some entry ∧
      Sim cfg s { s.stored (x.ticketAt entry) (x.statuses c) with
        poll := .transfer total w np2p (x.mark c n entry) } := by
  obtain ⟨hcons, hact, hw, X⟩ := I.transfer hp
  obtain ⟨FI, hctx⟩ : x.FilterInv s.log c n ∧ x.contexts = [] := by
    simpa only [Transfer.PhaseInv, hx] using X.phase
  obtain ⟨entry, hentry⟩ := Option.ne_none_iff_exists'.mp (FI.entry c (le_refl c) hlt)
  refine ⟨entry, hentry, ?_⟩
  have hticket : x.ticketOf (x.testcompl2req c) = x.ticketAt entry := by
    simp only [Transfer.ticketOf, hentry, Option.getD_some]
  have hreport : .report (x.ticketAt entry).id (x.statuses c) ∈ s.log :=
    hticket ▸ FI.status c (le_refl c) hlt
  obtain ⟨F, hm, hcompl, hperm, hmpi, _, hlog⟩ := stored_frame s (x.ticketAt entry) (x.statuses c)
  refine transfer_sim I hf hp ⟨F.allocators, F.objects, F.p2pOperations, F.collOperations,
    F.consuming, F.cpus, F.tasks, F.serial, F.failure, F.completions⟩ rfl rfl rfl hm
    (X.mark hx hlt hentry (stored_settled hreport) hlog) ?_
  have hmem : x.ticketAt entry ∈ (s.life cfg).completed := by
    simp only [life, undelivered, hp, Transfer.undelivered, hx, Multiset.mem_coe,
      List.mem_append, List.mem_map, List.mem_range'_1]
    exact .inr ⟨c, by omega, hticket⟩
  convert stored_steps hmem hreport rfl rfl using 1
  ext1 <;> try rfl
  · simp only [life, batch, hp]
    rfl
  · simp only [life, inflight, hp]
    refine congrArg _ ?_
    simp only [Transfer.inflight, Transfer.waiting, hx, Transfer.mark, List.length_set]
    refine slots_congr (fun _ _ => rfl) (fun r _ hr => Transfer.ticketOf_mark ?_)
    rintro rfl
    exact hr (FI.null hlt)
  · simp only [life, undelivered, hp, Transfer.undelivered, hx]
    refine congrArg _ ?_
    have hrange : List.range' c (n - c) = c :: List.range' (c + 1) (n - (c + 1)) := by
      rw [show n - c = n - (c + 1) + 1 by omega, List.range'_succ]
    simp only [Transfer.mark]
    rw [hrange, List.map_cons, List.map_append, List.append_assoc, hticket]
    refine congrArg _ (congrArg _ (List.map_congr_left fun j hj => ?_))
    have := List.mem_range'_1.mp hj
    exact Transfer.ticketOf_mark (FI.ne (by omega) (by omega))
  · exact congrArg SpscQueue.contents hcompl
  · exact hperm
  · exact hmpi

theorem filterDone_sim (I : s.Inv cfg) (hf : s.failure = none)
    (hp : s.poll = .transfer total w np2p x) (hx : x.phase = .filter c n) (hlt : ¬c < n) :
    Sim cfg s { s with poll := .transfer total w np2p { x with phase := .process 0 } } := by
  obtain ⟨hcons, hact, hw, X⟩ := I.transfer hp
  obtain ⟨FI, hctx⟩ : x.FilterInv s.log c n ∧ x.contexts = [] := by
    simpa only [Transfer.PhaseInv, hx] using X.phase
  refine transfer_stutter I hf hp rfl rfl rfl ?_ ?_ ?_
  · exact {
      __ := X
      issued := by simpa only [Transfer.Issued, hx] using X.issued
      room := by simpa only [Transfer.toAppend, hx] using X.room
      phase := by
        refine ⟨fun r hr => ?_, Nat.zero_le _, by simp [hctx]⟩
        rw [FI.null_iff r hr]
        refine ⟨fun h => h.resolve_right ?_, .inl⟩
        rintro ⟨j, h1, h2, _⟩
        omega }
  · simp only [Transfer.inflight, Transfer.waiting, hx]
    rfl
  · simp only [Transfer.undelivered, hx, show n - c = 0 by omega]
    simp
    exact fun _ _ => rfl

/-- A completed ticket is gathered for the hand-over, or its task notified. -/
theorem process_ticket_sim (I : s.Inv cfg) (hf : s.failure = none)
    (hp : s.poll = .transfer total w np2p x) (hx : x.phase = .process c)
    (hlt : c < x.complentries.length) :
    if cfg.completionEnabled then
      Sim cfg s { s with poll := .transfer total w np2p { x with
        contexts := x.contexts ++ [(x.ticketAt (x.complentries.getD c 0)).context]
        phase := .process (c + 1) } }
    else
      Sim cfg s { s.complete (x.ticketAt (x.complentries.getD c 0)).context with
        poll := .transfer total w np2p { x with phase := .process (c + 1) } } := by
  obtain ⟨-, -, -, X⟩ := I.transfer hp
  obtain ⟨hfilt, hc, hctx⟩ : x.Filtered ∧ c ≤ x.complentries.length ∧
      x.contexts = if cfg.completionEnabled then
        (x.complentries.take c).map fun e => (x.ticketAt e).context else [] := by
    simpa only [Transfer.PhaseInv, hx] using X.phase
  have hget : x.complentries.getD c 0 = x.complentries[c] := by
    rw [List.getD_eq_getElem?_getD, List.getElem?_eq_getElem hlt, Option.getD_some]
  have hissued : x.tickets.length = x.operations.length := by
    simpa only [Transfer.Issued, hx] using X.issued
  have hroom : s.manager.pending + x.operations.length +
      (w.navailable - w.ntotal - x.operations.length) ≤ s.manager.capacityCtrl.capacity := by
    simpa only [Transfer.toAppend, hx] using X.room
  rw [hget]
  split
  · rename_i hen
    refine transfer_stutter I hf hp rfl rfl rfl ?_ ?_ ?_
    · exact {
        __ := X
        issued := hissued
        room := hroom
        phase := by
          refine ⟨hfilt, hlt, ?_⟩
          rw [hctx]
          simp only [hen, if_true]
          rw [List.take_succ_eq_append_getElem hlt, List.map_append]
          rfl }
    · simp only [Transfer.inflight, Transfer.waiting, hx]
      rfl
    · simp only [Transfer.undelivered, hx, hen, if_true]
      rfl
  · rename_i hen
    refine transfer_sim I hf hp ⟨rfl, rfl, rfl, rfl, rfl, rfl, rfl, rfl, rfl, le_refl _⟩ rfl rfl rfl
      rfl ?_ ?_
    · exact {
        __ := X
        settled := fun e he => (X.settled e he).mono (List.subset_append_left ..)
        issued := hissued
        room := hroom
        phase := ⟨hfilt, hlt, by simpa [hen] using hctx⟩ }
    · have hsplit : (s.life cfg).completed = x.ticketAt x.complentries[c] ::ₘ
          ((x.complentries.drop (c + 1)).map x.ticketAt : List Ticket) := by
        simp only [life, undelivered, hp, Transfer.undelivered, hx, hen]
        rw [if_neg (by simp), List.drop_eq_getElem_cons hlt, List.map_cons, Multiset.cons_coe]
      refine .single (a := .notify (x.ticketAt x.complentries[c])) ?_ rfl
      convert Life.Move.notify hsplit (X.settled _ (List.getElem_mem hlt)) using 1
      ext1 <;> try rfl
      · simp only [Life.notified, life, batch, hp]
      · simp only [Life.notified, life, inflight, hp, Transfer.inflight, Transfer.waiting, hx]
        rfl
      · simp only [Life.notified, Transfer.undelivered, hen]
        rfl

theorem processDone_sim (I : s.Inv cfg) (hf : s.failure = none)
    (hp : s.poll = .transfer total w np2p x) (hx : x.phase = .process c)
    (hlt : ¬c < x.complentries.length) :
    Sim cfg s { s with poll := .transfer total w np2p { x with phase := .handoff } } := by
  obtain ⟨-, -, -, X⟩ := I.transfer hp
  obtain ⟨hfilt, hc, hctx⟩ : x.Filtered ∧ c ≤ x.complentries.length ∧
      x.contexts = if cfg.completionEnabled then
        (x.complentries.take c).map fun e => (x.ticketAt e).context else [] := by
    simpa only [Transfer.PhaseInv, hx] using X.phase
  refine transfer_stutter I hf hp rfl rfl rfl ?_ ?_ ?_
  · exact {
      __ := X
      issued := by simpa only [Transfer.Issued, hx] using X.issued
      room := by simpa only [Transfer.toAppend, hx] using X.room
      phase := by
        refine ⟨hfilt, ?_⟩
        rw [List.take_of_length_le (by omega)] at hctx
        exact hctx }
  · simp only [Transfer.inflight, Transfer.waiting, hx]
    rfl
  · simp only [Transfer.undelivered, hx]
    by_cases hen : cfg.completionEnabled
    · simp only [hen, if_true, List.drop_zero]
      rfl
    · simp [hen, List.drop_eq_nil_of_le (show x.complentries.length ≤ c by omega)]

theorem handoff_sim (I : s.Inv cfg) (hf : s.failure = none)
    (hp : s.poll = .transfer total w np2p x) (hx : x.phase = .handoff)
    (h : s.transferStep cfg total w np2p x a = some s') : Sim cfg s s' := by
  obtain ⟨-, -, -, X⟩ := I.transfer hp
  obtain ⟨hfilt, hctx⟩ : x.Filtered ∧ x.contexts = if cfg.completionEnabled then
      x.complentries.map fun e => (x.ticketAt e).context else [] := by
    simpa only [Transfer.PhaseInv, hx] using X.phase
  have hissued : x.tickets.length = x.operations.length := by
    simpa only [Transfer.Issued, hx] using X.issued
  have hroom : s.manager.pending + (x.req2entry.length - 0) +
      (w.navailable - w.ntotal - x.operations.length) ≤ s.manager.capacityCtrl.capacity := by
    have h1 := X.room
    have h2 := X.nreqs_le
    have h3 := X.tickets_le
    simp only [Transfer.toAppend, hx] at h1
    omega
  simp only [transferStep, hx] at h
  split at h
  · rename_i hen
    obtain ⟨hen, hpos⟩ := hen
    have hcontexts : x.contexts = (x.complentries.map x.ticketAt).map Ticket.context := by
      simp only [hctx, hen, if_true, List.map_map, Function.comp_def]
    rcases transferContexts_cases cfg s x.contexts with ⟨hfail, hroom, hlog, hmem⟩ | heq
    · simp only [hfail, Option.isSome_some, if_true] at h
      cases h
      refine .failed hfail trivial (fun _ => ?_) hlog hmem
      have hlen : (s.undelivered cfg).length = x.contexts.length := by
        simp only [undelivered, hp, Transfer.undelivered, hx, hen, if_true, hcontexts,
          List.length_map]
      rwa [Crowded, hlen]
    · rw [heq] at h
      rw [if_neg (by simp [hf])] at h
      cases h
      refine transfer_sim I hf hp ⟨rfl, rfl, rfl, rfl, rfl, rfl, rfl, rfl, rfl, by simp⟩ rfl rfl rfl
        rfl ?_ ?_
      · exact {
          __ := X
          settled := fun e he => (X.settled e he).mono (List.subset_append_left ..)
          issued := hissued
          room := hroom
          phase := hfilt }
      · have := Life.transfer_steps (L := s.life cfg) (x.complentries.map x.ticketAt) 0
          (fun t ht => by
            obtain ⟨e, he, rfl⟩ := List.mem_map.mp ht
            exact X.settled e he)
          (by simp only [life, undelivered, hp, Transfer.undelivered, hx, hen, if_true, add_zero])
        convert this using 1
        ext1 <;> try rfl
        · simp only [life, batch, hp]
        · simp only [life, inflight, hp, Transfer.inflight, Transfer.waiting, hx]
          rfl
        · rw [hcontexts]
          rfl
        · simp only [hcontexts, List.map_map]
          rfl
  · rename_i hen
    rw [if_neg (by simp [hf])] at h
    cases h
    refine transfer_stutter I hf hp rfl rfl rfl ?_ ?_ ?_
    · exact { X with issued := hissued, room := hroom, phase := hfilt }
    · simp only [Transfer.inflight, Transfer.waiting, hx]
      rfl
    · simp only [Transfer.undelivered, hx]
      split
      · rename_i henabled
        have : x.complentries = [] := List.length_eq_zero_iff.mp (by
          by_contra hne
          exact hen ⟨henabled, Nat.pos_of_ne_zero hne⟩)
        simp [this]
      · rfl

theorem append_sim (I : s.Inv cfg) (hf : s.failure = none)
    (hp : s.poll = .transfer total w np2p x) (hx : x.phase = .append r)
    (hlt : r < x.req2entry.length) (hentry : x.req2entry.getD r none = some entry) :
    Sim cfg s { s with
      manager := { s.manager with
        arrays := (s.manager.arrays.allocateTicket s.manager.pending
          (x.ticketAt entry)).associateRequest s.manager.pending (x.requests r) s.manager.pending 0
        pending := s.manager.pending + 1 }
      poll := .transfer total w np2p { x with phase := .append (r + 1) } } := by
  obtain ⟨hcons, hact, hw, X⟩ := I.transfer hp
  have hfilt : x.Filtered := by simpa only [Transfer.PhaseInv, hx] using X.phase
  have hroom : s.manager.pending + (x.req2entry.length - r) +
      (w.navailable - w.ntotal - x.operations.length) ≤ s.manager.capacityCtrl.capacity := by
    simpa only [Transfer.toAppend, hx] using X.room
  obtain ⟨h, hreq⟩ : ∃ h, x.requests r = some h := by
    refine Option.ne_none_iff_exists'.mp fun hnone => ?_
    rw [(hfilt r hlt).mp hnone] at hentry
    cases hentry
  have hself : ((s.manager.arrays.allocateTicket s.manager.pending
      (x.ticketAt entry)).associateRequest s.manager.pending (x.requests r) s.manager.pending
        0).SelfMapped (s.manager.pending + 1) := by
    intro p hp
    simp only [Arrays.associateRequest, Arrays.allocateTicket]
    by_cases h : p = s.manager.pending
    · subst h; simp
    · rw [Function.update_of_ne h]
      exact I.self p (by omega)
  refine .of_frame I hf ⟨rfl, rfl, rfl, rfl, rfl, rfl, rfl, rfl, rfl, le_refl _⟩
    (fun k => by simp only [hp, Poll.transferring]) hself (by dsimp only; omega) ?_ ?_
  · refine ⟨hcons, ?_, hw, ?_⟩
    · intro p _ hp
      simp only [Arrays.associateRequest, Arrays.allocateTicket]
      by_cases h : p = s.manager.pending
      · subst h; simp [hreq]
      · rw [Function.update_of_ne h]
        exact hact p (by omega) (by dsimp only at hp; omega)
    · exact {
        __ := X
        issued := by simpa only [Transfer.Issued, hx] using X.issued
        room := by simp only [Transfer.toAppend]; omega
        phase := hfilt }
  · convert Life.Steps.refl using 1
    ext1 <;> try rfl
    · simp only [life, batch, hp]
    · have hticket : x.ticketOf r = x.ticketAt entry := by
        simp only [Transfer.ticketOf, hentry, Option.getD_some]
      have hrange : List.range' r (x.req2entry.length - r) =
          r :: List.range' (r + 1) (x.req2entry.length - (r + 1)) := by
        rw [show x.req2entry.length - r = x.req2entry.length - (r + 1) + 1 by omega,
          List.range'_succ]
      have hold : slots (List.range s.manager.pending)
          (update s.manager.arrays.requests s.manager.pending (x.requests r))
          ((s.manager.arrays.allocateTicket s.manager.pending (x.ticketAt entry)).associateRequest
            s.manager.pending (x.requests r) s.manager.pending 0).getAssociatedTicket =
          slots (List.range s.manager.pending) s.manager.arrays.requests
            s.manager.arrays.getAssociatedTicket := by
        refine slots_congr (fun p hp => ?_) (fun p hp _ => ?_) <;>
          have hlt := List.mem_range.mp hp
        · rw [Function.update_of_ne (by omega)]
        · have hm := I.self p hlt
          simp only [Arrays.getAssociatedTicket, Arrays.associateRequest, Arrays.allocateTicket]
          rw [Function.update_of_ne (show p ≠ s.manager.pending by omega), hm,
            Function.update_of_ne (show p ≠ s.manager.pending by omega)]
      simp only [life, inflight, hp, Transfer.inflight, Transfer.waiting, hx, hrange,
        slots_cons_some hreq, List.range_succ, slots_append]
      have hnew : slots [s.manager.pending]
          (update s.manager.arrays.requests s.manager.pending (x.requests r))
          ((s.manager.arrays.allocateTicket s.manager.pending (x.ticketAt entry)).associateRequest
            s.manager.pending (x.requests r) s.manager.pending 0).getAssociatedTicket =
          {⟨x.ticketAt entry, h⟩} := by
        rw [slots_cons_some (r := h) (by simp [hreq]), slots_nil]
        simp [Arrays.getAssociatedTicket, Arrays.associateRequest, Arrays.allocateTicket]
      rw [hticket]
      refine (congrArg₂ _ (congrArg₂ _ hold hnew) rfl).trans ?_
      rw [add_assoc, Multiset.singleton_add]
      rfl
    · simp only [life, undelivered, hp, Transfer.undelivered, hx]

theorem appendSkip_sim (I : s.Inv cfg) (hf : s.failure = none)
    (hp : s.poll = .transfer total w np2p x) (hx : x.phase = .append r)
    (hlt : r < x.req2entry.length) (hentry : x.req2entry.getD r none = none) :
    Sim cfg s { s with poll := .transfer total w np2p { x with phase := .append (r + 1) } } := by
  obtain ⟨-, -, -, X⟩ := I.transfer hp
  have hfilt : x.Filtered := by simpa only [Transfer.PhaseInv, hx] using X.phase
  have hroom : s.manager.pending + (x.req2entry.length - r) +
      (w.navailable - w.ntotal - x.operations.length) ≤ s.manager.capacityCtrl.capacity := by
    simpa only [Transfer.toAppend, hx] using X.room
  refine transfer_stutter I hf hp rfl rfl rfl ?_ ?_ ?_
  · exact {
      __ := X
      issued := by simpa only [Transfer.Issued, hx] using X.issued
      room := by simp only [Transfer.toAppend]; omega
      phase := hfilt }
  · have hrange : List.range' r (x.req2entry.length - r) =
        r :: List.range' (r + 1) (x.req2entry.length - (r + 1)) := by
      rw [show x.req2entry.length - r = x.req2entry.length - (r + 1) + 1 by omega,
        List.range'_succ]
    simp only [Transfer.inflight, Transfer.waiting, hx, hrange,
      slots_cons_none ((hfilt r hlt).mpr hentry)]
    rfl
  · simp only [Transfer.undelivered, hx]

theorem appendDone_sim (I : s.Inv cfg) (hf : s.failure = none)
    (hp : s.poll = .transfer total w np2p x) (hx : x.phase = .append r)
    (hlt : ¬r < x.req2entry.length) :
    Sim cfg s { s with poll := .transfer total w np2p { x with phase := .free } } := by
  obtain ⟨-, -, -, X⟩ := I.transfer hp
  have hroom : s.manager.pending + (x.req2entry.length - r) +
      (w.navailable - w.ntotal - x.operations.length) ≤ s.manager.capacityCtrl.capacity := by
    simpa only [Transfer.toAppend, hx] using X.room
  refine transfer_stutter I hf hp rfl rfl rfl ?_ ?_ ?_
  · exact {
      __ := X
      issued := by simpa only [Transfer.Issued, hx] using X.issued
      room := by simp only [Transfer.toAppend]; omega
      phase := trivial }
  · simp only [Transfer.inflight, Transfer.waiting, hx, show x.req2entry.length - r = 0 by omega]
    rfl
  · simp only [Transfer.undelivered, hx]

theorem pollInv_nextWindow {consumer : Consumer Nat} {m : TicketManager} {log : List Event}
    (hcons : consumer = .idle) (hact : m.arrays.Active 0 m.pending)
    (hw : w.Fits m.pending m.capacityCtrl.capacity) :
    PollInv cfg m consumer log (nextWindow total w np2p ncoll) := by
  unfold nextWindow
  split
  · exact ⟨hcons, hact, hw⟩
  · exact ⟨hcons, hact⟩

theorem Inv.free_fits (I : s.Inv cfg) (hp : s.poll = .transfer total w np2p x) :
    x.operations.length ≤ cfg.sizes.objects x.kind - (s.allocators x.kind).central.length := by
  have hcard := congrArg Multiset.card (I.objects x.kind)
  simp only [ObjAllocator.unused, live, hp, Poll.transferring, if_true, Multiset.card_add,
    Multiset.coe_card, Multiset.card_range] at hcard
  omega

/-- The objects of the batch are given back. -/
theorem freed_sim (I : s.Inv cfg) (hf : s.failure = none)
    (hp : s.poll = .transfer total w np2p x) (hx : x.phase = .free) (hplain : p.plain)
    (hpinv : PollInv cfg s.manager s.p2pOperations.consumer s.log p) :
    Sim cfg s { s with
      allocators := update s.allocators x.kind
        ((s.allocators x.kind).free (cfg.sizes.objects x.kind) x.operations)
      poll := p } := by
  obtain ⟨hcons, hact, hw, X⟩ := I.transfer hp
  have hissued : x.tickets.length = x.operations.length := by
    simpa only [Transfer.Issued, hx] using X.issued
  refine .ok hf ?_ ?_
  · exact {
      __ := I
      objects := by
        intro k
        have := I.objects k
        simp only [live, hp, Poll.transferring] at this
        rw [← this]
        simp only [live, transferring_of_plain hplain]
        by_cases hk : k = x.kind
        · subst hk
          rw [Function.update_self, ObjAllocator.unused_free (I.free_fits hp)]
          simp only [if_true, queued]
          abel
        · rw [Function.update_of_ne hk]
          simp only [Ne.symm hk, if_false]
          rfl
      poll := hpinv }
  · convert Life.Steps.refl using 1
    ext1 <;> try rfl
    · refine (batch_of_plain hplain).trans ?_
      simp only [life, batch, hp, hissued, List.drop_length, hcons, Consumer.vals, List.map_nil]
    · refine (inflight_of_plain hplain).trans ?_
      simp only [life, inflight, hp, Transfer.inflight, Transfer.waiting, hx, slots_nil, add_zero]
    · have hold : s.undelivered cfg = [] := by
        simp only [undelivered, hp, Transfer.undelivered, hx]
      simp only [life, hold]
      exact congrArg _ (undelivered_of_plain hplain)

theorem free_sim (I : s.Inv cfg) (hf : s.failure = none)
    (hp : s.poll = .transfer total w np2p x) (hx : x.phase = .free)
    (h : s.transferStep cfg total w np2p x a = some s') : Sim cfg s s' := by
  obtain ⟨hcons, hact, hw, X⟩ := I.transfer hp
  have hroom : s.manager.pending + 0 +
      (w.navailable - w.ntotal - x.operations.length) ≤ s.manager.capacityCtrl.capacity := by
    simpa only [Transfer.toAppend, hx] using X.room
  have hcount := X.count_le
  have hfits : ({ w with ntotal := w.ntotal + x.operations.length } : Window).Fits
      s.manager.pending s.manager.capacityCtrl.capacity :=
    ⟨by dsimp only; omega, by dsimp only; omega⟩
  simp only [transferStep, hx, if_neg (Nat.not_lt.mpr (I.free_fits hp))] at h
  cases h
  refine freed_sim I hf hp hx ?_ ?_
  · split
    · rfl
    · exact plain_nextWindow
  · split
    · exact ⟨hcons, hact, hfits⟩
    · exact pollInv_nextWindow hcons hact hfits

/-- `transferOperations`, step by step. -/
theorem transferStep_sim (I : s.Inv cfg) (HL : (s.life cfg).Inv) (hf : s.failure = none)
    (hp : s.poll = .transfer total w np2p x)
    (hasc : ∀ is, a = .some is → is.Pairwise (· < ·))
    (h : s.transferStep cfg total w np2p x a = some s') : Sim cfg s s' := by
  cases hx : x.phase with
  | issue =>
    simp only [transferStep, hx] at h
    split at h
    · rename_i object hobj
      split at h
      · cases h
        exact .failed rfl (by split <;> trivial) (by split <;> nofun) rfl rfl
      · rename_i hcall
        obtain ⟨p, hissue, rfl⟩ := Option.map_eq_some_iff.mp h
        exact issue_sim I hf hp hx hobj hcall hissue
      · cases h
    · rename_i hobj
      cases h
      exact issueDone_sim I hf hp hx hobj
  | test t => exact test_sim I HL hf hp hx hasc h
  | filter c n =>
    simp only [transferStep, hx] at h
    split at h
    · rename_i hlt
      obtain ⟨entry, hentry, hsim⟩ := filter_sim I hf hp hx hlt
      simp only [hentry] at h
      cases h
      exact hsim
    · cases h
      exact filterDone_sim I hf hp hx ‹_›
  | process c =>
    simp only [transferStep, hx] at h
    split at h
    · rename_i hlt
      have hsim := process_ticket_sim I hf hp hx hlt
      split at h <;> cases h
      · rwa [if_pos ‹_›] at hsim
      · rwa [if_neg ‹_›] at hsim
    · cases h
      exact processDone_sim I hf hp hx ‹_›
  | handoff => exact handoff_sim I hf hp hx h
  | append r =>
    simp only [transferStep, hx] at h
    split at h
    · split at h <;> cases h
      · exact appendSkip_sim I hf hp hx ‹_› ‹_›
      · exact append_sim I hf hp hx ‹_› ‹_›
    · cases h
      exact appendDone_sim I hf hp hx ‹_›
  | free => exact free_sim I hf hp hx h

end Sys

end Tampi
