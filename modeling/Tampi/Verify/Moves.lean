import Tampi.Verify.Agents
import Tampi.Verify.Check
import Tampi.Verify.Transfer

/-! # What a step of the polling task can do

`PollMove` has one constructor for each branch of `pollStep` that does not stop the process, with the
guards of the branch, and `PollStop` one for each check that does. They are an inversion of the code
(`pollMove_or_stop`), whatever the order MPI reports requests in; the properties of whole calls
below go through it. -/

namespace Tampi
open Function (update)

/-- The MPI calls of `internalTestRequests` and their answers. -/
inductive TestMove (t : Test) (b : Buffers) : TestingApproach → Answer → TestResult → Prop
  | testsome : t.undefined b 0 = false → (∀ i ∈ is, i < t.count) →
    t.reportAll b.call is = some (t', b') →
    TestMove t b .testSome (.some is) (.returned t'.completed b')
  | testanyNone : t.next < t.count → t.undefined b t.next = false →
    TestMove t b .testAny (.any none) (.returned t.completed b.call)
  | testany : t.undefined b t.next = false → index + t.next < t.count →
    t.report b.call (index + t.next) = some (t', b') →
    TestMove t b .testAny (.any (some index)) (.running { t' with next := index + t.next + 1 } b')
  | testanyEnd : ¬ t.next < t.count → TestMove t b .testAny a (.returned t.completed b)
  | testNull : t.next < t.count → b.requests (t.roff + t.next) = none →
    TestMove t b .test a (.running { t with next := t.next + 1, completed := t.completed + 1 }
      { b.call with
        indices := update b.indices (t.ioff + t.completed) t.next
        statuses := update b.statuses t.completed default })
  | test : t.next < t.count → t.report b.call t.next = some (t', b') →
    TestMove t b .test (.flag true) (.running { t' with next := t.next + 1 } b')
  | testNot : t.next < t.count → b.requests (t.roff + t.next) ≠ none →
    TestMove t b .test (.flag false) (.running { t with next := t.next + 1 } b.call)
  | testEnd : ¬ t.next < t.count → TestMove t b .test a (.returned t.completed b)
  | none : TestMove t b .none a (.returned 0 b)

theorem testMove_of_test {t : Test} {b : Buffers}
    (h : internalTestRequests approach t b a = some res) (hres : ∀ b', res ≠ .failed b') :
    TestMove t b approach a res := by
  unfold internalTestRequests at h
  split at h
  · split at h
    · exact absurd (Option.some.inj h).symm (hres _)
    · split at h
      · split at h
        · rename_i hall
          obtain ⟨p, hp, rfl⟩ := Option.map_eq_some_iff.mp h
          exact .testsome (Bool.eq_false_of_not_eq_true ‹_›) (by simpa using hall) hp
        · cases h
      · cases h
  · split at h
    · split at h
      · exact absurd (Option.some.inj h).symm (hres _)
      · have hdef := Bool.eq_false_of_not_eq_true ‹_›
        split at h
        · cases h
          exact .testanyNone ‹_› hdef
        · dsimp only at h
          split at h
          · obtain ⟨p, hp, rfl⟩ := Option.map_eq_some_iff.mp h
            exact .testany hdef ‹_› hp
          · cases h
        · cases h
    · cases h
      exact .testanyEnd ‹_›
  · split at h
    · split at h
      · cases h
        exact .testNull ‹_› ‹_›
      · obtain ⟨p, hp, rfl⟩ := Option.map_eq_some_iff.mp h
        exact .test ‹_› hp
      · cases h
        exact .testNot ‹_› ‹_›
      · cases h
    · cases h
      exact .testEnd ‹_›
  · cases h
    exact .none

/-- MPI knows an active request of the slice. -/
theorem Test.defined {t : Test} {b : Buffers} (hi : first ≤ i) (hlt : i < t.count)
    (h : b.requests (t.roff + i) ≠ none) : t.undefined b first = false := by
  refine List.all_eq_false.mpr ⟨i - first, List.mem_range.mpr (by omega), ?_⟩
  rwa [Nat.add_assoc, Nat.add_sub_cancel' hi, Option.isNone_iff_eq_none]

/-- Every call of a test has an answer. -/
theorem exists_answer (approach : TestingApproach) (t : Test) (b : Buffers) :
    ∃ a res, internalTestRequests approach t b a = some res ∧
      ∀ is, a = .some is → is.Pairwise (· < ·) := by
  unfold internalTestRequests
  cases approach with
  | testSome =>
    refine ⟨.some [], ?_⟩
    dsimp only
    split
    · exact ⟨_, rfl, fun is h => by cases h; exact .nil⟩
    · exact ⟨_, rfl, fun is h => by cases h; exact .nil⟩
  | testAny =>
    refine ⟨.any none, ?_⟩
    dsimp only
    split
    · split <;> exact ⟨_, rfl, nofun⟩
    · exact ⟨_, rfl, nofun⟩
  | test =>
    refine ⟨.flag false, ?_⟩
    dsimp only
    split
    · cases b.requests (t.roff + t.next) <;> exact ⟨_, rfl, nofun⟩
    · exact ⟨_, rfl, nofun⟩
  | none => exact ⟨.silent, _, rfl, nofun⟩

/-- While the requests to come are active a test does not stop the process. -/
theorem not_failed {t : Test} {b : Buffers}
    (hactive : ∀ i, t.next ≤ i → i < t.count → b.requests (t.roff + i) ≠ none)
    (hsome : approach = .testSome → t.next < t.count) :
    internalTestRequests approach t b a ≠ some (.failed b') := by
  have hdef {first : Nat} (h : t.next < t.count) (hle : first ≤ t.next) :
      t.undefined b first = false :=
    Test.defined hle h (hactive t.next (Nat.le_refl _) h)
  intro h
  unfold internalTestRequests at h
  split at h
  · rw [if_neg (by simp [hdef (hsome rfl) (Nat.zero_le _)])] at h
    split at h
    · split at h
      · obtain ⟨p, -, hp⟩ := Option.map_eq_some_iff.mp h
        cases hp
      · cases h
    · cases h
  · split at h
    next hlt =>
      rw [if_neg (by simp [hdef hlt (Nat.le_refl _)])] at h
      split at h
      · cases h
      · dsimp only at h
        split at h
        · obtain ⟨p, -, hp⟩ := Option.map_eq_some_iff.mp h
          cases hp
        · cases h
      · cases h
    next => cases h
  · split at h
    · split at h
      · cases h
      · obtain ⟨p, -, hp⟩ := Option.map_eq_some_iff.mp h
        cases hp
      · cases h
      · cases h
    · cases h
  · cases h

namespace Sys
variable {cfg : Config} {s s' : Sys}

/-- The arrays `transferOperations` tests. -/
def transferBuffers (s : Sys) (x : Transfer) : Buffers :=
  ⟨x.requests, x.testcompl2req, x.statuses, s.mpi, s.log⟩

/-- A step inside `transferOperations`, without the poll point. -/
inductive TransferMove (cfg : Config) (s : Sys) (x : Transfer) :
    Answer → Sys → Transfer → Prop
  | issueNull : x.phase = .issue → x.operations[x.tickets.length]? = some object →
    (s.objects x.kind object).issue = some call →
    TransferMove cfg s x (.issued none)
      { s with log := s.log ++ [.issue (s.objects x.kind object).id call none] }
      { x with
        tickets := x.tickets ++ [.ofOp (s.objects x.kind object)]
        requests := update x.requests x.req2entry.length none
        complentries := x.complentries ++ [x.tickets.length] }
  | issue : x.phase = .issue → x.operations[x.tickets.length]? = some object →
    (s.objects x.kind object).issue = some call → s.mpi h = none →
    TransferMove cfg s x (.issued (some h))
      { s with
        mpi := update s.mpi h (some ⟨(s.objects x.kind object).id, none⟩)
        log := s.log ++ [.issue (s.objects x.kind object).id call (some h)] }
      { x with
        tickets := x.tickets ++ [.ofOp (s.objects x.kind object)]
        requests := update x.requests x.req2entry.length (some h)
        req2entry := x.req2entry ++ [some x.tickets.length] }
  | issued : x.phase = .issue → x.operations.length ≤ x.tickets.length →
    TransferMove cfg s x a s { x with
      phase := if 0 < x.req2entry.length then .test (.start 0 0 x.req2entry.length)
        else .filter 0 0 }
  | test : x.phase = .test t →
    TestMove t (s.transferBuffers x) cfg.immediateTesting a (.running t' b) →
    TransferMove cfg s x a { s with mpi := b.mpi, log := b.log }
      { x with
        requests := b.requests, testcompl2req := b.indices, statuses := b.statuses
        phase := .test t' }
  | tested : x.phase = .test t →
    TestMove t (s.transferBuffers x) cfg.immediateTesting a (.returned n b) →
    TransferMove cfg s x a { s with mpi := b.mpi, log := b.log }
      { x with
        requests := b.requests, testcompl2req := b.indices, statuses := b.statuses
        phase := .filter 0 n }
  | filter : x.phase = .filter c n → c < n →
    x.req2entry.getD (x.testcompl2req c) none = some entry →
    TransferMove cfg s x a (s.stored (x.ticketAt entry) (x.statuses c)) (x.mark c n entry)
  | filtered : x.phase = .filter c n → ¬ c < n →
    TransferMove cfg s x a s { x with phase := .process 0 }
  | collect : x.phase = .process c → c < x.complentries.length → cfg.completionEnabled →
    TransferMove cfg s x a s { x with
      contexts := x.contexts ++ [(x.ticketAt (x.complentries.getD c 0)).context]
      phase := .process (c + 1) }
  | complete : x.phase = .process c → c < x.complentries.length → cfg.completionEnabled = false →
    TransferMove cfg s x a (s.complete (x.ticketAt (x.complentries.getD c 0)).context)
      { x with phase := .process (c + 1) }
  | processed : x.phase = .process c → ¬ c < x.complentries.length →
    TransferMove cfg s x a s { x with phase := .handoff }
  | handoff : x.phase = .handoff → cfg.completionEnabled → 0 < x.complentries.length →
    TransferMove cfg s x a { s with
      completions := ⟨s.completions.contents ++ x.contexts, s.completions.unreleased⟩
      log := s.log ++ x.contexts.map .transfer } { x with phase := .append 0 }
  | keep : x.phase = .handoff → ¬ (cfg.completionEnabled ∧ 0 < x.complentries.length) →
    TransferMove cfg s x a s { x with phase := .append 0 }
  | skip : x.phase = .append r → r < x.req2entry.length → x.req2entry.getD r none = none →
    TransferMove cfg s x a s { x with phase := .append (r + 1) }
  | append : x.phase = .append r → r < x.req2entry.length →
    x.req2entry.getD r none = some entry →
    TransferMove cfg s x a { s with
      manager := { s.manager with
        arrays := (s.manager.arrays.allocateTicket s.manager.pending
          (x.ticketAt entry)).associateRequest s.manager.pending (x.requests r) s.manager.pending 0
        pending := s.manager.pending + 1 } } { x with phase := .append (r + 1) }
  | appended : x.phase = .append r → ¬ r < x.req2entry.length →
    TransferMove cfg s x a s { x with phase := .free }

/-- The arrays `internalCheckRequests` tests. -/
def checkBuffers (s : Sys) : Buffers :=
  ⟨s.manager.arrays.requests, s.manager.arrays.indices, s.manager.arrays.statuses, s.mpi, s.log⟩

/-- The state after a step of the test of a batch. -/
def batchTested (s : Sys) (b : Buffers) : Sys :=
  { s with
    manager := { s.manager with
      arrays := { s.manager.arrays with
        requests := b.requests, indices := b.indices, statuses := b.statuses } }
    mpi := b.mpi
    log := b.log }

/-- The index of a completed request becomes a position. -/
def corrected (s : Sys) (k : Check) (c : Nat) : Sys :=
  { s with
    manager := { s.manager with
      arrays := { s.manager.arrays with
        indices := update s.manager.arrays.indices (k.completed + c)
          (s.manager.arrays.indices (k.completed + c) + k.checked) } } }

/-- The state after the status of the `c`-th completed request of the batch is stored. -/
def checkStored (s : Sys) (k : Check) (c : Nat) : Sys :=
  let index := s.manager.arrays.indices (k.completed + c) + k.checked
  let ticket := s.manager.arrays.getAssociatedTicket index
  if ticket.ignoreStatus then s.corrected k c
  else (s.corrected k c).storeStatus ticket (s.manager.arrays.statuses c)
    (s.manager.arrays.getLocalPositionInTicket index)

/-- The context of the `c`-th completed request of the batch. -/
def deliveredContext (s : Sys) (k : Check) (c : Nat) : TaskContext :=
  (s.manager.arrays.getAssociatedTicket (s.manager.arrays.indices (k.completed + c))).context

/-- A step inside `internalCheckRequests`, without the poll point. -/
inductive CheckMove (cfg : Config) (s : Sys) (k : Check) : Answer → Sys → Check → Prop
  | test : k.phase = .test t →
    TestMove t s.checkBuffers cfg.generalTesting a (.running t' b) →
    CheckMove cfg s k a (s.batchTested b) { k with phase := .test t' }
  | tested : k.phase = .test t →
    TestMove t s.checkBuffers cfg.generalTesting a (.returned n b) →
    CheckMove cfg s k a (s.batchTested b) { k with phase := .store 0 n }
  | store : k.phase = .store c n → c < n →
    CheckMove cfg s k a (s.checkStored k c) { k with phase := .deliver c n }
  | stored : k.phase = .store c n → ¬ c < n →
    CheckMove cfg s k a s { k with phase := .handoff n }
  | collect : k.phase = .deliver c n → cfg.completionEnabled →
    CheckMove cfg s k a s { k with
      contexts := k.contexts ++ [s.deliveredContext k c], phase := .store (c + 1) n }
  | complete : k.phase = .deliver c n → cfg.completionEnabled = false →
    CheckMove cfg s k a (s.complete (s.deliveredContext k c)) { k with phase := .store (c + 1) n }
  | handoff : k.phase = .handoff n → cfg.completionEnabled → 0 < n →
    CheckMove cfg s k a { s with
      completions := ⟨s.completions.contents ++ k.contexts, s.completions.unreleased⟩
      log := s.log ++ k.contexts.map .transfer } (k.advance s.manager.pending n)
  | keep : k.phase = .handoff n → ¬ (cfg.completionEnabled ∧ 0 < n) →
    CheckMove cfg s k a s (k.advance s.manager.pending n)

/-- A step of `checkRequests`. -/
inductive PollMove (cfg : Config) (s : Sys) : Answer → Sys → Prop
  | enter : s.poll = .idle → PollMove cfg s a { s with poll := .top 0 }
  | top : s.poll = .top total → s.manager.pending < s.manager.capacityCtrl.capacity →
    PollMove cfg s a { s with
      poll := .p2p total
        ⟨min (s.manager.capacityCtrl.capacity - s.manager.pending) (BatchSize * 2), 0⟩ }
  | full : s.poll = .top total → ¬ s.manager.pending < s.manager.capacityCtrl.capacity →
    PollMove cfg s a { s with poll := .bottom total 0 }
  | pop : s.poll = .p2p total w →
    PollMove cfg s a { s with
      p2pOperations := s.p2pOperations.pop cfg.queue (min (w.navailable - w.ntotal) BatchSize)
      poll := .popping total w }
  | popping : s.poll = .popping total w → s.p2pOperations.consumerStep cfg.queue = some q →
    PollMove cfg s a { s with p2pOperations := q }
  | noP2P : s.poll = .popping total w → s.p2pOperations.consumer = .returned [] →
    PollMove cfg s a { s with
      p2pOperations := { s.p2pOperations with consumer := .idle }
      poll := .coll total w 0 }
  | takeP2P : s.poll = .popping total w → s.p2pOperations.consumer = .returned os →
    os ≠ [] → os.length ≤ BatchSize →
    s.manager.pending + os.length ≤ s.manager.capacityCtrl.capacity →
    PollMove cfg s a { s with
      p2pOperations := { s.p2pOperations with consumer := .idle }
      poll := .transfer total w 0 (.start .p2p os) }
  | noColl : s.poll = .coll total w np2p →
    s.collOperations.take (min (w.navailable - w.ntotal) BatchSize) = [] →
    PollMove cfg s a { s with
      collOperations := s.collOperations.drop (min (w.navailable - w.ntotal) BatchSize)
      poll := nextWindow total w np2p 0 }
  | takeColl : s.poll = .coll total w np2p →
    s.collOperations.take (min (w.navailable - w.ntotal) BatchSize) = os → os ≠ [] →
    os.length ≤ BatchSize →
    s.manager.pending + os.length ≤ s.manager.capacityCtrl.capacity →
    PollMove cfg s a { s with
      collOperations := s.collOperations.drop (min (w.navailable - w.ntotal) BatchSize)
      poll := .transfer total w np2p (.start .coll os) }
  | transfer : s.poll = .transfer total w np2p x → TransferMove cfg s x a s₁ x' →
    PollMove cfg s a { s₁ with poll := .transfer total w np2p x' }
  | free : s.poll = .transfer total w np2p x → x.phase = .free →
    x.operations.length ≤ cfg.sizes.objects x.kind - (s.allocators x.kind).central.length →
    PollMove cfg s a { s with
      allocators := update s.allocators x.kind
        ((s.allocators x.kind).free (cfg.sizes.objects x.kind) x.operations)
      poll := match x.kind with
        | .p2p => .coll total { w with ntotal := w.ntotal + x.operations.length } x.operations.length
        | .coll => nextWindow total { w with ntotal := w.ntotal + x.operations.length } np2p
          x.operations.length }
  | bottom : s.poll = .bottom total inserted → 0 < s.manager.pending →
    PollMove cfg s a { s with poll := .check total inserted (.batch s.manager.pending 0 0) }
  | bottomEmpty : s.poll = .bottom total inserted → ¬ 0 < s.manager.pending →
    PollMove cfg s a { s with poll := nextRound total inserted 0 }
  | check : s.poll = .check total inserted k → CheckMove cfg s k a s₁ k' →
    PollMove cfg s a { s₁ with poll := .check total inserted k' }
  | replace : s.poll = .check total inserted k → k.phase = .replace →
    s.manager.arrays.replace s.manager.pending k.completed = some arrays →
    PollMove cfg s a { s with
      manager := { s.manager with
        arrays := arrays, pending := s.manager.pending - k.completed }
      poll := nextRound total inserted k.completed }
  | evaluate : s.poll = .evaluate total →
    PollMove cfg s (.now ms) { s with
      manager := { s.manager with
        capacityCtrl := s.manager.capacityCtrl.evaluate s.manager.pending total ms }
      poll := .idle }

/-- A failure of `transferOperations`, with the check that fails. -/
inductive TransferStop (cfg : Config) (s : Sys) (x : Transfer) (a : Answer) : Failure → Prop
  | invalidOperation : TransferStop cfg s x a .invalidOperation
  | invalidCollOperation : TransferStop cfg s x a .invalidCollOperation
  | testsome : x.phase = .test t →
    internalTestRequests cfg.immediateTesting t (s.transferBuffers x) a = some (.failed b) →
    TransferStop cfg s x a .testsome
  | testany : x.phase = .test t →
    internalTestRequests cfg.immediateTesting t (s.transferBuffers x) a = some (.failed b) →
    TransferStop cfg s x a .testany
  | filter : x.phase = .filter c n → c < n →
    x.req2entry.getD (x.testcompl2req c) none = none →
    TransferStop cfg s x a (.assertion "0 <= req2entry[req]")
  | contextsFull : TransferStop cfg s x a .contextsFull
  | free : x.phase = .free →
    cfg.sizes.objects x.kind - (s.allocators x.kind).central.length < x.operations.length →
    TransferStop cfg s x a (.assertion "pushed == n")

/-- A failure of `internalCheckRequests`. -/
inductive CheckStop : Failure → Prop
  | testsome : CheckStop .testsome
  | testany : CheckStop .testany
  | contextsFull : CheckStop .contextsFull

/-- A failure of `checkRequests`. -/
inductive PollStop (cfg : Config) (s : Sys) (a : Answer) : Failure → Prop
  | enterTransfer : (∀ total w np2p x, s.poll ≠ .transfer total w np2p x) →
    PollStop cfg s a (.assertion condition)
  | transfer : s.poll = .transfer total w np2p x → TransferStop cfg s x a f → PollStop cfg s a f
  | check : s.poll = .check total inserted k → CheckStop f → PollStop cfg s a f
  | replace : s.poll = .check total inserted k →
    PollStop cfg s a (.assertion "source != destination")

/-! ## Inversion -/

/-- A hand-off stops the process, or gives all contexts to the completion queue. -/
theorem handoff_cases (cfg : Config) (n : Nat) (contexts : List TaskContext)
    (hs : s.failure = none) :
    let t := if cfg.completionEnabled ∧ 0 < n then s.transferContexts cfg contexts else s
    t.failure = some .contextsFull ∨ t.failure = none ∧
      ((cfg.completionEnabled ∧ 0 < n) ∧ t = { s with
        completions := ⟨s.completions.contents ++ contexts, s.completions.unreleased⟩
        log := s.log ++ contexts.map .transfer } ∨
      ¬ (cfg.completionEnabled ∧ 0 < n) ∧ t = s) := by
  dsimp only
  by_cases hc : cfg.completionEnabled ∧ 0 < n
  · rw [if_pos hc]
    rcases transferContexts_cases cfg s contexts with ⟨hfail, -⟩ | heq
    · exact .inl hfail
    · exact .inr ⟨heq ▸ hs, .inl ⟨hc, heq⟩⟩
  · rw [if_neg hc]
    exact .inr ⟨hs, .inr ⟨hc, rfl⟩⟩

theorem goto_advance {k : Check} (s : Sys) :
    (if k.checked + min (s.manager.pending - k.checked) BatchSize < s.manager.pending then
      { s with
        poll := .check total inserted (.batch s.manager.pending
          (k.checked + min (s.manager.pending - k.checked) BatchSize) (k.completed + n)) }
    else
      { s with
        poll := .check total inserted ⟨k.checked + min (s.manager.pending - k.checked) BatchSize,
          k.completed + n, [], .replace⟩ }) =
      { s with poll := .check total inserted (k.advance s.manager.pending n) } := by
  unfold Check.advance Check.count
  split <;> rfl

theorem transferMove_or_stop {x : Transfer}
    (h : s.transferStep cfg total w np2p x a = some s') (hs : s.failure = none)
    (hx : x.phase ≠ .free) :
    (∃ f, s'.failure = some f ∧ TransferStop cfg s x a f) ∨
      ∃ s₁ x', TransferMove cfg s x a s₁ x' ∧
        s' = { s₁ with poll := .transfer total w np2p x' } := by
  unfold transferStep at h
  dsimp only at h
  split at h
  next hp =>
    split at h
    next object hobj =>
      split at h
      · cases h
        refine .inl ⟨_, rfl, ?_⟩
        split
        · exact .invalidOperation
        · exact .invalidCollOperation
      · rename_i call request hcall
        obtain ⟨p, hissue, rfl⟩ := Option.map_eq_some_iff.mp h
        unfold issue at hissue
        cases request with
        | none =>
          cases hissue
          exact .inr ⟨_, _, .issueNull hp hobj hcall, rfl⟩
        | some r =>
          dsimp only at hissue
          split at hissue
          · cases hissue
            exact .inr ⟨_, _, .issue hp hobj hcall ‹_›, rfl⟩
          · cases hissue
      · cases h
    next hobj =>
      cases h
      exact .inr ⟨_, _, .issued hp (List.getElem?_eq_none_iff.mp hobj), rfl⟩
  next t hp =>
    obtain ⟨res, htest, rfl⟩ := Option.map_eq_some_iff.mp h
    cases res with
    | failed b =>
      refine .inl ⟨_, rfl, ?_⟩
      split
      · exact .testsome hp htest
      · exact .testany hp htest
    | running t' b => exact .inr ⟨_, _, .test hp (testMove_of_test htest nofun), rfl⟩
    | returned n b => exact .inr ⟨_, _, .tested hp (testMove_of_test htest nofun), rfl⟩
  next c n hp =>
    split at h
    · split at h
      · cases h
        exact .inl ⟨_, rfl, .filter hp ‹_› ‹_›⟩
      · cases h
        exact .inr ⟨_, _, .filter hp ‹_› ‹_›, rfl⟩
    · cases h
      exact .inr ⟨_, _, .filtered hp ‹_›, rfl⟩
  next c hp =>
    split at h
    · split at h
      · cases h
        exact .inr ⟨_, _, .collect hp ‹_› ‹_›, rfl⟩
      · cases h
        exact .inr ⟨_, _, .complete hp ‹_› (Bool.eq_false_of_not_eq_true ‹_›), rfl⟩
    · cases h
      exact .inr ⟨_, _, .processed hp ‹_›, rfl⟩
  next hp =>
    cases h
    rcases handoff_cases cfg x.complentries.length x.contexts hs with hfail | ⟨hnone, hcases⟩
    · rw [if_pos (by simp [hfail])]
      exact .inl ⟨_, hfail, .contextsFull⟩
    rw [if_neg (by simp [hnone])]
    rcases hcases with ⟨hc, heq⟩ | ⟨hc, heq⟩ <;> rw [heq]
    · exact .inr ⟨_, _, .handoff hp hc.1 hc.2, rfl⟩
    · exact .inr ⟨_, _, .keep hp hc, rfl⟩
  next r hp =>
    split at h
    · split at h
      · cases h
        exact .inr ⟨_, _, .skip hp ‹_› ‹_›, rfl⟩
      · cases h
        exact .inr ⟨_, _, .append hp ‹_› ‹_›, rfl⟩
    · cases h
      exact .inr ⟨_, _, .appended hp ‹_›, rfl⟩
  next hp => exact absurd hp hx

theorem checkMove_or_stop {k : Check} (h : s.checkStep cfg total inserted k a = some s')
    (hs : s.failure = none) (hk : k.phase ≠ .replace) :
    (∃ f, s'.failure = some f ∧ CheckStop f) ∨
      ∃ s₁ k', CheckMove cfg s k a s₁ k' ∧ s' = { s₁ with poll := .check total inserted k' } := by
  unfold checkStep at h
  dsimp only at h
  split at h
  next t hp =>
    obtain ⟨res, htest, rfl⟩ := Option.map_eq_some_iff.mp h
    cases res with
    | failed b =>
      refine .inl ⟨_, rfl, ?_⟩
      split
      · exact .testsome
      · exact .testany
    | running t' b => exact .inr ⟨_, _, .test hp (testMove_of_test htest nofun), rfl⟩
    | returned n b => exact .inr ⟨_, _, .tested hp (testMove_of_test htest nofun), rfl⟩
  next c n hp =>
    split at h
    · cases h
      exact .inr ⟨_, _, .store hp ‹_›, rfl⟩
    · cases h
      exact .inr ⟨_, _, .stored hp ‹_›, rfl⟩
  next c n hp =>
    split at h
    · cases h
      exact .inr ⟨_, _, .collect hp ‹_›, rfl⟩
    · cases h
      exact .inr ⟨_, _, .complete hp (Bool.eq_false_of_not_eq_true ‹_›), rfl⟩
  next n hp =>
    cases h
    rcases handoff_cases cfg n k.contexts hs with hfail | ⟨hnone, hcases⟩
    · rw [if_pos (by simp [hfail])]
      exact .inl ⟨_, hfail, .contextsFull⟩
    rw [if_neg (by simp [hnone]), goto_advance]
    rcases hcases with ⟨hc, heq⟩ | ⟨hc, heq⟩ <;> rw [heq]
    · exact .inr ⟨_, _, .handoff hp hc.1 hc.2, rfl⟩
    · exact .inr ⟨_, _, .keep hp hc, rfl⟩
  next hp => exact absurd hp hk

theorem enterTransfer_cases (q : MultiLockFreeQueue Nat) (coll : List Nat) (os : List Nat) :
    (∃ c, (({ s with p2pOperations := q, collOperations := coll } : Sys).enterTransfer total w
      np2p kind os).failure = some (.assertion c)) ∨
    os.length ≤ BatchSize ∧ s.manager.pending + os.length ≤ s.manager.capacityCtrl.capacity ∧
      ({ s with p2pOperations := q, collOperations := coll } : Sys).enterTransfer total w np2p
        kind os = { s with
          p2pOperations := q
          collOperations := coll
          poll := .transfer total w np2p (.start kind os) } := by
  unfold enterTransfer
  split
  next => exact .inl ⟨_, rfl⟩
  next hlen =>
    split
    next => exact .inl ⟨_, rfl⟩
    next hcap => exact .inr ⟨Nat.le_of_not_lt hlen, Nat.le_of_not_lt hcap, rfl⟩

/-- A step of the polling task stops the process, or is one of the moves. -/
theorem pollMove_or_stop (h : s.pollStep cfg a = some s') (hs : s.failure = none) :
    (∃ f, s'.failure = some f ∧ PollStop cfg s a f) ∨ PollMove cfg s a s' := by
  unfold pollStep at h
  split at h
  next hp =>
    cases h
    exact .inr (.enter hp)
  next total hp =>
    cases h
    split
    · exact .inr (.top hp ‹_›)
    · exact .inr (.full hp ‹_›)
  next total w hp =>
    cases h
    exact .inr (.pop hp)
  next total w hp =>
    split at h
    next os hc =>
      dsimp only at h
      split at h
      next hnil =>
        cases h
        exact .inr (.noP2P hp (hnil ▸ hc))
      next hne =>
        cases h
        rcases enterTransfer_cases _ s.collOperations os with ⟨c, hc⟩ | ⟨h₁, h₂, heq⟩
        · exact .inl ⟨_, hc, .enterTransfer (by simp [hp])⟩
        · exact .inr (heq ▸ .takeP2P hp hc hne h₁ h₂)
    next =>
      obtain ⟨q, hq, rfl⟩ := Option.map_eq_some_iff.mp h
      exact .inr (.popping hp hq)
  next total w np2p hp =>
    dsimp only at h
    split at h
    next hnil =>
      cases h
      exact .inr (.noColl hp hnil)
    next hne =>
      cases h
      rcases enterTransfer_cases s.p2pOperations _ _ with ⟨c, hc⟩ | ⟨h₁, h₂, heq⟩
      · exact .inl ⟨_, hc, .enterTransfer (by simp [hp])⟩
      · exact .inr (heq ▸ .takeColl hp rfl hne h₁ h₂)
  next total w np2p x hp =>
    by_cases hx : x.phase = .free
    · unfold transferStep at h
      simp only [hx] at h
      split at h
      next hfull =>
        cases h
        exact .inl ⟨_, rfl, .transfer hp (.free hx hfull)⟩
      next hroom =>
        cases h
        exact .inr (.free hp hx (Nat.le_of_not_lt hroom))
    · rcases transferMove_or_stop h hs hx with ⟨f, hf, hstop⟩ | ⟨s₁, x', M, rfl⟩
      · exact .inl ⟨f, hf, .transfer hp hstop⟩
      · exact .inr (.transfer hp M)
  next total inserted hp =>
    cases h
    split
    · exact .inr (.bottom hp ‹_›)
    · exact .inr (.bottomEmpty hp ‹_›)
  next total inserted k hp =>
    by_cases hk : k.phase = .replace
    · unfold checkStep at h
      simp only [hk] at h
      split at h
      · cases h
        exact .inl ⟨_, rfl, .replace hp⟩
      · cases h
        exact .inr (.replace hp hk ‹_›)
    · rcases checkMove_or_stop h hs hk with ⟨f, hf, hstop⟩ | ⟨s₁, k', M, rfl⟩
      · exact .inl ⟨f, hf, .check hp hstop⟩
      · exact .inr (.check hp M)
  next total hp =>
    split at h
    · cases h
      exact .inr (.evaluate hp)
    · cases h

theorem pollMove_of_step (h : s.step cfg (.poll a) = some s') (hf : s'.failure = none) :
    PollMove cfg s a s' := by
  rcases pollMove_or_stop (step_poll h) (failure_of_step h) with ⟨f, hf', -⟩ | M
  · cases hf'.symm.trans hf
  · exact M

/-- A step is one of the polling task or one of another agent. -/
theorem move_of_step (h : s.step cfg l = some s') (hf : s'.failure = none) :
    (∃ a, l = .poll a ∧ s.PollMove cfg a s') ∨ (l.isPoll = false ∧ s.AgentMove cfg l s') := by
  by_cases hl : l.isPoll
  · cases l with
    | process | cpu | resume | completion | mpi => cases hl
    | poll a => exact .inl ⟨a, rfl, pollMove_of_step h hf⟩
  · have hl := Bool.eq_false_of_not_eq_true hl
    exact .inr ⟨hl, agentMove_of_step h hl⟩

/-! ## What the steps leave alone -/

theorem TransferMove.frame {x x' : Transfer} (M : TransferMove cfg s x a s' x') :
    PollFrame s s' ∧ x'.kind = x.kind ∧ x'.operations = x.operations := by
  cases M with
  | filter => exact ⟨(stored_frame ..).1, rfl, rfl⟩
  | handoff =>
    refine ⟨⟨rfl, rfl, rfl, rfl, rfl, rfl, rfl, rfl, rfl, ?_⟩, rfl, rfl⟩
    simp
  | _ => exact ⟨⟨rfl, rfl, rfl, rfl, rfl, rfl, rfl, rfl, rfl, Nat.le_refl _⟩, rfl, rfl⟩

theorem checkStored_eq (s : Sys) (k : Check) (c : Nat) :
    ∃ memory es, s.checkStored k c =
        { s.corrected k c with memory := memory, log := s.log ++ es } ∧
      ∀ e ∈ es, ∃ id location, e = .store id location (s.manager.arrays.statuses c) :=
  storeStatus_eq ..

theorem checkStored_frame (s : Sys) (k : Check) (c : Nat) : PollFrame s (s.checkStored k c) := by
  obtain ⟨memory, es, h, -⟩ := checkStored_eq s k c
  rw [h]
  exact ⟨rfl, rfl, rfl, rfl, rfl, rfl, rfl, rfl, rfl, Nat.le_refl _⟩

theorem CheckMove.frame {k k' : Check} (M : CheckMove cfg s k a s' k') : PollFrame s s' := by
  cases M with
  | store => exact checkStored_frame ..
  | handoff =>
    refine ⟨rfl, rfl, rfl, rfl, rfl, rfl, rfl, rfl, rfl, ?_⟩
    simp
  | _ => exact ⟨rfl, rfl, rfl, rfl, rfl, rfl, rfl, rfl, rfl, Nat.le_refl _⟩

theorem PollMove.failure (M : PollMove cfg s a s') : s'.failure = s.failure := by
  cases M with
  | transfer _ M => exact M.frame.1.failure
  | check _ M => exact M.frame.failure
  | _ => rfl

theorem CheckMove.manager {k k' : Check} (M : CheckMove cfg s k a s' k') :
    s'.manager.pending = s.manager.pending ∧
      s'.manager.capacityCtrl = s.manager.capacityCtrl := by
  cases M with
  | store =>
    obtain ⟨memory, es, h, -⟩ := checkStored_eq s k _
    rw [h]
    exact ⟨rfl, rfl⟩
  | _ => exact ⟨rfl, rfl⟩

theorem CheckMove.phase_ne {k k' : Check} (M : CheckMove cfg s k a s' k') : k.phase ≠ .replace := by
  cases M with
  | test hp | tested hp | store hp | stored hp | collect hp | complete hp | handoff hp | keep hp =>
    rw [hp]
    nofun

/-! ## The steps a batch can take -/

/-- Some answer of MPI lets `transferOperations` go on. -/
theorem exists_transferStep (cfg : Config) (s : Sys) (total : Nat) (w : Window) (np2p : Nat)
    (x : Transfer) :
    ∃ a t, s.transferStep cfg total w np2p x a = some t ∧
      ∀ is, a = .some is → is.Pairwise (· < ·) := by
  unfold transferStep
  cases hp : x.phase with
  | issue =>
    dsimp only
    cases x.operations[x.tickets.length]? with
    | none => exact ⟨.silent, _, rfl, nofun⟩
    | some object =>
      dsimp only
      cases hcall : (s.objects x.kind object).issue with
      | none => exact ⟨.silent, _, rfl, nofun⟩
      | some call => exact ⟨.issued none, _, rfl, nofun⟩
  | test t =>
    obtain ⟨a, res, hres, hasc⟩ := exists_answer cfg.immediateTesting t (s.transferBuffers x)
    exact ⟨a, _, congrArg (Option.map _) hres, hasc⟩
  | filter c n =>
    refine ⟨.silent, ?_⟩
    dsimp only
    split
    · split <;> exact ⟨_, rfl, nofun⟩
    · exact ⟨_, rfl, nofun⟩
  | process c =>
    refine ⟨.silent, ?_⟩
    dsimp only
    split
    · split <;> exact ⟨_, rfl, nofun⟩
    · exact ⟨_, rfl, nofun⟩
  | handoff => exact ⟨.silent, _, rfl, nofun⟩
  | append r =>
    refine ⟨.silent, ?_⟩
    dsimp only
    split
    · split <;> exact ⟨_, rfl, nofun⟩
    · exact ⟨_, rfl, nofun⟩
  | free =>
    refine ⟨.silent, ?_⟩
    dsimp only
    split <;> exact ⟨_, rfl, nofun⟩

theorem exists_checkStep (cfg : Config) (s : Sys) (total inserted : Nat) (k : Check) :
    ∃ a t, s.checkStep cfg total inserted k a = some t ∧
      ∀ is, a = .some is → is.Pairwise (· < ·) := by
  unfold checkStep
  cases hp : k.phase with
  | test t =>
    obtain ⟨a, res, hres, hasc⟩ := exists_answer cfg.generalTesting t s.checkBuffers
    exact ⟨a, _, congrArg (Option.map _) hres, hasc⟩
  | store c n =>
    refine ⟨.silent, ?_⟩
    dsimp only
    split <;> exact ⟨_, rfl, nofun⟩
  | deliver c n =>
    refine ⟨.silent, ?_⟩
    dsimp only
    split <;> exact ⟨_, rfl, nofun⟩
  | handoff n => exact ⟨.silent, _, rfl, nofun⟩
  | replace =>
    refine ⟨.silent, ?_⟩
    dsimp only
    split <;> exact ⟨_, rfl, nofun⟩

end Sys

/-! ## How far a loop still has to go -/

/-- The loops still to come, the current one included. -/
def TransferPhase.rank : TransferPhase → Nat
  | .issue => 6
  | .test _ => 5
  | .filter .. => 4
  | .process _ => 3
  | .handoff => 2
  | .append _ => 1
  | .free => 0

/-- The iterations left of the current loop. -/
def Transfer.rest (x : Transfer) : Nat :=
  match x.phase with
  | .issue => x.operations.length - x.tickets.length
  | .test t => t.count - t.next
  | .filter c n => n - c
  | .process c => x.complentries.length - c
  | .append r => x.req2entry.length - r
  | .handoff | .free => 0

theorem Test.report_next {t t' : Test} {b b' : Buffers} (h : t.report b i = some (t', b')) :
    t'.next = t.next ∧ t'.count = t.count := by
  unfold Test.report at h
  split at h
  · split at h <;> cases h
    exact ⟨rfl, rfl⟩
  · cases h

theorem TestMove.next_lt {t t' : Test} {b b' : Buffers}
    (T : TestMove t b approach a (.running t' b')) :
    t.next < t.count ∧ t.next < t'.next ∧ t'.count = t.count := by
  cases T with
  | testany hdef hlt hr => exact ⟨by omega, by simp only; omega, (Test.report_next hr).2⟩
  | testNull hlt => exact ⟨hlt, Nat.lt_succ_self _, rfl⟩
  | test hlt hr => exact ⟨hlt, Nat.lt_succ_self _, (Test.report_next hr).2⟩
  | testNot hlt => exact ⟨hlt, Nat.lt_succ_self _, rfl⟩

/-- A step of `transferOperations` gets on in the current loop, or leaves it. -/
theorem Sys.TransferMove.rank_rest {cfg : Config} {s s₁ : Sys} {x x' : Transfer}
    (M : s.TransferMove cfg x a s₁ x') :
    x'.phase.rank < x.phase.rank ∨ x'.phase.rank = x.phase.rank ∧ x'.rest < x.rest := by
  cases M with
  | issueNull hp hobj | issue hp hobj =>
    have hlt := (List.getElem?_eq_some_iff.mp hobj).1
    simp [Transfer.rest, hp]
    omega
  | issued hp =>
    split <;> simp [hp, TransferPhase.rank]
  | test hp T =>
    have := T.next_lt
    simp [Transfer.rest, hp, TransferPhase.rank]
    omega
  | filter hp hlt | collect hp hlt | complete hp hlt | skip hp hlt | append hp hlt =>
    simp [Transfer.rest, Transfer.mark, hp, TransferPhase.rank]
    omega
  | tested hp | filtered hp | processed hp | handoff hp | keep hp | appended hp =>
    simp [hp, TransferPhase.rank]

def CheckPhase.rank : CheckPhase → Nat
  | .test _ => 3
  | .store .. | .deliver .. => 2
  | .handoff _ => 1
  | .replace => 0

def Check.rest (k : Check) : Nat :=
  match k.phase with
  | .test t => t.count - t.next
  | .store c n => 2 * (n - c)
  | .deliver c n => 2 * (n - (c + 1)) + 1
  | .handoff _ | .replace => 0

/-- A step of `internalCheckRequests` gets on in the current loop or leaves it, or checks one more
batch. -/
theorem Sys.CheckMove.rank_rest {cfg : Config} {s s₁ : Sys} {k k' : Check}
    (M : s.CheckMove cfg k a s₁ k') (hk : k.checked < s.manager.pending) :
    s.manager.pending - k'.checked < s.manager.pending - k.checked ∨ k'.checked = k.checked ∧
      (k'.phase.rank < k.phase.rank ∨ k'.phase.rank = k.phase.rank ∧ k'.rest < k.rest) := by
  cases M with
  | test hp T =>
    refine .inr ⟨rfl, .inr ?_⟩
    have := T.next_lt
    simp [Check.rest, hp, CheckPhase.rank]
    omega
  | store hp hlt =>
    refine .inr ⟨rfl, .inr ?_⟩
    simp [Check.rest, hp, CheckPhase.rank]
    omega
  | collect hp | complete hp =>
    refine .inr ⟨rfl, .inr ?_⟩
    simp [Check.rest, hp, CheckPhase.rank]
  | tested hp | stored hp => exact .inr ⟨rfl, .inl (by simp [hp, CheckPhase.rank])⟩
  | handoff hp | keep hp =>
    have : 0 < k.count s.manager.pending :=
      Nat.lt_min.mpr ⟨Nat.sub_pos_of_lt hk, by decide⟩
    refine .inl ?_
    unfold Check.advance
    split <;> simp only [Check.batch] <;> omega

end Tampi
