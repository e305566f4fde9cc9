import Tampi.Verify.Call

/-! # The number of completed requests

`checkRequests` counts the requests its checks find completed. What it delivers in a call is that,
plus the operations that completed while they were transferred (`Account`), so the value it returns
is the number of deliveries exactly if there were none of these. -/

namespace Tampi
open Function (update)

/-! ## What a test call reports -/

/-- The test has not come to the requests it has reported, and none of the others is null. -/
structure Test.Fresh (t : Test) (approach : TestingApproach) (requests : Nat → Request) : Prop where
  active : ∀ i, t.next ≤ i → i < t.count → requests (t.roff + i) ≠ none
  zero : approach = .none → t.completed = 0

/-- The events of test calls that report `n` requests. -/
structure Reports (n : Nat) (es : List Event) : Prop where
  completes : es.countP Event.completes = n
  delivered : es.filterMap Event.delivered = []
  issuance : es.filterMap Event.issuance = []

theorem Reports.call (h : Reports n es) : Reports n (.test :: es) :=
  ⟨by simpa [Event.completes] using h.completes, by simpa [Event.delivered] using h.delivered,
    by simpa [Event.issuance] using h.issuance⟩

/-- Stores of statuses report nothing. -/
theorem Reports.of_stores (h : ∀ e ∈ es, ∃ id location, e = .store id location status) :
    Reports 0 es where
  completes := by
    rw [List.countP_eq_zero]
    intro e he
    obtain ⟨id, location, rfl⟩ := h e he
    exact Bool.false_ne_true
  delivered := by
    rw [List.filterMap_eq_nil_iff]
    intro e he
    obtain ⟨id, location, rfl⟩ := h e he
    rfl
  issuance := by
    rw [List.filterMap_eq_nil_iff]
    intro e he
    obtain ⟨id, location, rfl⟩ := h e he
    rfl

theorem Test.reportAll_log {t : Test} {b : Buffers} (h : t.reportAll b is = some (t', b')) :
    ∃ es, b'.log = b.log ++ es ∧ Reports is.length es := by
  induction is generalizing t b with
  | nil =>
    cases h
    exact ⟨[], by simp, rfl, rfl, rfl⟩
  | cons i is ih =>
    obtain ⟨p, hp, h⟩ := Option.bind_eq_some_iff.mp h
    obtain ⟨r, owner, status, -, -, rfl⟩ := Test.report_eq_some hp
    obtain ⟨es, hlog, hes⟩ := ih h
    refine ⟨.report owner status :: es, by simp [hlog], ?_, ?_, ?_⟩
    · rw [List.countP_cons_of_pos rfl, hes.completes, List.length_cons]
    · simpa [Event.delivered] using hes.delivered
    · simpa [Event.issuance] using hes.issuance

theorem Test.reportAll_call_log {t : Test} {b : Buffers}
    (h : t.reportAll b.call is = some (t', b')) :
    ∃ es, b'.log = b.log ++ es ∧ Reports is.length es := by
  obtain ⟨es, hlog, hes⟩ := Test.reportAll_log h
  exact ⟨.test :: es, by rw [hlog]; simp [Buffers.call], hes.call⟩

theorem Test.reportAll_singleton {t : Test} {b : Buffers} (h : t.report b i = some p) :
    t.reportAll b [i] = some p := by
  simp only [reportAll, h]
  rfl

theorem Test.report_test {t : Test} {b : Buffers} (h : t.report b i = some (t', b')) :
    t' = { t with completed := t.completed + 1 } := by
  obtain ⟨_, _, _, -, -, hp⟩ := Test.report_eq_some h
  exact (Prod.mk.inj hp).1

/-- The result of a step of `internalTestRequests` that reports the positions `is`. -/
inductive Test.Result (t : Test) (is : List Nat) (t' : Test) (b' : Buffers) : TestResult → Prop
  | returned : Result t is t' b' (.returned t'.completed b')
  | running : t' = { t with completed := t.completed + is.length, next := n } →
    t.next < n → n ≤ t.count → (∀ i ∈ is, t.next ≤ i ∧ i < n) →
    Result t is t' b' (.running t' b')

theorem TestMove.reported {t : Test} {b : Buffers} (T : TestMove t b approach a res)
    (F : t.Fresh approach b.requests) :
    ∃ is t' b' es, t.Reported b is t' b' ∧ (∀ i ∈ is, i < t.count) ∧ t.Result is t' b' res ∧
      b'.log = b.log ++ es ∧ Reports is.length es := by
  have hnone : t.Reported b [] t b :=
    ⟨List.nodup_nil, by simp, rfl, by simp, fun _ _ => rfl, by simp⟩
  cases T with
  | testsome hdef hlt hr =>
    obtain ⟨es, hlog, hes⟩ := Test.reportAll_call_log hr
    obtain ⟨h₁, h₂, h₃, h₄, h₅, h₆⟩ := Test.reportAll_spec hr
    exact ⟨_, _, _, es, ⟨h₁, h₂, h₃, h₄, h₅, h₆⟩, hlt, .returned, hlog, hes⟩
  | testanyNone =>
    exact ⟨[], t, b.call, [.test], ⟨hnone.nodup, hnone.active, rfl, hnone.requests, hnone.below,
      hnone.indices⟩, by simp, .returned, rfl, rfl, rfl, rfl⟩
  | @testany index t' b' hdef hlt hr =>
    obtain ⟨es, hlog, hes⟩ := Test.reportAll_call_log (Test.reportAll_singleton hr)
    obtain ⟨h₁, h₂, h₃, h₄, h₅, h₆⟩ := Test.reportAll_spec (Test.reportAll_singleton hr)
    refine ⟨[index + t.next], { t' with next := index + t.next + 1 }, b', es,
      ⟨h₁, h₂, h₃, h₄, h₅, h₆⟩, by simpa using hlt, .running ?_ ?_ hlt ?_, hlog, hes⟩
    · rw [Test.report_test hr]
      rfl
    · exact Nat.lt_succ_of_le (Nat.le_add_left ..)
    · simp
  | testanyEnd => exact ⟨[], t, b, [], hnone, by simp, .returned, by simp, rfl, rfl, rfl⟩
  | testNull hlt hnull => exact absurd hnull (F.active t.next (Nat.le_refl _) hlt)
  | @test t' b' hlt hr =>
    obtain ⟨es, hlog, hes⟩ := Test.reportAll_call_log (Test.reportAll_singleton hr)
    obtain ⟨h₁, h₂, h₃, h₄, h₅, h₆⟩ := Test.reportAll_spec (Test.reportAll_singleton hr)
    refine ⟨[t.next], { t' with next := t.next + 1 }, b', es,
      ⟨h₁, h₂, h₃, h₄, h₅, h₆⟩, by simpa using hlt, .running ?_ ?_ hlt ?_, hlog, hes⟩
    · rw [Test.report_test hr]
      rfl
    · exact Nat.lt_succ_self _
    · simp
  | testNot hlt =>
    refine ⟨[], { t with next := t.next + 1 }, b.call, [.test], ⟨hnone.nodup, hnone.active, rfl,
      hnone.requests, hnone.below, hnone.indices⟩, by simp, .running rfl ?_ hlt ?_, rfl, rfl, rfl,
      rfl⟩
    · exact Nat.lt_succ_self _
    · simp
  | testEnd => exact ⟨[], t, b, [], hnone, by simp, .returned, by simp, rfl, rfl, rfl⟩
  | none =>
    have hz : TestResult.returned 0 b = .returned t.completed b := by rw [F.zero rfl]
    exact ⟨[], t, b, [], hnone, by simp, hz ▸ .returned, by simp, rfl, rfl, rfl⟩

/-! ## The account of a transfer -/

namespace Transfer
variable {cfg : Config} {s s₁ : Sys} {x x' : Transfer}

/-- The counters of the loops of a transfer are in step. -/
def Sound (cfg : Config) (x : Transfer) : Prop :=
  match x.phase with
  | .issue => (∀ r < x.req2entry.length, x.requests r ≠ none) ∧ x.contexts = []
  | .test t => t.Fresh cfg.immediateTesting x.requests ∧ x.contexts = []
  | .filter c n => c ≤ n ∧ x.contexts = []
  | .process c => c ≤ x.complentries.length ∧ (cfg.completionEnabled → x.contexts.length = c)
  | .handoff => cfg.completionEnabled → x.contexts.length = x.complentries.length
  | .append _ | .free => True

theorem sound_start (cfg : Config) (kind : OpKind) (os : List Nat) :
    (Transfer.start kind os).Sound cfg :=
  ⟨fun r hr => absurd hr (Nat.not_lt_zero r), rfl⟩

/-- The completions the transfer has learnt of and not delivered yet. -/
def due (cfg : Config) (x : Transfer) : Nat := (x.undelivered cfg.completionEnabled).length

/-- What a step appends to the history agrees with what it leaves due. -/
structure Balanced (cfg : Config) (x x' : Transfer) (es : List Event) : Prop where
  sound : x'.Sound cfg
  due : (es.filterMap Event.delivered).length + x'.due cfg = x.due cfg + es.countP Event.completes

theorem Balanced.silent (hS : x'.Sound cfg) (hdue : x'.due cfg = x.due cfg) :
    Balanced cfg x x' [] :=
  ⟨hS, by simp [hdue]⟩

theorem stored_log (s : Sys) (t : Ticket) (status : Status) :
    ∃ es, (s.stored t status).log = s.log ++ es ∧ Reports 0 es := by
  obtain ⟨memory, es, h, hes⟩ := Sys.storeStatus_eq s t.ignoreStatus t status 0
  rw [Sys.stored, h]
  exact ⟨es, rfl, .of_stores hes⟩

/-- The test of a transfer counts what MPI reports. -/
theorem balanced_test {t t' : Test} {b' : Buffers} (hx : x.phase = .test t)
    (hR : t.Reported (s.transferBuffers x) is t' b') (hes : Reports is.length es)
    (hx' : x'.complentries = x.complentries) (hS' : x'.Sound cfg)
    (hphase : x'.phase = .test t' ∨ x'.phase = .filter 0 t'.completed) :
    Balanced cfg x x' es := by
  refine ⟨hS', ?_⟩
  have hc := hR.completed
  rw [hes.delivered, hes.completes]
  rcases hphase with h | h
  · simp [due, undelivered, hx, h, hx', hc]
    omega
  · simp [due, undelivered, hx, h, hx', hc]
    omega

theorem balanced_of_move (M : s.TransferMove cfg x a s₁ x') (hS : x.Sound cfg) :
    ∃ es, s₁.log = s.log ++ es ∧ Balanced cfg x x' es := by
  cases M with
  | issueNull hp =>
    simp only [Sound, hp] at hS
    refine ⟨_, rfl, ?_, ?_⟩
    · simp only [Sound, hp]
      refine ⟨fun r hr => ?_, hS.2⟩
      rw [Function.update_of_ne (Nat.ne_of_lt hr)]
      exact hS.1 r hr
    · simp [due, undelivered, hp, Event.delivered, Event.completes]
  | issue hp =>
    simp only [Sound, hp] at hS
    refine ⟨_, rfl, ?_, ?_⟩
    · simp only [Sound, hp]
      refine ⟨fun r hr => ?_, hS.2⟩
      rw [List.length_append, List.length_singleton] at hr
      by_cases h : r = x.req2entry.length
      · simp [h]
      · rw [Function.update_of_ne h]
        exact hS.1 r (by omega)
    · simp [due, undelivered, hp, Event.delivered, Event.completes]
  | issued hp hlen =>
    simp only [Sound, hp] at hS
    refine ⟨[], by simp, .silent ?_ ?_⟩
    · by_cases hpos : 0 < x.req2entry.length
      · simp only [Sound, if_pos hpos]
        refine ⟨⟨fun i _ hi => ?_, fun _ => rfl⟩, hS.2⟩
        simpa [Test.start] using hS.1 i hi
      · simp only [Sound, if_neg hpos]
        exact ⟨Nat.le_refl 0, hS.2⟩
    · by_cases hpos : 0 < x.req2entry.length
      · simp [due, undelivered, hp, hpos, Test.start]
      · simp [due, undelivered, hp, hpos]
  | @test t a t' b' hp T =>
    have hS' := hS
    simp only [Sound, hp] at hS'
    obtain ⟨is, t₁, b₁, es, hR, -, hres, hlog, hes⟩ := T.reported hS'.1
    cases hres with
    | running heq hlt hle his =>
      refine ⟨es, hlog, balanced_test hp hR hes rfl ?_ (.inl rfl)⟩
      simp only [Sound]
      refine ⟨⟨fun i hi hic => ?_, fun ha => ?_⟩, hS'.2⟩
      · rw [hR.requests, if_neg]
        · simp only [heq] at hi hic ⊢
          exact hS'.1.active i (by omega) hic
        · simp only [heq, Nat.add_sub_cancel_left]
          rintro ⟨-, hmem⟩
          have := (his i hmem).2
          simp only [heq] at hi
          omega
      · rw [ha] at T
        cases T
  | @tested t a n b' hp T =>
    have hS' := hS
    simp only [Sound, hp] at hS'
    obtain ⟨is, t₁, b₁, es, hR, -, hres, hlog, hes⟩ := T.reported hS'.1
    cases hres with
    | returned =>
      exact ⟨es, hlog, balanced_test hp hR hes rfl ⟨Nat.zero_le _, hS'.2⟩ (.inr rfl)⟩
  | @filter c n entry a hp hlt hentry =>
    simp only [Sound, hp] at hS
    obtain ⟨es, hlog, hes⟩ := stored_log s (x.ticketAt entry) (x.statuses c)
    refine ⟨es, hlog, ⟨hlt, hS.2⟩, ?_⟩
    rw [hes.delivered, hes.completes]
    simp [due, undelivered, hp, mark]
    omega
  | @filtered c n a hp hge =>
    simp only [Sound, hp] at hS
    refine ⟨[], by simp, .silent ?_ ?_⟩
    · exact ⟨Nat.zero_le _, fun _ => by simp [hS.2]⟩
    · simp [due, undelivered, hp, show n - c = 0 by omega]
  | @collect c a hp hlt he =>
    simp only [Sound, hp] at hS
    refine ⟨[], by simp, .silent ⟨hlt, fun h => by simp [hS.2 h]⟩ ?_⟩
    simp [due, undelivered, hp, he]
  | @complete c a hp hlt he =>
    simp only [Sound, hp] at hS
    refine ⟨_, rfl, ⟨hlt, fun h => by simp [he] at h⟩, ?_⟩
    simp [due, undelivered, hp, he, Event.delivered, Event.completes]
    omega
  | @processed c a hp hge =>
    simp only [Sound, hp] at hS
    refine ⟨[], by simp, .silent ?_ ?_⟩
    · exact fun h => (hS.2 h).trans (Nat.le_antisymm hS.1 (Nat.le_of_not_lt hge))
    · cases he : cfg.completionEnabled
      · simp [due, undelivered, hp, he, show x.complentries.length - c = 0 by omega]
      · simp [due, undelivered, hp, he]
  | handoff hp he hpos =>
    simp only [Sound, hp] at hS
    refine ⟨_, rfl, trivial, ?_⟩
    simp [due, undelivered, hp, he, Event.delivered, Event.completes, Function.comp_def, hS he]
  | keep hp hno =>
    refine ⟨[], by simp, .silent trivial ?_⟩
    cases he : cfg.completionEnabled with
    | false => simp [due, undelivered, hp, he]
    | true =>
      have : x.complentries = [] := by
        have : ¬ 0 < x.complentries.length := fun h => hno ⟨he, h⟩
        exact List.eq_nil_of_length_eq_zero (by omega)
      simp [due, undelivered, hp, he, this]
  | skip hp | append hp | appended hp =>
    exact ⟨[], by simp, .silent trivial (by simp [due, undelivered, hp])⟩

end Transfer

/-! ## The account of a check -/

namespace Check
variable {cfg : Config} {s s₁ : Sys} {k k' : Check}

def Sound (cfg : Config) (k : Check) : Prop :=
  match k.phase with
  | .test _ => k.contexts = []
  | .store c n => c ≤ n ∧ (cfg.completionEnabled → k.contexts.length = c)
  | .deliver c n => c < n ∧ (cfg.completionEnabled → k.contexts.length = c)
  | .handoff n => cfg.completionEnabled → k.contexts.length = n
  | .replace => True

/-- The completions the check has counted or delivered. -/
def done (cfg : Config) (k : Check) : Nat := k.completed + k.delivered cfg.completionEnabled

structure Balanced (cfg : Config) (k k' : Check) (es : List Event) : Prop where
  sound : k'.Sound cfg
  done : k'.done cfg = k.done cfg + (es.filterMap Event.delivered).length

theorem Balanced.silent (hS : k'.Sound cfg) (hdone : k'.done cfg = k.done cfg) :
    Balanced cfg k k' [] :=
  ⟨hS, by simp [hdone]⟩

theorem done_advance (cfg : Config) (k : Check) (pending n : Nat) :
    (k.advance pending n).done cfg = k.completed + n := by
  unfold advance
  split <;> simp [done, Check.delivered, Check.batch]

theorem sound_advance (cfg : Config) (k : Check) (pending n : Nat) :
    (k.advance pending n).Sound cfg := by
  unfold advance
  split
  · rfl
  · trivial

theorem checkStored_log (s : Sys) (k : Check) (c : Nat) :
    ∃ es, (s.checkStored k c).log = s.log ++ es ∧ Reports 0 es := by
  obtain ⟨memory, es, h, hes⟩ := Sys.checkStored_eq s k c
  rw [h]
  exact ⟨es, rfl, .of_stores hes⟩

theorem testMove_log {t : Test} {b : Buffers} (T : TestMove t b approach a res) :
    match res with
    | .failed b' | .running _ b' | .returned _ b' =>
      ∃ es n, b'.log = b.log ++ es ∧ Reports n es := by
  have hcall {is : List Nat} {t' : Test} {b' : Buffers}
      (hr : t.reportAll b.call is = some (t', b')) :
      ∃ es n, b'.log = b.log ++ es ∧ Reports n es := by
    obtain ⟨es, hlog, hes⟩ := Test.reportAll_call_log hr
    exact ⟨es, is.length, hlog, hes⟩
  cases T with
  | testsome _ _ hr => exact hcall hr
  | testany _ _ hr => exact hcall (Test.reportAll_singleton hr)
  | test _ hr => exact hcall (Test.reportAll_singleton hr)
  | testanyNone | testNull | testNot => exact ⟨[.test], 0, rfl, rfl, rfl, rfl⟩
  | testanyEnd | testEnd | none => exact ⟨[], 0, by simp, rfl, rfl, rfl⟩

theorem balanced_of_move (M : s.CheckMove cfg k a s₁ k') (hS : k.Sound cfg) :
    ∃ es, s₁.log = s.log ++ es ∧ Balanced cfg k k' es := by
  cases M with
  | test hp T =>
    simp only [Sound, hp] at hS
    obtain ⟨es, n, hlog, hes⟩ := testMove_log T
    exact ⟨es, hlog, hS, by simp [done, Check.delivered, hp, hes.delivered]⟩
  | tested hp T =>
    simp only [Sound, hp] at hS
    obtain ⟨es, n, hlog, hes⟩ := testMove_log T
    exact ⟨es, hlog, ⟨Nat.zero_le _, fun _ => by simp [hS]⟩, by
      simp [done, Check.delivered, hp, hes.delivered]⟩
  | @store c n a hp hlt =>
    simp only [Sound, hp] at hS
    obtain ⟨es, hlog, hes⟩ := checkStored_log s k c
    exact ⟨es, hlog, ⟨hlt, hS.2⟩, by simp [done, Check.delivered, hp, hes.delivered]⟩
  | @stored c n a hp hge =>
    simp only [Sound, hp] at hS
    have hc : c = n := Nat.le_antisymm hS.1 (Nat.le_of_not_lt hge)
    refine ⟨[], by simp, .silent (fun h => (hS.2 h).trans hc) ?_⟩
    simp [done, Check.delivered, hp, hc]
  | collect hp he =>
    simp only [Sound, hp] at hS
    refine ⟨[], by simp, .silent ⟨hS.1, fun h => by simp [hS.2 h]⟩ ?_⟩
    simp [done, Check.delivered, he]
  | complete hp he =>
    simp only [Sound, hp] at hS
    refine ⟨_, rfl, ⟨hS.1, fun h => by simp [he] at h⟩, ?_⟩
    simp [done, Check.delivered, hp, he, Event.delivered, Nat.add_assoc]
  | handoff hp he hpos =>
    simp only [Sound, hp] at hS
    refine ⟨_, rfl, sound_advance .., ?_⟩
    rw [done_advance]
    simp [done, Check.delivered, he, Event.delivered, Function.comp_def, hS he]
  | @keep n a hp hno =>
    refine ⟨[], by simp, .silent (sound_advance ..) ?_⟩
    rw [done_advance]
    cases he : cfg.completionEnabled with
    | false => simp [done, Check.delivered, hp, he]
    | true =>
      have : n = 0 := Nat.eq_zero_of_not_pos fun h => hno ⟨he, h⟩
      simp [done, Check.delivered, he, this]

end Check

/-! ## The account of a call -/

/-- The polling task has delivered `d` completions in the call, of which MPI has told `i` to
`transferOperations`. -/
def Account (cfg : Config) (d i : Nat) : Poll → Prop
  | .idle => True
  | .top total | .p2p total _ | .popping total _ | .coll total _ _ | .bottom total _
  | .evaluate total => d = total + i
  | .transfer total _ _ x => x.Sound cfg ∧ d + x.due cfg = total + i
  | .check total _ k => k.Sound cfg ∧ d = total + k.done cfg + i

theorem account_nextWindow (h : d = total + i) :
    Account cfg d i (nextWindow total w np2p ncoll) := by
  unfold nextWindow
  split <;> exact h

theorem account_nextRound (h : d = total + completed + i) :
    Account cfg d i (nextRound total inserted completed) := by
  unfold nextRound
  split <;> exact h

namespace Sys
variable {cfg : Config} {s t u : Sys}

/-- A step of the polling task keeps the account. -/
theorem account_of_move (M : s.PollMove cfg a t) (hs : s.poll ≠ .idle)
    (h : Account cfg d i s.poll) :
    ∃ es, t.log = s.log ++ es ∧ Account cfg (d + (es.filterMap Event.delivered).length)
      (i + if s.poll.isTransfer then es.countP Event.completes else 0) t.poll := by
  have hsilent {t : Sys} (hlog : t.log = s.log) (ht : Account cfg d i t.poll) :
      ∃ es, t.log = s.log ++ es ∧ Account cfg (d + (es.filterMap Event.delivered).length)
        (i + if s.poll.isTransfer then es.countP Event.completes else 0) t.poll := by
    refine ⟨[], by simp [hlog], ?_⟩
    simpa using ht
  cases M with
  | enter hp => exact absurd hp hs
  | top hp | full hp | pop hp | noP2P hp | bottomEmpty hp =>
    rw [hp] at h
    refine hsilent rfl ?_
    first | exact h | exact account_nextRound h
  | popping hp hq =>
    refine hsilent rfl ?_
    exact h
  | noColl hp =>
    rw [hp] at h
    exact hsilent rfl (account_nextWindow h)
  | takeP2P hp | takeColl hp =>
    rw [hp] at h
    exact hsilent rfl ⟨Transfer.sound_start .., h⟩
  | @transfer total w np2p x a s₁ x' hp M =>
    rw [hp] at h ⊢
    obtain ⟨es, hlog, hS, hdue⟩ := Transfer.balanced_of_move M h.1
    refine ⟨es, hlog, hS, ?_⟩
    have := h.2
    simp only [Poll.isTransfer, if_true]
    omega
  | @free total w np2p x a hp hx =>
    rw [hp] at h
    have hd : d = total + i := by
      have hdue : x.due cfg = 0 := by simp [Transfer.due, Transfer.undelivered, hx]
      have := h.2
      omega
    refine hsilent rfl ?_
    dsimp only
    split
    · exact hd
    · exact account_nextWindow hd
  | bottom hp =>
    rw [hp] at h
    refine hsilent rfl ⟨rfl, Eq.trans h ?_⟩
    simp [Check.done, Check.delivered, Check.batch]
  | check hp M =>
    rw [hp] at h ⊢
    obtain ⟨es, hlog, hS, hdone⟩ := Check.balanced_of_move M h.1
    refine ⟨es, hlog, hS, ?_⟩
    have := h.2
    simp only [Poll.isTransfer, hdone]
    simp
    omega
  | @replace total inserted k arrays a hp hk =>
    rw [hp] at h
    have := h.2
    simp only [Check.done, Check.delivered, hk] at this
    refine hsilent rfl (account_nextRound ?_)
    simpa using this
  | evaluate hp => exact hsilent rfl trivial

/-- What a run inside the call adds to the account. -/
theorem Inside.account (hr : Inside cfg s ls t) (hf : t.failure = none)
    (h : Account cfg d i s.poll) :
    Account cfg (d + (s.deliveries cfg ls).length) (i + (s.immediates cfg ls).length) t.poll := by
  induction hr generalizing d i with
  | refl => exact h
  | @head s t l ls u hp hstep hr ih =>
    by_cases hl : l.isPoll
    · cases l with
      | poll a =>
        have M := pollMove_of_step hstep (hr.failure hf)
        obtain ⟨es, hlog, hA⟩ := account_of_move M hp h
        rw [deliveries_poll hstep hlog, immediates_poll hstep hlog, List.length_append,
          List.length_append, ← Nat.add_assoc, ← Nat.add_assoc, apply_ite List.length,
          ← List.countP_eq_length_filter]
        exact ih hf hA
      | process | cpu | resume | completion | mpi => cases hl
    · have hl : l.isPoll = false := Bool.eq_false_of_not_eq_true hl
      obtain ⟨-, hpoll⟩ := step_manager hstep hl
      rw [deliveries_other hstep hl, immediates_other hstep hl]
      exact ih hf (hpoll ▸ h)

/-- The value a call returns, and what it delivers. -/
theorem Call.length_deliveries (C : Call cfg s ls t total) :
    (s.deliveries cfg ls).length = total + (s.immediates cfg ls).length := by
  cases C with
  | @intro s₁ t₁ _ a b ls _ hs h₁ hr ht₁ h₂ =>
    have hpoll : s₁.poll = .top 0 := by rw [enter_eq hs h₁]
    have hA := hr.account (d := 0) (i := 0) (failure_of_step h₂) (by rw [hpoll]; rfl)
    rw [ht₁, Account, Nat.zero_add, Nat.zero_add] at hA
    rw [deliveries, immediates, pollEvents_call hs h₁ hr ht₁ h₂]
    exact hA

/-- The value `checkRequests` returns is the number of completions it has delivered exactly if no
operation completed while it was transferred. -/
theorem Call.completed_iff (C : Call cfg s ls t total) :
    total = (s.deliveries cfg ls).length ↔ s.immediates cfg ls = [] := by
  rw [C.length_deliveries, ← List.length_eq_zero_iff]
  omega

theorem demoCall_completed : ∃ s t, (system demoConfig).Reachable s ∧
    Call demoConfig s (.poll .silent :: demoCall activeBarrier ++ [.poll (.now 0)]) t 2 ∧
    2 = (s.deliveries demoConfig
      (.poll .silent :: demoCall activeBarrier ++ [.poll (.now 0)])).length := by
  obtain ⟨s, t, hs, C, hi⟩ := demo_call (demoCall activeBarrier) (fun s _ => (s.immediates demoConfig
    (.poll .silent :: demoCall activeBarrier ++ [.poll (.now 0)])).length) 2 0
    (by decide +kernel)
  exact ⟨s, t, hs, C, C.completed_iff.mpr (List.length_eq_zero_iff.mp hi)⟩

/-- A barrier that completes when it is issued is delivered and not counted. -/
theorem demoCall_uncounted : ∃ s t, (system demoConfig).Reachable s ∧
    Call demoConfig s (.poll .silent :: demoCall nullBarrier ++ [.poll (.now 0)]) t 1 ∧
    (s.deliveries demoConfig
      (.poll .silent :: demoCall nullBarrier ++ [.poll (.now 0)])).length = 2 := by
  obtain ⟨s, t, hs, C, hd⟩ := demo_call (demoCall nullBarrier) (fun s _ => (s.deliveries demoConfig
    (.poll .silent :: demoCall nullBarrier ++ [.poll (.now 0)])).length) 1 2
    (by decide +kernel)
  exact ⟨s, t, hs, C, hd⟩

end Sys

end Tampi
