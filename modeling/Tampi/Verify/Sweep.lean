import Tampi.Verify.Completed
import Tampi.Verify.Returns

/-! # What the last round of a call has seen

When MPI answers truthfully, a test call passes over a request only if it has not completed
(`Test.Honest`). A round that finds nothing has passed over every request in flight (`Swept`),
under every testing approach. -/

namespace Tampi
open Function (update)

/-- The request has completed. -/
def Mpi.finished (mpi : Mpi) (r : Nat) : Bool :=
  match mpi r with
  | some ⟨_, some _⟩ => true
  | _ => false

theorem Mpi.finished_iff {mpi : Mpi} :
    mpi.finished r ↔ ∃ owner status, mpi r = some ⟨owner, some status⟩ := by
  unfold finished
  split
  · rename_i owner status h
    exact ⟨fun _ => ⟨owner, status, h⟩, fun _ => rfl⟩
  · rename_i hno
    refine ⟨nofun, ?_⟩
    rintro ⟨owner, status, h⟩
    exact absurd h (hno owner status)

/-- The request at a position has completed. -/
def Buffers.finished (b : Buffers) (p : Nat) : Bool := (b.requests p).any b.mpi.finished

/-- No request at the first `n` positions has completed. -/
def Buffers.NoneFinished (b : Buffers) (n : Nat) : Prop := ∀ p < n, b.finished p = false

theorem Buffers.finished_iff {b : Buffers} : b.finished p ↔
    ∃ r owner status, b.requests p = some r ∧ b.mpi r = some ⟨owner, some status⟩ := by
  simp only [finished, Option.any_eq_true, Mpi.finished_iff]
  constructor
  · rintro ⟨r, hr, owner, status, h⟩
    exact ⟨r, owner, status, hr, h⟩
  · rintro ⟨r, owner, status, hr, h⟩
    exact ⟨r, hr, owner, status, h⟩

/-- The answer of the next MPI call does not report position `i`, which the call is about. -/
def Test.passes (t : Test) : TestingApproach → Answer → Nat → Bool
  | .testSome, .some is, i => !is.contains i
  | .testAny, .any none, i => decide (t.next ≤ i)
  | .test, .flag false, i => i == t.next
  | _, _, _ => false

/-- MPI does not pass over a request that has completed. -/
def Test.Honest (t : Test) (b : Buffers) (approach : TestingApproach) (a : Answer) : Prop :=
  ∀ i < t.count, t.passes approach a i → b.finished (t.roff + i) = false

instance (t : Test) (b : Buffers) (approach : TestingApproach) (a : Answer) :
    Decidable (t.Honest b approach a) :=
  inferInstanceAs (Decidable (∀ i < t.count, t.passes approach a i → b.finished (t.roff + i) = false))

/-! ## One test call -/

/-- From `b` to `b'` the test has reported nothing, and seen that the positions up to `n` have not
completed. -/
structure Test.Passed (t : Test) (b b' : Buffers) (n : Nat) : Prop where
  completed : t.completed = 0
  finished : b'.finished = b.finished
  none : ∀ i, t.next ≤ i → i < n → b.finished (t.roff + i) = false

theorem TestMove.passed {t : Test} {b : Buffers} (T : TestMove t b approach a res)
    (hne : approach ≠ .none) (H : t.Honest b approach a) :
    match res with
    | .running t' b' => t'.completed = 0 → t.Passed b b' t'.next
    | .returned n b' => n = 0 → t.Passed b b' t.count
    | .failed _ => True := by
  have hend (hge : ¬ t.next < t.count) (hz : t.completed = 0) : t.Passed b b t.count :=
    ⟨hz, rfl, fun i hi hlt => by omega⟩
  cases T with
  | @testsome is t' b' hdef hlt hr =>
    intro hz
    have hR := Test.reportAll_spec hr
    have hnil : is = [] := List.eq_nil_of_length_eq_zero (by have := hR.completed; omega)
    subst hnil
    cases hr
    exact ⟨hz, rfl, fun i _ hi => H i hi (by simp [Test.passes])⟩
  | testanyNone =>
    intro hz
    exact ⟨hz, rfl, fun i hi hlt => H i hlt (by simpa [Test.passes] using hi)⟩
  | testany hdef hlt hr =>
    intro hz
    rw [Test.report_test hr] at hz
    cases hz
  | testanyEnd hge | testEnd hge => exact hend hge
  | testNull => exact fun hz => absurd hz (Nat.succ_ne_zero _)
  | test hlt hr =>
    intro hz
    rw [Test.report_test hr] at hz
    cases hz
  | testNot hlt =>
    intro hz
    refine ⟨hz, rfl, fun i hi hlt' => ?_⟩
    obtain rfl : i = t.next := Nat.le_antisymm (Nat.le_of_lt_succ hlt') hi
    exact H _ hlt (by simp [Test.passes])
  | none => exact absurd rfl hne

/-! ## A round -/

namespace Check
variable {k : Check} {pending : Nat} {b : Buffers}

/-- As long as the check has found nothing, what it has passed over has not completed. -/
def Swept (pending : Nat) (b : Buffers) (k : Check) : Prop :=
  match k.phase with
  | .test t => k.completed = 0 → t.completed = 0 → b.NoneFinished (k.checked + t.next)
  | .store _ n | .deliver _ n | .handoff n =>
    k.completed = 0 → n = 0 → b.NoneFinished (k.checked + k.count pending)
  | .replace => k.completed = 0 → b.NoneFinished pending

theorem Swept.congr (W : k.Swept pending b) (h : b'.finished = b.finished) :
    k.Swept pending b' := by
  unfold Swept Buffers.NoneFinished at W ⊢
  rwa [h]

theorem swept_batch (h : m = 0 → b.NoneFinished first) : (batch pending first m).Swept pending b :=
  fun hm _ => h hm

theorem Swept.advance (W : k.Swept pending b) (hk : k.phase = .handoff n) :
    (k.advance pending n).Swept pending b := by
  simp only [Swept, hk] at W
  unfold Check.advance
  split
  next hlt => exact swept_batch fun hm => W (by omega) (by omega)
  next hge =>
    intro hm p hp
    dsimp only at hm
    exact W (by omega) (by omega) p (hp.trans_le (Nat.le_of_not_lt hge))

end Check

namespace Sys
variable {cfg : Config} {s t : Sys}

/-- The test of a check in progress. -/
def checking (s : Sys) : Option Test :=
  match s.poll with
  | .check _ _ k =>
    match k.phase with
    | .test t => some t
    | _ => none
  | _ => none

/-- MPI answers the tests of `internalCheckRequests` truthfully. -/
def honest (cfg : Config) (s : Sys) : Label → Bool
  | .poll a => s.checking.all fun t => decide (t.Honest s.checkBuffers cfg.generalTesting a)
  | _ => true

/-- What the call knows of the requests that have not completed. -/
def Swept (s : Sys) : Prop :=
  match s.poll with
  | .check _ _ k => k.Swept s.manager.pending s.checkBuffers
  | .evaluate _ => s.checkBuffers.NoneFinished s.manager.pending
  | _ => True

theorem Swept.congr (W : s.Swept) (hp : t.poll = s.poll)
    (hm : t.manager = s.manager) (hmpi : t.mpi = s.mpi) : t.Swept := by
  have hb : t.checkBuffers.finished = s.checkBuffers.finished := by
    funext p
    simp only [Buffers.finished, checkBuffers, hm, hmpi]
  unfold Swept at W ⊢
  rw [hp, hm]
  split
  next hpoll =>
    rw [hpoll] at W
    exact W.congr hb
  next hpoll =>
    rw [hpoll] at W
    unfold Buffers.NoneFinished at W ⊢
    rwa [hb]
  next => trivial

theorem finished_checkStored (s : Sys) (k : Check) (c : Nat) :
    (s.checkStored k c).checkBuffers.finished = s.checkBuffers.finished := by
  obtain ⟨memory, es, h, -⟩ := checkStored_eq s k c
  rw [h]
  rfl

theorem CheckMove.swept {k k' : Check} (M : s.CheckMove cfg k a t k')
    (K : k.Inv cfg s.log s.manager.pending s.manager.arrays)
    (H : ∀ t, k.phase = .test t → t.Honest s.checkBuffers cfg.generalTesting a)
    (W : k.Swept s.manager.pending s.checkBuffers) :
    k'.Swept s.manager.pending t.checkBuffers := by
  have hK := K.phase
  have hW := W
  -- the batch of the test starts where the check is
  have hpassed {u : Test} {b : Buffers} {n : Nat} (hp : k.phase = .test u) (hc : k.completed = 0)
      (P : u.Passed s.checkBuffers b n) : b.NoneFinished (k.checked + n) := by
    simp only [Check.PhaseInv, hp] at hK
    simp only [Check.Swept, hp] at hW
    intro p hlt
    rw [P.finished]
    by_cases hpass : p < k.checked + u.next
    · exact hW hc P.completed p hpass
    · have := P.none (p - u.roff) (by omega) (by omega)
      rwa [Nat.add_sub_cancel' (by omega)] at this
  cases M with
  | test hp T =>
    have P := T.passed cfg.general_ne (H _ hp)
    exact fun hc hz => hpassed hp hc (P hz)
  | tested hp T =>
    have P := T.passed cfg.general_ne (H _ hp)
    simp only [Check.PhaseInv, hp] at hK
    intro hc hz
    have := hpassed hp hc (P hz)
    rwa [hK.2.2.1] at this
  | store hp =>
    simp only [Check.Swept, hp] at W
    intro hc hz
    unfold Buffers.NoneFinished
    rw [finished_checkStored]
    exact W hc hz
  | stored hp | collect hp | complete hp =>
    simp only [Check.Swept, hp] at W
    exact W
  | handoff hp | keep hp => exact W.advance hp

theorem swept_nextWindow : ({ s with poll := nextWindow total w np2p ncoll } : Sys).Swept := by
  unfold nextWindow
  split <;> trivial

theorem swept_nextRound {m : TicketManager}
    (h : completed = 0 → ({ s with manager := m } : Sys).checkBuffers.NoneFinished m.pending) :
    ({ s with manager := m, poll := nextRound total inserted completed } : Sys).Swept := by
  unfold nextRound
  split
  · trivial
  · exact h (by omega)

theorem PollMove.swept (M : s.PollMove cfg a t) (I : s.Inv cfg)
    (H : s.honest cfg (.poll a)) (W : s.Swept) : t.Swept := by
  unfold Swept at W
  cases M with
  | enter | top | full | pop | noP2P | takeP2P | takeColl | transfer | evaluate => trivial
  | popping hp =>
    simp only [Swept, hp]
  | noColl => exact swept_nextWindow
  | free =>
    split
    · trivial
    · exact swept_nextWindow
  | bottom hp => exact Check.swept_batch fun _ p hp => absurd hp (Nat.not_lt_zero p)
  | bottomEmpty hp h0 => exact swept_nextRound fun _ p hp => absurd (Nat.zero_lt_of_lt hp) h0
  | @check total inserted k a t k' hp M =>
    rw [hp] at W
    have hH (u : Test) (hu : k.phase = .test u) :
        u.Honest s.checkBuffers cfg.generalTesting a := by
      simpa [honest, checking, hp, hu] using H
    have := M.swept (I.check hp) hH W
    rwa [← M.manager.1] at this
  | @replace total inserted k arrays a hp hk harr =>
    simp only [hp, Check.Swept, hk] at W
    refine swept_nextRound fun hc => ?_
    rw [hc] at harr ⊢
    cases harr
    exact W hc

/-! ## A truthful answer -/

end Sys

theorem slots_inj {requests : Nat → Request} {ticket : Nat → Ticket} (hps : ps.Nodup)
    (h : ((slots ps requests ticket).map Slot.request).Nodup) (hp : p ∈ ps) (hq : q ∈ ps)
    (hr : requests p = some r) (hr' : requests q = some r) : p = q := by
  by_contra hne
  rw [slots_report hps hp hr, Multiset.map_cons, Multiset.nodup_cons] at h
  have hmem : ⟨ticket q, r⟩ ∈ slots ps (update requests p none) ticket :=
    mem_slots hq ((Function.update_of_ne (Ne.symm hne) ..).trans hr')
  exact h.1 (Multiset.mem_map.mpr ⟨_, hmem, rfl⟩)

/-- MPI can report all of them when they are distinct. -/
theorem Test.exists_reportAll {t : Test} {b : Buffers} (hnd : is.Nodup)
    (hfin : ∀ i ∈ is, b.finished (t.roff + i))
    (hinj : ∀ i ∈ is, ∀ j ∈ is, b.requests (t.roff + i) = b.requests (t.roff + j) → i = j) :
    ∃ p, t.reportAll b is = some p := by
  induction is generalizing t b with
  | nil => exact ⟨_, rfl⟩
  | cons i is ih =>
    obtain ⟨hi, hnd⟩ := List.nodup_cons.mp hnd
    obtain ⟨r, owner, status, hr, hm⟩ := Buffers.finished_iff.mp (hfin i (by simp))
    simp only [reportAll, report, hr, hm, Option.bind_some]
    have hreq {j : Nat} (hj : j ∈ is) :
        update b.requests (t.roff + i) none (t.roff + j) = b.requests (t.roff + j) := by
      refine Function.update_of_ne (fun heq => hi ?_) ..
      rwa [← Nat.add_left_cancel heq]
    refine ih hnd (fun j hj => Buffers.finished_iff.mpr ?_) fun j hj l hl heq => ?_
    · obtain ⟨r', owner', status', hr', hm'⟩ := Buffers.finished_iff.mp (hfin j (by simp [hj]))
      refine ⟨r', owner', status', (hreq hj).trans hr', ?_⟩
      refine (Function.update_of_ne ?_ ..).trans hm'
      rintro rfl
      exact hi (hinj i (by simp) j (by simp [hj]) (hr.trans hr'.symm) ▸ hj)
    · exact hinj j (by simp [hj]) l (by simp [hl]) ((hreq hj).symm.trans (heq.trans (hreq hl)))

/-- Every call of a test has a truthful answer. -/
theorem exists_honest (approach : TestingApproach) {t : Test} {b : Buffers}
    (hinj : ∀ i < t.count, ∀ j < t.count, b.requests (t.roff + i) ≠ none →
      b.requests (t.roff + i) = b.requests (t.roff + j) → i = j) :
    ∃ a res, internalTestRequests approach t b a = some res ∧ t.Honest b approach a ∧
      ∀ is, a = .some is → is.Pairwise (· < ·) := by
  have hreport {is : List Nat} (hnd : is.Nodup) (hlt : ∀ i ∈ is, i < t.count)
      (hfin : ∀ i ∈ is, b.finished (t.roff + i)) : ∃ p, t.reportAll b.call is = some p := by
    refine Test.exists_reportAll hnd hfin fun i hi j hj => hinj i (hlt i hi) j (hlt j hj) ?_
    obtain ⟨r, -, -, hr, -⟩ := Buffers.finished_iff.mp (hfin i hi)
    simp [hr]
  have hone {i : Nat} (hlt : i < t.count) (hfin : b.finished (t.roff + i)) :
      ∃ p, t.report b.call i = some p := by
    obtain ⟨p, hp⟩ := hreport (List.nodup_singleton i) (by simpa using hlt) (by simpa using hfin)
    obtain ⟨p', hp', -⟩ := Option.bind_eq_some_iff.mp hp
    exact ⟨p', hp'⟩
  unfold internalTestRequests
  cases approach with
  | testSome =>
    have hmem (i : Nat) : i ∈ (List.range t.count).filter (fun i => b.finished (t.roff + i)) ↔
        i < t.count ∧ b.finished (t.roff + i) := by
      rw [List.mem_filter, List.mem_range]
    have hasc := (List.pairwise_lt_range (n := t.count)).filter
      fun i => b.finished (t.roff + i)
    obtain ⟨p, hp⟩ := hreport hasc.nodup (fun i hi => ((hmem i).mp hi).1)
      fun i hi => ((hmem i).mp hi).2
    refine ⟨.some ((List.range t.count).filter fun i => b.finished (t.roff + i)), ?_⟩
    have hH : t.Honest b .testSome
        (.some ((List.range t.count).filter fun i => b.finished (t.roff + i))) := by
      intro i hi hpass
      simpa [Test.passes, hi] using hpass
    dsimp only
    split
    · exact ⟨_, rfl, hH, fun is h => by cases h; exact hasc⟩
    · rw [if_pos (by simp +contextual), hp]
      exact ⟨_, rfl, hH, fun is h => by cases h; exact hasc⟩
  | testAny =>
    by_cases hex : ∃ i, t.next ≤ i ∧ i < t.count ∧ b.finished (t.roff + i)
    · obtain ⟨i, hle, hlt, hfin⟩ := hex
      obtain ⟨p, hp⟩ := hone hlt hfin
      refine ⟨.any (some (i - t.next)), ?_⟩
      dsimp only
      rw [Nat.sub_add_cancel hle, if_pos (hle.trans_lt hlt), if_pos hlt, hp]
      split
      · exact ⟨_, rfl, nofun, nofun⟩
      · exact ⟨_, rfl, nofun, nofun⟩
    · have hH : t.Honest b .testAny (.any none) := by
        intro i hi hpass
        refine Bool.eq_false_of_not_eq_true fun hfin => hex ⟨i, ?_, hi, hfin⟩
        simpa [Test.passes] using hpass
      refine ⟨.any none, ?_⟩
      dsimp only
      split
      · split <;> exact ⟨_, rfl, hH, nofun⟩
      · exact ⟨_, rfl, hH, nofun⟩
  | test =>
    cases hfin : b.finished (t.roff + t.next) with
    | true =>
      refine ⟨.flag true, ?_⟩
      dsimp only
      split
      next hlt =>
        obtain ⟨p, hp⟩ := hone hlt hfin
        obtain ⟨r, -, -, hr, -⟩ := Buffers.finished_iff.mp hfin
        rw [hr, hp]
        exact ⟨_, rfl, nofun, nofun⟩
      next => exact ⟨_, rfl, nofun, nofun⟩
    | false =>
      have hH : t.Honest b .test (.flag false) := by
        intro i _ hpass
        obtain rfl : i = t.next := by simpa [Test.passes] using hpass
        exact hfin
      refine ⟨.flag false, ?_⟩
      dsimp only
      split
      · cases b.requests (t.roff + t.next) <;> exact ⟨_, rfl, hH, nofun⟩
      · exact ⟨_, rfl, hH, nofun⟩
  | none => exact ⟨.silent, _, rfl, nofun, nofun⟩

namespace Sys
variable {cfg : Config} {s t : Sys}

/-- Some truthful answer lets a call go on. -/
theorem Round.exists_honest (R : s.Round cfg) (I : s.Inv cfg) (HL : (s.life cfg).Inv)
    (hf : s.failure = none) :
    ∃ a t, (Label.poll a).Ascending ∧ s.honest cfg (.poll a) ∧ s.step cfg (.poll a) = some t := by
  cases hc : s.checking with
  | none =>
    obtain ⟨a, t, ha, h⟩ := R.enabled hf
    exact ⟨a, t, ha, by simp [honest, hc], h⟩
  | some u =>
    have hcu := hc
    unfold checking at hc
    split at hc
    next total inserted k hp =>
      split at hc
      next u' hk =>
        cases hc
        have K := I.check hp
        have hK := K.phase
        simp only [Check.PhaseInv, hk, Check.count] at hK
        have hle := K.checked_le
        have hnodup := HL.registered.requests_nodup
        simp only [life, inflight, hp, add_zero] at hnodup
        have hinj (i : Nat) (hi : i < u.count) (j : Nat) (hj : j < u.count)
            (hr : s.checkBuffers.requests (u.roff + i) ≠ none)
            (heq : s.checkBuffers.requests (u.roff + i) = s.checkBuffers.requests (u.roff + j)) :
            i = j := by
          obtain ⟨r, hr⟩ := Option.ne_none_iff_exists'.mp hr
          refine Nat.add_left_cancel (slots_inj List.nodup_range hnodup (p := u.roff + i)
            (q := u.roff + j) (List.mem_range.mpr ?_) (List.mem_range.mpr ?_) hr (heq.symm.trans hr))
          · omega
          · omega
        obtain ⟨a, res, hres, hH, hasc⟩ := Tampi.exists_honest cfg.generalTesting hinj
        refine ⟨a, ?_⟩
        have hstep : s.step cfg (.poll a) = s.checkStep cfg total inserted k a := by
          unfold Sys.step pollStep
          rw [if_neg (by simp [hf])]
          simp only [hp]
        have ha : (Label.poll a).Ascending := by
          cases a with
          | some is => exact hasc is rfl
          | silent | issued | any | flag | now => trivial
        rw [hstep]
        unfold checkStep
        simp only [hk]
        exact ⟨_, ha, by simpa [honest, hcu] using hH, congrArg (Option.map _) hres⟩
      next => cases hc
    next => cases hc

end Sys
end Tampi
