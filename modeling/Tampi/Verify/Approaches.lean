import Tampi.Verify.Sweep

/-! # The testing approaches

In a call in which nothing is pushed and no request completes, the polling task delivers the
operations whose requests had completed and leaves the other ones in flight, whatever the testing
approach is and whichever requests MPI picks. `Settles` is what the steps of such a call do to MPI
and to the completions; with `Swept` at its end it fixes the outcome. -/

namespace Tampi
open Function (update)
open Transition (select_append)

/-! ## Every active request is that of an operation in flight -/

/-- The active requests of MPI are those of the operations in flight. -/
def Claimed (mpi : Mpi) (inflight : Multiset Slot) : Prop :=
  ∀ r a, mpi r = some a → ∃ slot ∈ inflight, slot.request = r ∧ slot.ticket.id = a.op

theorem Life.Move.claimed {L L' : Life} (M : L.Move k L') (C : Claimed L.mpi L.inflight) :
    Claimed L'.mpi L'.inflight := by
  cases M with
  | @issue op rest call _ h hb hi hm =>
    intro r a ha
    by_cases hr : r = h
    · subst hr
      cases (Function.update_self ..).symm.trans ha
      exact ⟨_, Multiset.mem_cons_self .., rfl, rfl⟩
    · obtain ⟨slot, hs, h⟩ := C r a ((Function.update_of_ne hr ..).symm.trans ha)
      exact ⟨slot, Multiset.mem_cons_of_mem hs, h⟩
  | @complete _ h status owner hm =>
    intro r a ha
    by_cases hr : r = h
    · subst hr
      cases (Function.update_self ..).symm.trans ha
      obtain ⟨slot, hs⟩ := C r _ hm
      exact ⟨slot, hs⟩
    · exact C r a ((Function.update_of_ne hr ..).symm.trans ha)
  | @report slot rest _ status owner hs hm =>
    intro r a ha
    by_cases hr : r = slot.request
    · subst hr
      cases (Function.update_self ..).symm.trans ha
    · obtain ⟨slot', hs', h⟩ := C r a ((Function.update_of_ne hr ..).symm.trans ha)
      rw [hs] at hs'
      rcases Multiset.mem_cons.mp hs' with rfl | hs'
      · exact absurd h.1.symm hr
      · exact ⟨slot', hs', h⟩
  | _ => exact C

theorem Life.claimed_of_reachable {L : Life} (h : Life.system.Reachable L) :
    Claimed L.mpi L.inflight := by
  refine h.rec_inv (I := fun L => Claimed L.mpi L.inflight) ?_ ?_
  · rintro _ ⟨memory, rfl⟩ r a ha
    cases ha
  · intro L k L' _ M C
    exact Move.claimed M C

theorem claimed_of_reachable {cfg : Config} {s : Sys} (h : (system cfg).Reachable s)
    (hf : s.failure = none) : Claimed s.mpi s.inflight := by
  obtain ⟨L, hL, hR⟩ := (simulation cfg).reachable h
  obtain ⟨-, rfl⟩ := hR.running hf
  exact Life.claimed_of_reachable hL

/-! ## What tests do to MPI -/

/-- The requests that are no longer active had completed. -/
def Mpi.Reported (mpi mpi' : Mpi) : Prop :=
  ∀ r, mpi' r = mpi r ∨ mpi' r = none ∧ mpi.finished r

namespace Mpi.Reported
variable {mpi mpi' mpi'' : Mpi}

theorem refl : mpi.Reported mpi := fun _ => .inl rfl

theorem trans (h : mpi.Reported mpi') (h' : mpi'.Reported mpi'') : mpi.Reported mpi'' := by
  intro r
  rcases h r with h | ⟨hnone, hfin⟩
  · rw [← h, finished, ← h]
    exact h' r
  · rcases h' r with h' | ⟨hnone', -⟩
    · exact .inr ⟨h'.trans hnone, hfin⟩
    · exact .inr ⟨hnone', hfin⟩

theorem report {t : Test} {b : Buffers} (h : t.report b i = some p) : b.mpi.Reported p.2.mpi := by
  obtain ⟨r, owner, status, -, hm, rfl⟩ := Test.report_eq_some h
  intro r'
  by_cases hr : r' = r
  · subst hr
    exact .inr ⟨Function.update_self .., finished_iff.mpr ⟨owner, status, hm⟩⟩
  · exact .inl (Function.update_of_ne hr ..)

theorem reportAll {t t' : Test} {b b' : Buffers} (h : t.reportAll b is = some (t', b')) :
    b.mpi.Reported b'.mpi := by
  induction is generalizing t b with
  | nil =>
    cases h
    exact refl
  | cons i is ih =>
    obtain ⟨p, hp, h⟩ := Option.bind_eq_some_iff.mp h
    exact (report hp).trans (ih h)

end Mpi.Reported

theorem TestMove.mpi {t : Test} {b : Buffers} (T : TestMove t b approach a res) :
    match res with
    | .failed b' | .running _ b' | .returned _ b' => b.mpi.Reported b'.mpi := by
  cases T with
  | testsome _ _ hr => exact Mpi.Reported.reportAll (b := b.call) hr
  | testany _ _ hr | test _ hr => exact Mpi.Reported.report (b := b.call) hr
  | _ => exact .refl

/-! ## Calls without pushes -/

theorem isTransfer_of_plain {p : Poll} (h : p.plain) : p.isTransfer = false := by
  cases p with
  | transfer => cases h
  | _ => rfl

def Label.isMpi : Label → Bool
  | .mpi .. => true
  | _ => false

namespace Sys
variable {cfg : Config} {s t u : Sys}

/-- No operation is in a pre-queue, in the array of a pop, or in a transfer. -/
structure Vacant (cfg : Config) (s : Sys) : Prop where
  p2p : s.p2pOperations.total cfg.queue + s.p2pOperations.consumer.vals.length = 0
  coll : s.collOperations = []
  transfer : s.poll.isTransfer = false

theorem PollMove.vacant (M : s.PollMove cfg a t) (I : s.Inv cfg) (V : s.Vacant cfg) :
    t.Vacant cfg := by
  have htransfer := V.transfer
  have hpoll := I.poll
  cases M with
  | enter | top | full | bottom | evaluate => exact ⟨V.p2p, V.coll, rfl⟩
  | bottomEmpty | replace => exact ⟨V.p2p, V.coll, isTransfer_of_plain plain_nextRound⟩
  | pop hp =>
    rw [hp] at hpoll
    have hidle : s.p2pOperations.consumer = .idle := hpoll.1
    have htotal := V.p2p
    refine ⟨?_, V.coll, rfl⟩
    rw [MultiLockFreeQueue.total_pop I.queue (by rw [hidle]; rfl), MultiLockFreeQueue.vals_pop]
    exact Nat.eq_zero_of_add_eq_zero_right htotal
  | popping hp hq =>
    refine ⟨(MultiLockFreeQueue.total_consumerStep I.queue hq).trans V.p2p, V.coll, ?_⟩
    exact htransfer
  | noP2P hp hc =>
    exact ⟨Nat.eq_zero_of_add_eq_zero_right V.p2p, V.coll, rfl⟩
  | takeP2P hp hc hne =>
    have hlen := Nat.eq_zero_of_add_eq_zero_left V.p2p
    rw [hc] at hlen
    exact absurd (List.eq_nil_of_length_eq_zero hlen) hne
  | noColl =>
    exact ⟨V.p2p, by rw [V.coll, List.drop_nil],
      isTransfer_of_plain plain_nextWindow⟩
  | takeColl hp htake hne =>
    rw [V.coll, List.take_nil] at htake
    exact absurd htake.symm hne
  | transfer hp | free hp =>
    rw [hp] at htransfer
    cases htransfer
  | check hp M =>
    have F := M.frame
    exact ⟨by rw [F.p2pOperations]; exact V.p2p, F.collOperations.trans V.coll, rfl⟩

/-- A step of another agent that pushes nothing. -/
theorem Vacant.other (V : s.Vacant cfg) (h : s.step cfg l = some t) (hl : l.isPoll = false)
    (hpush : pushes t.log = pushes s.log) : t.Vacant cfg := by
  obtain ⟨hside, hcoll⟩ := same_of_step h hl hpush
  obtain ⟨-, hp⟩ := step_manager h hl
  exact ⟨by rw [hside.total, hside.consumer]; exact V.p2p, hcoll.trans V.coll, hp ▸ V.transfer⟩

/-! ## What a call settles -/

/-- The completions that were delivered: they wait for the completion task, or are notified. -/
def resolved (s : Sys) : Multiset TaskContext := s.completions.contents + notifies s.log

/-- Between two states of a call, MPI has reported requests and the completions `ds` were
delivered; nothing was issued. -/
structure Settles (s t : Sys) (ds : List TaskContext) : Prop where
  mpi : s.mpi.Reported t.mpi
  issues : issues t.log = issues s.log
  nulls : nulls t.log = nulls s.log
  resolved : t.resolved = s.resolved + ds

theorem settles_of_log {ds : List TaskContext} (es : List Event) (hm : s.mpi.Reported t.mpi)
    (hlog : t.log = s.log ++ es) (hi : es.filterMap Event.issuance = [])
    (hc : (t.completions.contents : Multiset TaskContext) + notifies es =
      s.completions.contents + ds) : Settles s t ds := by
  have hnone (e : Event) (he : e ∈ es) : e.issued? = none ∧ e.null? = none := by
    have := List.filterMap_eq_nil_iff.mp hi e he
    cases e with
    | issue => cases this
    | _ => exact ⟨rfl, rfl⟩
  have hissues : issues es = [] := List.filterMap_eq_nil_iff.mpr fun e he => (hnone e he).1
  have hnulls : nulls es = [] := List.filterMap_eq_nil_iff.mpr fun e he => (hnone e he).2
  refine ⟨hm, ?_, ?_, ?_⟩
  · rw [hlog, issues, select_append, ← issues, ← issues, hissues, List.append_nil]
  · rw [hlog, nulls, select_append, ← nulls, ← nulls, hnulls, List.append_nil]
  · unfold Sys.resolved
    rw [hlog, notifies, select_append, ← Multiset.coe_add, add_left_comm, hc]
    abel

theorem Settles.refl : Settles s s [] := ⟨.refl, rfl, rfl, (add_zero _).symm⟩

theorem Settles.trans (h : Settles s t ds) (h' : Settles t u ds') : Settles s u (ds ++ ds') where
  mpi := h.mpi.trans h'.mpi
  issues := h'.issues.trans h.issues
  nulls := h'.nulls.trans h.nulls
  resolved := by
    rw [h'.resolved, h.resolved, add_assoc, Multiset.coe_add]

/-- Nothing happened to MPI and to the completions. -/
theorem settles_of_eq (hm : t.mpi = s.mpi) (hlog : t.log = s.log)
    (hc : t.completions.contents = s.completions.contents) : Settles s t [] :=
  settles_of_log [] (hm ▸ .refl) (by rw [hlog, List.append_nil]) rfl (by simp [hc])

theorem notifies_of_delivered (h : es.filterMap Event.delivered = []) : notifies es = [] := by
  refine List.filterMap_eq_nil_iff.mpr fun e he => ?_
  have := List.filterMap_eq_nil_iff.mp h e he
  cases e with
  | notify => cases this
  | _ => rfl

theorem notifies_of_transfer (contexts : List TaskContext) :
    notifies (contexts.map Event.transfer) = [] := by
  refine List.filterMap_eq_nil_iff.mpr fun e he => ?_
  obtain ⟨ctx, -, rfl⟩ := List.mem_map.mp he
  rfl

/-- Test calls and status stores deliver nothing. -/
theorem settles_of_reports {n : Nat} (hm : s.mpi.Reported t.mpi) (hlog : t.log = s.log ++ es)
    (hes : Reports n es) (hc : t.completions.contents = s.completions.contents) :
    Settles s t (es.filterMap Event.delivered) := by
  refine settles_of_log es hm hlog hes.issuance ?_
  rw [hes.delivered, notifies_of_delivered hes.delivered, hc]

theorem settles_complete (s : Sys) (ctx : TaskContext) : Settles s (s.complete ctx) [ctx] :=
  settles_of_log [.notify ctx] .refl rfl rfl rfl

theorem CheckMove.settles {k k' : Check} (M : s.CheckMove cfg k a t k') :
    ∃ es, t.log = s.log ++ es ∧ Settles s t (es.filterMap Event.delivered) := by
  have hsilent : ∃ es, s.log = s.log ++ es ∧ Settles s s (es.filterMap Event.delivered) :=
    ⟨[], (List.append_nil _).symm, .refl⟩
  cases M with
  | test hp T | tested hp T =>
    obtain ⟨es, n, hlog, hes⟩ := Check.testMove_log T
    exact ⟨es, hlog, settles_of_reports T.mpi hlog hes rfl⟩
  | @store c n a hp hlt =>
    obtain ⟨memory, es, h, hes⟩ := checkStored_eq s k c
    rw [h]
    exact ⟨es, rfl, settles_of_reports .refl rfl (.of_stores hes) rfl⟩
  | stored | collect | keep => exact hsilent
  | complete => exact ⟨_, rfl, settles_complete ..⟩
  | handoff =>
    have hd : (k.contexts.map Event.transfer).filterMap Event.delivered = k.contexts := by
      simp [List.filterMap_map, Function.comp_def, Event.delivered]
    refine ⟨_, rfl, settles_of_log _ .refl rfl ?_ ?_⟩
    · simp [List.filterMap_map, Function.comp_def, Event.issuance]
    · rw [hd, notifies_of_transfer, ← Multiset.coe_add]
      exact add_zero _

theorem PollMove.settles (M : s.PollMove cfg a t) (hp : s.poll.isTransfer = false) :
    ∃ es, t.log = s.log ++ es ∧ Settles s t (es.filterMap Event.delivered) := by
  have hsilent {t : Sys} (hm : t.mpi = s.mpi) (hlog : t.log = s.log)
      (hc : t.completions = s.completions) :
      ∃ es, t.log = s.log ++ es ∧ Settles s t (es.filterMap Event.delivered) :=
    ⟨[], by rw [hlog, List.append_nil], settles_of_eq hm hlog (congrArg _ hc)⟩
  cases M with
  | transfer hx | free hx =>
    rw [hx] at hp
    cases hp
  | check hx M =>
    obtain ⟨es, hlog, S⟩ := M.settles
    exact ⟨es, hlog, S.mpi, S.issues, S.nulls, S.resolved⟩
  | _ => exact hsilent rfl rfl rfl

/-- What an agent other than the polling task appends to the history changes no completion. -/
theorem settles_append {e : Event} (hi : e.issuance = none) (hn : e.notified? = none)
    (hm : t.mpi = s.mpi) (hlog : t.log = s.log ++ [e])
    (hc : t.completions.contents = s.completions.contents) : Settles s t [] := by
  refine settles_of_log [e] (hm ▸ .refl) hlog (by simp [hi]) ?_
  have : notifies [e] = [] := List.filterMap_eq_nil_iff.mpr (by simpa using hn)
  rw [this, hc]

theorem settles_push {q : MultiLockFreeQueue Nat} {coll : List Nat} {cpu object : Nat}
    {kind : OpKind} {ctx : TaskContext} :
    Settles s (({ s with p2pOperations := q, collOperations := coll } : Sys).pushDone cpu kind object
      ctx) [] :=
  settles_append rfl rfl rfl rfl rfl

/-- A step of another agent settles nothing; the completion task notifies what was delivered. -/
theorem settles_other (h : s.step cfg l = some t) (hl : l.isPoll = false) (hm : l.isMpi = false) :
    Settles s t [] ∧ t.mpi = s.mpi := by
  cases agentMove_of_step h hl with
  | mpi => cases hm
  | process | block | resume => exact ⟨settles_append rfl rfl rfl rfl rfl, rfl⟩
  | pushed | pushColl => exact ⟨settles_push, rfl⟩
  | @complete left ctx rest hleft hc =>
    refine ⟨settles_of_log [.notify ctx] .refl rfl rfl ?_, rfl⟩
    rw [hc, ← Multiset.cons_coe, ← Multiset.singleton_add]
    exact (add_comm ..).trans (add_zero _).symm
  | noObjects | alloc | startPush | push | queueFull | retryPush | collFull | retryColl | consume
  | consumed => exact ⟨settles_of_eq rfl rfl rfl, rfl⟩

/-! ## A whole call -/

/-- MPI answers the tests of the checks truthfully along the labels. -/
def honestAlong (cfg : Config) : Sys → List Label → Bool
  | _, [] => true
  | s, l :: ls => s.honest cfg l &&
    match s.step cfg l with
    | none => true
    | some t => honestAlong cfg t ls

/-- Nothing is pushed along the labels, no request completes, and MPI answers truthfully and in
ascending order. -/
structure Undisturbed (cfg : Config) (s : Sys) (ls : List Label) (t : Sys) : Prop where
  ascending : ∀ l ∈ ls, l.Ascending
  mpi : ∀ l ∈ ls, l.isMpi = false
  pushes : pushes t.log = pushes s.log
  honest : s.honestAlong cfg ls

theorem Undisturbed.tail (U : Undisturbed cfg s (l :: ls) u) (hs : (system cfg).Reachable s)
    (h : s.step cfg l = some t) (hrun : Within cfg P t ls u) (hf : u.failure = none) :
    (system cfg).Reachable t ∧ s.honest cfg l ∧ l.isMpi = false ∧
      Tampi.pushes t.log = Tampi.pushes s.log ∧ Undisturbed cfg t ls u := by
  have hstep : (system cfg).step s l t := ⟨U.ascending l (by simp), h⟩
  have hasc : ∀ l ∈ ls, l.Ascending := fun l' hl' => U.ascending l' (by simp [hl'])
  have hft := hrun.failure hf
  have ht := hs.step hstep
  obtain ⟨hpush₁, hpush₂⟩ :=
    pushes_of_extends (log_extends hs hstep hft) (hrun.log_extends ht hasc hf) U.pushes
  have hhonest := U.honest
  simp only [honestAlong, h, Bool.and_eq_true] at hhonest
  exact ⟨ht, hhonest.1, U.mpi l (by simp), hpush₁, hasc,
    fun l' hl' => U.mpi l' (by simp [hl']), hpush₂, hhonest.2⟩

/-- What holds at every point of an undisturbed call. -/
structure Calm (cfg : Config) (s : Sys) : Prop where
  vacant : s.Vacant cfg
  swept : s.Swept

theorem Calm.step (C : s.Calm cfg) (I : s.Inv cfg) (h : s.step cfg l = some t)
    (hf : t.failure = none) (hhonest : s.honest cfg l) (hmpi : l.isMpi = false)
    (hpush : pushes t.log = pushes s.log) :
    t.Calm cfg ∧ ∃ ds, Settles s t ds ∧
      ∀ ls, s.deliveries cfg (l :: ls) = ds ++ t.deliveries cfg ls := by
  by_cases hl : l.isPoll
  · cases l with
    | process | cpu | resume | completion | mpi => cases hl
    | poll a =>
      have M := pollMove_of_step h hf
      obtain ⟨es, hlog, S⟩ := M.settles C.vacant.transfer
      exact ⟨⟨M.vacant I C.vacant, M.swept I hhonest C.swept⟩, _, S,
        fun ls => deliveries_poll h hlog⟩
  · have hl := Bool.eq_false_of_not_eq_true hl
    obtain ⟨hm, hp⟩ := step_manager h hl
    obtain ⟨S, hmpi⟩ := settles_other h hl hmpi
    exact ⟨⟨C.vacant.other h hl hpush, C.swept.congr hp hm hmpi⟩, [], S,
      fun ls => deliveries_other h hl⟩

theorem Inside.settles (hs : (system cfg).Reachable s) (C : s.Calm cfg)
    (h : s.Inside cfg ls t) (U : s.Undisturbed cfg ls t) (hf : t.failure = none) :
    t.Calm cfg ∧ Settles s t (s.deliveries cfg ls) := by
  induction h with
  | refl => exact ⟨C, .refl⟩
  | @head s u l ls t _ hstep hrun ih =>
    obtain ⟨hreach, hhonest, hmpi, hpush, U'⟩ := U.tail hs hstep hrun hf
    obtain ⟨I, -⟩ := Inv.of_reachable hs (failure_of_step hstep)
    obtain ⟨C', ds, S, hds⟩ := C.step I hstep (hrun.failure hf) hhonest hmpi hpush
    obtain ⟨C'', S'⟩ := ih hreach C' U' hf
    exact ⟨C'', hds ls ▸ S.trans S'⟩

theorem vacant_of_waiting (I : s.Inv cfg) (hp : s.poll = .idle)
    (h : ∀ line, s.waiting cfg line = []) : s.Vacant cfg := by
  have hidle : s.p2pOperations.consumer = .idle := by
    have hpoll := I.poll
    rw [hp] at hpoll
    exact hpoll.1
  refine ⟨?_, h .coll, by rw [hp]; rfl⟩
  rw [hidle, MultiLockFreeQueue.total_eq_zero fun c => h (.p2p c)]
  rfl

theorem honestAlong_of_append (h : s.honestAlong cfg (ls ++ ls')) : s.honestAlong cfg ls := by
  induction ls generalizing s with
  | nil => rfl
  | cons l ls ih =>
    simp only [List.cons_append, honestAlong, Bool.and_eq_true] at h ⊢
    refine ⟨h.1, ?_⟩
    cases hstep : s.step cfg l with
    | none => rfl
    | some t => exact ih (by simpa only [hstep] using h.2)

theorem Undisturbed.of_append (U : Undisturbed cfg s (ls ++ ls') u)
    (h : Tampi.pushes t.log = Tampi.pushes u.log) : Undisturbed cfg s ls t where
  ascending l hl := U.ascending l (List.mem_append_left _ hl)
  mpi l hl := U.mpi l (List.mem_append_left _ hl)
  pushes := h.trans U.pushes
  honest := honestAlong_of_append U.honest

/-- The end of an undisturbed call. -/
theorem Call.settles (hs : (system cfg).Reachable s) (hq : ∀ line, s.waiting cfg line = [])
    (C : Call cfg s ls t total) (U : s.Undisturbed cfg ls t) :
    (system cfg).Reachable t ∧ t.failure = none ∧ t.poll = .idle ∧
      t.checkBuffers.NoneFinished t.manager.pending ∧ Settles s t (s.deliveries cfg ls) := by
  cases C with
  | @intro s₁ t₁ _ a b ls _ hp h₁ hin hpoll h₂ =>
    have hs₁ := enter_eq hp h₁
    have hrun : Within cfg (fun _ => True) s₁ (ls ++ [.poll b]) t :=
      (hin.mono fun _ _ => trivial).append (.head trivial h₂ (.refl trivial))
    have hf := failure_of_step h₂
    obtain ⟨I, -⟩ := Inv.of_reachable hs (failure_of_step h₁)
    have ht : (system cfg).Reachable t := hrun.reachable (hs.step ⟨U.ascending _ (by simp), h₁⟩)
      fun l hl => U.ascending l (by simpa using .inr (by simpa using hl))
    obtain ⟨c, rfl⟩ := evaluate_eq hpoll h₂
    obtain ⟨hreach, -, -, -, U₁⟩ := U.tail hs h₁ hrun hf
    have C₁ : s₁.Calm cfg := by
      have V := vacant_of_waiting I hp hq
      rw [hs₁]
      exact ⟨⟨V.p2p, V.coll, rfl⟩, trivial⟩
    obtain ⟨C', S⟩ := Inside.settles hreach C₁ hin (U₁.of_append rfl) hf
    have hswept := C'.swept
    simp only [Swept, hpoll] at hswept
    refine ⟨ht, hf, rfl, hswept, ?_⟩
    rw [deliveries, pollEvents_call hp h₁ hin hpoll h₂]
    subst hs₁
    exact ⟨S.mpi, S.issues, S.nulls, S.resolved⟩

end Sys

/-! ## The outcome -/

theorem eq_of_map_eq_of_injOn [Nonempty α] {f : α → β} {A : Set α} (hinj : Set.InjOn f A)
    {m m' : Multiset α} (hm : ∀ a ∈ m, a ∈ A) (hm' : ∀ a ∈ m', a ∈ A) (h : m.map f = m'.map f) :
    m = m' := by
  have hback (m : Multiset α) (hm : ∀ a ∈ m, a ∈ A) :
      (m.map f).map (Function.invFunOn f A) = m := by
    rw [Multiset.map_map]
    exact (Multiset.map_congr rfl fun a ha => hinj.leftInvOn_invFunOn (hm a ha)).trans
      (Multiset.map_id m)
  rw [← hback m hm, h, hback m' hm']

/-- Contexts of pushed operations are told apart by their identities. -/
theorem Life.Inv.contexts_injOn {L : Life} (H : L.Inv) :
    Set.InjOn TaskContext.id {ctx | ∃ op ∈ pushes L.log, ctx = op.context} := by
  rintro _ ⟨op, hop, rfl⟩ _ ⟨op', hop', rfl⟩ heq
  exact congrArg Op.context (List.inj_on_of_nodup_map H.submitted.pushes_nodup hop hop' heq)

theorem Life.Inv.slot_ext {L L' : Life} (H : L.Inv) (H' : L'.Inv)
    (hpush : pushes L'.log = pushes L.log) (hx : x ∈ L.inflight) (hx' : x' ∈ L'.inflight)
    (hr : x'.request = x.request) (hid : x'.ticket.id = x.ticket.id) : x' = x := by
  obtain ⟨op, hop, ht⟩ := H.owned.slots x hx
  obtain ⟨op', hop', ht'⟩ := H'.owned.slots x' hx'
  rw [ht, ht'] at hid
  have := List.inj_on_of_nodup_map H.submitted.pushes_nodup (hpush ▸ hop') hop hid
  have hticket : x'.ticket = x.ticket := by rw [ht, ht', this]
  cases x
  cases x'
  cases hticket
  cases hr
  rfl

namespace Sys
variable {cfg : Config} {s t : Sys}

/-- A request in flight that has not completed is still in flight at the end; one that is in flight
at the end has not completed. -/
theorem inflight_of_settles {ds : List TaskContext} (S : Settles s t ds)
    (H : (s.life cfg).Inv) (H' : (t.life cfg).Inv) (C : Claimed s.mpi s.inflight)
    (C' : Claimed t.mpi t.inflight) (hpush : pushes t.log = pushes s.log)
    (hnone : ∀ x ∈ t.inflight, t.mpi.finished x.request = false) :
    t.inflight = s.inflight.filter fun x => ¬ s.mpi.finished x.request := by
  have hleft {x : Slot} (hx : x ∈ t.inflight) :
      x ∈ s.inflight ∧ s.mpi.finished x.request = false := by
    obtain ⟨status, hm⟩ := H'.registered.active x hx
    change t.mpi x.request = _ at hm
    rcases S.mpi x.request with heq | ⟨hnull, -⟩
    · obtain ⟨y, hy, hr, hid⟩ := C _ _ (heq.symm.trans hm)
      have := H.slot_ext H' hpush hy hx hr.symm hid.symm
      refine ⟨this ▸ hy, ?_⟩
      have := hnone x hx
      rwa [Mpi.finished, heq] at this
    · cases hnull.symm.trans hm
  have hright {x : Slot} (hx : x ∈ s.inflight) (hfin : s.mpi.finished x.request = false) :
      x ∈ t.inflight := by
    obtain ⟨status, hm⟩ := H.registered.active x hx
    change s.mpi x.request = _ at hm
    rcases S.mpi x.request with heq | ⟨-, htrue⟩
    · obtain ⟨y, hy, hr, hid⟩ := C' _ _ (heq.trans hm)
      have := H.slot_ext H' hpush hx hy hr hid
      exact this ▸ hy
    · cases hfin.symm.trans htrue
  have hnodup : s.inflight.Nodup := H.registered.requests_nodup.of_map
  have hnodup' : t.inflight.Nodup := H'.registered.requests_nodup.of_map
  refine (hnodup'.ext (hnodup.filter _)).mpr fun x => ?_
  rw [Multiset.mem_filter]
  constructor
  · intro hx
    exact ⟨(hleft hx).1, by simp [(hleft hx).2]⟩
  · rintro ⟨hx, hfin⟩
    exact hright hx (Bool.eq_false_of_not_eq_true hfin)

/-- Outside the two loops every completion MPI has told of was delivered. -/
theorem reported_of_plain (H : (s.life cfg).Inv) (hp : s.poll.plain) :
    (nulls s.log + reports s.log : Multiset OpId) = s.resolved.map TaskContext.id := by
  have h := H.tracked.resolved
  simp only [life, undelivered_of_plain hp] at h
  rw [h, Sys.resolved, Multiset.map_add]
  simp

/-- What is no longer in flight was delivered. -/
theorem deliveries_of_settles {ds : List TaskContext} (S : Settles s t ds)
    (H : (s.life cfg).Inv) (H' : (t.life cfg).Inv) (hplain : s.poll.plain) (hplain' : t.poll.plain)
    (hpush : pushes t.log = pushes s.log) {left : Multiset Slot}
    (hleft : s.inflight = t.inflight + left) :
    (ds : Multiset TaskContext) = left.map (·.ticket.context) := by
  have hissued : (issues s.log : Multiset OpId) =
      s.inflight.map (·.ticket.id) + nulls s.log + reports s.log := H.tracked.issued
  have hissued' : (issues t.log : Multiset OpId) =
      t.inflight.map (·.ticket.id) + nulls t.log + reports t.log := H'.tracked.issued
  have hresolved := reported_of_plain H hplain
  have hresolved' := reported_of_plain H' hplain'
  rw [S.resolved, Multiset.map_add] at hresolved'
  have hids : left.map (·.ticket.id) = (ds : Multiset TaskContext).map TaskContext.id := by
    rw [S.issues, hissued, add_assoc, hresolved, add_assoc, hresolved', hleft,
      Multiset.map_add] at hissued'
    refine add_left_cancel (a := t.inflight.map (·.ticket.id) + s.resolved.map TaskContext.id) ?_
    rw [add_right_comm, hissued', add_assoc]
  have : Nonempty TaskContext := ⟨(default : Ticket).context⟩
  refine eq_of_map_eq_of_injOn H'.contexts_injOn (fun ctx hctx => ?_) (fun ctx hctx => ?_) ?_
  · have hmem : ctx ∈ t.resolved := by
      rw [S.resolved]
      exact Multiset.mem_add.mpr (.inr hctx)
    rcases Multiset.mem_add.mp hmem with hmem | hmem
    · exact H'.owned.handed ctx hmem
    · exact H'.owned.notifies ctx hmem
  · obtain ⟨x, hx, rfl⟩ := Multiset.mem_map.mp hctx
    have hmem : x ∈ s.inflight := by
      rw [hleft]
      exact Multiset.mem_add.mpr (.inr hx)
    obtain ⟨op, hop, ht⟩ := H.owned.slots x hmem
    exact ⟨op, hpush ▸ hop, by rw [ht]; rfl⟩
  · rw [Multiset.map_map]
    exact hids.symm

theorem mem_slots_iff {requests : Nat → Request} {ticket : Nat → Ticket} :
    x ∈ slots ps requests ticket ↔ ∃ p ∈ ps, ∃ r, requests p = some r ∧ x = ⟨ticket p, r⟩ := by
  simp only [slots, Multiset.mem_coe, List.mem_filterMap, Option.map_eq_some_iff]
  refine exists_congr fun p => and_congr_right fun _ => exists_congr fun r =>
    and_congr_right fun _ => ?_
  exact eq_comm

/-- The call delivers the operations whose requests had completed, and leaves the other ones in
flight. -/
theorem Call.outcome (hs : (system cfg).Reachable s) (hq : ∀ line, s.waiting cfg line = [])
    (C : Call cfg s ls t total) (U : s.Undisturbed cfg ls t) :
    (s.deliveries cfg ls : Multiset TaskContext) =
      (s.inflight.filter fun x => s.mpi.finished x.request).map (·.ticket.context) ∧
    t.inflight = s.inflight.filter fun x => ¬ s.mpi.finished x.request := by
  have hp := C.idle
  obtain ⟨ht, hf, hp', hnone, S⟩ := C.settles hs hq U
  have hsf : s.failure = none := by
    cases C with
    | intro _ h => exact failure_of_step h
  obtain ⟨-, H⟩ := Inv.of_reachable hs hsf
  obtain ⟨-, H'⟩ := Inv.of_reachable ht hf
  have hplain : s.poll.plain := by rw [hp]; rfl
  have hplain' : t.poll.plain := by rw [hp']; rfl
  have hunfinished (x : Slot) (hx : x ∈ t.inflight) : t.mpi.finished x.request = false := by
    rw [inflight_of_plain hplain'] at hx
    obtain ⟨p, hlt, r, hr, rfl⟩ := mem_slots_iff.mp hx
    have := hnone p (List.mem_range.mp hlt)
    simpa only [Buffers.finished, checkBuffers, hr, Option.any_some] using this
  have hinflight := inflight_of_settles S H H' (claimed_of_reachable hs hsf)
    (claimed_of_reachable ht hf) U.pushes hunfinished
  refine ⟨deliveries_of_settles S H H' hplain hplain' U.pushes ?_, hinflight⟩
  rw [hinflight, add_comm, Multiset.filter_add_not]

/-! ## The output arrays of a test -/

end Sys

/-- A test with the arrays of its caller. -/
structure TestOutput where
  test : Test
  ticket : Nat → Ticket
  indices : Nat → Nat
  statuses : Nat → Status

/-- The indices are ascending and below `count`, and place `j` of the statuses is what MPI reported
for the operation of index `j`. -/
structure TestOutput.Sound (o : TestOutput) (log : List Event) : Prop where
  ascending : (o.test.reported o.indices).Pairwise (· < ·)
  lt_count : ∀ i ∈ o.test.reported o.indices, i < o.test.count
  status : ∀ j < o.test.completed,
    .report (o.ticket (o.test.roff + o.indices (o.test.ioff + j))).id (o.statuses j) ∈ log

namespace Sys
variable {cfg : Config} {s t : Sys}

/-- The test in progress, or the one that has just returned. -/
def output (s : Sys) : Option TestOutput :=
  match s.poll with
  | .transfer _ _ _ x =>
    let count := x.req2entry.length
    match x.phase with
    | .test t => some ⟨t, x.ticketOf, x.testcompl2req, x.statuses⟩
    | .filter 0 n => some ⟨⟨0, 0, count, count, n⟩, x.ticketOf, x.testcompl2req, x.statuses⟩
    | _ => none
  | .check _ _ k =>
    let arrays := s.manager.arrays
    let count := k.count s.manager.pending
    match k.phase with
    | .test t => some ⟨t, arrays.getAssociatedTicket, arrays.indices, arrays.statuses⟩
    | .store 0 n =>
      some ⟨⟨k.checked, k.completed, count, count, n⟩, arrays.getAssociatedTicket, arrays.indices,
        arrays.statuses⟩
    | _ => none
  | _ => none

end Sys

theorem TestInv.sound {o : TestOutput} {requests : Nat → Request}
    (T : TestInv o.ticket o.test requests o.indices o.statuses log) : o.Sound log :=
  ⟨T.sorted, T.lt_count, T.status⟩

theorem TestOutput.Sound.of_lt {o : TestOutput}
    (hsorted : ∀ i j, i < j → j < o.test.completed →
      o.indices (o.test.ioff + i) < o.indices (o.test.ioff + j))
    (hlt : ∀ j < o.test.completed, o.indices (o.test.ioff + j) < o.test.count)
    (hstatus : ∀ j < o.test.completed,
      .report (o.ticket (o.test.roff + o.indices (o.test.ioff + j))).id (o.statuses j) ∈ log) :
    o.Sound log where
  ascending := by
    refine List.pairwise_iff_getElem.mpr fun i j hi hj hij => ?_
    rw [Test.getElem_reported, Test.getElem_reported]
    exact hsorted i j hij (by simpa using hj)
  lt_count i hi := by
    obtain ⟨j, hj, rfl⟩ := List.mem_map.mp hi
    exact hlt j (List.mem_range.mp hj)
  status := hstatus

namespace Sys
variable {cfg : Config} {s t : Sys}

theorem output_sound (h : (system cfg).Reachable s) (hf : s.failure = none)
    (ho : s.output = some o) : o.Sound s.log := by
  obtain ⟨I, -⟩ := Inv.of_reachable h hf
  unfold output at ho
  split at ho
  next total w np2p x hp =>
    obtain ⟨-, -, -, X⟩ := I.transfer hp
    have hX := X.phase
    dsimp only at ho
    split at ho
    next t hx =>
      cases ho
      simp only [Transfer.PhaseInv, hx] at hX
      exact hX.2.2.2.2.1.toTestInv.sound
    next n hx =>
      cases ho
      simp only [Transfer.PhaseInv, hx] at hX
      obtain ⟨F, -⟩ := hX
      refine .of_lt (fun i j hij hj => ?_) (fun j hj => ?_) fun j hj => ?_
      · simpa using F.sorted i j (Nat.zero_le _) hij hj
      · simpa using F.lt_nreqs j (Nat.zero_le _) hj
      · simpa using F.status j (Nat.zero_le _) hj
    next => cases ho
  next total inserted k hp =>
    have K := (I.check hp).phase
    dsimp only at ho
    split at ho
    next t hk =>
      cases ho
      simp only [Check.PhaseInv, hk] at K
      exact K.2.2.2.2.2.toTestInv.sound
    next n hk =>
      cases ho
      simp only [Check.PhaseInv, Check.batchPositions, hk] at K
      obtain ⟨-, B⟩ := K
      refine .of_lt (fun i j hij hj => ?_) (fun j hj => ?_) fun j hj => ?_
      · have := List.pairwise_iff_getElem.mp B.sorted i j (by simpa using hij.trans hj)
          (by simpa using hj) hij
        simpa using this
      · have := B.mem (k.checked + s.manager.arrays.indices (k.completed + j))
          (List.mem_map.mpr ⟨j, List.mem_range.mpr hj, rfl⟩)
        exact Nat.lt_of_add_lt_add_left this.2
      · simpa using B.status j (by simpa using hj) (Nat.zero_le _)
    next => cases ho
  next => cases ho

/-- The testing approaches are interchangeable. In a call with empty pre-queues that is not
disturbed, some answer of MPI always lets the polling task go on, it takes finitely many steps, and
at the end it has delivered the operations whose requests had completed, each once, and left the
other ones in flight; no part of this depends on `generalTesting`. The output arrays of every test
are in order. -/
theorem checkRequests_outcome (h : (system cfg).Reachable s) (hp : s.poll = .idle)
    (hq : ∀ line, s.waiting cfg line = []) :
    (∀ a s₁ ls t, (system cfg).step s (.poll a) s₁ → s₁.Inside cfg ls t →
      s₁.Undisturbed cfg ls t → t.failure = none →
      ∃ b u, t.honest cfg (.poll b) ∧ (system cfg).step t (.poll b) u) ∧
    (∀ (σ : Nat → Sys) (ls : Nat → Label), σ 0 = s → (ls 0).isPoll →
      (∀ n, (system cfg).step (σ n) (ls n) (σ (n + 1))) → (∀ n ≥ 1, (σ n).poll ≠ .idle) →
      (∀ n, pushes (σ n).log = pushes s.log) → ∃ n, ∀ m ≥ n, (ls m).isPoll = false) ∧
    (∀ ls t total, s.Call cfg ls t total → s.Undisturbed cfg ls t →
      (s.deliveries cfg ls : Multiset TaskContext) =
        (s.inflight.filter fun x => s.mpi.finished x.request).map (·.ticket.context) ∧
      t.inflight = s.inflight.filter fun x => ¬ s.mpi.finished x.request) ∧
    ∀ u o, (system cfg).Reachable u → u.failure = none → u.output = some o → o.Sound u.log := by
  refine ⟨fun a s₁ ls t hstep hin U hf => ?_, fun σ ls h0 hl hstep hin hpush => ?_,
    fun ls t total C U => C.outcome h hq U, fun u o hu hf ho => output_sound hu hf ho⟩
  · obtain ⟨R, -⟩ := Round.enter hp hstep.2
    obtain ⟨R', -⟩ := Inside.round (h.step hstep) R hin U.ascending hf U.pushes
    obtain ⟨I, HL⟩ := Inv.of_reachable (hin.reachable (h.step hstep) U.ascending) hf
    obtain ⟨b, u, hasc, hhonest, hu⟩ := R'.exists_honest I HL hf
    exact ⟨b, u, hhonest, hasc, hu⟩
  · subst h0
    exact finite_call h hp hl hstep hin hpush

end Sys

def anyConfig : Config := { demoConfig with generalTesting := .testAny, general_ne := by decide }

/-- Two receives and a barrier are in flight, and the first and the last of the requests complete
after a call. -/
def pickRun : List Label := List.flatten [
  [.process 0 0 .NONBLK demoRecv], List.replicate 5 (.cpu 0),
  [.process 0 0 .NONBLK demoRecv], List.replicate 4 (.cpu 0),
  [.process 0 1 .BLK demoBarrier], List.replicate 3 (.cpu 0), List.replicate 13 (.poll .silent),
  [.poll (.issued (some 7)), .poll (.issued (some 8)), .poll .silent, .poll (.some [])],
  List.replicate 8 (.poll .silent),
  [.poll (.issued (some 9)), .poll .silent, .poll (.some [])],
  List.replicate 12 (.poll .silent), [.poll (.any none)],
  List.replicate 10 (.poll .silent), [.poll (.any none)],
  List.replicate 3 (.poll .silent), [.poll (.now 0), .mpi 7 ⟨1, 2, 0⟩, .mpi 9 ⟨1, 2, 0⟩]]

/-- `MPI_Testany` picks the last request, so the first one is left to the next round. -/
def pickCall : List Label := List.flatten [
  List.replicate 7 (.poll .silent), [.poll (.any (some 2))], List.replicate 13 (.poll .silent),
  [.poll (.any (some 0)), .poll (.any none)], List.replicate 12 (.poll .silent),
  [.poll (.any none)], List.replicate 3 (.poll .silent)]

theorem pickCall_outcome : ∃ s t, (system anyConfig).Reachable s ∧
    s.Call anyConfig (.poll .silent :: pickCall ++ [.poll (.now 0)]) t 2 ∧
    (s.deliveries anyConfig (.poll .silent :: pickCall ++ [.poll (.now 0)])).map (·.id.serial) =
      [2, 0] ∧
    (s.deliveries anyConfig (.poll .silent :: pickCall ++ [.poll (.now 0)]) :
      Multiset TaskContext) =
      (s.inflight.filter fun x => s.mpi.finished x.request).map (·.ticket.context) ∧
    t.inflight = s.inflight.filter fun x => ¬ s.mpi.finished x.request := by
  have hrun : ((Transition.System.run (Sys.step anyConfig) (.cleared anyConfig) pickRun).bind
      fun s => (s.callRun anyConfig .silent pickCall (.now 0)).map fun p =>
        (p.2, (s.p2pOperations.total anyConfig.queue, s.collOperations),
          [s.failure.isNone, decide (pushes p.1.log = pushes s.log),
            s.honestAlong anyConfig (.poll .silent :: pickCall ++ [.poll (.now 0)])],
          (s.deliveries anyConfig (.poll .silent :: pickCall ++ [.poll (.now 0)])).map
            (·.id.serial))) =
      some (2, (0, []), [true, true, true], [2, 0]) := by
    decide +kernel
  obtain ⟨s, hs, h⟩ := Option.bind_eq_some_iff.mp hrun
  obtain ⟨⟨t, n⟩, ht, h⟩ := Option.map_eq_some_iff.mp h
  simp only [Prod.mk.injEq, List.cons.injEq, Option.isNone_iff_eq_none] at h
  obtain ⟨rfl, ⟨htotal, hcoll⟩, ⟨hf, hpush, hhonest, -⟩, hserials⟩ := h
  have hreach : (system anyConfig).Reachable s := reachable_of_run (by decide +kernel) hs
  have hcall := Sys.Call.of_callRun ht
  obtain ⟨I, -⟩ := Sys.Inv.of_reachable hreach hf
  refine ⟨s, t, hreach, hcall, hserials, ?_⟩
  exact (Sys.checkRequests_outcome hreach hcall.idle (I.waiting_eq_nil ⟨htotal, hcoll⟩)).2.2.1
    _ _ _ hcall ⟨by decide +kernel, by decide +kernel, of_decide_eq_true hpush, hhonest⟩

end Tampi
