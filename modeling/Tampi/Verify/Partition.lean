import Tampi.Verify.Batch

/-! # Whole transfers

A batch on its way through `transferOperations` is followed from its first step to the one that
gives its objects back (`Transferring.run`). At the end every entry has been delivered or appended to
the in-flight arrays. -/

namespace Tampi
open Function (update)

namespace Sys
variable {cfg : Config} {s t u : Sys} {os : List Nat}

/-- The objects the polling task gives back to an allocator along a run. -/
def frees (cfg : Config) (kind : OpKind) : Sys → List Label → List Nat
  | _, [] => []
  | s, l :: ls =>
    match s.step cfg l with
    | none => []
    | some t =>
      (if l.isPoll then (t.allocators kind).central.drop (s.allocators kind).central.length
      else []) ++ frees cfg kind t ls

theorem Within.frees_append {P : Poll → Prop} (h : Within cfg P s ls t) :
    s.frees cfg kind (ls ++ ls') = s.frees cfg kind ls ++ t.frees cfg kind ls' := by
  induction h with
  | refl => rfl
  | head _ h _ ih => simp only [List.cons_append, frees, h, ih, List.append_assoc]

/-- Other agents do not write the objects of the batch. -/
theorem objects_other (I : s.outline.Inv cfg) (h : s.step cfg l = some t) (hl : l.isPoll = false)
    (ho : o ∈ s.outline.live cfg kind) : t.objects kind o = s.objects kind o := by
  cases agentMove_of_step h hl with
  | @alloc cpu op object a hc ha =>
    have hlt := I.cpu_lt cpu (by simp [outline, hc])
    have hunused := ObjAllocator.unused_alloc hlt ha
    exact I.objects_frame op (by rw [outline, hunused]; exact Multiset.mem_cons_self ..) ho
  | _ => rfl

/-- The batch `os` is at `x`; it has delivered `ds` and issued `is`. -/
structure Transferring (cfg : Config) (op : Nat → Op) (m₀ : TicketManager) (kind : OpKind)
    (os : List Nat) (s : Sys) (ds : List TaskContext) (is : List (OpId × MpiCall × Request))
    (R : List Nat) (x : Transfer) : Prop where
  poll : ∃ total w np2p, s.poll = .transfer total w np2p x
  kind_eq : x.kind = kind
  operations : x.operations = os
  inv : s.outline.Inv cfg
  objects : ∀ e < os.length, s.objects kind (os.getD e 0) = op e
  progress : x.Progress cfg op m₀ s.manager ds is R

theorem outline_poll {x : Transfer} (hp : s.poll = .transfer total w np2p x) :
    s.outline.poll = .transfer 0 ⟨BatchSize, 0⟩ 0 (.start x.kind x.operations) := by
  change s.poll.outline = _
  rw [hp, Poll.outline]

namespace Transferring
variable {op : Nat → Op} {m₀ : TicketManager} {kind : OpKind} {os : List Nat}
  {ds : List TaskContext} {is : List (OpId × MpiCall × Request)} {R : List Nat} {x : Transfer}

theorem mem_live (T : s.Transferring cfg op m₀ kind os ds is R x) (ho : o ∈ os) :
    o ∈ s.outline.live cfg kind := by
  obtain ⟨total, w, np2p, hp⟩ := T.poll
  rw [← T.kind_eq]
  exact mem_live_transfer (x := .start x.kind x.operations) (outline_poll hp) (T.operations ▸ ho)

/-- A step of another agent. -/
theorem other (T : s.Transferring cfg op m₀ kind os ds is R x) (h : s.step cfg l = some t)
    (hl : l.isPoll = false) (hf : t.failure = none) :
    t.Transferring cfg op m₀ kind os ds is R x := by
  obtain ⟨hm, hp⟩ := step_manager h hl
  exact {
    poll := hp ▸ T.poll
    kind_eq := T.kind_eq
    operations := T.operations
    inv := outline_other T.inv h hl hf
    objects := fun e he => by
      rw [objects_other T.inv h hl (T.mem_live (getD_mem he)), T.objects e he]
    progress := hm ▸ T.progress }

/-- A step of the polling task that stays in the batch. -/
theorem move (T : s.Transferring cfg op m₀ kind os ds is R x) (hs : s.failure = none)
    (M : s.PollMove cfg a t) (ht : t.poll.isTransfer) :
    ∃ es R' x', t.log = s.log ++ es ∧ t.allocators = s.allocators ∧
      t.Transferring cfg op m₀ kind os (ds ++ es.filterMap Event.delivered)
        (is ++ es.filterMap Event.issuance) R' x' ∧ x'.left < x.left := by
  obtain ⟨total, w, np2p, hp⟩ := T.poll
  have hmove := M
  cases M with
  | @transfer _ _ _ y _ s₁ x' hp' M =>
    cases hp.symm.trans hp'
    obtain ⟨F, hk, ho⟩ := M.frame
    have hobjects : ∀ e < x.operations.length, s.objects x.kind (x.operations.getD e 0) = op e := by
      rw [T.kind_eq, T.operations]
      exact T.objects
    obtain ⟨es, R', hlog, G⟩ := T.progress.move M hobjects
    refine ⟨es, R', x', hlog, F.allocators, ?_, ?_⟩
    · exact {
        poll := ⟨_, _, _, rfl⟩
        kind_eq := hk.trans T.kind_eq
        operations := ho.trans T.operations
        inv := outline_move T.inv hs hmove
        objects := fun e he => by rw [F.objects, T.objects e he]
        progress := G }
    · exact Transfer.left_lt M (ho ▸ G.rest_le)
  | @free _ w' np2p' y _ hp' =>
    dsimp only at ht
    unfold nextWindow at ht
    split at ht
    · cases ht
    · split at ht <;> cases ht
  | enter hp' | top hp' | full hp' | pop hp' | popping hp' | noP2P hp' | takeP2P hp' | noColl hp'
  | takeColl hp' | bottom hp' | bottomEmpty hp' | check hp' | replace hp' | evaluate hp' =>
    cases hp.symm.trans hp'

/-- What stops `transferOperations` in a batch is a check of the environment. -/
theorem allowed_of_stop (T : s.Transferring cfg op m₀ kind os ds is R x)
    (hp : s.poll = .transfer total w np2p x) (h : s.TransferStop cfg x a f) : f.Allowed := by
  have hreached := T.progress.reached
  have B := T.progress.batch
  cases h with
  | invalidOperation | invalidCollOperation | contextsFull => trivial
  | testsome hx htest | testany hx htest =>
    simp only [Transfer.Reached, hx] at hreached
    obtain ⟨-, -, -, -, hfresh, -, hsome⟩ := hreached
    exact absurd htest (not_failed hfresh.active hsome)
  | @filter c n hx hlt hnone =>
    simp only [Transfer.Reached, hx] at hreached
    simp only [Transfer.filtered, hx] at B
    have hc : c < R.length := by rw [← hreached.2.2]; simpa using hlt
    have hreq : x.testcompl2req c = R[c] := by simp [← hreached.2.2]
    rw [hreq, B.entry hc] at hnone
    cases hnone
  | free _ hroom =>
    exact absurd hroom (Nat.not_lt.mpr
      (T.inv.free_fits (x := .start x.kind x.operations) (outline_poll hp)))

/-- The process only stops where the code checks its environment. -/
theorem allowed (T : s.Transferring cfg op m₀ kind os ds is R x) (h : s.step cfg l = some t)
    (hf : t.failure = some f) : f.Allowed := by
  have hs := failure_of_step h
  by_cases hl : l.isPoll
  · cases l with
    | process | cpu | resume | completion | mpi => cases hl
    | poll a =>
      obtain ⟨total, w, np2p, hp⟩ := T.poll
      rcases pollMove_or_stop (step_poll h) hs with ⟨f', hf', hstop⟩ | M
      · cases hf.symm.trans hf'
        cases hstop with
        | enterTransfer hne => exact (hne _ _ _ _ hp).elim
        | check hp' | replace hp' => cases hp.symm.trans hp'
        | transfer hp' hstop =>
          cases hp.symm.trans hp'
          exact T.allowed_of_stop hp hstop
      · cases hf.symm.trans (M.failure.trans hs)
  · have hl := Bool.eq_false_of_not_eq_true hl
    rcases T.inv.other (outline_step h hl) hl with ⟨hnone, -⟩ | ⟨f', hf', hallowed⟩
    · cases hnone.symm.trans hf
    · cases hf'.symm.trans hf
      exact hallowed

theorem enabled (T : s.Transferring cfg op m₀ kind os ds is R x) (hs : s.failure = none) :
    ∃ a t, s.step cfg (.poll a) = some t := by
  obtain ⟨total, w, np2p, hp⟩ := T.poll
  obtain ⟨a, t, h, -⟩ := exists_transferStep cfg s total w np2p x
  refine ⟨a, t, ?_⟩
  unfold step
  rw [if_neg (by simp [hs])]
  simpa only [pollStep, hp] using h

theorem frees_cons (h : s.step cfg l = some t) (ha : l.isPoll → t.allocators = s.allocators) :
    s.frees cfg kind (l :: ls) = t.frees cfg kind ls := by
  simp only [frees, h]
  split
  · rw [ha ‹_›, List.drop_length, List.nil_append]
  · exact List.nil_append _

/-- A step inside the batch that does not stop the process. -/
theorem step (T : s.Transferring cfg op m₀ kind os ds is R x) (h : s.step cfg l = some t)
    (ht : t.poll.isTransfer) (hf : t.failure = none) :
    ∃ R' x', t.Transferring cfg op m₀ kind os (ds ++ s.deliveries cfg [l])
      (is ++ s.issuances cfg [l]) R' x' ∧ s.frees cfg kind [l] = [] ∧
      [l].countP Label.isPoll + x'.left ≤ x.left := by
  by_cases hl : l.isPoll
  · cases l with
    | process | cpu | resume | completion | mpi => cases hl
    | poll a =>
      obtain ⟨es, R', x', hlog, hall, T', hlt⟩ :=
        T.move (failure_of_step h) (pollMove_of_step h hf) ht
      refine ⟨R', x', ?_, frees_cons h fun _ => hall, ?_⟩
      · rw [deliveries_poll h hlog, issuances_poll h hlog]
        simpa only [deliveries, issuances, pollEvents, List.filterMap_nil, List.append_nil] using T'
      · simp [Label.isPoll]
        omega
  · have hl := Bool.eq_false_of_not_eq_true hl
    refine ⟨R, x, ?_, frees_cons h fun hp => absurd hp (by simp [hl]), by simp [hl]⟩
    rw [deliveries_other h hl, issuances_other h hl]
    simpa only [deliveries, issuances, pollEvents, List.filterMap_nil, List.append_nil] using
      T.other h hl hf

/-- Along a run inside `transferOperations`. -/
theorem run (T : s.Transferring cfg op m₀ kind os ds is R x) (hs : s.failure = none)
    (h : s.Within cfg (·.isTransfer) ls t) :
    (∃ f, t.failure = some f ∧ f.Allowed ∧ ls.countP Label.isPoll ≤ x.left + 1) ∨
    t.failure = none ∧ ∃ R' x', t.Transferring cfg op m₀ kind os (ds ++ s.deliveries cfg ls)
      (is ++ s.issuances cfg ls) R' x' ∧ s.frees cfg kind ls = [] ∧
      ls.countP Label.isPoll + x'.left ≤ x.left := by
  induction h generalizing ds is R x with
  | refl =>
    refine .inr ⟨hs, R, x, ?_, rfl, Nat.le_of_eq (Nat.zero_add _)⟩
    simpa only [deliveries, issuances, pollEvents, List.filterMap_nil, List.append_nil] using T
  | @head u s l ls t hpoll hstep hrun ih =>
    cases hf : t.failure with
    | some f =>
      cases hrun with
      | head _ h => cases (failure_of_step h).symm.trans hf
      | refl =>
        refine .inl ⟨f, hf, T.allowed hstep hf, ?_⟩
        have := List.countP_le_length (p := Label.isPoll) (l := [l])
        simp only [List.length_singleton] at this
        omega
    | none =>
      obtain ⟨R', x', T', hfrees, hleft⟩ := T.step hstep hrun.poll.1 hf
      have hone : s.Within cfg (·.isTransfer) [l] t := .head hpoll hstep (.refl hrun.poll.1)
      rw [show l :: ls = [l] ++ ls from rfl, List.countP_append]
      rcases ih T' hf with ⟨f, hfail, hallowed, hcount⟩ | ⟨hnone, R'', x'', T'', hfrees', hcount⟩
      · exact .inl ⟨f, hfail, hallowed, by omega⟩
      · refine .inr ⟨hnone, R'', x'', ?_, ?_, by omega⟩
        · rwa [hone.deliveries_append, hone.issuances_append, ← List.append_assoc,
            ← List.append_assoc]
        · rw [hone.frees_append, hfrees, hfrees', List.append_nil]

theorem start (hp : s.poll = .transfer total w np2p (.start kind os)) (I : s.outline.Inv cfg) :
    s.Transferring cfg (s.objects kind <| os.getD · 0) s.manager kind os [] [] []
      (.start kind os) where
  poll := ⟨_, _, _, hp⟩
  kind_eq := rfl
  operations := rfl
  inv := I
  objects _ _ := rfl
  progress := .start ..

theorem nodup (T : s.Transferring cfg op m₀ kind os ds is R x) : os.Nodup := by
  have hnodup := Multiset.nodup_range (cfg.sizes.objects kind)
  rw [← T.inv.objects kind] at hnodup
  have hlive := (Multiset.nodup_add.mp (Multiset.nodup_add.mp hnodup).2.1).2.1
  obtain ⟨total, w, np2p, hp⟩ := T.poll
  rw [outline_poll hp, T.kind_eq, T.operations] at hlive
  simpa [Poll.transferring, Transfer.start] using hlive

end Transferring

/-- What has become of the batch `os` when `transferOperations`, entered in `s`, has returned in
`u`: the entries `done` are completed, the entries `kept` are in flight. -/
structure Partition (cfg : Config) (s u : Sys) (ls : List Label) (kind : OpKind) (os : List Nat)
    (done kept : List Nat) : Prop where
  perm : (done ++ kept).Perm (List.range os.length)
  sorted : kept.Pairwise (· < ·)
  issued : (s.issuances cfg ls).length = os.length
  own : ∀ e (h : e < (s.issuances cfg ls).length),
    (s.issuances cfg ls)[e].1 = (s.objects kind (os.getD e 0)).id ∧
      (s.objects kind (os.getD e 0)).issue = some (s.issuances cfg ls)[e].2.1
  active : ∀ e ∈ kept, (requestsOf (s.issuances cfg ls)).getD e none ≠ none
  delivered : s.deliveries cfg ls = done.map fun e => (s.objects kind (os.getD e 0)).context
  placed : Transfer.Placed (s.objects kind <| os.getD · 0) (requestsOf (s.issuances cfg ls))
    s.manager u.manager kept
  nodup : os.Nodup
  freed : s.frees cfg kind ls = os

/-- The last step of the batch. -/
theorem Transferring.finish {op : Nat → Op} {m₀ : TicketManager} {kind : OpKind}
    {ds : List TaskContext} {is : List (OpId × MpiCall × Request)} {R : List Nat} {x : Transfer}
    (T : t.Transferring cfg op m₀ kind os ds is R x) (h : t.step cfg (.poll a) = some u)
    (hf : u.failure = none) (hu : u.poll.isTransfer = false) :
    x.phase = .free ∧ u.log = t.log ∧ u.manager = t.manager ∧ t.frees cfg kind [.poll a] = os := by
  obtain ⟨total, w, np2p, hp⟩ := T.poll
  have M := pollMove_of_step h hf
  cases M with
  | transfer => cases hu
  | free hp' hx hfits =>
    cases hp.symm.trans hp'
    refine ⟨hx, rfl, rfl, ?_⟩
    have hfree : (((t.allocators x.kind).free (cfg.sizes.objects x.kind) x.operations).central.drop
        (t.allocators x.kind).central.length) = x.operations := by
      rw [ObjAllocator.free, List.drop_left, List.take_of_length_le hfits]
    simp only [frees, h, Label.isPoll, if_true, List.append_nil]
    rw [← T.kind_eq, Function.update_self, hfree, T.operations]
  | enter hp' | top hp' | full hp' | pop hp' | popping hp' | noP2P hp' | takeP2P hp' | noColl hp'
  | takeColl hp' | bottom hp' | bottomEmpty hp' | check hp' | replace hp' | evaluate hp' =>
    cases hp.symm.trans hp'

/-- The entries of a batch that is to be given back. -/
theorem Transferring.partition {kind : OpKind} {is : List (OpId × MpiCall × Request)}
    {R : List Nat} {x : Transfer} {op : Nat → Op} {m₀ : TicketManager} {ds : List TaskContext}
    (T : t.Transferring cfg op m₀ kind os ds is R x) (hx : x.phase = .free) :
    is.length = os.length ∧ ∃ done kept, (done ++ kept).Perm (List.range os.length) ∧
      kept.Pairwise (· < ·) ∧ (∀ e ∈ kept, (requestsOf is).getD e none ≠ none) ∧
      ds = done.map (fun e => (op e).context) ∧
      Transfer.Placed op (requestsOf is) m₀ t.manager kept := by
  obtain ⟨-, B, -, hds, hplaced, hreached⟩ := T.progress
  simp only [Transfer.filtered, Transfer.handed, Transfer.moved, hx] at B hds hplaced
  simp only [Transfer.Reached, hx] at hreached
  rw [T.operations, requestsOf, List.length_map] at hreached
  refine ⟨hreached, _, _, ?_, (activeEntries_sorted _).sublist B.kept_sublist, fun e he => ?_,
    hds, hplaced⟩
  · rw [← hreached, ← List.length_map (f := (·.2.2))]
    exact B.perm
  · exact request_ne_none (B.kept_sublist.subset he)

/-- `transferOperations` completes each operation of its batch or moves it to the in-flight arrays,
once, whatever requests MPI returns and whichever it reports at once; it returns, unless a check of
the environment stops the process, and does not give an object back before. -/
theorem transferOperations_partition (hs : (openSystem cfg).Reachable s) (hf : s.failure = none)
    (hp : s.poll = .transfer total w np2p (.start kind os)) :
    (∀ ls t, s.Within cfg (·.isTransfer) ls t →
      ls.countP Label.isPoll ≤ 7 * os.length + 7 ∧ (∀ f, t.failure = some f → f.Allowed) ∧
      (t.failure = none → (∃ a u, t.step cfg (.poll a) = some u) ∧ s.frees cfg kind ls = [] ∧
        ∀ o ∈ os, t.objects kind o = s.objects kind o)) ∧
    ∀ ls t a u, s.Within cfg (·.isTransfer) ls t → t.step cfg (.poll a) = some u →
      u.failure = none → u.poll.isTransfer = false →
      ∃ done kept, s.Partition cfg u (ls ++ [.poll a]) kind os done kept := by
  have T := Transferring.start hp (outline_inv hs hf)
  constructor
  · intro ls t h
    rcases T.run hf h with ⟨f, hfail, hallowed, hcount⟩ | ⟨hnone, R, x, T', hfrees, hcount⟩
    · rw [Transfer.left_start] at hcount
      refine ⟨hcount, fun f' hf' => ?_, fun hnone => ?_⟩
      · cases hfail.symm.trans hf'
        exact hallowed
      · cases hfail.symm.trans hnone
    · rw [Transfer.left_start] at hcount
      refine ⟨by omega, fun f hf' => ?_, fun _ => ⟨T'.enabled hnone, hfrees, fun o ho => ?_⟩⟩
      · cases hf'.symm.trans hnone
      · obtain ⟨e, he, rfl⟩ := List.getElem_of_mem ho
        simpa [List.getElem?_eq_getElem he] using T'.objects e he
  · intro ls t a u h hstep hu hreturn
    have hnone := failure_of_step hstep
    rcases T.run hf h with ⟨f, hfail, -⟩ | ⟨-, R, x, T', hfrees, -⟩
    · cases hfail.symm.trans hnone
    obtain ⟨hx, hlog, hm, hfinish⟩ := T'.finish hstep hu hreturn
    obtain ⟨hissued, done, kept, hperm, hsorted, hactive, hds, hplaced⟩ := T'.partition hx
    have hlog : u.log = t.log ++ [] := hlog.trans (List.append_nil _).symm
    have hds' : s.deliveries cfg (ls ++ [.poll a]) = s.deliveries cfg ls := by
      rw [h.deliveries_append, deliveries_poll hstep hlog]
      exact List.append_nil _
    have his' : s.issuances cfg (ls ++ [.poll a]) = s.issuances cfg ls := by
      rw [h.issuances_append, issuances_poll hstep hlog]
      exact List.append_nil _
    rw [List.nil_append] at hissued hds hplaced hactive
    exact ⟨done, kept, {
      perm := hperm
      sorted := hsorted
      issued := by rw [his', hissued]
      own := by
        rw [his']
        exact T'.progress.issued
      active := by rwa [his']
      delivered := by rw [hds', hds]
      placed := by rwa [his', hm]
      nodup := T.nodup
      freed := by rw [h.frees_append, hfrees, hfinish, List.nil_append] }⟩

end Sys

/-- Task 0 submits four receives, which the polling task pops in one batch. -/
def batchConfig : Config :=
  { Config.defaults 1 Nat.one_pos with sizes := ⟨8, 4, 8, 4, 2, by decide, by decide⟩ }

def batchRun : List Label := List.flatten [
  [.process 0 0 .NONBLK demoRecv], List.replicate 5 (.cpu 0),
  (List.replicate 3 (.process 0 0 .NONBLK demoRecv :: List.replicate 4 (.cpu 0))).flatten,
  List.replicate 14 (.poll .silent)]

/-- The first receive completes when it is issued, and the last two before the test, which reports
them in descending order. -/
def batchTransfer : List Label := List.flatten [
  [.poll (.issued none), .poll (.issued (some 7)), .poll (.issued (some 8)),
    .poll (.issued (some 9)), .poll .silent, .mpi 8 ⟨1, 2, 0⟩, .mpi 9 ⟨1, 2, 0⟩,
    .poll (.some [2, 1])], List.replicate 12 (.poll .silent)]

theorem Sys.start_of_step {cfg : Config} {s t : Sys} (h : s.step cfg (.poll a) = some t)
    (hs : s.poll.isTransfer = false) (ht : t.poll.isTransfer) (hf : t.failure = none) :
    ∃ total w np2p kind os, t.poll = .transfer total w np2p (.start kind os) := by
  have M := pollMove_of_step h hf
  cases M with
  | takeP2P => exact ⟨_, _, _, _, _, rfl⟩
  | takeColl => exact ⟨_, _, _, _, _, rfl⟩
  | transfer hp | free hp =>
    rw [hp] at hs
    cases hs
  | popping hp =>
    rw [show ({ s with p2pOperations := _ } : Sys).poll = s.poll from rfl, hp] at ht
    cases ht
  | noColl | bottomEmpty | replace =>
    dsimp only at ht
    simp only [nextWindow, nextRound] at ht
    split at ht <;> cases ht
  | enter | top | full | pop | noP2P | bottom | check | evaluate => cases ht

/-- The batch in transfer. -/
def Poll.batchOf : Poll → Option (OpKind × List Nat)
  | .transfer _ _ _ x => some (x.kind, x.operations)
  | _ => none

theorem batchTransfer_partition : ∃ s t u, (openSystem batchConfig).Reachable s ∧
    s.Within batchConfig (·.isTransfer) batchTransfer t ∧
    t.step batchConfig (.poll .silent) = some u ∧
    (s.deliveries batchConfig (batchTransfer ++ [.poll .silent])).map (·.id.serial) = [0, 3, 2] ∧
    ∃ done kept, s.Partition batchConfig u (batchTransfer ++ [.poll .silent]) .p2p [0, 3, 2, 1]
      done kept := by
  have hrun : ((Transition.System.run (Sys.step batchConfig) (.cleared batchConfig) batchRun).bind
      fun r => (r.step batchConfig (.poll .silent)).bind fun s =>
        (Transition.System.run (Sys.withinStep batchConfig (·.isTransfer)) s batchTransfer).bind
          fun t => (t.step batchConfig (.poll .silent)).map fun u =>
            (s.poll.batchOf, [r.poll.isTransfer, t.poll.isTransfer, u.poll.isTransfer],
              [s.failure, u.failure],
              (s.deliveries batchConfig (batchTransfer ++ [.poll .silent])).map (·.id.serial))) =
      some (some (.p2p, [0, 3, 2, 1]), [false, true, false], [none, none], [0, 3, 2]) := by
    decide +kernel
  obtain ⟨r, hr, h⟩ := Option.bind_eq_some_iff.mp hrun
  obtain ⟨s, hs, h⟩ := Option.bind_eq_some_iff.mp h
  obtain ⟨t, ht, h⟩ := Option.bind_eq_some_iff.mp h
  obtain ⟨u, hu, h⟩ := Option.map_eq_some_iff.mp h
  simp only [Prod.mk.injEq, List.cons.injEq] at h
  obtain ⟨hbatch, ⟨hr', ht', hu', -⟩, ⟨hsf, huf, -⟩, hserials⟩ := h
  have hrun : (openSystem batchConfig).Reaches (.cleared batchConfig) batchRun r :=
    .of_run (fun _ _ _ _ h => h) hr
  have hstart : (openSystem batchConfig).step r (.poll .silent) s := hs
  have hreach : (openSystem batchConfig).Reachable s :=
    ⟨_, _, ⟨_, _, _, _, rfl⟩, hrun.tail hstart⟩
  have hwithin := Sys.Within.of_run ht ht'
  obtain ⟨total, w, np2p, kind, os, hp⟩ := Sys.start_of_step hs hr' hwithin.poll.1 hsf
  rw [hp] at hbatch
  cases hbatch
  exact ⟨s, t, u, hreach, hwithin, hu, hserials,
    (Sys.transferOperations_partition hreach hsf hp).2 _ _ _ _ hwithin hu huf hu'⟩

end Tampi
