import Tampi.Verify.Tracking

/-! # The stages of an operation

`Stage.advance` is the life of a single operation as an automaton over the events about it. In every
reachable state the history of each operation is a run of its automaton, and the stage it has led to
is the place where the library holds the operation (`stage_of_reachable`). -/

namespace Tampi
open Function (update)

inductive Stage
  | fresh
  | bound
  | pushed
  | inflight
  | completed
  | transferred
  | notified
  deriving DecidableEq, Repr

/-- The event names the operation, and is not one of its stores. -/
def Event.about (id : OpId) : Event → Bool
  | .bind op | .push op => op.id = id
  | .issue owner _ _ | .report owner _ => owner = id
  | .transfer ctx | .notify ctx => ctx.id = id
  | .block _ | .resume _ | .test | .store .. => false

/-- The stage after an event about the operation; there is none if the event is out of turn. -/
def Stage.advance (op : Op) : Stage → Event → Option Stage
  | .fresh, .bind o => if o = op then some .bound else none
  | .bound, .push o => if o = op then some .pushed else none
  | .pushed, .issue _ call none => if op.issue = some call then some .completed else none
  | .pushed, .issue _ call (some _) => if op.issue = some call then some .inflight else none
  | .inflight, .report .. => some .completed
  | .completed, .transfer ctx => if ctx = op.context then some .transferred else none
  | .completed, .notify ctx | .transferred, .notify ctx =>
    if ctx = op.context then some .notified else none
  | _, _ => none

/-- The stage the history of the operation leads to. -/
def Op.stage (op : Op) (log : List Event) : Option Stage :=
  (log.filter (Event.about op.id)).foldlM (Stage.advance op) .fresh

theorem Op.stage_append {op : Op} (he : e.about op.id = true) :
    op.stage (log ++ [e]) = (op.stage log).bind (Stage.advance op · e) := by
  rw [stage, List.filter_append, List.filter_cons_of_pos he, List.filter_nil, List.foldlM_append]
  simp only [List.foldlM_cons, List.foldlM_nil, bind_pure]
  rfl

theorem Op.stage_append_of_not {op : Op} (he : e.about op.id = false) :
    op.stage (log ++ [e]) = op.stage log := by
  rw [stage, List.filter_append, List.filter_cons_of_neg (by simp [he]), List.filter_nil,
    List.append_nil]
  rfl

theorem Op.stage_of_no_events {op : Op} (h : ∀ e ∈ log, e.about op.id = false) :
    op.stage log = some .fresh := by
  have hnil : log.filter (Event.about op.id) = [] :=
    List.filter_eq_nil_iff.mpr fun e he => by simp [h e he]
  rw [stage, hnil]
  rfl

namespace Life
variable {L L' : Life} {op : Op} {id : OpId} {st st' : Stage}

/-- Where an operation of the stage is. -/
def At (L : Life) (op : Op) : Stage → Prop
  | .fresh => op ∉ binds L.log
  | .bound => op ∈ binds L.log ∧ op ∉ pushes L.log
  | .pushed => op ∈ L.queue op.id.line ∨ op ∈ L.batch
  | .inflight => op.id ∈ L.inflight.map (·.ticket.id)
  | .completed => op.id ∈ L.completed.map Ticket.id
  | .transferred => op.id ∈ L.completions.map TaskContext.id
  | .notified => op.id ∈ (notifies L.log).map TaskContext.id

/-- The history of the operation is in order, and has led to its place. -/
def Staged (L : Life) (op : Op) : Prop := ∃ st, op.stage L.log = some st ∧ L.At op st

namespace Inv

theorem bind_inj (H : L.Inv) (h : op ∈ binds L.log) (h' : o ∈ binds L.log) (hid : o.id = op.id) :
    o = op := List.inj_on_of_nodup_map H.submitted.binds_nodup h' h hid

/-- Every event about an operation comes after its events are bound. -/
theorem about_bound (H : L.Inv) (he : e ∈ L.log) (ha : e.about id = true) :
    ∃ op ∈ binds L.log, op.id = id := by
  obtain ⟨before, after, hlog, G⟩ := H.guarded.of_mem he
  have hpush (h : ∃ op, .push op ∈ before ∧ op.id = id) : ∃ op ∈ binds L.log, op.id = id := by
    obtain ⟨op, hop, hid⟩ := h
    exact ⟨op, H.submitted.push_bind op
      (mem_pushes.mpr (Transition.mem_of_mem_before hlog hop)), hid⟩
  cases e with
  | bind op => exact ⟨op, mem_binds.mpr he, by simpa [Event.about] using ha⟩
  | push op =>
    exact ⟨op, H.submitted.push_bind op (mem_pushes.mpr he), by simpa [Event.about] using ha⟩
  | issue owner call request =>
    obtain ⟨op, hop, hid, -⟩ := G
    exact hpush ⟨op, hop, hid.trans (by simpa [Event.about] using ha)⟩
  | report owner status =>
    obtain ⟨call, r, hi⟩ := G
    obtain ⟨before', after', hlog', op, hop, hid, -⟩ :=
      H.guarded.of_mem (Transition.mem_of_mem_before hlog hi)
    have hmem : .push op ∈ L.log := Transition.mem_of_mem_before hlog' hop
    exact ⟨op, H.submitted.push_bind op (mem_pushes.mpr hmem),
      hid.trans (by simpa [Event.about] using ha)⟩
  | transfer ctx | notify ctx =>
    obtain ⟨op, hop, rfl, -⟩ := G
    exact hpush ⟨op, hop, of_decide_eq_true ha⟩
  | block | resume | test | store => cases ha

end Inv

/-! ## The places are distinct -/

/-- How often the place of the stage holds the operation. -/
def count (L : Life) (op : Op) : Stage → Nat
  | .fresh | .bound => 0
  | .pushed => ((L.queue op.id.line).map Op.id).count op.id + (L.batch.map Op.id).count op.id
  | .inflight => (L.inflight.map (·.ticket.id)).count op.id
  | .completed => (L.completed.map Ticket.id).count op.id
  | .transferred => (L.completions.map TaskContext.id).count op.id
  | .notified => ((notifies L.log).map TaskContext.id).count op.id

theorem At.count_pos (hat : L.At op st) (H : L.Inv) (hp : op ∈ pushes L.log) :
    0 < L.count op st := by
  cases st with
  | fresh => exact absurd (H.submitted.push_bind op hp) hat
  | bound => exact absurd hp hat.2
  | pushed =>
    rcases hat with hq | hb
    · exact Nat.add_pos_left (List.count_pos_iff.mpr (List.mem_map_of_mem hq)) _
    · exact Nat.add_pos_right _ (List.count_pos_iff.mpr (List.mem_map_of_mem hb))
  | inflight | completed => exact Multiset.count_pos.mpr hat
  | transferred | notified => exact List.count_pos_iff.mpr hat

/-- A pushed operation is in the place of one stage. -/
theorem At.unique (hat : L.At op st) (hat' : L.At op st') (H : L.Inv) (hp : op ∈ pushes L.log) :
    st = st' := by
  have h := hat.count_pos H hp
  have h' := hat'.count_pos H hp
  have hone := H.count_places hp
  cases st <;> cases st' <;> first
    | rfl
    | simp only [count] at h h'
      omega

/-- An operation that was bound and has left its task is pushed. -/
theorem Inv.pushed_of_owned (H : L.Inv) (hb : op ∈ binds L.log)
    (h : ∃ o ∈ pushes L.log, o.id = op.id) : op ∈ pushes L.log := by
  obtain ⟨o, ho, hid⟩ := h
  exact H.bind_inj hb (H.submitted.push_bind o ho) hid ▸ ho

/-- An operation that is not pushed is with its task. -/
theorem Inv.bound_only (H : L.Inv) (hb : op ∈ binds L.log) (hp : op ∉ pushes L.log) :
    ∀ st, L.At op st → st = .bound := by
  intro st hat
  have hnot (h : ∃ o ∈ pushes L.log, o.id = op.id) : st = .bound :=
    absurd (H.pushed_of_owned hb h) hp
  cases st with
  | fresh => exact absurd hb hat
  | bound => rfl
  | pushed =>
    rcases hat with hq | ht
    · exact hnot ⟨op, H.ordered.queued _ op hq, rfl⟩
    · exact hnot ⟨op, H.ordered.taken op ht, rfl⟩
  | inflight =>
    obtain ⟨slot, hs, hid⟩ := Multiset.mem_map.mp hat
    obtain ⟨o, ho, ht⟩ := H.owned.slots slot hs
    exact hnot ⟨o, ho, by rw [← hid, ht, Ticket.ofOp_id]⟩
  | completed =>
    obtain ⟨t, ht, hid⟩ := Multiset.mem_map.mp hat
    obtain ⟨o, ho, rfl⟩ := H.owned.tickets t ht
    exact hnot ⟨o, ho, hid⟩
  | transferred =>
    obtain ⟨ctx, hc, hid⟩ := List.mem_map.mp hat
    obtain ⟨o, ho, rfl⟩ := H.owned.handed ctx hc
    exact hnot ⟨o, ho, hid⟩
  | notified =>
    obtain ⟨ctx, hc, hid⟩ := List.mem_map.mp hat
    obtain ⟨o, ho, rfl⟩ := H.owned.notifies ctx hc
    exact hnot ⟨o, ho, hid⟩

theorem mem_rest {o : Op} (h : op ∈ o :: rest) (hid : o.id ≠ op.id) : op ∈ rest :=
  (List.mem_cons.mp h).resolve_left fun heq => hid (congrArg Op.id heq.symm)

/-! ## One move -/

theorem Staged.keep (h : L.Staged op) (hlog : L'.log = L.log ++ [e]) (he : e.about op.id = false)
    (hat : ∀ st, L.At op st → L'.At op st) : L'.Staged op := by
  obtain ⟨st, hst, hplace⟩ := h
  exact ⟨st, by rw [hlog, Op.stage_append_of_not he, hst], hat st hplace⟩

theorem Staged.next (h : L.Staged op) (hat : ∀ st', L.At op st' → st' = st)
    (hlog : L'.log = L.log ++ [e]) (he : e.about op.id = true)
    (hadv : st.advance op e = some st') (hat' : L'.At op st') : L'.Staged op := by
  obtain ⟨st₀, hst, hplace⟩ := h
  obtain rfl := hat st₀ hplace
  exact ⟨st', by rw [hlog, Op.stage_append he, hst, Option.bind_some, hadv], hat'⟩

/-- The only stage whose place holds the operation. -/
theorem At.only (hat : L.At op st) (H : L.Inv) (hp : op ∈ pushes L.log) :
    ∀ st', L.At op st' → st' = st :=
  fun _ hat' => hat'.unique hat H hp

theorem Staged.bind {o : Op} (H : L.Inv) (hs : o.id.serial = L.serial)
    (h : ∀ op ∈ binds L.log, L.Staged op) (hlog : L'.log = L.log ++ [.bind o])
    (hat : ∀ op, op.id ≠ o.id → ∀ st, L.At op st → L'.At op st)
    (hop : op ∈ binds L'.log) : L'.Staged op := by
  have hfresh (o' : Op) (ho : o' ∈ binds L.log) : o'.id ≠ o.id := by
    intro hid
    have hlt := H.submitted.serial o' ho
    rw [hid, hs] at hlt
    exact Nat.lt_irrefl _ hlt
  have hbinds : binds L'.log = binds L.log ++ [o] := by simp [hlog]
  rw [hbinds] at hop
  rcases List.mem_append.mp hop with hold | hnew
  · refine (h op hold).keep hlog ?_ (hat op (hfresh op hold))
    exact decide_eq_false (Ne.symm (hfresh op hold))
  · obtain rfl := List.mem_singleton.mp hnew
    -- nothing has happened to it before
    have hnone : op.stage L.log = some .fresh := by
      refine Op.stage_of_no_events fun e he => Bool.eq_false_of_not_eq_true fun ha => ?_
      obtain ⟨o, ho, hid⟩ := H.about_bound he ha
      exact hfresh o ho hid
    have habout : (Event.bind op).about op.id = true := decide_eq_true rfl
    refine ⟨.bound, ?_, ?_, ?_⟩
    · rw [hlog, Op.stage_append habout, hnone]
      simp [Stage.advance]
    · simp [hbinds]
    · have hpushes : pushes L'.log = pushes L.log := by simp [hlog]
      rw [hpushes]
      exact fun hp => hfresh op (H.submitted.push_bind op hp) rfl

/-- An event moves the one operation it is about; the others stay where they are. -/
theorem Staged.step {o : Op} (H : L.Inv) (h : ∀ op ∈ binds L.log, L.Staged op)
    (hop : op ∈ binds L.log) (hp : o ∈ pushes L.log) (hat : L.At o st)
    (hlog : L'.log = L.log ++ [e]) (he : ∀ id, e.about id = decide (o.id = id))
    (hadv : st.advance o e = some st') (hat' : L'.At o st')
    (hkeep : ∀ op : Op, o.id ≠ op.id → ∀ st, L.At op st → L'.At op st) : L'.Staged op := by
  by_cases hid : o.id = op.id
  · obtain rfl := H.bind_inj hop (H.submitted.push_bind o hp) hid
    exact (h o hop).next (hat.only H hp) hlog (by rw [he]; exact decide_eq_true rfl) hadv hat'
  · exact (h op hop).keep hlog (by rw [he]; exact decide_eq_false hid) (hkeep op hid)

theorem Staged.move (M : L.Move a L') (H : L.Inv) (h : ∀ op ∈ binds L.log, L.Staged op)
    (hop : op ∈ binds L'.log) : L'.Staged op := by
  cases M with
  | bind ha hs hk =>
    refine .bind H hs h rfl (fun op hne st hat => ?_) hop
    cases st with
    | fresh =>
      simp only [At, append, setAgent, Transition.select_append_singleton] at hat ⊢
      simp only [Event.bound?, Option.toList_some, List.mem_append, List.mem_singleton, not_or]
      exact ⟨hat, fun heq => hne (congrArg Op.id heq)⟩
    | bound =>
      exact ⟨by simp [append, setAgent, hat.1], by simpa [append, setAgent] using hat.2⟩
    | _ => simpa [At, append, setAgent] using hat
  | @push _ o ha =>
    have hold : op ∈ binds L.log := by simpa [append, setAgent] using hop
    have hagent := H.submitted.agents o.task
    rw [ha] at hagent
    by_cases hid : o.id = op.id
    · obtain rfl := H.bind_inj hold hagent.2.1 hid
      refine (h o hold).next (H.bound_only hold hagent.2.2) rfl (decide_eq_true rfl) (if_pos rfl) ?_
      simp [At, append, setAgent]
    · refine (h op hold).keep rfl (decide_eq_false hid) fun st hat => ?_
      cases st with
      | bound =>
        refine ⟨hop, ?_⟩
        simp only [append, setAgent, Transition.select_append_singleton, Event.pushed?,
          Option.toList_some, List.mem_append, List.mem_singleton, not_or]
        exact ⟨hat.2, fun heq => hid (congrArg Op.id heq.symm)⟩
      | pushed =>
        refine hat.imp_left fun hq => ?_
        simp only [append, setAgent]
        by_cases hline : op.id.line = o.id.line
        · rw [hline, Function.update_self]
          exact List.mem_append_left _ (hline ▸ hq)
        · rwa [Function.update_of_ne hline]
      | _ => simpa [At, append, setAgent] using hat
  | block | resume | test | store =>
    have hold : op ∈ binds L.log := by simpa [append, setAgent] using hop
    refine (h op hold).keep rfl rfl fun st hat => ?_
    cases st <;> simpa [At, append, setAgent] using hat
  | @take chunk rest _ line hq =>
    obtain ⟨st, hst, hat⟩ := h op hop
    refine ⟨st, hst, ?_⟩
    cases st with
    | pushed =>
      rcases hat with hmem | hmem
      · by_cases hline : op.id.line = line
        · rw [hline, hq] at hmem
          rcases List.mem_append.mp hmem with hmem | hmem
          · exact .inr (List.mem_append_right _ hmem)
          · refine .inl ?_
            simpa [hline] using hmem
        · refine .inl ?_
          simpa [Function.update_of_ne hline] using hmem
      · exact .inr (List.mem_append_left _ hmem)
    | _ => exact hat
  | @issueNull o rest call _ hb hi =>
    have hold : op ∈ binds L.log := by simpa [append] using hop
    have hat : L.At o .pushed := .inr (by simp [hb])
    refine .step H h hold (H.ordered.taken o (by simp [hb])) hat rfl (fun _ => rfl) (if_pos hi)
      (by simp [At, append]) fun op hid st hat => ?_
    cases st with
    | pushed => exact hat.imp_right fun hmem => mem_rest (hb ▸ hmem) hid
    | completed =>
      simp only [At, append, Multiset.map_cons, Multiset.mem_cons]
      exact .inr hat
    | _ => simpa [At, append] using hat
  | @issue o rest call _ r hb hi hm =>
    have hold : op ∈ binds L.log := by simpa [append] using hop
    have hat : L.At o .pushed := .inr (by simp [hb])
    refine .step H h hold (H.ordered.taken o (by simp [hb])) hat rfl (fun _ => rfl) (if_pos hi)
      (by simp [At, append]) fun op hid st hat => ?_
    cases st with
    | pushed => exact hat.imp_right fun hmem => mem_rest (hb ▸ hmem) hid
    | inflight =>
      simp only [At, append, Multiset.map_cons, Multiset.mem_cons]
      exact .inr hat
    | _ => simpa [At, append] using hat
  | complete => exact h op hop
  | @report slot rest _ status owner hs ho =>
    have hold : op ∈ binds L.log := by simpa [append] using hop
    have hslot : slot ∈ L.inflight := hs ▸ Multiset.mem_cons_self ..
    obtain ⟨_, hactive⟩ := H.registered.active slot hslot
    rw [ho] at hactive
    cases hactive
    obtain ⟨o, hp, ht⟩ := H.owned.slots slot hslot
    have hid : slot.ticket.id = o.id := by rw [ht, Ticket.ofOp_id]
    have hat : L.At o .inflight := Multiset.mem_map.mpr ⟨slot, hslot, hid⟩
    refine .step H h hold hp hat rfl (fun _ => congrArg (fun i => decide (i = _)) hid) rfl
      (by simp [At, append, hid]) fun op hne st hat => ?_
    cases st with
    | inflight =>
      simp only [At, hs, Multiset.map_cons, Multiset.mem_cons, hid] at hat
      exact hat.resolve_left (Ne.symm hne)
    | completed =>
      simp only [At, append, Multiset.map_cons, Multiset.mem_cons]
      exact .inr hat
    | _ => simpa [At, append] using hat
  | @transfer t rest _ hc hs =>
    have hold : op ∈ binds L.log := by simpa [append] using hop
    have hmem : t ∈ L.completed := hc ▸ Multiset.mem_cons_self ..
    obtain ⟨o, hp, rfl⟩ := H.owned.tickets t hmem
    have hat : L.At o .completed := Multiset.mem_map.mpr ⟨_, hmem, rfl⟩
    refine .step H h hold hp hat rfl (fun _ => rfl) (if_pos rfl)
      (by simp [At, append, Ticket.ofOp]) fun op hid st hat => ?_
    cases st with
    | completed =>
      simp only [At, hc, Multiset.map_cons, Multiset.mem_cons] at hat
      exact hat.resolve_left (Ne.symm hid)
    | transferred =>
      simp only [At, append, List.map_append, List.mem_append]
      exact .inl hat
    | _ => simpa [At, append] using hat
  | @notify t rest _ hc hs =>
    have hold : op ∈ binds L.log := by simpa [notified] using hop
    have hmem : t ∈ L.completed := hc ▸ Multiset.mem_cons_self ..
    obtain ⟨o, hp, rfl⟩ := H.owned.tickets t hmem
    have hat : L.At o .completed := Multiset.mem_map.mpr ⟨_, hmem, rfl⟩
    refine .step H h hold hp hat rfl (fun _ => rfl) (if_pos rfl)
      (by simp [At, notified, Ticket.ofOp]) fun op hid st hat => ?_
    cases st with
    | completed =>
      simp only [At, hc, Multiset.map_cons, Multiset.mem_cons] at hat
      exact hat.resolve_left (Ne.symm hid)
    | notified =>
      simp only [At, notified, Transition.select_append_singleton, List.map_append, List.mem_append]
      exact .inl hat
    | _ => simpa [At, notified] using hat
  | @consume ctx rest _ hc =>
    have hold : op ∈ binds L.log := by simpa [notified] using hop
    have hmem : ctx ∈ L.completions := hc ▸ List.mem_cons_self ..
    obtain ⟨o, hp, rfl⟩ := H.owned.handed ctx hmem
    have hat : L.At o .transferred := List.mem_map.mpr ⟨_, hmem, rfl⟩
    refine .step H h hold hp hat rfl (fun _ => rfl) (if_pos rfl)
      (by simp [At, notified]) fun op hid st hat => ?_
    cases st with
    | transferred =>
      simp only [At, hc, List.map_cons, List.mem_cons] at hat
      exact hat.resolve_left (Ne.symm hid)
    | notified =>
      simp only [At, notified, Transition.select_append_singleton, List.map_append, List.mem_append]
      exact .inl hat
    | _ => simpa [At, notified] using hat

theorem staged_of_reachable (h : Life.system.Reachable L) : ∀ op ∈ binds L.log, L.Staged op := by
  refine h.rec_inv (I := fun L => ∀ op ∈ binds L.log, L.Staged op) ?_ ?_
  · rintro L ⟨memory, rfl⟩ op hop
    cases hop
  · intro L a L' hL M hst op hop
    exact .move M (.of_reachable hL) hst hop

end Life

end Tampi
