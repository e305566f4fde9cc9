import Tampi.Verify.Tracking

/-! # The order of the issues

Each pre-queue is issued in the order of its pushes. A task that moves to another CPU between two
submissions pushes to two queues, and the polling task may drain the second one first. -/

namespace Tampi
open Transition (Guarded select mem_of_mem_before mem_select)
open scoped List

/-! ## One queue -/

/-- The collective operations, and the point-to-point operations of each CPU, are issued in the
order they were pushed, each with its own call. -/
structure IssuedInOrder (log : List Event) : Prop where
  coll : (issues log).filter (·.kind = .coll) <+: ((pushes log).filter (·.kind = .coll)).map Op.id
  p2p : ∀ cpu, (issues log).filter (fun id => id.kind = .p2p ∧ id.cpu = cpu) <+:
    ((pushes log).filter fun op => op.kind = .p2p ∧ op.id.cpu = cpu).map Op.id
  call : ∀ id call request, .issue id call request ∈ log →
    ∃ op, .push op ∈ log ∧ op.id = id ∧ op.issue = some call

theorem OpId.line_eq_coll (id : OpId) : id.line = .coll ↔ id.kind = .coll := by
  unfold OpId.line
  cases id.kind <;> simp [OpKind.line]

theorem OpId.line_eq_p2p (id : OpId) (cpu : Nat) :
    id.line = .p2p cpu ↔ id.kind = .p2p ∧ id.cpu = cpu := by
  unfold OpId.line
  cases id.kind <;> simp [OpKind.line]

namespace Life.Inv
variable {L : Life}

theorem kind_of_pushed (H : L.Inv) (h : op ∈ pushes L.log) : op.id.kind = op.kind :=
  H.submitted.kind op (H.submitted.push_bind op h)

theorem issues_along (H : L.Inv) (line : Line) :
    (issues L.log).filter (·.line = line) <+: ((pushes L.log).map Op.id).filter (·.line = line) := by
  rw [H.ordered.order line, List.append_assoc]
  exact List.prefix_append ..

theorem issuedInOrder (H : L.Inv) : IssuedInOrder L.log where
  coll := by
    have := H.issues_along .coll
    simp only [OpId.line_eq_coll, List.filter_map] at this
    convert this using 2
    refine List.filter_congr fun op hop => ?_
    simp [H.kind_of_pushed hop]
  p2p cpu := by
    have := H.issues_along (.p2p cpu)
    simp only [OpId.line_eq_p2p, List.filter_map] at this
    convert this using 2
    refine List.filter_congr fun op hop => ?_
    simp [H.kind_of_pushed hop]
  call id call request h := by
    obtain ⟨before, after, heq⟩ := List.append_of_mem h
    obtain ⟨op, hp, hid, hcall⟩ := H.guarded before _ after heq
    exact ⟨op, by rw [heq]; exact List.mem_append_left _ hp, hid, hcall⟩

end Life.Inv

/-- A pair whose second member is not in the second part is in the first one. -/
theorem pair_sublist_left {a b : α} {l l' : List α} (h : [a, b] <+ l ++ l') (hb : b ∉ l') :
    [a, b] <+ l := by
  obtain ⟨as, bs, heq, has, hbs⟩ := List.sublist_append_iff.mp h
  have hnil : bs = [] := by
    rcases List.eq_nil_or_concat bs with hnil | ⟨bs', c, rfl⟩
    · exact hnil
    · rw [List.concat_eq_append, ← List.append_assoc] at heq
      obtain ⟨_, hc⟩ := List.append_inj' (show [a] ++ [b] = (as ++ bs') ++ [c] from heq) rfl
      cases hc
      exact absurd (hbs.subset (by simp)) hb
  rw [hnil, List.append_nil] at heq
  exact heq ▸ has

/-- The first member of a pair comes before the second. -/
theorem mem_of_pair_sublist {a b : α} {l l' : List α} (h : [a, b] <+ l ++ b :: l')
    (hnodup : (l ++ b :: l').Nodup) : a ∈ l := by
  have hab : a ≠ b := by simpa using hnodup.sublist h
  have hb : b ∉ l' := (List.nodup_cons.mp (List.nodup_append.mp hnodup).2.1).1
  rw [show l ++ b :: l' = (l ++ [b]) ++ l' by simp] at h
  have hmem : a ∈ l ++ [b] := (pair_sublist_left h hb).subset (by simp)
  simpa [hab] using hmem

namespace Life.Inv
variable {L : Life} {o₁ o₂ : Op}

theorem pushed_of_issued (H : L.Inv) (hb : o ∈ binds L.log) (h : o.id ∈ issues L.log) :
    o ∈ pushes L.log := by
  obtain ⟨op, hop, hid⟩ := H.ordered.issue_pushed h
  have : op = o := List.inj_on_of_nodup_map H.submitted.binds_nodup
    (H.submitted.push_bind op hop) hb hid
  exact this ▸ hop

/-- A task pushes its operations in the order it submits them. -/
theorem pushes_of_binds (H : L.Inv) (hb : [o₁, o₂] <+ binds L.log) (ht : o₁.task = o₂.task)
    (h : o₂ ∈ pushes L.log) : [o₁, o₂] <+ pushes L.log := by
  have hf : [o₁, o₂] <+ (binds L.log).filter (·.task = o₂.task) := by
    have := hb.filter (fun op : Op => decide (op.task = o₂.task))
    simpa [ht] using this
  rw [H.submitted.sequential] at hf
  refine (pair_sublist_left hf fun hmem => ?_).trans List.filter_sublist
  have ha := H.submitted.agents o₂.task
  cases hag : L.agents o₂.task with
  | bound op =>
    rw [hag] at hmem ha
    obtain rfl : o₂ = op := by simpa [Agent.binding] using hmem
    exact ha.2.2 h
  | ready | pushed | blocked => simp [hag, Agent.binding] at hmem

/-- Operations of one line are issued in the order they were pushed. -/
theorem issues_of_pushes (H : L.Inv) (hp : [o₁, o₂] <+ pushes L.log)
    (hline : o₁.id.line = o₂.id.line) (h : o₂.id ∈ issues L.log) :
    [o₁.id, o₂.id] <+ issues L.log := by
  have hf : [o₁.id, o₂.id] <+ ((pushes L.log).map Op.id).filter (·.line = o₂.id.line) := by
    have := (hp.map Op.id).filter (fun id : OpId => decide (id.line = o₂.id.line))
    simpa [hline] using this
  have hnodup := H.submitted.pushes_nodup.filter (fun id => decide (id.line = o₂.id.line))
  have horder := H.ordered.order o₂.id.line
  rw [List.append_assoc] at horder
  rw [horder] at hf hnodup
  refine (pair_sublist_left hf ?_).trans List.filter_sublist
  exact fun hmem => (List.nodup_append.mp hnodup).2.2 _ (by simp [h]) _ hmem rfl

/-- What is notified was issued before. -/
theorem issued_of_notified {log : List Event} {o : Op} (G : Guarded Guard log)
    (h : .notify o.context ∈ log) :
    o.id ∈ issues log := by
  obtain ⟨before, after, rfl, op, -, hctx, hs⟩ := G.of_mem h
  have hid : op.id = o.id := congrArg TaskContext.id hctx.symm
  refine List.mem_filterMap.mpr ?_
  rcases hs with ⟨call, hi⟩ | ⟨status, hr, -⟩
  · exact ⟨_, List.mem_append_left _ hi, by simp [hid]⟩
  · obtain ⟨before', after', rfl, call, r, hi⟩ := G.of_append.of_mem hr
    exact ⟨_, List.mem_append_left _ (List.mem_append_left _ hi), by simp [hid]⟩

/-- A task submits its next operation after the one it blocked for was notified. -/
theorem issues_of_blocking (H : L.Inv) (hb : [o₁, o₂] <+ binds L.log) (ht : o₁.task = o₂.task)
    (hblk : o₁.context.blocking) (h : o₂.id ∈ issues L.log) : [o₁.id, o₂.id] <+ issues L.log := by
  have ho₂ := H.pushed_of_issued (hb.subset (by simp)) h
  obtain ⟨e, he, hid⟩ := mem_select.mp h
  obtain ⟨before, after, hlog, hguard⟩ := H.guarded.of_mem he
  have G : Guarded Guard before := (hlog ▸ H.guarded).of_append
  have hpush : .push o₂ ∈ before := by
    cases e with
    | issue id call r =>
      obtain ⟨op, hop, heq, -⟩ := hguard
      have : op = o₂ := List.inj_on_of_nodup_map H.submitted.pushes_nodup
        (mem_pushes.mpr (mem_of_mem_before hlog hop)) ho₂ (heq.trans (by simpa using hid))
      exact this ▸ hop
    | _ => simp at hid
  obtain ⟨before₂, after₂, rfl, hbind⟩ := G.of_mem hpush
  obtain ⟨before₃, after₃, rfl, hready⟩ := G.of_append.of_mem hbind
  have ho₁ : .bind o₁ ∈ before₃ := by
    have hsplit : ∃ rest, binds L.log = binds before₃ ++ o₂ :: rest := by
      rw [hlog]
      exact ⟨binds (after₃ ++ .push o₂ :: after₂ ++ e :: after), by simp [select]⟩
    obtain ⟨rest, hsplit⟩ := hsplit
    have hnodup := H.submitted.binds_nodup.of_map
    rw [hsplit] at hb hnodup
    exact mem_binds.mp (mem_of_pair_sublist hb hnodup)
  have hissued := issued_of_notified G.of_append.of_append ((hready o₁ ho₁ ht).2 hblk)
  rw [hlog]
  have hissues : ∀ log log', issues (log ++ log') = issues log ++ issues log' :=
    fun log log' => List.filterMap_append
  rw [hissues]
  change [o₁.id] ++ [o₂.id] <+ _
  refine .append (List.singleton_sublist.mpr ?_)
    (List.singleton_sublist.mpr (List.mem_filterMap.mpr ⟨e, by simp, hid⟩))
  rw [hissues, hissues]
  exact List.mem_append_left _ (List.mem_append_left _ hissued)

end Life.Inv

/-- Task 0 submits two receives on one CPU. -/
def sameCpuRun : List Label := List.flatten [
  [.process 0 0 .NONBLK demoRecv], List.replicate 5 (.cpu 0),
  [.process 0 0 .NONBLK demoRecv], List.replicate 4 (.cpu 0),
  List.replicate 13 (.poll .silent), [.poll (.issued (some 7)), .poll (.issued (some 8))]]

/-- Task 0 submits a receive on CPU 1 and, resumed on CPU 0, another one there. -/
def migrationRun : List Label := List.flatten [
  [.process 1 0 .NONBLK demoRecv], List.replicate 5 (.cpu 1),
  [.process 0 0 .NONBLK demoRecv], List.replicate 5 (.cpu 0),
  List.replicate 17 (.poll .silent), [.poll (.issued (some 7))]]

end Tampi
