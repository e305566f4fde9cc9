import Mathlib.Algebra.Order.Group.Multiset
import Mathlib.Tactic.Abel
import Tampi.Spec.Lifecycle

/-! # Invariants of the life of the operations

Each group of invariants is stated of the parts of the state it is about, so that a move has to
be looked at only in the groups whose parts it changes. -/

namespace Tampi
open Function (update)
open Transition (Guarded select mem_select mem_select_iff)

theorem mem_binds : op ∈ binds log ↔ .bind op ∈ log :=
  mem_select_iff fun e => by cases e <;> simp

theorem mem_pushes : op ∈ pushes log ↔ .push op ∈ log :=
  mem_select_iff fun e => by cases e <;> simp

theorem mem_notifies : ctx ∈ notifies log ↔ .notify ctx ∈ log :=
  mem_select_iff fun e => by cases e <;> simp

/-- What is settled stays settled. -/
theorem Settled.mono (h : Settled log t) (hs : log ⊆ log') :
    Settled log' t := by
  rcases h with ⟨call, h⟩ | ⟨status, h, h'⟩
  · exact .inl ⟨call, hs h⟩
  · exact .inr ⟨status, hs h, fun location hl => hs (h' location hl)⟩

/-- The blocking operation the task has pushed and not seen completed. -/
def Agent.waiting : Agent → List TaskContext
  | .pushed ctx | .blocked ctx => [ctx]
  | _ => []

/-- The operation whose events the task has bound and which it has not pushed. -/
def Agent.binding : Agent → List Op
  | .bound op => [op]
  | _ => []

/-- The operation the task sleeps for. -/
def Agent.asleep : Agent → List TaskContext
  | .blocked ctx => [ctx]
  | _ => []

namespace Life
variable {L L' : Life} {queue : Line → List Op} {batch bs ps : List Op} {op : Op} {id : OpId}
  {agents : Handle → Agent} {is : List OpId}

/-! ## Submissions -/

/-- A task is in `process` with an operation of its own, which it has bound and not pushed, or pushed
and must wait for. -/
def AgentInv (bs ps : List Op) (task : Handle) : Agent → Prop
  | .ready => True
  | .bound op => op.task = task ∧ op ∈ bs ∧ op ∉ ps
  | .pushed ctx | .blocked ctx => ctx.task = task ∧ ctx.blocking

/-- Submissions have distinct identities, and an operation is pushed once, after its events were
bound. -/
structure Submitted (serial : Nat) (agents : Handle → Agent) (bs ps : List Op) : Prop where
  serial : ∀ op ∈ bs, op.id.serial < serial
  kind : ∀ op ∈ bs, op.id.kind = op.kind
  binds_nodup : (bs.map Op.id).Nodup
  push_bind : ∀ op ∈ ps, op ∈ bs
  pushes_nodup : (ps.map Op.id).Nodup
  sequential : ∀ task, bs.filter (·.task = task) =
    ps.filter (·.task = task) ++ (agents task).binding
  agents : ∀ task, AgentInv bs ps task (agents task)

/-- A task moves on in its call and keeps the operation it has still to push. -/
theorem Submitted.setAgent (H : Submitted n agents bs ps) (ha : AgentInv bs ps task a)
    (hb : a.binding = (agents task).binding) : Submitted n (update agents task a) bs ps where
  __ := H
  agents t := by
    by_cases ht : t = task
    · subst ht; simpa using ha
    · simpa [ht] using H.agents t
  sequential t := by
    by_cases ht : t = task
    · subst ht; simpa [hb] using H.sequential t
    · simpa [ht] using H.sequential t

/-- The serial number of a submission is new, so its identity is. -/
theorem Submitted.bind (H : Submitted n agents bs ps) (hr : agents op.task = .ready)
    (hs : op.id.serial = n) (hk : op.id.kind = op.kind) :
    Submitted (n + 1) (update agents op.task (.bound op)) (bs ++ [op]) ps where
  serial o ho := by
    rcases List.mem_append.mp ho with ho | ho
    · have := H.serial o ho
      omega
    · rw [List.mem_singleton.mp ho]
      omega
  kind o ho := by
    rcases List.mem_append.mp ho with ho | ho
    · exact H.kind o ho
    · simp at ho
      exact ho ▸ hk
  binds_nodup := by
    simp only [List.map_append, List.map_cons, List.map_nil]
    refine List.nodup_append.mpr ⟨H.binds_nodup, by simp, ?_⟩
    simp only [List.mem_map, List.mem_singleton]
    rintro _ ⟨o, ho, rfl⟩ _ rfl heq
    have := H.serial o ho
    rw [heq, hs] at this
    exact lt_irrefl _ this
  push_bind o ho := by simp [H.push_bind o ho]
  pushes_nodup := H.pushes_nodup
  agents t := by
    by_cases ht : t = op.task
    · subst ht
      simp only [Function.update_self, AgentInv, List.mem_append, List.mem_singleton, or_true,
        true_and]
      intro hp
      have := H.serial _ (H.push_bind _ hp)
      omega
    · simp only [Function.update_of_ne ht]
      have := H.agents t
      cases h : agents t with
      | bound o => simp_all [AgentInv]
      | ready => trivial
      | pushed | blocked => simpa only [h, AgentInv] using this
  sequential t := by
    have := H.sequential t
    rw [List.filter_append, this]
    by_cases ht : t = op.task
    · subst ht; simp [hr, Agent.binding]
    · simp [ht, Ne.symm ht]

/-- Agents other than the one that pushes hold other operations. -/
theorem Submitted.push (H : Submitted n agents bs ps) (hb : agents op.task = .bound op)
    (ha : AgentInv bs (ps ++ [op]) op.task a) (ha' : a.binding = []) :
    Submitted n (update agents op.task a) bs (ps ++ [op]) where
  serial := H.serial
  kind := H.kind
  binds_nodup := H.binds_nodup
  push_bind o ho := by
    have := H.agents op.task
    simp only [hb, AgentInv] at this
    rcases List.mem_append.mp ho with ho | ho
    · exact H.push_bind o ho
    · simp at ho
      exact ho ▸ this.2.1
  pushes_nodup := by
    have := H.agents op.task
    simp only [hb, AgentInv] at this
    simp only [List.map_append, List.map_cons, List.map_nil]
    refine List.nodup_append.mpr ⟨H.pushes_nodup, by simp, ?_⟩
    simp only [List.mem_map, List.mem_singleton]
    rintro _ ⟨o, ho, rfl⟩ _ rfl heq
    have := List.inj_on_of_nodup_map H.binds_nodup (H.push_bind o ho) this.2.1 heq
    subst this
    simp_all
  agents t := by
    by_cases ht : t = op.task
    · subst ht; simpa using ha
    · simp only [Function.update_of_ne ht]
      have := H.agents t
      cases h : agents t with
      | bound o =>
        simp only [h, AgentInv] at this ⊢
        refine ⟨this.1, this.2.1, ?_⟩
        simp only [List.mem_append, List.mem_singleton, not_or]
        exact ⟨this.2.2, fun heq => ht (by rw [← this.1, heq])⟩
      | ready => trivial
      | pushed | blocked => simpa only [h, AgentInv] using this
  sequential t := by
    have := H.sequential t
    rw [List.filter_append, this]
    by_cases ht : t = op.task
    · subst ht
      have hop : (agents op.task).binding = [op] := by rw [hb]; rfl
      simp [hop, ha']
    · simp [ht, Ne.symm ht]

/-! ## Order -/

/-- Every line is issued in the order it was pushed: what is not yet issued is in the batch, then
in the queue. -/
structure Ordered (queue : Line → List Op) (batch ps : List Op) (is : List OpId) : Prop where
  order : ∀ l, (ps.map Op.id).filter (·.line = l) =
    is.filter (·.line = l) ++ (batch.map Op.id).filter (·.line = l) ++ (queue l).map Op.id
  queued : ∀ l, ∀ op ∈ queue l, op ∈ ps
  taken : ∀ op ∈ batch, op ∈ ps

/-- A queue holds the operations of its own line. -/
theorem Ordered.line_of_mem (H : Ordered queue batch ps is) (h : op ∈ queue l) :
    op.id.line = l := by
  have : op.id ∈ (ps.map Op.id).filter (·.line = l) := by
    rw [H.order]
    exact List.mem_append_right _ (List.mem_map_of_mem h)
  simpa using (List.mem_filter.mp this).2

theorem Ordered.push (H : Ordered queue batch ps is) :
    Ordered (update queue op.id.line (queue op.id.line ++ [op])) batch (ps ++ [op]) is where
  order l := by
    have := H.order l
    by_cases hl : l = op.id.line
    · subst hl
      simp [this]
    · simp [this, hl, Ne.symm hl]
  queued l o ho := by
    by_cases hl : l = op.id.line
    · subst hl
      rw [Function.update_self] at ho
      rcases List.mem_append.mp ho with ho | ho
      · simp [H.queued _ o ho]
      · exact List.mem_append_right _ ho
    · rw [Function.update_of_ne hl] at ho
      simp [H.queued _ o ho]
  taken o ho := by simp [H.taken o ho]

/-- A chunk is taken from the front of a queue, so the order of its line is kept. -/
theorem Ordered.take (H : Ordered queue batch ps is) (h : queue line = chunk ++ rest) :
    Ordered (update queue line rest) (batch ++ chunk) ps is where
  order l := by
    have hline : ∀ op ∈ chunk, op.id.line = line := fun op ho => H.line_of_mem (by simp [h, ho])
    by_cases hl : l = line
    · subst hl
      have hf : (chunk.map Op.id).filter (·.line = l) = chunk.map Op.id := by
        refine List.filter_eq_self.mpr fun id hid => ?_
        obtain ⟨op, ho, rfl⟩ := List.mem_map.mp hid
        simpa using hline op ho
      simp only [H.order l, h, Function.update_self, List.map_append, List.filter_append, hf,
        List.append_assoc]
    · have hf : (chunk.map Op.id).filter (·.line = l) = [] := by
        refine List.filter_eq_nil_iff.mpr fun id hid => ?_
        obtain ⟨op, ho, rfl⟩ := List.mem_map.mp hid
        simpa [hline op ho] using Ne.symm hl
      simp only [H.order l, Function.update_of_ne hl, List.map_append, List.filter_append, hf,
        List.append_nil]
  queued l op ho := by
    by_cases hl : l = line
    · subst hl
      rw [Function.update_self] at ho
      exact H.queued l op (by simp [h, ho])
    · rw [Function.update_of_ne hl] at ho
      exact H.queued l op ho
  taken op ho := by
    rcases List.mem_append.mp ho with ho | ho
    · exact H.taken op ho
    · exact H.queued line op (by simp [h, ho])

theorem Ordered.issue (H : Ordered queue (op :: rest) ps is) :
    Ordered queue rest ps (is ++ [op.id]) where
  order l := by
    have := H.order l
    by_cases hl : op.id.line = l <;> simp_all
  queued := H.queued
  taken o ho := H.taken o (by simp [ho])

/-- No operation is issued twice. -/
theorem Ordered.issues_nodup (H : Ordered queue batch ps is) (hps : (ps.map Op.id).Nodup) :
    is.Nodup := by
  refine List.nodup_iff_count_le_one.mpr fun id => ?_
  have hc := congrArg (List.count id) (H.order id.line)
  have h1 : ((ps.map Op.id).filter (·.line = id.line)).count id = (ps.map Op.id).count id :=
    List.count_filter (by simp)
  have h2 : (is.filter (·.line = id.line)).count id = is.count id := List.count_filter (by simp)
  have := List.nodup_iff_count_le_one.mp hps id
  simp only [List.count_append, h1, h2] at hc
  omega

theorem Ordered.issue_pushed (H : Ordered queue batch ps is) (h : id ∈ is) :
    ∃ op ∈ ps, op.id = id := by
  have : id ∈ (ps.map Op.id).filter (·.line = id.line) := by
    rw [H.order]
    simp [h]
  simpa using (List.mem_filter.mp this).1

/-! ## From the issue to the notification -/

/-- Every issued operation is in flight, completed, handed over or notified, once. -/
structure Tracked (inflight : Multiset Slot) (completed : Multiset Ticket)
    (completions notified : List TaskContext) (is ns rs : List OpId) : Prop where
  issued : (is : Multiset OpId) = inflight.map (·.ticket.id) + ns + rs
  resolved : (ns + rs : Multiset OpId) =
    completed.map Ticket.id + completions.map TaskContext.id + notified.map TaskContext.id

section
variable {inflight : Multiset Slot} {completed : Multiset Ticket} {slot : Slot} {t : Ticket}
  {completions notified : List TaskContext} {ctx : TaskContext} {ns rs : List OpId}

theorem Tracked.issueNull (H : Tracked inflight completed completions notified is ns rs) :
    Tracked inflight (t ::ₘ completed) completions notified (is ++ [t.id]) (ns ++ [t.id]) rs where
  issued := by
    simp only [← Multiset.coe_add, Multiset.coe_singleton, H.issued]
    abel
  resolved := by
    rw [Multiset.map_cons, ← Multiset.singleton_add, ← Multiset.coe_add, Multiset.coe_singleton,
      add_right_comm, H.resolved]
    abel

theorem Tracked.issue (H : Tracked inflight completed completions notified is ns rs)
    (slot : Slot) :
    Tracked (slot ::ₘ inflight) completed completions notified (is ++ [slot.ticket.id]) ns rs where
  issued := by
    rw [Multiset.map_cons, ← Multiset.singleton_add, ← Multiset.coe_add, Multiset.coe_singleton,
      H.issued]
    abel
  resolved := H.resolved

theorem Tracked.report
    (H : Tracked (slot ::ₘ inflight) completed completions notified is ns rs) :
    Tracked inflight (slot.ticket ::ₘ completed) completions notified is ns
      (rs ++ [slot.ticket.id]) where
  issued := by
    rw [H.issued, Multiset.map_cons, ← Multiset.singleton_add, ← Multiset.coe_add,
      Multiset.coe_singleton]
    abel
  resolved := by
    rw [Multiset.map_cons, ← Multiset.singleton_add, ← Multiset.coe_add, Multiset.coe_singleton,
      ← add_assoc, H.resolved]
    abel

theorem Tracked.transfer
    (H : Tracked inflight (t ::ₘ completed) completions notified is ns rs) :
    Tracked inflight completed (completions ++ [t.context]) notified is ns rs where
  issued := H.issued
  resolved := by
    rw [H.resolved, Multiset.map_cons, ← Multiset.singleton_add, List.map_append,
      ← Multiset.coe_add, List.map_singleton, Multiset.coe_singleton, Ticket.id]
    abel

theorem Tracked.notify
    (H : Tracked inflight (t ::ₘ completed) completions notified is ns rs) :
    Tracked inflight completed completions (notified ++ [t.context]) is ns rs where
  issued := H.issued
  resolved := by
    rw [H.resolved, Multiset.map_cons, ← Multiset.singleton_add, List.map_append,
      ← Multiset.coe_add, List.map_singleton, Multiset.coe_singleton, Ticket.id]
    abel

theorem Tracked.consume
    (H : Tracked inflight completed (ctx :: completions) notified is ns rs) :
    Tracked inflight completed completions (notified ++ [ctx]) is ns rs where
  issued := H.issued
  resolved := by
    rw [H.resolved, List.map_cons, ← Multiset.cons_coe, ← Multiset.singleton_add, List.map_append,
      ← Multiset.coe_add, List.map_singleton, Multiset.coe_singleton]
    abel

/-- No operation is notified twice if none is issued twice. -/
theorem Tracked.notified_nodup (H : Tracked inflight completed completions notified is ns rs)
    (h : is.Nodup) : (notified.map TaskContext.id).Nodup := by
  have h1 : (ns + rs : Multiset OpId) ≤ is := by
    rw [H.issued, add_assoc]
    exact Multiset.le_add_left ..
  have h2 : (notified.map TaskContext.id : Multiset OpId) ≤ (ns + rs : Multiset OpId) := by
    rw [H.resolved]
    exact Multiset.le_add_left ..
  exact Multiset.nodup_of_le (h2.trans h1) h

/-- Tickets in flight or completed and contexts handed over or notified are those of pushed
operations. -/
structure Owned (inflight : Multiset Slot) (completed : Multiset Ticket)
    (completions notified : List TaskContext) (ps : List Op) : Prop where
  slots : ∀ slot ∈ inflight, ∃ op ∈ ps, slot.ticket = .ofOp op
  tickets : ∀ t ∈ completed, ∃ op ∈ ps, t = .ofOp op
  handed : ∀ ctx ∈ completions, ∃ op ∈ ps, ctx = op.context
  notifies : ∀ ctx ∈ notified, ∃ op ∈ ps, ctx = op.context

theorem Owned.push (H : Owned inflight completed completions notified ps) :
    Owned inflight completed completions notified (ps ++ [op]) where
  slots s hs := by
    obtain ⟨o, ho, h⟩ := H.slots s hs
    exact ⟨o, by simp [ho], h⟩
  tickets t ht := by
    obtain ⟨o, ho, h⟩ := H.tickets t ht
    exact ⟨o, by simp [ho], h⟩
  handed c hc := by
    obtain ⟨o, ho, h⟩ := H.handed c hc
    exact ⟨o, by simp [ho], h⟩
  notifies c hc := by
    obtain ⟨o, ho, h⟩ := H.notifies c hc
    exact ⟨o, by simp [ho], h⟩

theorem Owned.issueNull (H : Owned inflight completed completions notified ps) (h : op ∈ ps) :
    Owned inflight (.ofOp op ::ₘ completed) completions notified ps where
  __ := H
  tickets t ht := by
    rcases Multiset.mem_cons.mp ht with rfl | ht
    · exact ⟨op, h, rfl⟩
    · exact H.tickets t ht

theorem Owned.issue (H : Owned inflight completed completions notified ps) (h : op ∈ ps) :
    Owned (⟨.ofOp op, r⟩ ::ₘ inflight) completed completions notified ps where
  __ := H
  slots s hs := by
    rcases Multiset.mem_cons.mp hs with rfl | hs
    · exact ⟨op, h, rfl⟩
    · exact H.slots s hs

theorem Owned.report (H : Owned (slot ::ₘ inflight) completed completions notified ps) :
    Owned inflight (slot.ticket ::ₘ completed) completions notified ps where
  __ := H
  slots s hs := H.slots s (Multiset.mem_cons_of_mem hs)
  tickets t ht := by
    rcases Multiset.mem_cons.mp ht with rfl | ht
    · exact H.slots slot (Multiset.mem_cons_self ..)
    · exact H.tickets t ht

theorem Owned.context (H : Owned inflight (t ::ₘ completed) completions notified ps) :
    ∃ op ∈ ps, t.context = op.context := by
  obtain ⟨op, ho, rfl⟩ := H.tickets t (Multiset.mem_cons_self ..)
  exact ⟨op, ho, rfl⟩

theorem Owned.transfer (H : Owned inflight (t ::ₘ completed) completions notified ps) :
    Owned inflight completed (completions ++ [t.context]) notified ps where
  __ := H
  tickets t' ht := H.tickets t' (Multiset.mem_cons_of_mem ht)
  handed c hc := by
    rcases List.mem_append.mp hc with hc | hc
    · exact H.handed c hc
    · exact List.mem_singleton.mp hc ▸ H.context

theorem Owned.notify (H : Owned inflight (t ::ₘ completed) completions notified ps) :
    Owned inflight completed completions (notified ++ [t.context]) ps where
  __ := H
  tickets t' ht := H.tickets t' (Multiset.mem_cons_of_mem ht)
  notifies c hc := by
    rcases List.mem_append.mp hc with hc | hc
    · exact H.notifies c hc
    · exact List.mem_singleton.mp hc ▸ H.context

theorem Owned.consume (H : Owned inflight completed (ctx :: completions) notified ps) :
    Owned inflight completed completions (notified ++ [ctx]) ps where
  __ := H
  handed c hc := H.handed c (List.mem_cons_of_mem _ hc)
  notifies c hc := by
    rcases List.mem_append.mp hc with hc | hc
    · exact H.notifies c hc
    · exact H.handed c (by simp [List.mem_singleton.mp hc])

/-- An operation in flight has an active request of its own. -/
structure Registered (mpi : Mpi) (inflight : Multiset Slot) : Prop where
  active : ∀ slot ∈ inflight, ∃ status, mpi slot.request = some ⟨slot.ticket.id, status⟩
  requests_nodup : (inflight.map Slot.request).Nodup

variable {mpi : Mpi} {r : Nat}

/-- MPI gives an operation a request that nobody holds. -/
theorem Registered.issue (H : Registered mpi inflight) (slot : Slot) (hr : mpi slot.request = none)
    (hid : slot.ticket.id = id) :
    Registered (update mpi slot.request (some ⟨id, none⟩)) (slot ::ₘ inflight) where
  active s hs := by
    rcases Multiset.mem_cons.mp hs with rfl | hs
    · exact ⟨none, by simp [hid]⟩
    · obtain ⟨status, h⟩ := H.active s hs
      refine ⟨status, ?_⟩
      rwa [Function.update_of_ne]
      intro heq
      simp [heq, hr] at h
  requests_nodup := by
    rw [Multiset.map_cons, Multiset.nodup_cons]
    refine ⟨fun hmem => ?_, H.requests_nodup⟩
    obtain ⟨s, hs, heq⟩ := Multiset.mem_map.mp hmem
    obtain ⟨status, h⟩ := H.active s hs
    simp [heq, hr] at h

/-- A reported request is gone from MPI, and no other slot holds it. -/
theorem Registered.report (H : Registered mpi (slot ::ₘ inflight)) :
    Registered (update mpi slot.request none) inflight where
  active s hs := by
    obtain ⟨status, h⟩ := H.active s (Multiset.mem_cons_of_mem hs)
    refine ⟨status, ?_⟩
    rwa [Function.update_of_ne]
    intro heq
    have := H.requests_nodup
    rw [Multiset.map_cons, Multiset.nodup_cons] at this
    exact this.1 (heq ▸ Multiset.mem_map_of_mem _ hs)
  requests_nodup := by
    have := H.requests_nodup
    rw [Multiset.map_cons, Multiset.nodup_cons] at this
    exact this.2

theorem Registered.complete (H : Registered mpi inflight) (h : mpi r = some ⟨id, none⟩) :
    Registered (update mpi r (some ⟨id, some status⟩)) inflight where
  active s hs := by
    obtain ⟨st, hst⟩ := H.active s hs
    by_cases heq : s.request = r
    · rw [heq, h] at hst
      cases hst
      exact ⟨some status, by simp [heq]⟩
    · exact ⟨st, by simpa [heq] using hst⟩
  requests_nodup := H.requests_nodup

/-- What is known of the events of the operations in flight, completed and handed over. -/
structure Witnessed (log : List Event) (inflight : Multiset Slot) (completions : List TaskContext) :
    Prop where
  slots : ∀ slot ∈ inflight, ∃ call, .issue slot.ticket.id call (some slot.request) ∈ log
  handed : ∀ ctx ∈ completions, ∃ op, .push op ∈ log ∧ ctx = op.context ∧ Settled log (.ofOp op)

variable {log log' : List Event}

/-- Evidence in the history stays there. -/
theorem Witnessed.mono (H : Witnessed log inflight completions) (h : log ⊆ log') :
    Witnessed log' inflight completions where
  slots slot hs := by
    obtain ⟨call, hc⟩ := H.slots slot hs
    exact ⟨call, h hc⟩
  handed ctx hctx := by
    obtain ⟨op, ho, heq, hs⟩ := H.handed ctx hctx
    exact ⟨op, h ho, heq, hs.mono h⟩

/-! ## Blocking operations -/

/-- A blocking operation of the task. -/
def waitsFor (task : Handle) (ctx : TaskContext) : Bool := ctx.blocking && ctx.task == task

/-- A task waits for its blocking operations one after another, and holds a permit for every
unblock it has not consumed. -/
structure Waits (agents : Handle → Agent) (permits : Handle → Nat) (pushed blocked resumed
    notified : List TaskContext) : Prop where
  waiting : ∀ task, pushed.filter (waitsFor task) =
    resumed.filter (·.task = task) ++ (agents task).waiting
  asleep : ∀ task, blocked.filter (·.task = task) =
    resumed.filter (·.task = task) ++ (agents task).asleep
  permits : ∀ task, permits task + (resumed.filter (·.task = task)).length =
    (notified.filter (waitsFor task)).length

variable {permits : Handle → Nat} {pushed blocked resumed : List TaskContext}

theorem Waits.bind (H : Waits agents permits pushed blocked resumed notified)
    (h : agents task = .ready) :
    Waits (update agents task (.bound op)) permits pushed blocked resumed notified where
  waiting t := by
    have := H.waiting t
    by_cases ht : t = task
    · subst ht; simpa [h, Agent.waiting] using this
    · simpa [ht] using this
  asleep t := by
    have := H.asleep t
    by_cases ht : t = task
    · subst ht; simpa [h, Agent.asleep] using this
    · simpa [ht] using this
  permits := H.permits

theorem Waits.push (H : Waits agents permits pushed blocked resumed notified)
    (h : agents op.task = .bound op) :
    Waits (update agents op.task (if op.context.blocking then .pushed op.context else .ready))
      permits (pushed ++ [op.context]) blocked resumed notified where
  waiting t := by
    have := H.waiting t
    rw [List.filter_append, this, List.append_assoc]
    by_cases ht : t = op.task
    · subst ht
      by_cases hb : op.context.blocking
      · have : waitsFor op.task op.context := by simpa [waitsFor] using hb
        simp [h, hb, Agent.waiting, this]
      · simp [h, hb, Agent.waiting, waitsFor]
    · have : waitsFor t op.context = false := by simp [waitsFor, Ne.symm ht]
      simp [ht, this]
  asleep t := by
    have := H.asleep t
    by_cases ht : t = op.task
    · subst ht
      by_cases hb : op.context.blocking <;> simpa [h, hb, Agent.asleep] using this
    · simpa [ht] using this
  permits := H.permits

theorem Waits.block (H : Waits agents permits pushed blocked resumed notified)
    (h : agents ctx.task = .pushed ctx) :
    Waits (update agents ctx.task (.blocked ctx)) permits pushed (blocked ++ [ctx]) resumed
      notified where
  waiting t := by
    have := H.waiting t
    by_cases ht : t = ctx.task
    · subst ht; simpa [h, Agent.waiting] using this
    · simpa [ht] using this
  asleep t := by
    have := H.asleep t
    rw [List.filter_append, this]
    by_cases ht : t = ctx.task
    · subst ht; simp [h, Agent.asleep]
    · simp [ht, Ne.symm ht]
  permits := H.permits

theorem Waits.resume (H : Waits agents permits pushed blocked resumed notified)
    (h : agents ctx.task = .blocked ctx) (hp : 0 < permits ctx.task) :
    Waits (update agents ctx.task .ready) (update permits ctx.task (permits ctx.task - 1)) pushed
      blocked (resumed ++ [ctx]) notified where
  waiting t := by
    rw [List.filter_append, H.waiting t]
    by_cases ht : t = ctx.task
    · subst ht; simp [h, Agent.waiting]
    · simp [ht, Ne.symm ht]
  asleep t := by
    rw [List.filter_append, H.asleep t]
    by_cases ht : t = ctx.task
    · subst ht; simp [h, Agent.asleep]
    · simp [ht, Ne.symm ht]
  permits t := by
    have := H.permits t
    by_cases ht : t = ctx.task
    · subst ht
      simp only [Function.update_self, List.filter_append, List.length_append]
      simp
      omega
    · simpa [ht, Ne.symm ht] using this

theorem Waits.notify (H : Waits agents permits pushed blocked resumed notified) :
    Waits agents (if ctx.blocking then update permits ctx.task (permits ctx.task + 1) else permits)
      pushed blocked resumed (notified ++ [ctx]) where
  waiting := H.waiting
  asleep := H.asleep
  permits t := by
    have := H.permits t
    rw [List.filter_append, List.length_append, ← this]
    by_cases hb : ctx.blocking
    · by_cases ht : t = ctx.task
      · subst ht
        have : waitsFor ctx.task ctx := by simp [waitsFor, hb]
        simp [hb, this]
        omega
      · simp [hb, ht, waitsFor, Ne.symm ht]
    · simp [hb, waitsFor]

end

/-! ## The order of events -/

/-- When an event may happen, in terms of the events before it. -/
def Guard (before : List Event) : Event → Prop
  | .bind op => ∀ o, .bind o ∈ before → o.task = op.task →
    .push o ∈ before ∧ (o.context.blocking → .notify o.context ∈ before)
  | .push op => .bind op ∈ before
  | .issue id call _ => ∃ op, .push op ∈ before ∧ op.id = id ∧ op.issue = some call
  | .report id _ => ∃ call h, .issue id call (some h) ∈ before
  | .store id location status => .report id status ∈ before ∧
    ∃ op, .push op ∈ before ∧ op.id = id ∧ op.status = .addr location
  | .transfer ctx | .notify ctx =>
    ∃ op, .push op ∈ before ∧ ctx = op.context ∧ Settled before (.ofOp op)
  | .resume ctx => ctx ∈ notifies before ∧ ctx ∈ blocks before
  | _ => True

/-- The invariant of the life of all operations. -/
structure Inv (L : Life) : Prop where
  submitted : Submitted L.serial L.agents (binds L.log) (pushes L.log)
  ordered : Ordered L.queue L.batch (pushes L.log) (issues L.log)
  tracked : Tracked L.inflight L.completed L.completions (notifies L.log) (issues L.log)
    (nulls L.log) (reports L.log)
  owned : Owned L.inflight L.completed L.completions (notifies L.log) (pushes L.log)
  registered : Registered L.mpi L.inflight
  waits : Waits L.agents L.permits ((pushes L.log).map Op.context) (blocks L.log) (resumes L.log)
    (notifies L.log)
  witnessed : Witnessed L.log L.inflight L.completions
  guarded : Guarded Guard L.log

/-! ## One move -/

theorem Inv.submitted_move (H : Inv L) (h : Move L a L') :
    Submitted L'.serial L'.agents (binds L'.log) (pushes L'.log) := by
  have HS := H.submitted
  cases h
  case bind hk hr hs => simpa [append, setAgent] using HS.bind hr hs hk
  case push op h =>
    simpa [append, setAgent] using
      HS.push h (by split <;> simp_all [AgentInv]) (by split <;> rfl)
  case block ctx h =>
    have := HS.agents ctx.task
    rw [h] at this
    simpa [append, setAgent] using HS.setAgent (a := .blocked ctx) this (by rw [h]; rfl)
  case resume h _ =>
    simpa [append, setAgent] using HS.setAgent (a := .ready) trivial (by rw [h]; rfl)
  all_goals simpa [append, notified] using HS

theorem Inv.ordered_move (H : Inv L) (h : Move L a L') :
    Ordered L'.queue L'.batch (pushes L'.log) (issues L'.log) := by
  have HO := H.ordered
  cases h
  case push => simpa [append, setAgent] using HO.push
  case take h => exact HO.take h
  case issueNull hi hb => simpa [append] using (hb ▸ HO).issue
  case issue hi hb _ => simpa [append] using (hb ▸ HO).issue
  all_goals simpa [append, notified, setAgent] using HO

theorem Inv.tracked_move (H : Inv L) (h : Move L a L') :
    Tracked L'.inflight L'.completed L'.completions (notifies L'.log) (issues L'.log)
      (nulls L'.log) (reports L'.log) := by
  have HT := H.tracked
  cases h
  case issueNull op _ _ hi hb => simpa [append] using HT.issueNull (t := .ofOp op)
  case issue op _ _ r hi hb _ => simpa [append] using HT.issue ⟨.ofOp op, r⟩
  case report slot rest status owner hs ho =>
    obtain ⟨_, h⟩ := H.registered.active slot (hs ▸ Multiset.mem_cons_self ..)
    rw [ho] at h
    cases h
    simpa [append] using (hs ▸ HT).report
  case transfer hc hs => simpa [append] using (hc ▸ HT).transfer
  case notify hc hs => simpa [notified] using (hc ▸ HT).notify
  case consume hc => simpa [notified] using (hc ▸ HT).consume
  all_goals simpa [append, setAgent] using HT

theorem Inv.owned_move (H : Inv L) (h : Move L a L') :
    Owned L'.inflight L'.completed L'.completions (notifies L'.log) (pushes L'.log) := by
  have HO := H.owned
  cases h
  case push => simpa [append, setAgent] using HO.push
  case issueNull hi hb => simpa [append] using HO.issueNull (H.ordered.taken _ (by simp [hb]))
  case issue hi hb _ => simpa [append] using HO.issue (H.ordered.taken _ (by simp [hb]))
  case report hs ho => simpa [append] using (hs ▸ HO).report
  case transfer hc hs => simpa [append] using (hc ▸ HO).transfer
  case notify hc hs => simpa [notified] using (hc ▸ HO).notify
  case consume hc => simpa [notified] using (hc ▸ HO).consume
  all_goals simpa [append, setAgent] using HO

theorem Inv.registered_move (H : Inv L) (h : Move L a L') : Registered L'.mpi L'.inflight := by
  have HR := H.registered
  cases h
  case issue op _ _ r hi hb hm => exact HR.issue ⟨.ofOp op, r⟩ hm rfl
  case report hs ho => exact (hs ▸ HR).report
  case complete hm => exact HR.complete hm
  all_goals exact HR

theorem Inv.waits_move (H : Inv L) (h : Move L a L') :
    Waits L'.agents L'.permits ((pushes L'.log).map Op.context) (blocks L'.log) (resumes L'.log)
      (notifies L'.log) := by
  have HW := H.waits
  cases h
  case bind hk h hs => simpa [append, setAgent] using HW.bind h
  case push h => simpa [append, setAgent] using HW.push h
  case block h => simpa [append, setAgent] using HW.block h
  case resume h hp => simpa [append, setAgent] using HW.resume h hp
  case notify => simpa [notified] using HW.notify
  case consume => simpa [notified] using HW.notify
  all_goals simpa [append] using HW

theorem Inv.issues_nodup (H : Inv L) : (issues L.log).Nodup :=
  H.ordered.issues_nodup H.submitted.pushes_nodup

theorem Inv.notifies_nodup (H : Inv L) : ((notifies L.log).map TaskContext.id).Nodup :=
  H.tracked.notified_nodup H.issues_nodup

/-- A sleeping task that holds a permit holds it for the operation it sleeps for. -/
theorem Inv.notified_of_permit (H : Inv L) (h : L.agents ctx.task = .blocked ctx)
    (hp : 0 < L.permits ctx.task) : ctx ∈ notifies L.log := by
  have hw := H.waits.waiting ctx.task
  have hc := H.waits.permits ctx.task
  rw [h] at hw
  have hsub : (notifies L.log).filter (waitsFor ctx.task) ⊆
      ((pushes L.log).map Op.context).filter (waitsFor ctx.task) := by
    intro c hmem
    obtain ⟨hn, hf⟩ := List.mem_filter.mp hmem
    obtain ⟨op, ho, rfl⟩ := H.owned.notifies c hn
    exact List.mem_filter.mpr ⟨List.mem_map_of_mem ho, hf⟩
  have hnodup : ((notifies L.log).filter (waitsFor ctx.task)).Nodup :=
    H.notifies_nodup.of_map.filter _
  have hperm := (hnodup.subperm hsub).perm_of_length_le (by
    simp only [hw, Agent.waiting, List.length_append, List.length_singleton]
    omega)
  have hmem : ctx ∈ ((pushes L.log).map Op.context).filter (waitsFor ctx.task) := by
    simp [hw, Agent.waiting]
  exact (List.mem_filter.mp (hperm.mem_iff.mpr hmem)).1

/-- A completed ticket that is settled is that of a pushed operation. -/
theorem Inv.settled (H : Inv L) (h : L.completed = t ::ₘ rest) (hs : Settled L.log t) :
    ∃ op, .push op ∈ L.log ∧ t.context = op.context ∧ Settled L.log (.ofOp op) := by
  obtain ⟨op, ho, rfl⟩ := H.owned.tickets t (h ▸ Multiset.mem_cons_self ..)
  exact ⟨op, mem_pushes.mp ho, rfl, hs⟩

theorem Inv.witnessed_move (H : Inv L) (h : Move L a L') :
    Witnessed L'.log L'.inflight L'.completions := by
  have HW := H.witnessed
  have hmono (e : Event) : Witnessed (L.log ++ [e]) L.inflight L.completions :=
    HW.mono (by simp)
  cases h
  case issue op rest call r hi hb hm =>
    refine ⟨fun slot hs => ?_, (hmono _).handed⟩
    rcases Multiset.mem_cons.mp hs with rfl | hs
    · exact ⟨call, by simp [append]⟩
    · exact (hmono _).slots slot hs
  case report hs ho =>
    exact ⟨fun slot h => (hmono _).slots slot (hs ▸ Multiset.mem_cons_of_mem h), (hmono _).handed⟩
  case transfer t rest hc hs =>
    refine ⟨(hmono _).slots, fun ctx h => ?_⟩
    rcases List.mem_append.mp h with h | h
    · exact (hmono _).handed ctx h
    · obtain ⟨op, ho, heq, hs⟩ := H.settled hc hs
      exact ⟨op, by simp [append, ho], by rw [List.mem_singleton.mp h, heq],
        hs.mono (by simp [append])⟩
  case consume hc =>
    exact ⟨(hmono _).slots, fun ctx h => (hmono _).handed ctx (hc ▸ List.mem_cons_of_mem _ h)⟩
  case take => exact HW
  case complete => exact HW
  all_goals exact hmono _

/-- A task returns from `alpi_task_block` after the notification of the operation it slept for. -/
theorem Inv.notified_of_resumed {ctx : TaskContext} (H : Inv L) (h : ctx ∈ resumes L.log) :
    ctx ∈ notifies L.log := by
  obtain ⟨e, he, hctx⟩ := mem_select.mp h
  obtain ⟨before, after, heq⟩ := List.append_of_mem he
  cases e with
  | resume ctx' => ?_
  | _ => simp at hctx
  obtain rfl : ctx' = ctx := by simpa using hctx
  have hn : ctx' ∈ notifies before := (H.guarded before _ after heq).1
  exact mem_notifies.mpr (by rw [heq]; exact List.mem_append_left _ (mem_notifies.mp hn))

/-- A task outside `process` has pushed what it submitted and waited for what blocks. -/
theorem Inv.ready (H : Inv L) (h : L.agents task = .ready) (ho : .bind o ∈ L.log)
    (ht : o.task = task) : .push o ∈ L.log ∧ (o.context.blocking → .notify o.context ∈ L.log) := by
  have hs := H.submitted.sequential task
  have hw := H.waits.waiting task
  rw [h] at hs hw
  simp only [Agent.binding, Agent.waiting, List.append_nil] at hs hw
  have hpush : o ∈ pushes L.log := by
    have : o ∈ (binds L.log).filter (·.task = task) := by simp [mem_binds.mpr ho, ht]
    exact (List.mem_filter.mp (hs ▸ this)).1
  refine ⟨mem_pushes.mp hpush, fun hb => mem_notifies.mp (H.notified_of_resumed ?_)⟩
  have : o.context ∈ ((pushes L.log).map Op.context).filter (waitsFor task) :=
    List.mem_filter.mpr ⟨List.mem_map_of_mem hpush, by simp [waitsFor, hb, ht]⟩
  exact (List.mem_filter.mp (hw ▸ this)).1

/-- Every move finds in the history what its event needs. -/
theorem Inv.guarded_move (H : Inv L) (h : Move L a L') : Guarded Guard L'.log := by
  have HG := H.guarded
  cases h
  case take => exact HG
  case complete => exact HG
  case bind hk hr hs => exact HG.append_singleton fun o ho ht => H.ready hr ho ht
  case push op h =>
    have := H.submitted.agents op.task
    rw [h] at this
    exact HG.append_singleton (mem_binds.mp this.2.1)
  case resume ctx h hp =>
    have hb := H.waits.asleep ctx.task
    rw [h] at hb
    refine HG.append_singleton ⟨H.notified_of_permit h hp, ?_⟩
    have : ctx ∈ (blocks L.log).filter (·.task = ctx.task) := by simp [hb, Agent.asleep]
    exact (List.mem_filter.mp this).1
  case issueNull op rest call hi hb =>
    exact HG.append_singleton ⟨op, mem_pushes.mp (H.ordered.taken op (by simp [hb])), rfl, hi⟩
  case issue op rest call r hi hb hm =>
    exact HG.append_singleton ⟨op, mem_pushes.mp (H.ordered.taken op (by simp [hb])), rfl, hi⟩
  case report slot rest status owner hs ho =>
    have hmem : slot ∈ L.inflight := hs ▸ Multiset.mem_cons_self ..
    obtain ⟨_, h⟩ := H.registered.active slot hmem
    rw [ho] at h
    cases h
    obtain ⟨call, hc⟩ := H.witnessed.slots slot hmem
    exact HG.append_singleton ⟨call, _, hc⟩
  case store t location status hst ht hr =>
    obtain ⟨op, ho, rfl⟩ := H.owned.tickets t ht
    exact HG.append_singleton ⟨hr, op, mem_pushes.mp ho, rfl, hst⟩
  case transfer hc hs => exact HG.append_singleton (H.settled hc hs)
  case notify hc hs => exact HG.append_singleton (H.settled hc hs)
  case consume ctx rest hc =>
    exact HG.append_singleton (H.witnessed.handed ctx (by simp [hc]))
  all_goals exact HG.append_singleton trivial

/-- Every move keeps the invariant. -/
theorem Inv.move (H : Inv L) (h : Move L a L') : Inv L' where
  submitted := H.submitted_move h
  ordered := H.ordered_move h
  tracked := H.tracked_move h
  owned := H.owned_move h
  registered := H.registered_move h
  waits := H.waits_move h
  witnessed := H.witnessed_move h
  guarded := H.guarded_move h

theorem Inv.initial (memory : Nat → Status) : Inv (initial memory) where
  submitted := by constructor <;> simp [Life.initial, AgentInv, Agent.binding]
  ordered := by constructor <;> simp [Life.initial]
  tracked := by constructor <;> simp [Life.initial]
  owned := by constructor <;> simp [Life.initial]
  registered := by constructor <;> simp [Life.initial]
  waits := by constructor <;> simp [Life.initial, Agent.waiting, Agent.asleep]
  witnessed := by constructor <;> simp [Life.initial]
  guarded := .nil

theorem Inv.of_reachable (h : system.Reachable L) : Inv L := by
  refine h.rec_inv ?_ ?_
  · rintro _ ⟨memory, rfl⟩
    exact .initial memory
  · intro L a L' _ h H
    exact H.move h

/-! ## Runs without submissions -/

/-- A submission. -/
def Act.isBind : Act → Bool
  | .bind _ => true
  | _ => false

/-- Moves that submit nothing lead from `L` to `L'`. -/
def Steps (L L' : Life) : Prop := ∃ acts, system.Reaches L acts L' ∧ ∀ a ∈ acts, a.isBind = false

theorem Steps.refl : Steps L L := ⟨[], .refl, by simp⟩

theorem Steps.single (h : Move L a L') (ha : a.isBind = false) : Steps L L' :=
  ⟨[a], .single h, by simpa using ha⟩

theorem Steps.trans (h₁ : Steps L L') (h₂ : Steps L' L'') : Steps L L'' := by
  obtain ⟨as₁, hr₁, ha₁⟩ := h₁
  obtain ⟨as₂, hr₂, ha₂⟩ := h₂
  refine ⟨as₁ ++ as₂, hr₁.trans hr₂, fun a ha => ?_⟩
  rcases List.mem_append.mp ha with ha | ha
  · exact ha₁ a ha
  · exact ha₂ a ha

theorem Steps.head (h : Move L a L') (ha : a.isBind = false) (h' : Steps L' L'') : Steps L L'' :=
  (Steps.single h ha).trans h'

theorem Inv.steps (H : Inv L) (h : Steps L L') : Inv L' := by
  obtain ⟨as, hr, _⟩ := h
  exact hr.inv H fun _ _ _ _ hm H => H.move hm

end Life
end Tampi
