import Mathlib.Tactic.Ring
import Tampi.Verify.Call
import Tampi.Verify.Pop

/-! # A call of `checkRequests` returns

The rounds of a call without pushes come to an end: an operation that leaves a pre-queue or the
in-flight arrays never comes back, and `load` counts how far the operations still have to go. `Round`
is what a round has found so far; at the end of the last one it is `Drained`. -/

namespace Tampi
open Function (update)

/-! ## The pre-queues while nothing is pushed -/

namespace MultiLockFreeQueue
variable {P : QueueParams} {m m' : MultiLockFreeQueue T}

/-- Only the producers' side differs, and the slots. -/
structure SameSide (m m' : MultiLockFreeQueue T) : Prop where
  tail : m'.tail = m.tail
  head : m'.head = m.head
  remaining : m'.remaining = m.remaining
  current : m'.current = m.current
  consumer : m'.consumer = m.consumer

namespace SameSide
variable (h : SameSide m m')
include h

theorem length : m'.length P = m.length P := by
  funext q
  unfold MultiLockFreeQueue.length
  rw [h.tail, h.head]

theorem total : m'.total P = m.total P := by
  simp only [MultiLockFreeQueue.total, h.length]

theorem getting (G : Getting P N m) : Getting P N m' := by
  unfold Getting at G ⊢
  rw [h.consumer, h.remaining, h.total, h.length]
  exact G

theorem rest : m'.rest P = m.rest P := by
  unfold MultiLockFreeQueue.rest
  rw [h.consumer, h.remaining, h.current]

end SameSide

/-- A step of a producer does not change what the consumer sees before the element is published. -/
theorem sameSide_of_producerStep (h : m.producerStep P queue = some m') :
    SameSide m m' ∨ m'.producer queue = .returned true := by
  unfold producerStep at h
  split at h
  · dsimp only at h
    split at h <;> cases h <;> exact .inl ⟨rfl, rfl, rfl, rfl, rfl⟩
  · obtain ⟨x, -, rfl⟩ := Option.map_eq_some_iff.mp h
    exact .inl ⟨rfl, rfl, rfl, rfl, rfl⟩
  · cases h
    exact .inr (Function.update_self ..)
  · cases h

theorem sameSide_push : SameSide m (m.push queue elem) := by
  unfold push
  split <;> exact ⟨rfl, rfl, rfl, rfl, rfl⟩

theorem QueueInv.sum_pushed (H : QueueInv P m) : ∑ q ∈ Finset.range P.queues, (m.pushed q).length =
    ∑ q ∈ Finset.range P.queues, (m.popped q).length + m.total P := by
  rw [MultiLockFreeQueue.total, ← Finset.sum_add_distrib]
  exact Finset.sum_congr rfl fun q _ => by rw [H.history q, List.length_append, length_contents]

/-- What a pop takes it has in its array. -/
theorem total_consumerStep (H : QueueInv P m) (h : m.consumerStep P = some m') :
    m'.total P + m'.consumer.vals.length = m.total P + m.consumer.vals.length := by
  have hs := H.sum_pushed
  have hs' := (H.consumerStep h).sum_pushed
  rw [(consumerStep_frame h).pushed, hs] at hs'
  rcases taken_of_move H (consumerMove_of_step h) with ⟨hp, hv⟩ | ⟨q, hq, chunk, hp, hv⟩
  · rw [hp] at hs'
    rw [hv]
    omega
  · have hsum := Counting.sum_of_eq_off (fun q => (m.popped q).length)
      (fun q => (m'.popped q).length) hq
      fun q' hne => by rw [hp, Function.update_of_ne hne]
    rw [hp, Function.update_self, List.length_append] at hsum
    rw [hp] at hs'
    rw [hv, List.length_append]
    omega

theorem total_pop (H : QueueInv P m) (hf : m.consumer.free) :
    (m.pop P n).total P = m.total P :=
  Finset.sum_congr rfl fun q _ => by
    rw [← length_contents, ← length_contents, pop_contents H hf]

theorem total_eq_zero (h : ∀ q, m.contents P q = []) : m.total P = 0 :=
  Finset.sum_eq_zero fun q _ => by rw [← length_contents, h q, List.length_nil]

theorem contents_eq_nil (h : m.total P = 0) (hq : q < P.queues) : m.contents P q = [] := by
  have := Finset.sum_eq_zero_iff.mp h q (Finset.mem_range.mpr hq)
  rwa [← length_contents, List.length_eq_zero_iff] at this

end MultiLockFreeQueue

/-! ## What a round has found -/

namespace Sys
variable {cfg : Config} {s t : Sys}

/-- Nothing waits in the pre-queues. -/
def NoneQueued (cfg : Config) (s : Sys) : Prop :=
  s.p2pOperations.total cfg.queue = 0 ∧ s.collOperations = []

/-- There is no avoidable backlog. -/
def Drained (cfg : Config) (s : Sys) : Prop :=
  s.NoneQueued cfg ∨ s.manager.pending = s.manager.capacityCtrl.capacity

/-- What the round in progress knows, if there have been no pushes since the call was entered. -/
def Round (cfg : Config) (s : Sys) : Prop :=
  match s.poll with
  | .idle => False
  | .top _ => True
  | .p2p _ w => w.ntotal < w.navailable
  | .popping _ w => w.ntotal < w.navailable ∧
    ∃ N, MultiLockFreeQueue.Getting cfg.queue N s.p2pOperations ∧
      (N = 0 → s.p2pOperations.total cfg.queue + s.p2pOperations.consumer.vals.length = 0)
  | .coll _ w np2p => 0 < w.navailable ∧
    (w.ntotal = 0 → s.p2pOperations.total cfg.queue = 0) ∧ (w.ntotal = 0 → np2p = 0)
  | .transfer _ _ _ x => x.operations ≠ []
  | .bottom _ inserted => inserted = 0 → s.Drained cfg
  | .check _ inserted k => (inserted = 0 → s.Drained cfg) ∧
    (k.phase ≠ .replace → k.checked < s.manager.pending)
  | .evaluate _ => s.Drained cfg

theorem pushes_pushDone_ne (cpu : Nat) (kind : OpKind) (object : Nat) (ctx : TaskContext) :
    pushes (s.pushDone cpu kind object ctx).log ≠ pushes s.log := by
  intro h
  have := congrArg List.length h
  simp [pushDone, Event.pushed?] at this

/-- A step of another agent that pushes no operation. -/
theorem same_of_step (h : s.step cfg l = some t) (hl : l.isPoll = false)
    (hpush : pushes t.log = pushes s.log) :
    MultiLockFreeQueue.SameSide s.p2pOperations t.p2pOperations ∧
      t.collOperations = s.collOperations := by
  have hrefl : MultiLockFreeQueue.SameSide s.p2pOperations s.p2pOperations :=
    ⟨rfl, rfl, rfl, rfl, rfl⟩
  have hside {q : MultiLockFreeQueue Nat} {cpu : Nat}
      (hq : s.p2pOperations.producerStep cfg.queue cpu = some q)
      (hne : q.producer cpu ≠ .returned true) : MultiLockFreeQueue.SameSide s.p2pOperations q :=
    (MultiLockFreeQueue.sameSide_of_producerStep hq).resolve_right hne
  cases agentMove_of_step h hl with
  | startPush => exact ⟨MultiLockFreeQueue.sameSide_push, rfl⟩
  | push _ hq hret => exact ⟨hside hq (hret true), rfl⟩
  | queueFull _ hq hret | retryPush _ hq hret =>
    exact ⟨hside hq fun htrue => (nomatch hret.symm.trans htrue), rfl⟩
  | pushed => exact absurd hpush (pushes_pushDone_ne (s := { s with p2pOperations := _ }) _ _ _ _)
  | pushColl =>
    exact absurd hpush (pushes_pushDone_ne (s := { s with collOperations := _ }) _ _ _ _)
  | _ => exact ⟨hrefl, rfl⟩

/-! ## How far the operations still have to go -/

end Sys

/-- An operation of the batch counts as queued until it may be in the in-flight arrays; one is left
over for `ntotal`. -/
def Transfer.load (x : Transfer) : Nat :=
  match x.phase with
  | .append r => (x.req2entry.length - r) + 1
  | .free => 1
  | _ => 2 * x.operations.length

def Poll.load : Poll → Nat
  | .p2p _ w | .popping _ w | .coll _ w _ => min w.ntotal 1
  | .transfer _ w _ x => min w.ntotal 1 + x.load
  | .bottom _ inserted | .check _ inserted _ => min inserted 1
  | .idle | .top _ | .evaluate _ => 0

/-- The loops of a round still to come, and what the current window still admits. -/
def Poll.ahead : Poll → Nat ×ₗ Nat ×ₗ Nat
  | .idle => toLex (4, toLex (0, 0))
  | .top _ => toLex (3, toLex (0, 0))
  | .p2p _ w => toLex (2, toLex (2 * (w.navailable - w.ntotal), 4))
  | .popping _ w => toLex (2, toLex (2 * (w.navailable - w.ntotal), 3))
  | .coll _ w np2p => toLex (2, toLex (2 * (w.navailable - w.ntotal) + min np2p 1, 1))
  | .transfer _ w np2p x =>
    toLex (2, toLex (2 * (w.navailable - w.ntotal) + min np2p 1, if x.kind = .p2p then 2 else 0))
  | .bottom .. => toLex (1, toLex (0, 1))
  | .check .. => toLex (1, toLex (0, 0))
  | .evaluate _ => toLex (0, toLex (0, 0))

namespace Sys
variable {cfg : Config} {s t : Sys}

/-- Two for a queued operation, one for one in flight. -/
def load (cfg : Config) (s : Sys) : Nat :=
  2 * (s.p2pOperations.total cfg.queue + s.p2pOperations.consumer.vals.length +
    s.collOperations.length) + s.manager.pending + s.poll.load

/-- What is left of the current call, batch or check. -/
noncomputable def inner (cfg : Config) (s : Sys) : Nat ×ₗ Nat ×ₗ Nat ×ₗ Nat :=
  match s.poll with
  | .popping .. => s.p2pOperations.rest cfg.queue
  | .transfer _ _ _ x => toLex (x.phase.rank, toLex (x.rest, toLex (0, 0)))
  | .check _ _ k =>
    toLex (s.manager.pending - k.checked, toLex (k.phase.rank, toLex (k.rest, 0)))
  | _ => toLex (0, toLex (0, toLex (0, 0)))

noncomputable def measure (cfg : Config) (s : Sys) :
    Nat ×ₗ (Nat ×ₗ Nat ×ₗ Nat) ×ₗ (Nat ×ₗ Nat ×ₗ Nat ×ₗ Nat) :=
  toLex (s.load cfg, toLex (s.poll.ahead, s.inner cfg))

/-- One step of the polling task. -/
structure Progress (cfg : Config) (s t : Sys) : Prop where
  round : t.Round cfg
  load : t.load cfg ≤ s.load cfg
  ahead : t.load cfg = s.load cfg →
    t.poll.ahead < s.poll.ahead ∨ t.poll.ahead = s.poll.ahead ∧ t.inner cfg < s.inner cfg

theorem Progress.measure_lt (G : s.Progress cfg t) : t.measure cfg < s.measure cfg :=
  Prod.Lex.toLex_lt_toLex'.mpr ⟨G.load, fun h => Prod.Lex.toLex_lt_toLex.mpr (G.ahead h)⟩

theorem Round.other (R : s.Round cfg) (h : s.step cfg l = some t) (hl : l.isPoll = false)
    (hpush : pushes t.log = pushes s.log) :
    t.Round cfg ∧ t.measure cfg = s.measure cfg := by
  obtain ⟨hside, hcoll⟩ := same_of_step h hl hpush
  obtain ⟨hm, hp⟩ := step_manager h hl
  have hdrained (D : s.Drained cfg) : t.Drained cfg := by
    unfold Drained NoneQueued at D ⊢
    rwa [hside.total, hcoll, hm]
  constructor
  · unfold Round at R ⊢
    rw [hp]
    split <;> rename_i hpoll <;> rw [hpoll] at R
    · exact R
    · exact R
    · exact R
    · obtain ⟨hlt, N, G, hN⟩ := R
      exact ⟨hlt, N, hside.getting G, by rwa [hside.total, hside.consumer]⟩
    · rwa [hside.total]
    · exact R
    · exact fun h => hdrained (R h)
    · exact ⟨fun h => hdrained (R.1 h), hm ▸ R.2⟩
    · exact hdrained R
  · unfold measure load inner
    rw [hside.total, hside.consumer, hside.rest, hcoll, hm, hp]

/-! ## Every step gets on -/

theorem TransferMove.load {x x' : Transfer} (M : s.TransferMove cfg x a t x')
    (hne : x.operations ≠ []) (hle : x.req2entry.length ≤ x.operations.length) :
    t.manager.pending + x'.load ≤ s.manager.pending + x.load := by
  have hpos := List.length_pos_iff.mpr hne
  cases M with
  | issueNull hp | issue hp | test hp | tested hp | filtered hp | collect hp | processed hp =>
    simp [Transfer.load, hp]
  | complete hp => simp [Transfer.load, hp, Sys.complete]
  | issued hp =>
    split <;> simp [Transfer.load, hp]
  | filter hp =>
    rw [(stored_frame ..).2.1]
    simp [Transfer.load, Transfer.mark, hp]
  | handoff hp | keep hp | skip hp | append hp | appended hp =>
    simp only [Transfer.load, hp]
    omega

theorem Drained.congr (D : s.Drained cfg) (hp : t.p2pOperations = s.p2pOperations)
    (hc : t.collOperations = s.collOperations) (hm : t.manager.pending = s.manager.pending)
    (hcap : t.manager.capacityCtrl = s.manager.capacityCtrl) : t.Drained cfg := by
  unfold Drained NoneQueued at D ⊢
  rwa [hp, hc, hm, hcap]

theorem Progress.goto (R : t.Round cfg) (hp : t.p2pOperations = s.p2pOperations)
    (hc : t.collOperations = s.collOperations) (hm : t.manager = s.manager)
    (hload : t.poll.load ≤ s.poll.load)
    (hahead : t.poll.load = s.poll.load → t.poll.ahead < s.poll.ahead) : s.Progress cfg t where
  round := R
  load := by
    unfold Sys.load
    rw [hp, hc, hm]
    omega
  ahead h := by
    refine .inl (hahead ?_)
    unfold Sys.load at h
    rw [hp, hc, hm] at h
    omega

theorem window_lt (h : k' < k ∨ k' = k ∧ i' < i) :
    (toLex (2, toLex (k', i')) : Nat ×ₗ Nat ×ₗ Nat) < toLex (2, toLex (k, i)) :=
  Prod.Lex.right _ (Prod.Lex.toLex_lt_toLex.mpr h)

/-- A pop of point-to-point operations. -/
theorem Round.pop (I : s.Inv cfg) (hp : s.poll = .p2p total w) (hlt : w.ntotal < w.navailable) :
    s.Progress cfg { s with
      p2pOperations := s.p2pOperations.pop cfg.queue (min (w.navailable - w.ntotal) BatchSize)
      poll := .popping total w } := by
  have hpoll := I.poll
  rw [hp] at hpoll
  have hidle : s.p2pOperations.consumer = .idle := hpoll.1
  have hfree : s.p2pOperations.consumer.free := by rw [hidle]; rfl
  have htotal := MultiLockFreeQueue.total_pop (n := min (w.navailable - w.ntotal) BatchSize)
    I.queue hfree
  refine ⟨⟨hlt, _, .pop I.queue hfree, fun h0 => ?_⟩, ?_, fun _ => .inl ?_⟩
  · rw [MultiLockFreeQueue.vals_pop, htotal]
    have hbatch : 0 < BatchSize := by decide
    simp only [List.length_nil]
    omega
  · simp only [load, Poll.load, htotal, hp, hidle, MultiLockFreeQueue.vals_pop]
    exact Nat.le_refl _
  · rw [hp]
    exact window_lt (.inr ⟨rfl, by decide⟩)

theorem Round.popping {q : MultiLockFreeQueue Nat} (I : s.Inv cfg) (R : s.Round cfg)
    (hp : s.poll = .popping total w) (hq : s.p2pOperations.consumerStep cfg.queue = some q) :
    s.Progress cfg { s with p2pOperations := q } := by
  simp only [Round, hp] at R
  obtain ⟨hlt, N, G, hN⟩ := R
  have hmove := MultiLockFreeQueue.consumerMove_of_step hq
  have htotal := MultiLockFreeQueue.total_consumerStep I.queue hq
  refine ⟨?_, ?_, fun _ => .inr ⟨rfl, ?_⟩⟩
  · simp only [Round, hp]
    exact ⟨hlt, N, G.move I.queue hmove, fun h0 => htotal.trans (hN h0)⟩
  · simp only [load]
    omega
  · simp only [inner, hp]
    exact MultiLockFreeQueue.rest_move_lt I.queue G hmove

/-- The pop has returned the operations `os`. -/
theorem Round.popped (R : s.Round cfg) (hp : s.poll = .popping total w)
    (hc : s.p2pOperations.consumer = .returned os) :
    s.Progress cfg { s with
      p2pOperations := { s.p2pOperations with consumer := .idle }
      poll := if os = [] then .coll total w 0 else .transfer total w 0 (.start .p2p os) } := by
  simp only [Round, hp, hc] at R
  obtain ⟨hlt, N, G, hN⟩ := R
  simp only [MultiLockFreeQueue.Getting, hc] at G
  split
  · refine ⟨⟨by omega, fun _ => ?_, fun _ => rfl⟩, ?_, fun _ => .inl ?_⟩
    · have := hN (by rw [← G, ‹os = []›]; rfl)
      exact Nat.eq_zero_of_add_eq_zero_right this
    · simp [load, Poll.load, hp, hc, Consumer.vals, MultiLockFreeQueue.total, MultiLockFreeQueue.length]
    · rw [hp]
      exact window_lt (.inr ⟨rfl, by decide⟩)
  · refine ⟨‹¬ os = []›, ?_, fun _ => .inl ?_⟩
    · simp [load, Poll.load, hp, hc, Consumer.vals, MultiLockFreeQueue.total, MultiLockFreeQueue.length,
        Transfer.load, Transfer.start]
      omega
    · rw [hp]
      exact window_lt (.inr ⟨rfl, by simp [Transfer.start]⟩)

/-- The window of a pop of collective operations takes at least one operation of the queue. -/
theorem Round.noColl (R : s.Round cfg) (hp : s.poll = .coll total w np2p)
    (hnil : s.collOperations.take (min (w.navailable - w.ntotal) BatchSize) = []) :
    s.Progress cfg { s with
      collOperations := s.collOperations.drop (min (w.navailable - w.ntotal) BatchSize)
      poll := nextWindow total w np2p 0 } := by
  simp only [Round, hp] at R
  obtain ⟨hpos, htotal, hnp2p⟩ := R
  have hle : (s.collOperations.drop (min (w.navailable - w.ntotal) BatchSize)).length ≤
      s.collOperations.length := by
    rw [List.length_drop]
    omega
  unfold nextWindow
  split
  next h =>
    refine ⟨h.1, ?_, fun _ => .inl ?_⟩
    · simp only [load, Poll.load, hp]
      omega
    · rw [hp]
      exact window_lt (.inl (by omega))
  next h =>
    refine ⟨fun h0 => .inl ⟨htotal h0, ?_⟩, ?_, fun _ => .inl ?_⟩
    · have hbatch : 0 < BatchSize := by decide
      have : s.collOperations = [] := (List.take_eq_nil_iff.mp hnil).resolve_left (by omega)
      simp [this]
    · simp only [load, Poll.load, hp]
      omega
    · rw [hp]
      exact Prod.Lex.left _ _ (by decide)

theorem Round.takeColl (hp : s.poll = .coll total w np2p)
    (htake : s.collOperations.take (min (w.navailable - w.ntotal) BatchSize) = os)
    (hne : os ≠ []) :
    s.Progress cfg { s with
      collOperations := s.collOperations.drop (min (w.navailable - w.ntotal) BatchSize)
      poll := .transfer total w np2p (.start .coll os) } := by
  have hlen : s.collOperations.length = os.length +
      (s.collOperations.drop (min (w.navailable - w.ntotal) BatchSize)).length := by
    rw [← htake, ← List.length_append, List.take_append_drop]
  refine ⟨hne, ?_, fun _ => .inl ?_⟩
  · simp only [load, Poll.load, hp, Transfer.load, Transfer.start]
    omega
  · rw [hp]
    exact window_lt (.inr ⟨rfl, by simp [Transfer.start]⟩)

theorem Round.transfer {x x' : Transfer} (I : s.Inv cfg) (R : s.Round cfg)
    (hp : s.poll = .transfer total w np2p x) (M : s.TransferMove cfg x a t x') :
    s.Progress cfg { t with poll := .transfer total w np2p x' } := by
  simp only [Round, hp] at R
  obtain ⟨-, -, -, X⟩ := I.transfer hp
  obtain ⟨F, hk, ho⟩ := M.frame
  have hload := M.load R (X.nreqs_le.trans X.tickets_le)
  refine ⟨?_, ?_, fun _ => .inr ⟨?_, ?_⟩⟩
  · simp only [Round, ho]
    exact R
  · simp only [Sys.load, Poll.load, hp, F.p2pOperations, F.collOperations]
    omega
  · simp only [Poll.ahead, hp, hk]
  · simp only [inner, hp]
    rcases M.rank_rest with hlt | ⟨heq, hlt⟩
    · exact Prod.Lex.left _ _ hlt
    · rw [heq]
      exact Prod.Lex.right _ (Prod.Lex.left _ _ hlt)

theorem Round.free {x : Transfer} {allocators : OpKind → ObjAllocator} (I : s.Inv cfg)
    (R : s.Round cfg) (hp : s.poll = .transfer total w np2p x) (hx : x.phase = .free) :
    s.Progress cfg { s with
      allocators := allocators
      poll := match x.kind with
        | .p2p => .coll total { w with ntotal := w.ntotal + x.operations.length } x.operations.length
        | .coll => nextWindow total { w with ntotal := w.ntotal + x.operations.length } np2p
          x.operations.length } := by
  simp only [Round, hp] at R
  have hpos := List.length_pos_iff.mpr R
  obtain ⟨-, -, -, X⟩ := I.transfer hp
  have hcount := X.count_le
  have hload : s.load cfg = 2 * (s.p2pOperations.total cfg.queue +
      s.p2pOperations.consumer.vals.length + s.collOperations.length) + s.manager.pending +
      (min w.ntotal 1 + 1) := by
    simp only [Sys.load, Poll.load, hp, Transfer.load, hx]
  split
  next hkind =>
    refine ⟨⟨?_, fun h0 => ?_, fun h0 => ?_⟩, ?_, fun _ => .inl ?_⟩
    · simp only
      omega
    · simp only at h0
      omega
    · simp only at h0
      omega
    · rw [hload]
      simp only [Sys.load, Poll.load]
      omega
    · rw [hp]
      exact window_lt (.inl (by simp only; omega))
  next hkind =>
    unfold nextWindow
    split
    next h =>
      refine ⟨h.1, ?_, fun _ => .inl ?_⟩
      · rw [hload]
        simp only [Sys.load, Poll.load]
        omega
      · rw [hp]
        exact window_lt (.inl (by simp only; omega))
    next h =>
      refine ⟨fun h0 => ?_, ?_, fun _ => .inl ?_⟩
      · simp only at h0
        omega
      · rw [hload]
        simp only [Sys.load, Poll.load]
        omega
      · rw [hp]
        exact Prod.Lex.left _ _ (by decide)

theorem Round.nextRound {m : TicketManager} {inserted completed : Nat}
    (hp : s.poll.load = min inserted 1) (hahead : (Poll.evaluate 0).ahead < s.poll.ahead)
    (hm : m.pending + completed = s.manager.pending)
    (hdrained : inserted = 0 → completed = 0 → ({ s with manager := m } : Sys).Drained cfg) :
    s.Progress cfg { s with manager := m, poll := nextRound total inserted completed } := by
  have htop (h : 0 < completed ∨ 0 < inserted) :
      ({ s with manager := m, poll := .top (total + completed) } : Sys).load cfg < s.load cfg := by
    simp only [Sys.load, hp]
    change _ + 0 < _
    omega
  unfold Tampi.nextRound
  split
  next h =>
    refine ⟨trivial, (htop h).le, fun heq => ?_⟩
    exact absurd heq (htop h).ne
  next h =>
    refine ⟨hdrained (by omega) (by omega), ?_, fun _ => .inl hahead⟩
    simp only [Sys.load, hp]
    change _ + 0 ≤ _
    omega

theorem Round.check {k k' : Check} (R : s.Round cfg) (hp : s.poll = .check total inserted k)
    (M : s.CheckMove cfg k a t k') :
    s.Progress cfg { t with poll := .check total inserted k' } := by
  simp only [Round, hp] at R
  obtain ⟨hdrained, hlt⟩ := R
  have F := M.frame
  obtain ⟨hm, hcap⟩ := M.manager
  have hk := hlt M.phase_ne
  refine ⟨⟨fun h0 => ?_, fun hne => ?_⟩, ?_, fun _ => .inr ⟨?_, ?_⟩⟩
  · exact (hdrained h0).congr F.p2pOperations F.collOperations hm hcap
  · simp only [hm]
    cases M with
    | handoff | keep =>
      unfold Check.advance at hne ⊢
      split at hne
      · rename_i h
        rwa [if_pos h]
      · exact absurd rfl hne
    | _ => exact hk
  · simp only [Sys.load, Poll.load, hp, F.p2pOperations, F.collOperations, hm]
    exact Nat.le_refl _
  · simp only [Poll.ahead, hp]
  · simp only [inner, hp, hm]
    rcases M.rank_rest hk with hlt | ⟨heq, hlt | ⟨heq', hlt⟩⟩
    · exact Prod.Lex.left _ _ hlt
    · rw [heq]
      exact Prod.Lex.right _ (Prod.Lex.left _ _ hlt)
    · rw [heq, heq']
      exact Prod.Lex.right _ (Prod.Lex.right _ (Prod.Lex.left _ _ hlt))

theorem Round.move (I : s.Inv cfg) (R : s.Round cfg) (M : s.PollMove cfg a t)
    (ht : t.poll ≠ .idle) : s.Progress cfg t := by
  have hpoll := I.poll
  unfold Round at R
  cases M with
  | enter hp =>
    rw [hp] at R
    exact R.elim
  | evaluate => exact absurd rfl ht
  | @top total a hp hlt =>
    refine .goto ?_ rfl rfl rfl ?_ fun _ => ?_
    · exact Nat.lt_min.mpr ⟨Nat.sub_pos_of_lt hlt, Nat.mul_pos (by decide) (by decide)⟩
    · rw [hp]
      exact Nat.le_refl 0
    · rw [hp]
      exact Prod.Lex.left _ _ (by decide)
  | @full total a hp hnot =>
    refine .goto (fun _ => .inr ?_) rfl rfl rfl ?_ fun _ => ?_
    · exact Nat.le_antisymm I.pending_le (Nat.le_of_not_lt hnot)
    · rw [hp]
      exact Nat.le_refl 0
    · rw [hp]
      exact Prod.Lex.left _ _ (by decide)
  | pop hp =>
    rw [hp] at R
    exact Round.pop I hp R
  | popping hp hq => exact Round.popping I R hp hq
  | noP2P hp hc =>
    have := Round.popped R hp hc
    rwa [if_pos rfl] at this
  | takeP2P hp hc hne =>
    have := Round.popped R hp hc
    rwa [if_neg hne] at this
  | noColl hp hnil => exact Round.noColl R hp hnil
  | takeColl hp htake hne => exact Round.takeColl hp htake hne
  | transfer hp M => exact Round.transfer I R hp M
  | free hp hx => exact Round.free I R hp hx
  | bottom hp hpos =>
    rw [hp] at R
    refine .goto ⟨fun h0 => (R h0).congr rfl rfl rfl rfl, fun _ => hpos⟩ rfl rfl rfl ?_ fun _ => ?_
    · rw [hp]
      exact Nat.le_refl _
    · rw [hp]
      exact Prod.Lex.right _ (Prod.Lex.right _ (by decide))
  | bottomEmpty hp =>
    rw [hp] at R
    refine Round.nextRound (by rw [hp]; rfl) ?_ rfl fun h0 _ => R h0
    rw [hp]
    exact Prod.Lex.left _ _ (by decide)
  | check hp M => exact Round.check R hp M
  | replace hp hk harr =>
    have K := I.check hp
    have hle := (le_of_ascending K.sorted K.lt_checked).trans K.checked_le
    rw [hp] at R
    refine Round.nextRound (by rw [hp]; rfl) ?_ (Nat.sub_add_cancel hle) fun h0 h1 => ?_
    · rw [hp]
      exact Prod.Lex.left _ _ (by decide)
    · refine (R.1 h0).congr rfl rfl ?_ rfl
      simp [h1]

theorem PollMove.capacityCtrl (M : s.PollMove cfg a t) (ht : t.poll ≠ .idle) :
    t.manager.capacityCtrl = s.manager.capacityCtrl := by
  cases M with
  | evaluate => exact absurd rfl ht
  | transfer hp M =>
    cases M with
    | filter => exact congrArg _ (stored_frame ..).2.1
    | _ => rfl
  | check hp M => exact M.manager.2
  | _ => rfl

/-- One step inside a call without pushes. -/
theorem Round.step (hs : (system cfg).Reachable s) (R : s.Round cfg)
    (h : (system cfg).step s l t) (hf : t.failure = none) (ht : t.poll ≠ .idle)
    (hpush : pushes t.log = pushes s.log) :
    t.Round cfg ∧ t.manager.capacityCtrl = s.manager.capacityCtrl ∧
      t.measure cfg ≤ s.measure cfg ∧ (l.isPoll → t.measure cfg < s.measure cfg) := by
  obtain ⟨I, -⟩ := Inv.of_reachable hs (failure_of_step h.2)
  by_cases hl : l.isPoll
  · cases l with
    | process | cpu | resume | completion | mpi => cases hl
    | poll a =>
      have M := pollMove_of_step h.2 hf
      have G := Round.move I R M ht
      exact ⟨G.round, M.capacityCtrl ht, G.measure_lt.le, fun _ => G.measure_lt⟩
  · have hl := Bool.eq_false_of_not_eq_true hl
    obtain ⟨R', heq⟩ := R.other h.2 hl hpush
    refine ⟨R', ?_, heq.le, fun h => ?_⟩
    · rw [(step_manager h.2 hl).1]
    · rw [hl] at h
      cases h

/-- A call is entered at the top of its first round. -/
theorem Round.enter (hp : s.poll = .idle) (h : s.step cfg (.poll a) = some t) :
    t.Round cfg ∧ t.log = s.log ∧ t.manager = s.manager := by
  cases enter_eq hp h
  exact ⟨trivial, rfl, rfl⟩

/-- A run inside a call without pushes. -/
theorem Inside.round (hs : (system cfg).Reachable s) (R : s.Round cfg) (h : s.Inside cfg ls t)
    (hasc : ∀ l ∈ ls, l.Ascending) (hf : t.failure = none)
    (hpush : pushes t.log = pushes s.log) :
    t.Round cfg ∧ t.manager.capacityCtrl = s.manager.capacityCtrl := by
  induction h with
  | refl => exact ⟨R, rfl⟩
  | @head u s l ls t _ hstep hrun ih =>
    have hstep : (system cfg).step s l t := ⟨hasc l (by simp), hstep⟩
    have hasc' : ∀ l ∈ ls, l.Ascending := fun l' hl' => hasc l' (by simp [hl'])
    have hft := hrun.failure hf
    have ht := hs.step hstep
    obtain ⟨hpush₁, hpush₂⟩ :=
      pushes_of_extends (log_extends hs hstep hft) (hrun.log_extends ht hasc' hf) hpush
    obtain ⟨R', hcap, -⟩ := R.step hs hstep hft hrun.poll.1 hpush₁
    obtain ⟨R'', hcap'⟩ := ih ht R' hasc' hf hpush₂
    exact ⟨R'', hcap'.trans hcap⟩

/-- Some answer lets a call go on. -/
theorem Round.enabled (R : s.Round cfg) (hf : s.failure = none) :
    ∃ a t, (Label.poll a).Ascending ∧ s.step cfg (.poll a) = some t := by
  have hpoll {a t} (h : s.pollStep cfg a = some t) : s.step cfg (.poll a) = some t := by
    unfold Sys.step
    rwa [if_neg (by simp [hf])]
  have hsilent {t} (h : s.pollStep cfg .silent = some t) :
      ∃ a t, (Label.poll a).Ascending ∧ s.step cfg (.poll a) = some t :=
    ⟨.silent, t, trivial, hpoll h⟩
  have hasc {a : Answer} (h : ∀ is, a = .some is → is.Pairwise (· < ·)) :
      (Label.poll a).Ascending := by
    cases a with
    | some is => exact h is rfl
    | silent | issued | any | flag | now => trivial
  unfold pollStep at hpoll hsilent
  cases hp : s.poll with
  | idle | top | p2p | bottom =>
    rw [hp] at hsilent
    exact hsilent rfl
  | popping total w =>
    rw [hp] at hsilent
    simp only [Round, hp] at R
    obtain ⟨-, N, G, -⟩ := R
    cases hc : s.p2pOperations.consumer with
    | returned os =>
      simp only [hc] at hsilent
      split at hsilent <;> exact hsilent rfl
    | idle | returnedEmpty =>
      rw [MultiLockFreeQueue.Getting, hc] at G
      exact G.elim
    | refresh | assign | sweep | block | read =>
      obtain ⟨q, hq⟩ := MultiLockFreeQueue.exists_consumerStep (P := cfg.queue)
        (m := s.p2pOperations) (by rw [hc]; rfl)
      simp only [hc, hq] at hsilent
      exact hsilent rfl
  | coll total w np2p =>
    rw [hp] at hsilent
    dsimp only at hsilent
    split at hsilent <;> exact hsilent rfl
  | transfer total w np2p x =>
    obtain ⟨a, t, h, ha⟩ := exists_transferStep cfg s total w np2p x
    rw [hp] at hpoll
    exact ⟨a, t, hasc ha, hpoll h⟩
  | check total inserted k =>
    obtain ⟨a, t, h, ha⟩ := exists_checkStep cfg s total inserted k
    rw [hp] at hpoll
    exact ⟨a, t, hasc ha, hpoll h⟩
  | evaluate total =>
    rw [hp] at hpoll
    exact ⟨.now 0, _, trivial, hpoll rfl⟩

theorem Inv.waiting_eq_nil (I : s.Inv cfg) (h : s.NoneQueued cfg) (line : Line) :
    s.waiting cfg line = [] := by
  cases line with
  | coll => exact h.2
  | p2p c =>
    rcases Nat.lt_or_ge c cfg.cpus with hlt | hge
    · exact MultiLockFreeQueue.contents_eq_nil h.1 hlt
    · exact (I.outside c hge).2

/-- A run that stays in a call without pushes has finitely many steps of the polling task. -/
theorem Round.finite (σ : Nat → Sys) (l : Nat → Label) (h : (system cfg).Reachable (σ 0))
    (R : (σ 0).Round cfg) (hstep : ∀ n, (system cfg).step (σ n) (l n) (σ (n + 1)))
    (hin : ∀ n, (σ n).poll ≠ .idle) (hpush : ∀ n, pushes (σ (n + 1)).log = pushes (σ n).log) :
    ∃ n, ∀ m ≥ n, (l m).isPoll = false := by
  have hreach : ∀ n, (system cfg).Reachable (σ n) := fun n => by
    induction n with
    | zero => exact h
    | succ n ih => exact ih.step (hstep n)
  have hf (n : Nat) : (σ n).failure = none := failure_of_step (hstep n).2
  have hround : ∀ n, (σ n).Round cfg := fun n => by
    induction n with
    | zero => exact R
    | succ n ih => exact (ih.step (hreach n) (hstep n) (hf _) (hin _) (hpush n)).1
  have hone (n : Nat) := (hround n).step (hreach n) (hstep n) (hf _) (hin _) (hpush n)
  obtain ⟨n, hn⟩ := Transition.System.exists_not_of_lt (f := fun n => (σ n).measure cfg)
    (P := fun n => (l n).isPoll) (fun n => (hone n).2.2.1) fun n => (hone n).2.2.2
  exact ⟨n, fun m hm => Bool.eq_false_of_not_eq_true (hn m hm)⟩

/-- A call without pushes takes finitely many steps of the polling task. -/
theorem finite_call {σ : Nat → Sys} {ls : Nat → Label} (h : (system cfg).Reachable (σ 0))
    (hp : (σ 0).poll = .idle) (hl : (ls 0).isPoll)
    (hstep : ∀ n, (system cfg).step (σ n) (ls n) (σ (n + 1))) (hin : ∀ n ≥ 1, (σ n).poll ≠ .idle)
    (hpush : ∀ n, pushes (σ n).log = pushes (σ 0).log) : ∃ n, ∀ m ≥ n, (ls m).isPoll = false := by
  have hstep₀ := hstep 0
  cases hl₀ : ls 0 with
  | process | cpu | resume | completion | mpi =>
    rw [hl₀] at hl
    cases hl
  | poll a =>
    rw [hl₀] at hstep₀
    obtain ⟨R, -⟩ := Round.enter hp hstep₀.2
    obtain ⟨n, hn⟩ := Round.finite (fun n => σ (n + 1)) (fun n => ls (n + 1)) (h.step hstep₀) R
      (fun n => hstep (n + 1)) (fun n => hin (n + 1) (Nat.le_add_left ..))
      fun n => (hpush (n + 2)).trans (hpush (n + 1)).symm
    refine ⟨n + 1, fun m hm => ?_⟩
    obtain ⟨m, rfl⟩ := Nat.exists_eq_add_of_le' (Nat.le_trans (Nat.le_add_left 1 n) hm)
    exact hn m (by omega)

/-- A call during which nothing is pushed is never stuck and takes finitely many steps, whatever MPI
answers and the other agents do; when it returns the pre-queues are empty or the in-flight arrays are
full. -/
theorem checkRequests_returns (h : (system cfg).Reachable s) (hp : s.poll = .idle) :
    (∀ a s₁ ls t, (system cfg).step s (.poll a) s₁ → s₁.Inside cfg ls t →
      (∀ l ∈ ls, l.Ascending) → pushes t.log = pushes s.log → t.failure = none →
      ∃ b u, (system cfg).step t (.poll b) u) ∧
    (∀ (σ : Nat → Sys) (ls : Nat → Label), σ 0 = s → (ls 0).isPoll →
      (∀ n, (system cfg).step (σ n) (ls n) (σ (n + 1))) → (∀ n ≥ 1, (σ n).poll ≠ .idle) →
      (∀ n, pushes (σ n).log = pushes s.log) → ∃ n, ∀ m ≥ n, (ls m).isPoll = false) ∧
    ∀ ls t total, s.Call cfg ls t total → (∀ l ∈ ls, l.Ascending) →
      pushes t.log = pushes s.log →
      (∀ line, t.waiting cfg line = []) ∨ t.manager.pending = s.manager.capacityCtrl.capacity := by
  refine ⟨fun a s₁ ls t hstep hin hasc hpush hf => ?_, fun σ ls h0 hl hstep hin hpush => ?_, ?_⟩
  · obtain ⟨R, hlog, -⟩ := Round.enter hp hstep.2
    obtain ⟨R', -⟩ := Inside.round (h.step hstep) R hin hasc hf (hlog ▸ hpush)
    obtain ⟨b, u, hb, hu⟩ := R'.enabled hf
    exact ⟨b, u, hb, hu⟩
  · subst h0
    exact finite_call h hp hl hstep hin hpush
  · intro ls t total hcall hasc hpush
    cases hcall with
    | @intro s₁ t₁ _ a b ls _ _ hstep hin hpoll hlast =>
    have hstep : (system cfg).step s (.poll a) s₁ := ⟨hasc _ (by simp), hstep⟩
    have hasc : ∀ l ∈ ls, l.Ascending := fun l hl => hasc l (by simp [hl])
    have hf := failure_of_step hlast
    have ht₁ := hin.reachable (h.step hstep) hasc
    obtain ⟨R, hlog, hm⟩ := Round.enter hp hstep.2
    obtain ⟨c, rfl⟩ := evaluate_eq hpoll hlast
    obtain ⟨R', hcap⟩ := Inside.round (h.step hstep) R hin hasc hf (hpush.trans (by rw [hlog]))
    simp only [Round, hpoll] at R'
    rcases R' with hnone | hfull
    · obtain ⟨I, -⟩ := Inv.of_reachable ht₁ hf
      exact .inl fun line => I.waiting_eq_nil hnone line
    · exact .inr (by rw [hfull, hcap, hm])

end Sys

theorem demoCall_returns : ∃ s t, (system demoConfig).Reachable s ∧
    s.Call demoConfig (.poll .silent :: demoCall nullBarrier ++ [.poll (.now 0)]) t 1 ∧
    t.manager.pending < s.manager.capacityCtrl.capacity ∧
    ∀ line, t.waiting demoConfig line = [] := by
  obtain ⟨s, t, hs, hcall, hf⟩ := demo_call (demoCall nullBarrier)
    (fun s t => decide (pushes t.log = pushes s.log) &&
      decide (t.manager.pending < s.manager.capacityCtrl.capacity)) 1 true (by decide +kernel)
  rw [Bool.and_eq_true, decide_eq_true_eq, decide_eq_true_eq] at hf
  refine ⟨s, t, hs, hcall, hf.2, ?_⟩
  exact ((Sys.checkRequests_returns hs hcall.idle).2.2 _ _ _ hcall (by decide +kernel)
    hf.1).resolve_right hf.2.ne

end Tampi
