import Tampi.Verify.Moves
import Tampi.Verify.Testsome
import Tampi.Verify.Tracking

/-! # Calls of `checkRequests`

A call is a run from a state in which the polling task is idle to the next one, with steps of all
other agents in between. What the call delivers is what the steps of the polling task append to the
history. -/

namespace Tampi

def Poll.isIdle : Poll → Bool
  | .idle => true
  | _ => false

def Poll.isTransfer : Poll → Bool
  | .transfer .. => true
  | _ => false

/-- The context whose completion is delivered: to the completion manager, or to the runtime. -/
def Event.delivered : Event → Option TaskContext
  | .transfer ctx | .notify ctx => some ctx
  | _ => none

/-- The operation was issued with this call and this request. -/
def Event.issuance : Event → Option (OpId × MpiCall × Request)
  | .issue id call request => some (id, call, request)
  | _ => none

/-- MPI completes an operation: it issues it with a null request, or a test reports it. -/
def Event.completes : Event → Bool
  | .issue _ _ none | .report .. => true
  | _ => false

namespace Sys

/-- The labels lead from one state to the other, with the polling task at points in `P` all along. -/
inductive Within (cfg : Config) (P : Poll → Prop) : Sys → List Label → Sys → Prop
  | refl : P s.poll → Within cfg P s [] s
  | head {l : Label} {ls : List Label} {t : Sys} : P s.poll → s.step cfg l = some t →
    Within cfg P t ls u → Within cfg P s (l :: ls) u

/-- A run inside a call of `checkRequests`. -/
abbrev Inside (cfg : Config) : Sys → List Label → Sys → Prop := Within cfg (· ≠ .idle)

/-- A whole call of `checkRequests`, with the value it returns. -/
inductive Call (cfg : Config) : Sys → List Label → Sys → Nat → Prop
  | intro {s s₁ t₁ t : Sys} {a b : Answer} {ls : List Label} {total : Nat} :
    s.poll = .idle → s.step cfg (.poll a) = some s₁ → Inside cfg s₁ ls t₁ →
    t₁.poll = .evaluate total → t₁.step cfg (.poll b) = some t →
    Call cfg s (.poll a :: ls ++ [.poll b]) t total

/-- The events the polling task appends along a run, and whether it was in `transferOperations`. -/
def pollEvents (cfg : Config) : Sys → List Label → List (Bool × Event)
  | _, [] => []
  | s, l :: ls =>
    match s.step cfg l with
    | none => []
    | some t =>
      (if l.isPoll then (t.log.drop s.log.length).map (s.poll.isTransfer, ·) else []) ++
        pollEvents cfg t ls

/-- The contexts whose completion the polling task delivers along a run. -/
def deliveries (cfg : Config) (s : Sys) (ls : List Label) : List TaskContext :=
  (s.pollEvents cfg ls).filterMap (·.2.delivered)

/-- The operations the polling task issues along a run. -/
def issuances (cfg : Config) (s : Sys) (ls : List Label) : List (OpId × MpiCall × Request) :=
  (s.pollEvents cfg ls).filterMap (·.2.issuance)

/-- The completions MPI tells `transferOperations` along a run. -/
def immediates (cfg : Config) (s : Sys) (ls : List Label) : List Event :=
  ((s.pollEvents cfg ls).filter fun p => p.1 && p.2.completes).map (·.2)

variable {cfg : Config} {s t : Sys}

theorem Within.poll {P : Poll → Prop} (h : Within cfg P s ls t) : P s.poll ∧ P t.poll := by
  induction h with
  | refl h => exact ⟨h, h⟩
  | head h _ _ ih => exact ⟨h, ih.2⟩

theorem Call.idle (h : Call cfg s ls t total) : s.poll = .idle := by
  cases h
  assumption

theorem pollEvents_cons (h : s.step cfg l = some t) : s.pollEvents cfg (l :: ls) =
    (if l.isPoll then (t.log.drop s.log.length).map (s.poll.isTransfer, ·) else []) ++
      t.pollEvents cfg ls := by
  simp only [pollEvents, h]

theorem pollEvents_poll (h : s.step cfg (.poll a) = some t) (hlog : t.log = s.log ++ es) :
    s.pollEvents cfg (.poll a :: ls) =
      es.map (s.poll.isTransfer, ·) ++ t.pollEvents cfg ls := by
  rw [pollEvents_cons h, hlog, List.drop_left]
  rfl

theorem pollEvents_other (h : s.step cfg l = some t) (hl : l.isPoll = false) :
    s.pollEvents cfg (l :: ls) = t.pollEvents cfg ls := by
  rw [pollEvents_cons h, hl]
  rfl

theorem deliveries_poll (h : s.step cfg (.poll a) = some t) (hlog : t.log = s.log ++ es) :
    s.deliveries cfg (.poll a :: ls) = es.filterMap Event.delivered ++ t.deliveries cfg ls := by
  simp [deliveries, pollEvents_poll h hlog, List.filterMap_map]

theorem issuances_poll (h : s.step cfg (.poll a) = some t) (hlog : t.log = s.log ++ es) :
    s.issuances cfg (.poll a :: ls) = es.filterMap Event.issuance ++ t.issuances cfg ls := by
  simp [issuances, pollEvents_poll h hlog, List.filterMap_map]

theorem immediates_poll (h : s.step cfg (.poll a) = some t) (hlog : t.log = s.log ++ es) :
    s.immediates cfg (.poll a :: ls) =
      (if s.poll.isTransfer then es.filter Event.completes else []) ++ t.immediates cfg ls := by
  simp only [immediates, pollEvents_poll h hlog, List.filter_append, List.map_append]
  cases s.poll.isTransfer <;> simp [List.filter_map, Function.comp_def]

theorem deliveries_other (h : s.step cfg l = some t) (hl : l.isPoll = false) :
    s.deliveries cfg (l :: ls) = t.deliveries cfg ls := by
  simp only [deliveries, pollEvents_other h hl]

theorem issuances_other (h : s.step cfg l = some t) (hl : l.isPoll = false) :
    s.issuances cfg (l :: ls) = t.issuances cfg ls := by
  simp only [issuances, pollEvents_other h hl]

theorem immediates_other (h : s.step cfg l = some t) (hl : l.isPoll = false) :
    s.immediates cfg (l :: ls) = t.immediates cfg ls := by
  simp only [immediates, pollEvents_other h hl]

theorem Within.failure {P : Poll → Prop} (h : Within cfg P s ls t) (ht : t.failure = none) :
    s.failure = none := by
  cases h with
  | refl => exact ht
  | head _ h => exact failure_of_step h

theorem Within.append {P : Poll → Prop} (h : Within cfg P s ls t) (h' : Within cfg P t ls' u) :
    Within cfg P s (ls ++ ls') u := by
  induction h with
  | refl => exact h'
  | head hp h _ ih => exact .head hp h (ih h')

theorem Within.pollEvents_append {P : Poll → Prop} (h : Within cfg P s ls t) :
    s.pollEvents cfg (ls ++ ls') = s.pollEvents cfg ls ++ t.pollEvents cfg ls' := by
  induction h with
  | refl => rfl
  | head _ h _ ih => rw [List.cons_append, pollEvents_cons h, pollEvents_cons h, ih,
      List.append_assoc]

theorem Within.deliveries_append {P : Poll → Prop} (h : Within cfg P s ls t) :
    s.deliveries cfg (ls ++ ls') = s.deliveries cfg ls ++ t.deliveries cfg ls' := by
  rw [deliveries, h.pollEvents_append, List.filterMap_append]
  rfl

theorem Within.issuances_append {P : Poll → Prop} (h : Within cfg P s ls t) :
    s.issuances cfg (ls ++ ls') = s.issuances cfg ls ++ t.issuances cfg ls' := by
  rw [issuances, h.pollEvents_append, List.filterMap_append]
  rfl

/-! ## The first and the last step -/

theorem enter_eq (hp : s.poll = .idle) (h : s.step cfg (.poll a) = some t) :
    t = { s with poll := .top 0 } := by
  have h := step_poll h
  simp only [pollStep, hp, Option.some.injEq] at h
  exact h.symm

/-- The last step of a call evaluates the capacity. -/
theorem evaluate_eq (hp : s.poll = .evaluate total) (h : s.step cfg (.poll a) = some t) :
    ∃ c, t = { s with manager := { s.manager with capacityCtrl := c }, poll := .idle } := by
  have h := step_poll h
  simp only [pollStep, hp] at h
  split at h <;> cases h
  exact ⟨_, rfl⟩

/-- They append nothing to the history. -/
theorem pollEvents_call (hs : s.poll = .idle) (h₁ : s.step cfg (.poll a) = some s₁)
    (hin : s₁.Inside cfg ls t₁) (ht₁ : t₁.poll = .evaluate total)
    (h₂ : t₁.step cfg (.poll b) = some t) :
    s.pollEvents cfg (.poll a :: ls ++ [.poll b]) = s₁.pollEvents cfg ls := by
  have hlog₁ : s₁.log = s.log ++ [] := by rw [enter_eq hs h₁, List.append_nil]
  have hlog₂ : t.log = t₁.log ++ [] := by
    obtain ⟨c, rfl⟩ := evaluate_eq ht₁ h₂
    rw [List.append_nil]
  have hlast : t₁.pollEvents cfg [.poll b] = [] := by
    rw [pollEvents_poll h₂ hlog₂]
    rfl
  rw [List.cons_append, pollEvents_poll h₁ hlog₁, hin.pollEvents_append, hlast, List.append_nil]
  rfl

end Sys

/-! ## The history along a run -/

theorem Life.Move.log_extends {L L' : Life} (M : L.Move k L') : L.log <+: L'.log := by
  cases M with
  | take | complete => exact List.prefix_refl _
  | _ => exact List.prefix_append ..

theorem Life.Steps.log_extends {L L' : Life} (h : L.Steps L') : L.log <+: L'.log := by
  obtain ⟨ks, hks, -⟩ := h
  induction hks with
  | refl => exact List.prefix_refl _
  | tail _ M ih => exact ih.trans (Life.Move.log_extends M)

namespace Sys
variable {cfg : Config} {s t : Sys}

theorem log_extends (hs : (system cfg).Reachable s) (h : (system cfg).step s l t)
    (hf : t.failure = none) : s.log <+: t.log := by
  have hsf := failure_of_step h.2
  obtain ⟨I, HL⟩ := Inv.of_reachable hs hsf
  by_cases hsub : l.submits
  · obtain ⟨op, -, -, M⟩ := submit_sim I hsf hsub h.2
    exact M.log_extends
  · have hsub := Bool.eq_false_of_not_eq_true hsub
    rcases step_sim I HL hsf h.1 hsub h.2 with ⟨-, -, hsteps⟩ | ⟨hf', -⟩
    · exact hsteps.log_extends
    · cases hf'.symm.trans hf

theorem Within.reachable {P : Poll → Prop} (hs : (system cfg).Reachable s)
    (h : Within cfg P s ls t) (hasc : ∀ l ∈ ls, l.Ascending) : (system cfg).Reachable t := by
  induction h with
  | refl => exact hs
  | head _ h _ ih =>
    have hstep : (system cfg).step _ _ _ := ⟨hasc _ (by simp), h⟩
    exact ih (hs.step hstep) fun l hl => hasc l (by simp [hl])

theorem Within.log_extends {P : Poll → Prop} (hs : (system cfg).Reachable s)
    (h : Within cfg P s ls t) (hasc : ∀ l ∈ ls, l.Ascending) (hf : t.failure = none) :
    s.log <+: t.log := by
  induction h with
  | refl => exact List.prefix_refl _
  | head _ h hrun ih =>
    have hstep : (system cfg).step _ _ _ := ⟨hasc _ (by simp), h⟩
    exact (Sys.log_extends hs hstep (hrun.failure hf)).trans
      (ih (hs.step hstep) (fun l hl => hasc l (by simp [hl])) hf)

/-- A run that starts and ends with the same pushes has no other ones. -/
theorem pushes_of_extends {u : Sys} (h₁ : s.log <+: t.log) (h₂ : t.log <+: u.log)
    (h : pushes u.log = pushes s.log) :
    pushes t.log = pushes s.log ∧ pushes u.log = pushes t.log := by
  have hp : pushes s.log <+: pushes t.log := h₁.filterMap _
  have hp' : pushes t.log <+: pushes u.log := h₂.filterMap _
  have hlen := congrArg List.length h
  have : pushes s.log = pushes t.log :=
    hp.eq_of_length (Nat.le_antisymm hp.length_le (hlen ▸ hp'.length_le))
  exact ⟨this.symm, h.trans this⟩

/-! ## Running a call -/

/-- A step with the polling task at a point in `P`. -/
def withinStep (cfg : Config) (P : Poll → Bool) (s : Sys) (l : Label) : Option Sys :=
  if P s.poll then s.step cfg l else none

theorem Within.of_run {P : Poll → Bool}
    (h : Transition.System.run (withinStep cfg P) s ls = some t) (ht : P t.poll) :
    Within cfg (P ·) s ls t := by
  induction ls generalizing s with
  | nil =>
    cases h
    exact .refl ht
  | cons l ls ih =>
    obtain ⟨u, hu, h⟩ := Option.bind_eq_some_iff.mp h
    unfold withinStep at hu
    split at hu
    · exact .head ‹_› hu (ih h)
    · cases hu

theorem Within.mono {P Q : Poll → Prop} (hPQ : ∀ p, P p → Q p) (h : Within cfg P s ls t) :
    Within cfg Q s ls t := by
  induction h with
  | refl h => exact .refl (hPQ _ h)
  | head hp hstep _ ih => exact .head (hPQ _ hp) hstep ih

/-- Run a call of `checkRequests` whose first and last steps have the answers `a` and `b`. -/
def callRun (cfg : Config) (s : Sys) (a : Answer) (ls : List Label) (b : Answer) :
    Option (Sys × Nat) :=
  match s.poll with
  | .idle =>
    ((s.step cfg (.poll a)).bind fun s =>
      Transition.System.run (withinStep cfg (!·.isIdle)) s ls).bind fun t =>
      match t.poll with
      | .evaluate total => (t.step cfg (.poll b)).map fun t => (t, total)
      | _ => none
  | _ => none

theorem Call.of_callRun (h : s.callRun cfg a ls b = some (t, total)) :
    Call cfg s (.poll a :: ls ++ [.poll b]) t total := by
  unfold callRun at h
  split at h
  · rename_i hs
    obtain ⟨t₁, h₁, h⟩ := Option.bind_eq_some_iff.mp h
    obtain ⟨s₁, hs₁, h₁⟩ := Option.bind_eq_some_iff.mp h₁
    split at h
    · rename_i hp
      obtain ⟨t', ht', heq⟩ := Option.map_eq_some_iff.mp h
      cases heq
      have hinside := Within.of_run h₁ (by rw [hp]; rfl)
      refine .intro hs hs₁ (hinside.mono fun p hne => ?_) hp ht'
      rintro rfl
      cases hne
    · cases h
  · cases h

end Sys

/-- A call that takes the receive and the barrier of `demoRun` from the pre-queues. The receive
stays in flight; `barrier` is how the call goes on from the issue of the barrier, up to the last
round, which finds nothing. -/
def demoCall (barrier : List Label) : List Label := List.flatten [
  List.replicate 11 (.poll .silent),
  [.poll (.issued (some 7)), .poll .silent, .poll (.some [])], List.replicate 7 (.poll .silent),
  barrier, List.replicate 7 (.poll .silent)]

/-- The barrier is issued, and both requests complete before the check. -/
def activeBarrier : List Label := List.flatten [
  [.poll (.issued (some 8)), .poll .silent, .poll (.some [])], List.replicate 12 (.poll .silent),
  [.mpi 7 ⟨1, 2, 0⟩, .mpi 8 ⟨1, 2, 0⟩, .poll (.some [0, 1])], List.replicate 7 (.poll .silent)]

/-- The barrier completes when it is issued, the receive before the check. -/
def nullBarrier : List Label := List.flatten [
  [.poll (.issued none)], List.replicate 13 (.poll .silent),
  [.mpi 7 ⟨1, 2, 0⟩, .poll (.some [0])], List.replicate 5 (.poll .silent)]

theorem demo_call (ls : List Label) (f : Sys → Sys → α) (n : Nat) (a : α)
    (h : ((Transition.System.run (Sys.step demoConfig) (.cleared demoConfig)
      (demoRun.take 10)).bind fun s => (s.callRun demoConfig .silent ls (.now 0)).map fun p =>
        (p.2, f s p.1)) = some (n, a)) :
    ∃ s t, (system demoConfig).Reachable s ∧
      s.Call demoConfig (.poll .silent :: ls ++ [.poll (.now 0)]) t n ∧ f s t = a := by
  obtain ⟨s, hs, h⟩ := Option.bind_eq_some_iff.mp h
  obtain ⟨⟨t, _⟩, ht, heq⟩ := Option.map_eq_some_iff.mp h
  obtain ⟨rfl, hf⟩ := Prod.mk.inj heq
  exact ⟨s, t, reachable_of_run (demoRun_ascending 10) hs, .of_callRun ht, hf⟩

end Tampi
