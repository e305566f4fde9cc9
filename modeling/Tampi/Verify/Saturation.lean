import Mathlib.Algebra.Order.Archimedean.Basic
import Tampi.Verify.Capacity
import Tampi.Verify.Delivery
import Tampi.Verify.Drain

/-! # The limit on requests in flight holds no operation up

An operation may have to be issued before the requests in flight can complete, so a limit on their
number can deadlock a program. Here nothing is assumed of MPI: no request need ever complete. If the
polling task goes on and time passes, every submitted operation is issued, or the library has the
configured maximum of requests in flight (`admitted_or_saturated`). The minimum capacity must not be
zero: a capacity of zero never grows, and nothing is issued with it. -/

namespace Tampi
open Filter (atTop)

/-- What a stretch of the history without milestones and hand-overs consists of. -/
theorem silent_of_still {es : List Event} (h : Still log (log ++ es))
    (ht : transfers (log ++ es) = transfers log) :
    es.filterMap Event.delivered = [] ∧ es.countP Event.completes = 0 := by
  have hm := List.filterMap_eq_nil_iff.mp (Transition.select_eq_nil h)
  have ht := List.filterMap_eq_nil_iff.mp (Transition.select_eq_nil ht)
  constructor
  · refine List.filterMap_eq_nil_iff.mpr fun e he => ?_
    cases e with
    | notify => cases hm _ he
    | transfer => cases ht _ he
    | _ => rfl
  · refine List.countP_eq_zero.mpr fun e he => ?_
    cases e with
    | issue | report => cases hm _ he
    | _ => exact Bool.false_ne_true

namespace CapacityCtrl
variable {c : Nat → CapacityCtrl}

/-- A saturated evaluation at the time of `e`. -/
def Fills (c c' : CapacityCtrl) (e : Evaluation) : Prop :=
  Saturated c.capacity e ∧ c' = c.evaluate e.pending e.completed e.now

/-- While the capacity cannot grow, an evaluation sets the flag, and keeps its time if it was set. -/
theorem Fills.stays {c c' : CapacityCtrl} (h : c.Fills c' e) (hpos : 0 < c.capacity)
    (hmax : c.capacity ≠ c.capacityMax) (hsame : c'.capacity = c.capacity) :
    c'.saturation = true ∧ (c.saturation = true →
      e.now - c.saturationBegin ≤ c.timeout ∧ c'.saturationBegin = c.saturationBegin) := by
  obtain ⟨he, rfl⟩ := h
  have hlt := Nat.lt_of_le_of_ne c.le_max hmax
  rcases evaluate_of_saturated hlt he with ⟨-, hflag, hbegin⟩ | ⟨-, -, -, hdouble⟩
  · refine ⟨hflag, fun hset => ?_⟩
    rcases hbegin with ⟨hno, -⟩ | ⟨-, hle, hbegin⟩
    · cases hset.symm.trans hno
    · exact ⟨hle, hbegin⟩
  · omega

/-- If all evaluations are saturated and their times exceed every bound, the capacity gets to its
maximum. The clock need not be monotone. -/
theorem exists_max (hpos : 0 < (c j).capacity)
    (hstep : ∀ n ≥ j, c (n + 1) = c n ∨ ∃ e, (c n).Fills (c (n + 1)) e)
    (htime : ∀ (T : Rat) (k : Nat), ∃ n ≥ k, ∃ e, T < e.now ∧ (c n).Fills (c (n + 1)) e) :
    ∃ n ≥ j, (c n).capacity = (c n).capacityMax := by
  by_contra hno
  push Not at hno
  have hfix (n : Nat) (hn : n ≥ j) : (c n).capacity ≤ (c (n + 1)).capacity ∧
      (c (n + 1)).capacityMax = (c n).capacityMax ∧ (c (n + 1)).timeout = (c n).timeout := by
    rcases hstep n hn with heq | ⟨e, -, heq⟩
    · rw [heq]
      exact ⟨Nat.le_refl _, rfl, rfl⟩
    · rw [heq]
      exact ⟨le_evaluate .., evaluate_capacityMax, evaluate_timeout⟩
  have hmono : ∀ n ≥ j, (c j).capacity ≤ (c n).capacity :=
    Transition.always_from (Nat.le_refl _) fun n hn ih => ih.trans (hfix n hn).1
  have hmax : ∀ n ≥ j, (c n).capacityMax = (c j).capacityMax :=
    Transition.always_from rfl fun n hn ih => (hfix n hn).2.1.trans ih
  -- from some time on the capacity does not grow any more
  obtain ⟨k, hk⟩ := Transition.eventually_eq_of_le (f := fun n => (c (n + j)).capacity)
    (fun n => by
      rw [Nat.add_right_comm]
      exact (hfix (n + j) (Nat.le_add_left j n)).1)
    fun n => (c (n + j)).le_max.trans_eq (hmax (n + j) (Nat.le_add_left j n))
  have hsame (n : Nat) (hn : n ≥ k + j) : (c (n + 1)).capacity = (c n).capacity := by
    obtain ⟨d, rfl⟩ := Nat.exists_eq_add_of_le' ((Nat.le_add_left j k).trans hn)
    have := hk d (by omega)
    rwa [Nat.add_right_comm] at this
  have hstays (n : Nat) (hn : n ≥ k + j) {e : Evaluation} (h : (c n).Fills (c (n + 1)) e) :=
    have hj : n ≥ j := (Nat.le_add_left j k).trans hn
    h.stays (hpos.trans_le (hmono n hj)) (hno n hj) (hsame n hn)
  -- the flag is set at the next evaluation, and stays set with its time
  obtain ⟨m, hm, e, -, hfills⟩ := htime 0 (k + j)
  have hflag : ∀ n ≥ m + 1, (c n).saturation = true ∧
      (c n).saturationBegin = (c (m + 1)).saturationBegin ∧ (c n).timeout = (c (m + 1)).timeout := by
    refine Transition.always_from ⟨(hstays m hm hfills).1, rfl, rfl⟩ fun n hn ih => ?_
    have hnk : n ≥ k + j := hm.trans (Nat.le_of_succ_le hn)
    rcases hstep n ((Nat.le_add_left j k).trans hnk) with heq | ⟨e, hfills⟩
    · rwa [heq]
    · obtain ⟨hset, hbegin⟩ := hstays n hnk hfills
      exact ⟨hset, (hbegin ih.1).2.trans ih.2.1,
        (hfix n ((Nat.le_add_left j k).trans hnk)).2.2.trans ih.2.2⟩
  -- so the epoch expires
  obtain ⟨n, hn, e, hlate, hfills⟩ :=
    htime ((c (m + 1)).saturationBegin + (c (m + 1)).timeout) (m + 1)
  obtain ⟨hset, hbegin, htimeout⟩ := hflag n hn
  have hle := ((hstays n (hm.trans (Nat.le_of_succ_le hn)) hfills).2 hset).1
  rw [hbegin, htimeout] at hle
  linarith

end CapacityCtrl

namespace Sys
variable {cfg : Config} {σ : Nat → Sys} {l : Nat → Label}

/-- There are no milestones and no hand-overs any more. -/
structure Stalled (σ : Nat → Sys) : Prop where
  still : ∀ n, Still (σ n).log (σ (n + 1)).log
  transfers : ∀ n, transfers (σ (n + 1)).log = transfers (σ n).log

theorem exists_stalled (E : (system cfg).Execution σ l) (h : ∀ n ≥ k, (l n).submits = false) :
    ∃ m, Stalled fun n => σ (n + m) := by
  obtain ⟨m, -, hstill⟩ := exists_still E h
  have hbinds : ∀ n ≥ m, binds (σ n).log = binds (σ m).log :=
    Transition.always_from rfl fun n hn ih => (hstill n hn).binds.trans ih
  have E' := E.drop m
  obtain ⟨j, hj⟩ := exists_select_eq E' Event.transferred? (b := (binds (σ m).log).length)
    fun n => by
      obtain ⟨-, HL⟩ := Inv.of_reachable (E'.reachable n) (failure_of_execution E' n)
      have D := delivery_of_reachable (E'.reachable n) (failure_of_execution E' n)
      have hle := Multiset.card_le_card (D.le_issues HL)
      rw [Multiset.coe_card, Multiset.coe_card, List.length_map] at hle
      rw [← hbinds (n + m) (Nat.le_add_left m n)]
      exact hle.trans HL.length_issues_le
  refine ⟨j + m, fun n => ?_, fun n => ?_⟩
  · rw [Nat.add_right_comm]
    exact hstill (n + (j + m)) (by omega)
  · have := hj (n + j) (Nat.le_add_left j n)
    rw [Nat.add_right_comm, Nat.add_assoc n j m] at this
    rwa [Nat.add_right_comm]

section
variable (E : (system cfg).Execution σ l) (S : Stalled σ)
include E S

/-- A call that starts then counts no completions. -/
theorem account_from (hj : (σ j).poll = .idle) : ∀ n ≥ j, Account cfg 0 0 (σ n).poll := by
  refine Transition.always_from (by rw [hj]; trivial) fun n hn A => ?_
  have hstep := (E.step n).2
  have hf := failure_of_execution E (n + 1)
  cases hl : l n with
  | poll a =>
    rw [hl] at hstep
    by_cases hp : (σ n).poll = .idle
    · rw [enter_eq hp hstep]
      rfl
    · obtain ⟨es, hlog, A'⟩ := account_of_move (pollMove_of_step hstep hf) hp A
      have hstill := S.still n
      have htransfers := S.transfers n
      rw [hlog] at hstill htransfers
      obtain ⟨hdelivered, hcompletes⟩ := silent_of_still hstill htransfers
      simpa [hdelivered, hcompletes] using A'
  | process | cpu | resume | completion | mpi =>
    rw [hl] at hstep
    rw [(step_manager hstep rfl).2]
    exact A

/-- If every call finds the arrays full, the capacity gets to its maximum as time goes by. -/
theorem exists_capacityMax (hpoll : ∀ n, ∃ m ≥ n, (l m).isPoll)
    (hclock : ∀ T : Rat, ∃ k, ∀ n ≥ k, ∀ ms, l n = .poll (.now ms) → T < ms)
    (hcap : 0 < cfg.capacityCtrl.capacityMin)
    (hfull : ∀ n ≥ j, ∀ total, (σ n).poll = .evaluate total → total = 0 ∧
      (σ n).manager.pending = (σ n).manager.capacityCtrl.capacity) :
    ∃ n ≥ j, (σ n).manager.capacityCtrl.capacity = cfg.capacityCtrl.capacityMax := by
  have hfix {f : CapacityCtrl → Nat}
      (hkeep : ∀ c pending completed now, f (c.evaluate pending completed now) = f c) (n : Nat) :
      f (σ n).manager.capacityCtrl = f cfg.capacityCtrl :=
    capacityCtrl_of_reachable hkeep (E.reachable n) (failure_of_execution E n)
  have hpos : 0 < (σ j).manager.capacityCtrl.capacity :=
    capacity_pos (E.reachable j) (failure_of_execution E j) hcap
  obtain ⟨n, hn, hmax⟩ := CapacityCtrl.exists_max (c := fun n => (σ n).manager.capacityCtrl) hpos
    (fun n hn => by
      rcases capacityCtrl_of_step (E.step n).2 (failure_of_execution E (n + 1)) with
        heq | ⟨total, ms, hp, -, heq⟩
      · exact .inl heq
      · obtain ⟨hzero, hpending⟩ := hfull n hn total hp
        exact .inr ⟨⟨_, total, ms⟩, ⟨hpending, hzero⟩, heq⟩)
    fun T k => by
      obtain ⟨d, hd⟩ := hclock T
      obtain ⟨n, hn, total, ms, hp, hl⟩ := Sys.exists_evaluate E hpoll (k := max j (max d k))
        fun n _ => (S.still n).pushes
      obtain ⟨hzero, hpending⟩ := hfull n ((Nat.le_max_left ..).trans hn) total hp
      have hdn : n ≥ max d k := (Nat.le_max_right ..).trans hn
      exact ⟨n, (Nat.le_max_right ..).trans hdn, ⟨_, total, ms⟩,
        hd n ((Nat.le_max_left ..).trans hdn) ms hl, ⟨hpending, hzero⟩,
        capacityCtrl_of_evaluate hp (hl ▸ (E.step n).2)⟩
  exact ⟨n, hn, hmax.trans (hfix (fun _ _ _ _ => CapacityCtrl.evaluate_capacityMax) n)⟩

end

end Sys
end Tampi
