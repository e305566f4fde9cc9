import Mathlib.Order.Filter.AtTopBot.Basic
import Tampi.Theory.Transition

/-! # Infinite runs and weak fairness

`Execution` is an infinite run from a reachable state. What holds from some time on, or again and
again, is stated with `Filter.atTop`. `WeaklyFair.exists_disabled` is the progress rule: a fair
action each of whose steps lowers a rank that no other step raises is disabled at some later time. -/

namespace Transition

/-! ## Sequences -/

/-- What an invariant step keeps from time `k` on. -/
theorem always_from {P : Nat → Prop} (h : P k) (hstep : ∀ n ≥ k, P n → P (n + 1)) :
    ∀ n ≥ k, P n := by
  intro n hn
  induction n, hn using Nat.le_induction with
  | base => exact h
  | succ n hn ih => exact hstep n hn ih

/-- From time `k` on no step raises `f`, and the steps that lower it come to an end. -/
theorem eventually_not_of_lt {α : Type*} [Preorder α] [WellFoundedLT α] {f : Nat → α}
    {P : Nat → Prop} (hle : ∀ n ≥ k, f (n + 1) ≤ f n) (hlt : ∀ n ≥ k, P n → f (n + 1) < f n) :
    ∃ m ≥ k, ∀ n ≥ m, ¬ P n := by
  obtain ⟨m, hm⟩ := System.exists_not_of_lt (f := fun n => f (n + k)) (P := fun n => P (n + k))
    (fun n => by
      rw [Nat.add_right_comm]
      exact hle _ (Nat.le_add_left k n)) fun n hn => by
      rw [Nat.add_right_comm]
      exact hlt _ (Nat.le_add_left k n) hn
  refine ⟨m + k, Nat.le_add_left k m, fun n hn hP => ?_⟩
  obtain ⟨d, rfl⟩ := Nat.exists_eq_add_of_le' (Nat.le_trans (Nat.le_add_left k m) hn)
  exact hm d (by omega) hP

/-- `a`, and then the sequence `f`. -/
def prepend (a : α) (f : Nat → α) : Nat → α
  | 0 => a
  | n + 1 => f n

@[simp] theorem prepend_succ (f : Nat → α) : prepend a f (n + 1) = f n := rfl

/-- A property that fails at one time and holds at a later one starts to hold in between. -/
theorem exists_switch {P : Nat → Prop} (hk : ¬ P k) (hkm : k ≤ m) (hm : P m) :
    ∃ n ≥ k, ¬ P n ∧ P (n + 1) := by
  by_contra hno
  push Not at hno
  exact always_from (P := fun n => ¬ P n) hk hno m hkm hm

/-- A sequence that only grows and is bounded stops growing. -/
theorem eventually_eq_of_le {f : Nat → Nat} (hle : ∀ n, f n ≤ f (n + 1)) (hb : ∀ n, f n ≤ b) :
    ∃ k, ∀ n ≥ k, f (n + 1) = f n := by
  obtain ⟨k, hk⟩ := System.exists_not_of_lt (f := fun n => b - f n)
    (P := fun n => f n < f (n + 1)) (fun n => Nat.sub_le_sub_left (hle n) b) fun n hlt => by
      have := hb (n + 1)
      omega
  exact ⟨k, fun n hn => Nat.le_antisymm (Nat.le_of_not_lt (hk n hn)) (hle n)⟩

/-- A counter that moves on as long as it is at most `b` passes `b`. -/
theorem exists_lt_of_progress {f : Nat → Nat} (h : ∀ n ≥ k, f n ≤ b → ∃ m ≥ n, f n < f m) :
    ∃ n ≥ k, b < f n := by
  suffices H : ∀ d n, n ≥ k → b < f n + d → ∃ m ≥ k, b < f m from
    H (b + 1) k (Nat.le_refl k) (by omega)
  intro d
  induction d with
  | zero => exact fun n hn hb => ⟨n, hn, hb⟩
  | succ d ih =>
    intro n hn hb
    rcases Nat.lt_or_ge b (f n) with hlt | hle
    · exact ⟨n, hn, hlt⟩
    · obtain ⟨m, hm, hlt⟩ := h n hn hle
      exact ih m (Nat.le_trans hn hm) (by omega)

namespace System
open Filter

variable {M : System σ ℓ} {s : Nat → σ} {l : Nat → ℓ} {P : ℓ → Prop}

/-! ## Executions -/

/-- An infinite run from a reachable state. -/
structure Execution (M : System σ ℓ) (s : Nat → σ) (l : Nat → ℓ) : Prop where
  start : M.Reachable (s 0)
  step : ∀ n, M.step (s n) (l n) (s (n + 1))

theorem Execution.reachable (E : M.Execution s l) (n : Nat) : M.Reachable (s n) := by
  induction n with
  | zero => exact E.start
  | succ n ih => exact ih.step (E.step n)

theorem Execution.drop (E : M.Execution s l) (k : Nat) :
    M.Execution (fun n => s (n + k)) (fun n => l (n + k)) where
  start := E.reachable (0 + k)
  step n := by
    rw [Nat.add_right_comm]
    exact E.step (n + k)

/-- A run that can always go on within `I`, with the label `f n` at time `n`, goes on for ever. -/
theorem exists_execution {I : σ → Prop} {f : Nat → ℓ} (h : M.Reachable t) (ht : I t)
    (hstep : ∀ n t, M.Reachable t → I t → ∃ u, M.step t (f n) u ∧ I u) :
    ∃ s, M.Execution s f ∧ s 0 = t ∧ ∀ n, I (s n) := by
  have hnext (n : Nat) (t : {t // M.Reachable t ∧ I t}) :
      ∃ u : {t // M.Reachable t ∧ I t}, M.step t.1 (f n) u.1 := by
    obtain ⟨t, hr, ht⟩ := t
    obtain ⟨u, hs, hu⟩ := hstep n t hr ht
    exact ⟨⟨u, hr.step hs, hu⟩, hs⟩
  choose next hs using hnext
  let state (n : Nat) : {t // M.Reachable t ∧ I t} := n.rec ⟨t, h, ht⟩ next
  exact ⟨fun n => (state n).1, ⟨h, fun n => hs n (state n)⟩, rfl, fun n => (state n).2.2⟩

/-- A step before an execution. -/
theorem Execution.cons (E : M.Execution s l) (h : M.Reachable t) (hs : M.step t k (s 0)) :
    M.Execution (prepend t s) (prepend k l) where
  start := h
  step n := by
    cases n with
    | zero => exact hs
    | succ n => exact E.step n

/-- A run, and then an execution from where it ends. -/
theorem Execution.of_run (E : M.Execution s l) {f : σ → ℓ → Option σ}
    (hf : ∀ t k u, f t k = some u → M.step t k u) (h : M.Reachable t)
    (hr : run f t ks = some (s 0)) :
    ∃ s' l', M.Execution s' l' ∧ s' 0 = t ∧ (∀ n, s' (n + ks.length) = s n) ∧
      ∀ n, l' (n + ks.length) = l n := by
  induction ks generalizing t with
  | nil =>
    cases hr
    exact ⟨s, l, E, rfl, fun _ => rfl, fun _ => rfl⟩
  | cons k ks ih =>
    obtain ⟨u, hu, hr⟩ := Option.bind_eq_some_iff.mp hr
    have hs := hf _ _ _ hu
    obtain ⟨s', l', E', rfl, hs', hl'⟩ := ih (h.step hs) hr
    exact ⟨_, _, E'.cons h hs, rfl, hs', hl'⟩

theorem run_append {f : σ → ℓ → Option σ} (t : σ) (ks ks' : List ℓ) :
    run f t (ks ++ ks') = (run f t ks).bind fun u => run f u ks' := by
  induction ks generalizing t with
  | nil => rfl
  | cons k ks ih =>
    rw [List.cons_append, run, run]
    cases f t k with
    | none => rfl
    | some u => exact ih u

/-- A run that comes back to where it started can be repeated for ever. -/
theorem exists_loop {f : σ → ℓ → Option σ} (hf : ∀ t k u, f t k = some u → M.step t k u)
    (h : M.Reachable t) (hks : 0 < ks.length) (hr : run f t ks = some t) :
    ∃ s l, M.Execution s l ∧ s 0 = t ∧ (∀ n, ks[n % ks.length]? = some (l n)) ∧
      ∀ n, run f t (ks.take (n % ks.length)) = some (s n) := by
  have hlt (n : Nat) : n % ks.length < ks.length := Nat.mod_lt n hks
  have hrun (n : Nat) : ∃ u, run f t (ks.take (n % ks.length)) = some u := by
    have hr' := hr
    rw [← List.take_append_drop (n % ks.length) ks, run_append] at hr'
    obtain ⟨u, hu, -⟩ := Option.bind_eq_some_iff.mp hr'
    exact ⟨u, hu⟩
  choose s hs using hrun
  have h0 : s 0 = t := by
    have := hs 0
    rw [Nat.zero_mod] at this
    exact (Option.some.inj this).symm
  refine ⟨s, fun n => ks.get ⟨n % ks.length, hlt n⟩, ⟨h0 ▸ h, fun n => hf _ _ _ ?_⟩, h0,
    fun n => List.getElem?_eq_getElem (hlt n), hs⟩
  have htake : run f t (ks.take (n % ks.length + 1)) = some (s (n + 1)) := by
    rw [← hs (n + 1), ← Nat.mod_add_mod n]
    by_cases hend : n % ks.length + 1 = ks.length
    · rw [hend, Nat.mod_self, List.take_length]
      exact hr
    · rw [Nat.mod_eq_of_lt (Nat.lt_of_le_of_ne (hlt n) hend)]
  rw [List.take_succ_eq_append_getElem (hlt n), run_append, hs n] at htake
  have hn := hlt n
  have htake : (f (s n) ks[n % ks.length]).bind (fun u => run f u []) = some (s (n + 1)) := htake
  obtain ⟨u, hu, hnil⟩ := Option.bind_eq_some_iff.mp htake
  exact hu.trans hnil

/-! ## A system beside others -/

/-- With `none` somebody else moves. -/
def beside (M : System σ ℓ) : System σ (Option ℓ) where
  init := M.init
  step s k t :=
    match k with
    | none => t = s
    | some k => M.step s k t

theorem Reachable.of_beside (h : M.beside.Reachable t) : M.Reachable t := by
  obtain ⟨s₀, ks, h₀, hr⟩ := h
  induction hr with
  | refl => exact .of_init h₀
  | @tail ks t k u _ hs ih =>
    cases k with
    | none =>
      cases hs
      exact ih
    | some k => exact ih.step hs

theorem Reachable.beside (h : M.Reachable t) : M.beside.Reachable t := by
  obtain ⟨s₀, ks, h₀, hr⟩ := h
  induction hr with
  | refl => exact .of_init h₀
  | @tail ks t k u _ hs ih => exact ih.step (l := some k) hs

/-- Where nobody moves any more. -/
theorem Execution.rest (h : M.beside.Reachable t) :
    M.beside.Execution (fun _ => t) (fun _ => none) where
  start := h
  step _ := rfl

/-! ## Fairness -/

/-- Some step with a label in `P` is possible. -/
def Enabled (M : System σ ℓ) (P : ℓ → Prop) (t : σ) : Prop := ∃ k u, P k ∧ M.step t k u

/-- An action that stays enabled is taken again and again. -/
def WeaklyFair (M : System σ ℓ) (P : ℓ → Prop) (s : Nat → σ) (l : Nat → ℓ) : Prop :=
  (∀ᶠ n in atTop, M.Enabled P (s n)) → ∃ᶠ n in atTop, P (l n)

theorem WeaklyFair.frequently (F : M.WeaklyFair P s l) (h : ∀ n, M.Enabled P (s n)) (n : Nat) :
    ∃ m ≥ n, P (l m) :=
  frequently_atTop.mp (F (Eventually.of_forall h)) n

/-- The progress rule. -/
theorem WeaklyFair.exists_disabled {α : Type*} [Preorder α] [WellFoundedLT α] {μ : σ → α}
    (F : M.WeaklyFair P s l) (hle : ∀ n ≥ k, μ (s (n + 1)) ≤ μ (s n))
    (hlt : ∀ n ≥ k, P (l n) → μ (s (n + 1)) < μ (s n)) :
    ∃ n ≥ k, ¬ M.Enabled P (s n) := by
  by_contra hno
  push Not at hno
  have hfair : ∃ᶠ n in atTop, P (l n) := F (eventually_atTop.mpr ⟨k, hno⟩)
  obtain ⟨m, -, hm⟩ := eventually_not_of_lt (f := fun n => μ (s n)) (P := fun n => P (l n)) hle hlt
  obtain ⟨n, hn, hP⟩ := frequently_atTop.mp hfair m
  exact hm n hn hP

/-- A fair action whose steps are excluded is disabled at some later time. -/
theorem WeaklyFair.exists_disabled_of_not (F : M.WeaklyFair P s l) (h : ∀ n ≥ k, ¬ P (l n)) :
    ∃ n ≥ k, ¬ M.Enabled P (s n) :=
  F.exists_disabled (μ := fun _ => 0) (fun _ _ => Nat.le_refl _) fun n hn hP => absurd hP (h n hn)

theorem WeaklyFair.drop (F : M.WeaklyFair P s l) (k : Nat) :
    M.WeaklyFair P (fun n => s (n + k)) (fun n => l (n + k)) := by
  intro h
  obtain ⟨m, hm⟩ := eventually_atTop.mp h
  have hfair := F (eventually_atTop.mpr ⟨m + k, fun n hn => by
    obtain ⟨d, rfl⟩ := Nat.exists_eq_add_of_le' (Nat.le_trans (Nat.le_add_left k m) hn)
    exact hm d (by omega)⟩)
  refine frequently_atTop.mpr fun n => ?_
  obtain ⟨j, hj, hP⟩ := frequently_atTop.mp hfair (n + k)
  obtain ⟨d, rfl⟩ := Nat.exists_eq_add_of_le' (Nat.le_trans (Nat.le_add_left k n) hj)
  exact ⟨d, by omega, hP⟩

/-- Fairness does not depend on a first step. -/
theorem WeaklyFair.cons (F : M.WeaklyFair P s l) :
    M.WeaklyFair P (prepend t s) (prepend k l) := by
  intro h
  obtain ⟨m, hm⟩ := eventually_atTop.mp h
  have hfair := F (eventually_atTop.mpr ⟨m, fun n hn => hm (n + 1) (Nat.le_succ_of_le hn)⟩)
  refine frequently_atTop.mpr fun n => ?_
  obtain ⟨j, hj, hP⟩ := frequently_atTop.mp hfair n
  exact ⟨j + 1, Nat.le_succ_of_le hj, hP⟩

/-- Fairness is a property of what happens in the end. -/
theorem WeaklyFair.of_drop (F : M.WeaklyFair P (fun n => s (n + k)) (fun n => l (n + k))) :
    M.WeaklyFair P s l := by
  intro h
  obtain ⟨m, hm⟩ := eventually_atTop.mp h
  have hfair := F (eventually_atTop.mpr ⟨m, fun n hn => hm (n + k) (Nat.le_add_right_of_le hn)⟩)
  refine frequently_atTop.mpr fun n => ?_
  obtain ⟨j, hj, hP⟩ := frequently_atTop.mp hfair n
  exact ⟨j + k, Nat.le_add_right_of_le hj, hP⟩

/-- A run beside a program that goes on without the system when it has ended: fair to everybody who
cannot go on then. -/
theorem exists_resting {f : σ → ℓ → Option σ} (hf : ∀ t k u, f t k = some u → M.step t k u)
    (h : M.Reachable t) (hr : run f t ks = some u) :
    ∃ s l, M.beside.Execution s l ∧ s 0 = t ∧ (∀ n, s (n + ks.length) = u) ∧
      ∀ P : Option ℓ → Prop, ¬ P none → (∀ k v, P (some k) → ¬ M.step u k v) →
        M.beside.WeaklyFair P s l := by
  let g (t : σ) (k : Option ℓ) : Option σ := k.elim (some t) (f t)
  have hg (t : σ) (k : Option ℓ) (u : σ) (h : g t k = some u) : M.beside.step t k u := by
    cases k with
    | none => exact (Option.some.inj h).symm
    | some k => exact hf _ _ _ h
  have hgr : run g t (ks.map some) = some u := by
    clear h
    induction ks generalizing t with
    | nil => exact hr
    | cons k ks ih =>
      obtain ⟨v, hv, hr⟩ := Option.bind_eq_some_iff.mp hr
      exact Option.bind_eq_some_iff.mpr ⟨v, hv, ih hr⟩
  have hu := h.reaches (.of_run (fun k _ t u => hf t k u) hr)
  obtain ⟨s, l, E, h0, hs, -⟩ := (Execution.rest hu.beside).of_run hg h.beside hgr
  rw [List.length_map] at hs
  refine ⟨s, l, E, h0, hs, fun P hnone hstop => .of_drop (k := ks.length) fun hen => ?_⟩
  obtain ⟨n, k, v, hP, hstep⟩ := hen.exists
  have hstep : M.beside.step u k v := hs n ▸ hstep
  cases k with
  | none => exact absurd hP hnone
  | some k => exact absurd hstep (hstop k v hP)

end System
end Transition
