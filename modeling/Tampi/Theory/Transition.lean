import Mathlib.Data.List.Induction
import Mathlib.Order.Monotone.Basic
import Mathlib.Order.WellFounded

/-! # Transition systems, simulations and histories

`Reaches` collects the labels of a run, `Reachable.rec_inv` is the invariant rule, and a
`Simulation` answers every step of one system by a run of another one. `Guarded` is the discipline
of an append-only history: each event was appended when its guard held of the events before it.
`select` reads one kind of event out of a history. -/

namespace Transition

/-- The label of a step says who moves and what the environment answers. -/
structure System (σ : Type u) (ℓ : Type v) where
  init : σ → Prop
  step : σ → ℓ → σ → Prop

namespace System
variable {M : System σ ℓ} {A : System τ κ}

/-- The labels `ls` lead from `s` to the last state. -/
inductive Reaches (M : System σ ℓ) (s : σ) : List ℓ → σ → Prop
  | refl : Reaches M s [] s
  | tail : Reaches M s ls t → M.step t l u → Reaches M s (ls ++ [l]) u

/-- Follow the labels as far as the step function is defined. -/
def run (f : σ → ℓ → Option σ) : σ → List ℓ → Option σ
  | s, [] => some s
  | s, l :: ls => (f s l).bind fun t => run f t ls

def Reachable (M : System σ ℓ) (s : σ) : Prop := ∃ s₀ ls, M.init s₀ ∧ M.Reaches s₀ ls s

theorem Reaches.trans (h₁ : M.Reaches s ls t) (h₂ : M.Reaches t ls' u) :
    M.Reaches s (ls ++ ls') u := by
  induction h₂ with
  | refl => simpa using h₁
  | tail _ hs ih => simpa [List.append_assoc] using ih.tail hs

theorem Reaches.single (h : M.step s l t) : M.Reaches s [l] t := Reaches.tail .refl h

theorem Reaches.head (h : M.step s l t) (h' : M.Reaches t ls u) : M.Reaches s (l :: ls) u :=
  (Reaches.single h).trans h'

theorem Reaches.of_concat (h : M.Reaches s (ls ++ [l]) u) :
    ∃ t, M.Reaches s ls t ∧ M.step t l u := by
  generalize hk : ls ++ [l] = k at h
  cases h with
  | refl => simp at hk
  | tail hr hs =>
    obtain ⟨hls, hl⟩ := List.append_inj' hk rfl
    cases List.singleton_inj.mp hl
    exact ⟨_, hls ▸ hr, hs⟩

/-- A run splits where its labels do. -/
theorem Reaches.of_append (h : M.Reaches s (ls ++ ls') u) :
    ∃ t, M.Reaches s ls t ∧ M.Reaches t ls' u := by
  induction ls' using List.reverseRecOn generalizing u with
  | nil => exact ⟨u, by simpa using h, .refl⟩
  | append_singleton ls' l ih =>
    rw [← List.append_assoc] at h
    obtain ⟨t, hr, hs⟩ := h.of_concat
    obtain ⟨t', ht, hu⟩ := ih hr
    exact ⟨t', ht, hu.tail hs⟩

/-- The run of a deterministic system is fixed by its labels. -/
theorem Reaches.unique (hM : ∀ s l t t', M.step s l t → M.step s l t' → t = t')
    (h : M.Reaches s ls t) (h' : M.Reaches s ls t') : t = t' := by
  induction h generalizing t' with
  | refl =>
    generalize hk : [] = k at h'
    cases h' with
    | refl => rfl
    | tail => simp at hk
  | tail _ hs ih =>
    obtain ⟨u, hu, hs'⟩ := h'.of_concat
    cases ih hu
    exact hM _ _ _ _ hs hs'

/-- When each step keeps `P` exactly if its guard holds, `P` holds in all states of a run exactly if
the guard holds at all its steps. -/
theorem Reaches.always_iff (hM : ∀ s l t t', M.step s l t → M.step s l t' → t = t')
    {P : σ → Prop} {G : σ → ℓ → Prop} (hs : P s)
    (hstep : ∀ ks t l u, M.Reaches s ks t → M.step t l u → P t → (P u ↔ G t l))
    (h : M.Reaches s ls v) :
    (∀ ls₁ ls₂ t, ls = ls₁ ++ ls₂ → M.Reaches s ls₁ t → P t) ↔
      ∀ ls₁ l ls₂ t, ls = ls₁ ++ l :: ls₂ → M.Reaches s ls₁ t → G t l := by
  constructor
  · rintro H ls₁ l ls₂ t rfl ht
    rw [← List.singleton_append, ← List.append_assoc] at h
    obtain ⟨u, hu, -⟩ := h.of_append
    obtain ⟨t', ht', hl⟩ := hu.of_concat
    cases ht.unique hM ht'
    exact (hstep _ _ _ _ ht hl (H ls₁ (l :: ls₂) t rfl ht)).mp (H (ls₁ ++ [l]) ls₂ u (by simp) hu)
  · rintro H ls₁ ls₂ t rfl ht
    clear h
    induction ht generalizing ls₂ with
    | refl => exact hs
    | tail hr hl ih =>
      have hP := ih (_ :: ls₂) (by simpa using H)
      exact (hstep _ _ _ _ hr hl hP).mpr (H _ _ ls₂ _ (by simp) hr)

theorem Reaches.of_run {f : σ → ℓ → Option σ}
    (hf : ∀ l ∈ ls, ∀ s t, f s l = some t → M.step s l t) (h : run f s ls = some t) :
    M.Reaches s ls t := by
  induction ls generalizing s with
  | nil => cases h; exact .refl
  | cons l ls ih =>
    obtain ⟨u, hu, h⟩ := Option.bind_eq_some_iff.mp h
    exact .head (hf l (by simp) _ _ hu) (ih (fun l' h' => hf l' (by simp [h'])) h)

theorem Reachable.of_init (h : M.init s) : M.Reachable s := ⟨s, [], h, .refl⟩

theorem Reachable.reaches (h : M.Reachable s) (h' : M.Reaches s ls t) : M.Reachable t := by
  obtain ⟨s₀, ls₀, h₀, hr⟩ := h
  exact ⟨s₀, _, h₀, hr.trans h'⟩

theorem Reachable.step (h : M.Reachable s) (hs : M.step s l t) : M.Reachable t :=
  h.reaches (.single hs)

/-- A property every step with one of the labels keeps holds along the run. -/
theorem Reaches.inv {P : σ → Prop} (hs : P s)
    (hstep : ∀ s l t, l ∈ ls → M.step s l t → P s → P t) (h : M.Reaches s ls t) : P t := by
  induction h with
  | refl => exact hs
  | tail _ h ih =>
    exact hstep _ _ _ (by simp) h (ih fun s l t hl => hstep s l t (by simp [hl]))

/-- The invariant rule; the step case may use that the state it leaves is reachable. -/
theorem Reachable.rec_inv {I : σ → Prop} (hinit : ∀ s, M.init s → I s)
    (hstep : ∀ s l t, M.Reachable s → M.step s l t → I s → I t)
    (h : M.Reachable s) : I s := by
  obtain ⟨s₀, ls, h₀, hr⟩ := h
  induction hr with
  | refl => exact hinit _ h₀
  | tail hr h ih => exact hstep _ _ _ ⟨s₀, _, h₀, hr⟩ h ih

/-- The label `l` is enabled finitely often in a row when each of its steps lowers `μ`. -/
theorem exists_run_replicate {f : σ → ℓ → Option σ} {I : σ → Prop} {α : Type*} [Preorder α]
    [WellFoundedLT α] {μ : σ → α} (hstep : ∀ s t, I s → f s l = some t → I t ∧ μ t < μ s)
    (s : σ) (h : I s) :
    ∃ k t, run f s (List.replicate k l) = some t ∧ I t ∧ f t l = none := by
  induction hμ : μ s using WellFoundedLT.induction generalizing s with
  | _ a ih =>
    cases hf : f s l with
    | none => exact ⟨0, s, rfl, h, hf⟩
    | some u =>
      obtain ⟨hu, hlt⟩ := hstep s u h hf
      obtain ⟨k, t, hrun, ht⟩ := ih (μ u) (hμ ▸ hlt) u hu rfl
      exact ⟨k + 1, t, by simp [List.replicate_succ, run, hf, hrun], ht⟩

/-- The steps that lower a measure no step raises come to an end. -/
theorem exists_not_of_lt {α : Type*} [Preorder α] [WellFoundedLT α] {f : Nat → α} {P : Nat → Prop}
    (hle : ∀ n, f (n + 1) ≤ f n) (hlt : ∀ n, P n → f (n + 1) < f n) : ∃ n, ∀ m ≥ n, ¬ P m := by
  suffices H : ∀ a n, f n = a → ∃ k, ∀ m ≥ k, ¬ P m from H _ 0 rfl
  intro a
  induction a using WellFoundedLT.induction with
  | _ a ih =>
    rintro n rfl
    by_cases h : ∃ m ≥ n, P m
    · obtain ⟨m, hm, hP⟩ := h
      exact ih _ ((hlt m hP).trans_le (antitone_nat_of_succ_le hle hm)) (m + 1) rfl
    · push Not at h
      exact ⟨n, h⟩

/-- `A` answers every step of `M` from related states by a run with labels the label of the step
allows. -/
structure Simulation (M : System σ ℓ) (A : System τ κ) (R : σ → τ → Prop)
    (allows : ℓ → κ → Prop) : Prop where
  init : ∀ s, M.init s → ∃ a, A.init a ∧ R s a
  step : ∀ s a l t, A.Reachable a → R s a → M.step s l t →
    ∃ ks b, A.Reaches a ks b ∧ (∀ k ∈ ks, allows l k) ∧ R t b

variable {R : σ → τ → Prop} {allows : ℓ → κ → Prop}

theorem Simulation.reaches (S : Simulation M A R allows) (ha : A.Reachable a) (hR : R s a)
    (h : M.Reaches s ls t) :
    ∃ ks b, A.Reaches a ks b ∧ (∀ k ∈ ks, ∃ l ∈ ls, allows l k) ∧ R t b := by
  induction h with
  | refl => exact ⟨[], a, .refl, by simp, hR⟩
  | @tail ls t l u _ hs ih =>
    obtain ⟨ks, b, hb, hks, hR⟩ := ih
    obtain ⟨ks', b', hb', hks', hR'⟩ := S.step _ _ _ _ (ha.reaches hb) hR hs
    refine ⟨ks ++ ks', b', hb.trans hb', fun k hk => ?_, hR'⟩
    rcases List.mem_append.mp hk with hk | hk
    · obtain ⟨l', hl', h⟩ := hks k hk
      exact ⟨l', by simp [hl'], h⟩
    · exact ⟨l, by simp, hks' k hk⟩

theorem Simulation.reachable (S : Simulation M A R allows) (h : M.Reachable s) :
    ∃ a, A.Reachable a ∧ R s a := by
  obtain ⟨s₀, ls, h₀, hr⟩ := h
  obtain ⟨a, ha, hR⟩ := S.init _ h₀
  obtain ⟨ks, b, hb, _, hR⟩ := S.reaches (.of_init ha) hR hr
  exact ⟨b, (Reachable.of_init ha).reaches hb, hR⟩

end System

/-- Each event of the history was appended when `guard` held of the events before it. -/
def Guarded (guard : List ε → ε → Prop) (log : List ε) : Prop :=
  ∀ before e after, log = before ++ e :: after → guard before e

theorem Guarded.nil {guard : List ε → ε → Prop} : Guarded guard [] := by
  intro before e after h
  simp at h

theorem Guarded.append_singleton {guard : List ε → ε → Prop} (h : Guarded guard log)
    (he : guard log e) : Guarded guard (log ++ [e]) := by
  intro before e' after heq
  rcases List.eq_nil_or_concat after with rfl | ⟨after, last, rfl⟩
  · obtain ⟨rfl, hlast⟩ := List.append_inj' heq rfl
    cases hlast
    exact he
  · rw [List.concat_eq_append, ← List.cons_append, ← List.append_assoc] at heq
    obtain ⟨rfl, _⟩ := List.append_inj' heq rfl
    exact h _ _ _ rfl

theorem Guarded.of_append {guard : List ε → ε → Prop} (h : Guarded guard (log ++ log')) :
    Guarded guard log := by
  intro before e after heq
  exact h before e (after ++ log') (by simp [heq])

/-- An event of the history splits it where its guard held. -/
theorem Guarded.of_mem {guard : List ε → ε → Prop} (h : Guarded guard log) (he : e ∈ log) :
    ∃ before after, log = before ++ e :: after ∧ guard before e := by
  obtain ⟨before, after, heq⟩ := List.append_of_mem he
  exact ⟨before, after, heq, h before e after heq⟩

/-- The events from the first `mark` on. -/
def since [DecidableEq ε] (mark : ε) (log : List ε) : List ε := log.dropWhile (· ≠ mark)

section
variable [DecidableEq ε] {mark : ε} {log es : List ε}

theorem since_append (h : mark ∈ log) : since mark (log ++ es) = since mark log ++ es := by
  induction log with
  | nil => cases h
  | cons e log ih =>
    by_cases he : e = mark
    · simp [since, he]
    · have hmem : mark ∈ log := (List.mem_cons.mp h).resolve_left (Ne.symm he)
      simpa [since, he] using ih hmem

theorem since_append_of_not_mem (h : mark ∉ log) : since mark (log ++ es) = since mark es := by
  induction log with
  | nil => rfl
  | cons e log ih =>
    have he : e ≠ mark := by
      rintro rfl
      exact h (by simp)
    simpa [since, he] using ih fun hmem => h (by simp [hmem])

theorem since_eq_nil (h : mark ∉ log) : since mark log = [] := by
  rw [← List.append_nil log, since_append_of_not_mem h]
  rfl

theorem mem_since_append_singleton (h : d ∈ since mark (log ++ [e])) :
    d ∈ since mark log ∨ d = e := by
  by_cases hm : mark ∈ log
  · simpa [since_append hm] using h
  · rw [since_append_of_not_mem hm] at h
    exact .inr (List.mem_singleton.mp ((List.dropWhile_sublist _).subset h))

end

theorem mem_of_mem_before (h : log = before ++ e :: after) (hd : d ∈ before) : d ∈ log :=
  h ▸ List.mem_append_left _ hd

def select (f : ε → Option α) (log : List ε) : List α := log.filterMap f

section
variable {f : ε → Option α}

@[simp] theorem select_nil : select f [] = [] := rfl

@[simp] theorem select_append_singleton :
    select f (log ++ [e]) = select f log ++ (f e).toList := by
  cases h : f e <;> simp [select, h]

theorem select_append : select f (log ++ log') = select f log ++ select f log' :=
  List.filterMap_append

theorem select_eq_nil (h : select f (log ++ log') = select f log) : select f log' = [] := by
  rw [select_append] at h
  exact List.append_right_eq_self.mp h

theorem mem_select : x ∈ select f log ↔ ∃ e ∈ log, f e = some x := List.mem_filterMap

/-- An entry that only one event is read as. -/
theorem mem_select_iff (h : ∀ e', f e' = some x ↔ e' = e) : x ∈ select f log ↔ e ∈ log := by
  rw [mem_select]
  constructor
  · rintro ⟨e', he', hx⟩
    exact (h e').mp hx ▸ he'
  · exact fun he => ⟨e, he, (h e).mpr rfl⟩

/-- An entry that occurs once comes from one event. -/
theorem eq_of_select_nodup (hnodup : (select f log).Nodup) (h : e ∈ log) (h' : e' ∈ log)
    (he : f e = some x) (he' : f e' = some x) : e = e' := by
  by_contra hne
  obtain ⟨as, bs, rfl⟩ := List.append_of_mem h
  have hmem : x ∈ select f as ∨ x ∈ select f bs := by
    rcases List.mem_append.mp h' with hd | hd
    · exact .inl (mem_select.mpr ⟨e', hd, he'⟩)
    · exact .inr (mem_select.mpr ⟨e', (List.mem_cons.mp hd).resolve_left (Ne.symm hne), he'⟩)
  rw [select, List.filterMap_append, List.filterMap_cons_some he] at hnodup
  obtain ⟨-, hnodup, hdisj⟩ := List.nodup_append.mp hnodup
  rcases hmem with hx | hx
  · exact hdisj x hx x (by simp) rfl
  · exact (List.nodup_cons.mp hnodup).1 hx

theorem mem_select_of_mem (h : e ∈ log) (he : f e = some x) : x ∈ select f log :=
  mem_select.mpr ⟨e, h, he⟩

end

end Transition
