import Mathlib.Algebra.Order.Ring.Rat
import Mathlib.Data.List.Induction
import Mathlib.Tactic.Linarith
import Tampi.Model.TicketManager

/-! # The growth of the capacity

`SaturatedSince` is the evidence of an epoch: calls of `evaluate` that all found the arrays full and
nothing completed. `saturation_spec` says what the flag and its time stand for; the capacity then
doubles at the call that finds the epoch older than the timeout. Doubling is no growth from a
capacity of zero, which `TAMPI_CAPACITY` can install. -/

namespace Tampi

/-- A call of `evaluate`, with the time it reads. -/
structure Evaluation where
  pending : Nat
  completed : Nat
  now : Rat
  deriving DecidableEq

namespace CapacityCtrl
variable {c c₀ : CapacityCtrl} {calls : List Evaluation} {e : Evaluation}

def evaluations (c : CapacityCtrl) (calls : List Evaluation) : CapacityCtrl :=
  calls.foldl (fun c e => c.evaluate e.pending e.completed e.now) c

/-- The call finds `capacity` requests in flight, and none completed. -/
def Saturated (capacity : Nat) (e : Evaluation) : Prop := e.pending = capacity ∧ e.completed = 0

/-- The last calls, from one at time `t` on, are an unbroken run of saturated ones during which the
capacity has been `capacity`. -/
def SaturatedSince (c₀ : CapacityCtrl) (calls : List Evaluation) (capacity : Nat) (t : Rat) :
    Prop :=
  ∃ before first epoch, calls = before ++ first :: epoch ∧ first.now = t ∧
    (c₀.evaluations before).capacity = capacity ∧ ∀ e ∈ first :: epoch, Saturated capacity e

/-- The call `e` after `calls` ends a saturation epoch that lasts for more than the timeout. -/
def Expires (c₀ : CapacityCtrl) (calls : List Evaluation) (e : Evaluation) : Prop :=
  ∃ t, SaturatedSince c₀ calls (c₀.evaluations calls).capacity t ∧
    Saturated (c₀.evaluations calls).capacity e ∧ c₀.timeout < e.now - t

@[simp] theorem evaluations_concat :
    c₀.evaluations (calls ++ [e]) =
      (c₀.evaluations calls).evaluate e.pending e.completed e.now := by
  simp [evaluations]

/-- A call at the maximum capacity or without saturation resets the flag at most. -/
theorem evaluate_of_not_saturated
    (h : c.capacity = c.capacityMax ∨ ¬ Saturated c.capacity e) :
    (c.evaluate e.pending e.completed e.now).capacity = c.capacity ∧
      ((c.evaluate e.pending e.completed e.now).saturation = true →
        c.capacity = c.capacityMax) := by
  unfold evaluate
  by_cases hmax : c.capacity = c.capacityMax
  · rw [if_pos hmax]
    exact ⟨rfl, fun _ => hmax⟩
  · have hsat : ¬ (e.pending = c.capacity ∧ e.completed = 0) := h.resolve_left hmax
    rw [if_neg hmax, if_neg hsat]
    exact ⟨rfl, by simp⟩

/-- A saturated call below the maximum begins an epoch, continues it, or ends it by doubling. -/
theorem evaluate_of_saturated (hmax : c.capacity < c.capacityMax) (he : Saturated c.capacity e) :
    ((c.evaluate e.pending e.completed e.now).capacity = c.capacity ∧
      (c.evaluate e.pending e.completed e.now).saturation = true ∧
      (c.saturation = false ∧ (c.evaluate e.pending e.completed e.now).saturationBegin = e.now ∨
        c.saturation = true ∧ e.now - c.saturationBegin ≤ c.timeout ∧
        (c.evaluate e.pending e.completed e.now).saturationBegin = c.saturationBegin)) ∨
    c.saturation = true ∧ c.timeout < e.now - c.saturationBegin ∧
      (c.evaluate e.pending e.completed e.now).saturation = false ∧
      (c.evaluate e.pending e.completed e.now).capacity = min (c.capacity * 2) c.capacityMax := by
  have hsat : e.pending = c.capacity ∧ e.completed = 0 := he
  unfold evaluate
  rw [if_neg hmax.ne, if_pos hsat]
  cases hflag : c.saturation with
  | false => exact .inl ⟨rfl, rfl, .inl ⟨rfl, rfl⟩⟩
  | true =>
    rw [if_neg (by simp)]
    split
    · exact .inr ⟨rfl, ‹_›, rfl, rfl⟩
    · exact .inl ⟨rfl, hflag, .inr ⟨rfl, not_lt.mp ‹_›, rfl⟩⟩

@[simp] theorem evaluate_capacityMax : (c.evaluate p q t).capacityMax = c.capacityMax := by
  unfold evaluate
  split_ifs <;> rfl

@[simp] theorem evaluate_timeout : (c.evaluate p q t).timeout = c.timeout := by
  unfold evaluate
  split_ifs <;> rfl

@[simp] theorem evaluate_capacityMin : (c.evaluate p q t).capacityMin = c.capacityMin := by
  unfold evaluate
  split_ifs <;> rfl

theorem le_evaluate (c : CapacityCtrl) (pending completed : Nat) (now : Rat) :
    c.capacity ≤ (c.evaluate pending completed now).capacity := by
  unfold evaluate
  split
  · exact le_refl _
  split
  · split
    · exact le_refl _
    split
    · exact le_min (by omega) c.le_max
    · exact le_refl _
  · exact le_refl _

theorem evaluations_fixed (c₀ : CapacityCtrl) (calls : List Evaluation) :
    (c₀.evaluations calls).capacityMin = c₀.capacityMin ∧
      (c₀.evaluations calls).capacityMax = c₀.capacityMax ∧
      (c₀.evaluations calls).timeout = c₀.timeout := by
  induction calls using List.reverseRecOn with
  | nil => exact ⟨rfl, rfl, rfl⟩
  | append_singleton calls e ih => simpa using ih

theorem le_evaluations (c₀ : CapacityCtrl) (calls rest : List Evaluation) :
    (c₀.evaluations calls).capacity ≤ (c₀.evaluations (calls ++ rest)).capacity := by
  induction rest using List.reverseRecOn with
  | nil => simp
  | append_singleton rest e ih =>
    rw [← List.append_assoc, evaluations_concat]
    exact ih.trans (le_evaluate ..)

theorem SaturatedSince.concat (h : SaturatedSince c₀ calls n t) (he : Saturated n e) :
    SaturatedSince c₀ (calls ++ [e]) n t := by
  obtain ⟨before, first, epoch, rfl, ht, hc, hall⟩ := h
  refine ⟨before, first, epoch ++ [e], by simp, ht, hc, fun e' he' => ?_⟩
  rw [← List.cons_append] at he'
  rcases List.mem_append.mp he' with he' | he'
  · exact hall e' he'
  · exact List.mem_singleton.mp he' ▸ he

/-- The flag is set during an epoch, with the time the epoch began. -/
theorem saturation_spec (h₀ : c₀.saturation = false)
    (h : (c₀.evaluations calls).saturation = true) :
    (c₀.evaluations calls).capacity < c₀.capacityMax ∧
      SaturatedSince c₀ calls (c₀.evaluations calls).capacity
        (c₀.evaluations calls).saturationBegin := by
  induction calls using List.reverseRecOn with
  | nil =>
    have hno : c₀.saturation = true := h
    rw [h₀] at hno
    cases hno
  | append_singleton calls e ih =>
    have hfix := (evaluations_fixed c₀ calls).2.1
    rw [evaluations_concat] at h ⊢
    by_cases hsat : (c₀.evaluations calls).capacity = (c₀.evaluations calls).capacityMax ∨
        ¬ Saturated (c₀.evaluations calls).capacity e
    · obtain ⟨hcap, hmax⟩ := evaluate_of_not_saturated hsat
      -- at the maximum the flag is what it was, and it was not set
      have heq := hmax h
      have hflag : (c₀.evaluations calls).saturation = true := by
        rw [evaluate, if_pos heq] at h
        exact h
      exact absurd (heq.trans hfix) (ih hflag).1.ne
    · push Not at hsat
      have hlt : (c₀.evaluations calls).capacity < (c₀.evaluations calls).capacityMax :=
        Nat.lt_of_le_of_ne (c₀.evaluations calls).le_max hsat.1
      rcases evaluate_of_saturated hlt hsat.2 with ⟨hcap, -, hbegin⟩ | ⟨-, -, hno, -⟩
      · rw [hcap]
        refine ⟨hlt.trans_eq hfix, ?_⟩
        rcases hbegin with ⟨-, hbegin⟩ | ⟨hflag, -, hbegin⟩
        · rw [hbegin]
          exact ⟨calls, e, [], rfl, rfl, rfl, by simpa using hsat.2⟩
        · rw [hbegin]
          exact (ih hflag).2.concat hsat.2
      · rw [hno] at h
        cases h

/-- A saturated call that does not grow the capacity leaves the flag set, with its time. -/
theorem saturation_of_evaluate (hpos : 0 < c.capacity) (hmax : c.capacity < c.capacityMax)
    (he : Saturated c.capacity e)
    (hsame : (c.evaluate e.pending e.completed e.now).capacity = c.capacity) :
    (c.evaluate e.pending e.completed e.now).saturation = true ∧
      (c.evaluate e.pending e.completed e.now).saturationBegin =
        if c.saturation then c.saturationBegin else e.now := by
  rcases evaluate_of_saturated hmax he with ⟨-, hflag, hbegin⟩ | ⟨-, -, -, hdouble⟩
  · refine ⟨hflag, ?_⟩
    rcases hbegin with ⟨hno, hbegin⟩ | ⟨hyes, -, hbegin⟩
    · simp [hno, hbegin]
    · simp [hyes, hbegin]
  · rw [hdouble] at hsame
    omega

/-- During an epoch at a capacity that can grow the flag is set, since the first call at least. -/
theorem saturation_of_epoch {before epoch : List Evaluation} {first : Evaluation}
    (h₀ : c₀.saturation = false)
    (hsorted : (before ++ first :: epoch).Pairwise (·.now ≤ ·.now)) (hpos : 0 < n)
    (hmax : n < c₀.capacityMax) (hbefore : (c₀.evaluations before).capacity = n)
    (hend : (c₀.evaluations (before ++ first :: epoch)).capacity = n)
    (hall : ∀ e ∈ first :: epoch, Saturated n e) :
    (c₀.evaluations (before ++ first :: epoch)).saturation = true ∧
      (c₀.evaluations (before ++ first :: epoch)).saturationBegin ≤ first.now := by
  induction epoch using List.reverseRecOn with
  | nil =>
    obtain ⟨-, hfix, -⟩ := evaluations_fixed c₀ before
    rw [evaluations_concat] at hend ⊢
    obtain ⟨hflag, hbegin⟩ := saturation_of_evaluate (hbefore ▸ hpos) (hbefore ▸ hfix ▸ hmax)
      (hbefore ▸ hall first (by simp)) (hend.trans hbefore.symm)
    refine ⟨hflag, hbegin ▸ ?_⟩
    split
    · -- the epoch began with an earlier call
      obtain ⟨-, before', first', epoch', rfl, hfirst, -⟩ := saturation_spec h₀ ‹_›
      exact hfirst ▸ (List.pairwise_append.mp hsorted).2.2 first' (by simp) first (by simp)
    · exact le_refl _
  | append_singleton epoch e ih =>
    have heq : before ++ first :: (epoch ++ [e]) = (before ++ first :: epoch) ++ [e] := by simp
    rw [heq] at hsorted hend ⊢
    have hle := le_evaluations c₀ before (first :: epoch)
    have hle' := le_evaluations c₀ (before ++ first :: epoch) [e]
    have hcap : (c₀.evaluations (before ++ first :: epoch)).capacity = n := by omega
    obtain ⟨-, hfix, -⟩ := evaluations_fixed c₀ (before ++ first :: epoch)
    obtain ⟨hyes, hfirst⟩ := ih (List.pairwise_append.mp hsorted).1 hcap fun e' he' =>
      hall e' (by
        rcases List.mem_cons.mp he' with rfl | he'
        · exact List.mem_cons_self
        · exact List.mem_cons_of_mem _ (List.mem_append_left _ he'))
    rw [evaluations_concat] at hend ⊢
    obtain ⟨hflag, hbegin⟩ := saturation_of_evaluate (hcap ▸ hpos) (hcap ▸ hfix ▸ hmax)
      (hcap ▸ hall e (by simp)) (hend.trans hcap.symm)
    rw [if_pos hyes] at hbegin
    exact ⟨hflag, hbegin ▸ hfirst⟩

/-! ## Growth -/

/-- The calls of a manager whose calls are `f`, before the `k`-th. -/
def history (f : Nat → Evaluation) (k : Nat) : List Evaluation := (List.range k).map f

/-- Over every sequence of calls with a non-decreasing clock the capacity keeps its bounds, never
decreases, changes only at the end of an expired epoch, and grows there if it can; and a manager
that is always saturated gets to its maximum as time goes by. -/
structure Grows (c₀ : CapacityCtrl) : Prop where
  bounds : ∀ calls, c₀.capacityMin ≤ (c₀.evaluations calls).capacity ∧
    (c₀.evaluations calls).capacity ≤ c₀.capacityMax ∧ c₀.capacityMax ≤ CapacityLimit
  mono : ∀ calls e, (c₀.evaluations calls).capacity ≤ (c₀.evaluations (calls ++ [e])).capacity
  changes : ∀ calls e, (calls ++ [e]).Pairwise (·.now ≤ ·.now) →
    (c₀.evaluations (calls ++ [e])).capacity ≠ (c₀.evaluations calls).capacity → Expires c₀ calls e
  larger : ∀ calls e, (calls ++ [e]).Pairwise (·.now ≤ ·.now) → Expires c₀ calls e →
    (c₀.evaluations calls).capacity < c₀.capacityMax →
    (c₀.evaluations calls).capacity < (c₀.evaluations (calls ++ [e])).capacity
  reaches : ∀ f : Nat → Evaluation, (∀ i j, i ≤ j → (f i).now ≤ (f j).now) →
    (∀ t, ∃ k, t < (f k).now) →
    (∀ k, Saturated (c₀.evaluations (history f k)).capacity (f k)) →
    ∃ k, (c₀.evaluations (history f k)).capacity = c₀.capacityMax

theorem expires_of_changes (h₀ : c₀.saturation = false)
    (hne : (c₀.evaluations (calls ++ [e])).capacity ≠ (c₀.evaluations calls).capacity) :
    Expires c₀ calls e := by
  rw [evaluations_concat] at hne
  by_cases hsat : (c₀.evaluations calls).capacity = (c₀.evaluations calls).capacityMax ∨
      ¬ Saturated (c₀.evaluations calls).capacity e
  · exact absurd (evaluate_of_not_saturated hsat).1 hne
  · push Not at hsat
    have hlt : (c₀.evaluations calls).capacity < (c₀.evaluations calls).capacityMax :=
      Nat.lt_of_le_of_ne (c₀.evaluations calls).le_max hsat.1
    rcases evaluate_of_saturated hlt hsat.2 with ⟨hsame, -⟩ | ⟨hflag, htime, -⟩
    · exact absurd hsame hne
    · rw [(evaluations_fixed c₀ calls).2.2] at htime
      exact ⟨_, (saturation_spec h₀ hflag).2, hsat.2, htime⟩

theorem larger_of_expires (h₀ : c₀.saturation = false) (hpos : 0 < c₀.capacityMin)
    (hsorted : (calls ++ [e]).Pairwise (·.now ≤ ·.now)) (h : Expires c₀ calls e)
    (hmax : (c₀.evaluations calls).capacity < c₀.capacityMax) :
    (c₀.evaluations calls).capacity < (c₀.evaluations (calls ++ [e])).capacity := by
  obtain ⟨t, ⟨before, first, epoch, rfl, rfl, hbefore, hall⟩, he, htime⟩ := h
  obtain ⟨hmin, hfix, htimeout⟩ := evaluations_fixed c₀ (before ++ first :: epoch)
  have hcap : 0 < (c₀.evaluations (before ++ first :: epoch)).capacity :=
    hpos.trans_le (hmin ▸ (c₀.evaluations (before ++ first :: epoch)).min_le)
  obtain ⟨hflag, hbegin⟩ := saturation_of_epoch h₀ (List.pairwise_append.mp hsorted).1 hcap hmax
    hbefore rfl hall
  rw [evaluations_concat]
  rcases evaluate_of_saturated (hfix ▸ hmax) he with ⟨-, -, hno | hle⟩ | ⟨-, -, -, hdouble⟩
  · rw [hflag] at hno
    cases hno.1
  · rw [htimeout] at hle
    have := hle.2.1
    linarith
  · rw [hdouble]
    omega

theorem history_succ (f : Nat → Evaluation) (k : Nat) :
    history f (k + 1) = history f k ++ [f k] := by
  simp [history, List.range_succ]

theorem pairwise_history {f : Nat → Evaluation} (hf : ∀ i j, i ≤ j → (f i).now ≤ (f j).now)
    (k : Nat) : (history f k).Pairwise (·.now ≤ ·.now) :=
  List.pairwise_map.mpr (List.pairwise_lt_range.imp fun h => hf _ _ h.le)

theorem history_add (f : Nat → Evaluation) (k d : Nat) :
    history f (k + (d + 1)) =
      history f k ++ f k :: (List.range d).map (fun i => f (k + 1 + i)) := by
  rw [history, List.range_add, List.map_append, List.range_succ_eq_map]
  simp [history, Function.comp_def, Nat.add_assoc, Nat.add_comm 1]

theorem le_history (f : Nat → Evaluation) (h : k ≤ j) :
    (c₀.evaluations (history f k)).capacity ≤ (c₀.evaluations (history f j)).capacity := by
  induction h with
  | refl => exact le_refl _
  | step _ ih =>
    rw [history_succ]
    exact ih.trans (le_evaluations c₀ _ _)

section saturated
variable {f : Nat → Evaluation} (h₀ : c₀.saturation = false) (hpos : 0 < c₀.capacityMin)
  (hf : ∀ i j, i ≤ j → (f i).now ≤ (f j).now) (htime : ∀ t, ∃ k, t < (f k).now)
  (hsat : ∀ k, Saturated (c₀.evaluations (history f k)).capacity (f k))
include h₀ hpos hf htime hsat

/-- A manager that is always saturated grows, when the epoch that goes on from any call expires. -/
theorem exists_larger (hmax : (c₀.evaluations (history f k)).capacity < c₀.capacityMax) :
    ∃ j, (c₀.evaluations (history f k)).capacity < (c₀.evaluations (history f j)).capacity := by
  by_contra hno
  push Not at hno
  have hsame : ∀ i, k ≤ i → (c₀.evaluations (history f i)).capacity =
      (c₀.evaluations (history f k)).capacity := fun i hi => (hno i).antisymm (le_history f hi)
  obtain ⟨j, hj⟩ := htime ((f k).now + c₀.timeout)
  have hlt : k < j := by
    by_contra hle
    have := hf j k (not_lt.mp hle)
    have : (0 : Rat) ≤ c₀.timeout := Nat.cast_nonneg _
    linarith
  obtain ⟨d, rfl⟩ : ∃ d, j = k + (d + 1) := ⟨j - k - 1, by omega⟩
  have hepoch : SaturatedSince c₀ (history f (k + (d + 1)))
      (c₀.evaluations (history f (k + (d + 1)))).capacity (f k).now := by
    refine ⟨_, _, _, history_add f k d, rfl, (hsame _ hlt.le).symm, fun e he => ?_⟩
    obtain ⟨i, hi, rfl⟩ : ∃ i, k ≤ i ∧ e = f i := by
      rcases List.mem_cons.mp he with rfl | he
      · exact ⟨k, le_refl k, rfl⟩
      · obtain ⟨i, -, rfl⟩ := List.mem_map.mp he
        exact ⟨k + 1 + i, by omega, rfl⟩
    exact hsame _ hlt.le ▸ hsame i hi ▸ hsat i
  have hexpires : Expires c₀ (history f (k + (d + 1))) (f (k + (d + 1))) :=
    ⟨_, hepoch, hsat _, by linarith⟩
  have hlarger := larger_of_expires h₀ hpos (history_succ f _ ▸ pairwise_history hf _) hexpires
    (hsame _ hlt.le ▸ hmax)
  rw [← history_succ, hsame _ hlt.le, hsame (k + (d + 1) + 1) (by omega)] at hlarger
  exact lt_irrefl _ hlarger

theorem exists_capacityMax (k : Nat) :
    ∃ j, (c₀.evaluations (history f j)).capacity = c₀.capacityMax := by
  induction hd : c₀.capacityMax - (c₀.evaluations (history f k)).capacity using
    Nat.strong_induction_on generalizing k with
  | _ d ih =>
    have hle := (c₀.evaluations (history f k)).le_max
    rw [(evaluations_fixed c₀ _).2.1] at hle
    rcases hle.lt_or_eq with hlt | heq
    · obtain ⟨j, hj⟩ := exists_larger h₀ hpos hf htime hsat hlt
      exact ih _ (by omega) j rfl
    · exact ⟨k, heq⟩

end saturated

/-- With a capacity of zero doubling is no growth. -/
theorem evaluate_of_zero (h : c.capacity = 0) :
    (c.evaluate e.pending e.completed e.now).capacity = 0 := by
  by_cases hsat : c.capacity = c.capacityMax ∨ ¬ Saturated c.capacity e
  · rw [(evaluate_of_not_saturated hsat).1, h]
  · push Not at hsat
    rcases evaluate_of_saturated (Nat.lt_of_le_of_ne c.le_max hsat.1) hsat.2 with
      ⟨hsame, -⟩ | ⟨-, -, -, hdouble⟩
    · rw [hsame, h]
    · rw [hdouble, h]
      simp

/-- The call that ends the first epoch of a manager without room. -/
theorem expires_of_zero (h : c₀.capacity = 0) :
    Expires c₀ [⟨0, 0, 0⟩] ⟨0, 0, c₀.timeout + 1⟩ := by
  have hcap : (c₀.evaluations [⟨0, 0, 0⟩]).capacity = 0 := evaluate_of_zero h
  rw [Expires, hcap]
  refine ⟨0, ⟨[], ⟨0, 0, 0⟩, [], rfl, rfl, h, ?_⟩, ⟨rfl, rfl⟩, by simp⟩
  simp [Saturated]

theorem not_grows_of_zero (h₀ : c₀.capacity = 0) (hmax : 0 < c₀.capacityMax) : ¬ Grows c₀ := by
  intro hgrows
  have hone : (c₀.evaluations [⟨0, 0, 0⟩]).capacity = 0 := evaluate_of_zero h₀
  have hsorted : ([⟨0, 0, 0⟩] ++ [⟨0, 0, c₀.timeout + 1⟩] : List Evaluation).Pairwise
      (·.now ≤ ·.now) := by
    have : (0 : Rat) ≤ c₀.timeout + 1 := by positivity
    simpa using this
  have hlt := hgrows.larger _ _ hsorted (expires_of_zero h₀) (hone.trans_lt hmax)
  rw [evaluations_concat, evaluate_of_zero hone] at hlt
  exact Nat.not_lt_zero _ hlt

theorem grows_of_pos (h₀ : c₀.saturation = false) (hpos : 0 < c₀.capacityMin ∨ c₀.capacityMax = 0) :
    Grows c₀ where
  bounds calls := by
    obtain ⟨hmin, hmax, -⟩ := evaluations_fixed c₀ calls
    exact ⟨hmin ▸ (evaluations _ calls).min_le, hmax ▸ (evaluations _ calls).le_max, c₀.max_le⟩
  mono calls e := le_evaluations _ calls [e]
  changes calls e _ hne := expires_of_changes h₀ hne
  larger calls e hsorted hexpires hlt :=
    larger_of_expires h₀ (hpos.resolve_right (by omega)) hsorted hexpires hlt
  reaches f hf htime hsat := by
    rcases hpos with hpos | hzero
    · exact exists_capacityMax h₀ hpos hf htime hsat 0
    · refine ⟨0, ?_⟩
      simp only [history, List.range_zero, List.map_nil]
      exact Nat.le_antisymm c₀.le_max (hzero ▸ Nat.zero_le _)

/-- The capacity grows as intended exactly if doubling the minimum is growth, or no growth is
asked for. -/
theorem capacity_grows_iff (min max timeout : Nat) (h : min ≤ max) :
    Grows (ofBounds min max timeout h) ↔ 0 < min ∨ max = 0 := by
  constructor
  · intro hgrows
    by_contra hno
    obtain ⟨rfl, hmax⟩ : min = 0 ∧ 0 < max := by omega
    have hroom : 0 < Min.min max CapacityLimit := by
      rw [CapacityLimit]
      omega
    exact not_grows_of_zero (by simp [ofBounds]) hroom hgrows
  · intro hcond
    refine grows_of_pos rfl ?_
    change 0 < Min.min min CapacityLimit ∨ Min.min max CapacityLimit = 0
    rw [CapacityLimit]
    omega

theorem grows_defaults : Grows (ofBounds 128 CapacityLimit 10 (by decide)) :=
  (capacity_grows_iff 128 CapacityLimit 10 (by decide)).mpr (.inl (by decide))

/-- `TAMPI_CAPACITY=0:128`. -/
theorem not_grows_zero_128 : ¬ Grows (ofBounds 0 128 10 (by decide)) :=
  not_grows_of_zero (by decide) (by decide)

end CapacityCtrl

end Tampi
