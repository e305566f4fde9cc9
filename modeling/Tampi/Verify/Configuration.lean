import Mathlib.Algebra.Order.Field.Basic
import Mathlib.Algebra.Order.Field.Rat
import Mathlib.Data.List.Induction
import Mathlib.Tactic.Linarith
import Mathlib.Tactic.NormNum
import Tampi.Verify.StringSupport

/-! # The configured controllers

A value of `TAMPI_CAPACITY` goes through two extractions that nobody checks. `Refused` is the
grammar of the texts that still stop the constructor; any other text installs bounds, so only those
that are numbers install their own. -/

namespace Tampi

/-! ## `TAMPI_CAPACITY` -/

namespace CapacityCtrl
variable {s : List Char} {min₀ max₀ : UInt64} {timeoutText : Option (List Char)}

/-- A text `<min>` or `<min>:<max>`, with the two integers. -/
inductive CapacityText : List Char → Nat → Nat → Prop
  | one : Decimal a → CapacityText a (decimalValue a) (decimalValue a)
  | two : Decimal a → Decimal b → CapacityText (a ++ ':' :: b) (decimalValue a) (decimalValue b)

theorem CapacityText.isDigit (h : CapacityText s m n) : ∀ c ∈ s, c.isDigit = true ∨ c = ':' := by
  intro c hc
  cases h with
  | one ha => exact .inl (ha.2 c hc)
  | two ha hb =>
    rcases List.mem_append.mp hc with hc | hc
    · exact .inl (ha.2 c hc)
    · exact (List.mem_cons.mp hc).symm.imp_left (hb.2 c)

/-- The constructor fails, or installs what the text says, whatever the uninitialized variables
hold. -/
def ParsedExactly (s : List Char) : Prop :=
  ∀ min₀ max₀ timeoutText c, create min₀ max₀ (some s) timeoutText = .ok c →
    ∃ min max, CapacityText s min max ∧ min ≤ max ∧
      c.capacityMin = Nat.min min CapacityLimit ∧ c.capacityMax = Nat.min max CapacityLimit

/-- The texts the constructor stops at: the empty one, those with something after the second
separator, and those of two fields of which the first counts more. One separator may follow the
second field. -/
inductive Refused : List Char → Prop
  | empty : Refused []
  | three : t ≠ [] → Refused (a ++ ':' :: (b ++ ':' :: t))
  | order : ':' ∉ a → ':' ∉ b → Counts a m → Counts b n → n < m → t ∈ [[], [':']] →
    Refused (a ++ ':' :: (b ++ t))

theorem create_some (min₀ max₀ : UInt64) (s : List Char) (timeoutText : Option (List Char)) :
    ∃ timeout, create min₀ max₀ (some s) timeoutText =
      match parseCapacities min₀ max₀ s with
      | .error reason => .error reason
      | .ok (min, max) =>
        if h : min.toNat ≤ max.toNat then .ok (.ofBounds min.toNat max.toNat timeout h)
        else .error "Minimum capacity cannot be greater than maximum" :=
  ⟨_, rfl⟩

/-- The constructor accepts bounds in order. -/
theorem create_of_le {min max : UInt64} (timeoutText : Option (List Char))
    (hparse : parseCapacities min₀ max₀ s = .ok (min, max))
    (h : min.toNat ≤ max.toNat) :
    ∃ c, create min₀ max₀ (some s) timeoutText = .ok c ∧
      c.capacityMin = Nat.min min.toNat CapacityLimit ∧
      c.capacityMax = Nat.min max.toNat CapacityLimit := by
  obtain ⟨timeout, hcreate⟩ := create_some min₀ max₀ s timeoutText
  rw [hcreate, hparse]
  exact ⟨_, dif_pos h, rfl, rfl⟩

theorem of_create (h : create min₀ max₀ (some s) timeoutText = .ok c) :
    ∃ min max, parseCapacities min₀ max₀ s = .ok (min, max) ∧ min.toNat ≤ max.toNat ∧
      c.capacityMin = Nat.min min.toNat CapacityLimit ∧
      c.capacityMax = Nat.min max.toNat CapacityLimit := by
  obtain ⟨timeout, hcreate⟩ := create_some min₀ max₀ s timeoutText
  rw [hcreate] at h
  cases hparse : parseCapacities min₀ max₀ s with
  | error reason => simp [hparse] at h
  | ok bounds =>
    obtain ⟨min, max⟩ := bounds
    simp only [hparse] at h
    split at h
    · cases h
      exact ⟨min, max, rfl, ‹_›, rfl, rfl⟩
    · cases h

/-- A text that is not refused installs bounds, for some values of the uninitialized variables. -/
theorem exists_create_of_not_refused (h : ¬ Refused s) :
    ∃ min₀ max₀ c, create min₀ max₀ (some s) none = .ok c := by
  match hlines : getlines ':' s with
  | [] =>
    cases getlines_eq_nil.mp hlines
    exact absurd .empty h
  | [a] =>
    have hparse : parseCapacities 0 0 s =
        .ok ((extract a).value.getD 0, (extract a).value.getD 0) := by
      rw [parseCapacities, hlines]
    obtain ⟨c, hc, -⟩ := create_of_le none hparse (le_refl _)
    exact ⟨_, _, c, hc⟩
  | [a, b] =>
    -- an operand that is not written makes room for the other
    have hle : ((extract a).value.getD 0).toNat ≤
        ((extract b).value.getD (.ofNat UINT64_MAX)).toNat := by
      cases hv : (extract a).value with
      | none => simp
      | some v =>
        cases hw : (extract b).value with
        | none => exact Nat.le_of_lt_succ v.toNat_lt
        | some w =>
          obtain ⟨ha, hb, t, ht, -, rfl⟩ := getlines_eq_two.mp hlines
          exact not_lt.mp fun hlt =>
            h (.order ha hb (counts_of_extract hv) (counts_of_extract hw) hlt ht)
    obtain ⟨c, hc, -⟩ := create_of_le (s := s) none (by rw [parseCapacities, hlines]) hle
    exact ⟨_, _, c, hc⟩
  | a :: b :: c :: lines =>
    obtain ⟨-, ⟨-, hnil⟩ | ⟨t, rfl, ht⟩⟩ := getlines_cases hlines
    · cases hnil
    obtain ⟨-, ⟨-, hnil⟩ | ⟨t', rfl, ht'⟩⟩ := getlines_cases ht
    · cases hnil
    refine absurd (.three ?_) h
    rintro rfl
    cases ht'

theorem not_create_of_refused (h : Refused s) :
    create min₀ max₀ (some s) timeoutText ≠ .ok c := by
  intro hcreate
  obtain ⟨min, max, hparse, hle, -⟩ := of_create hcreate
  unfold parseCapacities at hparse
  cases h with
  | empty => cases hparse
  | @three t a b ht =>
    have hpos : 0 < (getlines ':' t).length :=
      List.length_pos_iff.mpr fun hnil => ht (getlines_eq_nil.mp hnil)
    have h₁ := length_getlines_lt ':' b t
    have h₂ := length_getlines_lt ':' a (b ++ ':' :: t)
    split at hparse
    next hlines => rw [hlines, List.length_singleton] at h₂; omega
    next hlines =>
      rw [hlines] at h₂
      change _ < 2 at h₂
      omega
    next => cases hparse
  | order ha hb hm hn hlt ht =>
    obtain ⟨v, hv, rfl⟩ := hm.extract
    obtain ⟨w, hw, rfl⟩ := hn.extract
    have hlines := getlines_eq_two.mpr ⟨ha, hb, _, ht, by simp [hn.ne_nil], rfl⟩
    simp only [hlines, hv, hw, Option.getD_some, Except.ok.injEq, Prod.mk.injEq] at hparse
    obtain ⟨rfl, rfl⟩ := hparse
    exact absurd hle (not_le.mpr hlt)

theorem toNat_saturated (n : Nat) : (UInt64.ofNat (min n UINT64_MAX)).toNat = min n UINT64_MAX := by
  rw [UInt64.toNat_ofNat']
  apply Nat.mod_eq_of_lt
  rw [UINT64_MAX]
  omega

theorem clip_saturated (n : Nat) :
    Nat.min (min n UINT64_MAX) CapacityLimit = Nat.min n CapacityLimit := by
  change min (min n UINT64_MAX) CapacityLimit = min n CapacityLimit
  rw [UINT64_MAX, CapacityLimit]
  omega

/-- Decimal integers install their own bounds. -/
theorem parseCapacities_of_text (h : CapacityText s m n) :
    parseCapacities min₀ max₀ s = .ok (.ofNat (min m UINT64_MAX), .ofNat (min n UINT64_MAX)) := by
  have hsep : ∀ a, Decimal a → ':' ∉ a := fun a ha hmem => absurd (ha.2 _ hmem) (by decide)
  cases h with
  | one ha =>
    rw [parseCapacities, getlines_of_not_mem ha.1 (hsep _ ha)]
    simp [extract_of_decimal ha]
  | two ha hb =>
    rw [parseCapacities, getlines_append (hsep _ ha), getlines_of_not_mem hb.1 (hsep _ hb)]
    simp [extract_of_decimal ha, extract_of_decimal hb]

/-- The text is parsed exactly if it is refused, or is made of decimal integers in order. -/
theorem parsedExactly_iff (s : List Char) :
    ParsedExactly s ↔ Refused s ∨ ∃ min max, CapacityText s min max ∧ min ≤ max := by
  constructor
  · intro h
    by_contra hno
    push Not at hno
    obtain ⟨min₀, max₀, c, hc⟩ := exists_create_of_not_refused hno.1
    obtain ⟨min, max, htext, hle, -⟩ := h min₀ max₀ none c hc
    exact absurd hle (not_le.mpr (hno.2 min max htext))
  · rintro (href | ⟨min, max, htext, hle⟩)
    · intro min₀ max₀ timeoutText c hcreate
      exact absurd hcreate (not_create_of_refused href)
    · intro min₀ max₀ timeoutText c hcreate
      obtain ⟨min', max', hparse, -, hmin, hmax⟩ := of_create hcreate
      rw [parseCapacities_of_text htext, Except.ok.injEq, Prod.mk.injEq] at hparse
      obtain ⟨rfl, rfl⟩ := hparse
      rw [toNat_saturated, clip_saturated] at hmin hmax
      exact ⟨min, max, htext, hle, hmin, hmax⟩

/-- `TAMPI_CAPACITY=abc`. -/
theorem not_parsedExactly_abc : ¬ ParsedExactly "abc".toList := by
  intro h
  obtain ⟨min, max, htext, -⟩ := h 0 0 none (.ofBounds 0 0 10 (le_refl 0)) rfl
  exact absurd (htext.isDigit 'a' (by decide)) (by decide)

end CapacityCtrl

/-! ## The dynamic polling period -/

/-- A call of `SlowStartPollingPeriodCtrl::run`. -/
structure Units where
  completed : Nat
  pending : Nat
  deriving DecidableEq

namespace SlowStartPollingPeriodCtrl
variable {c c₀ : SlowStartPollingPeriodCtrl} {calls : List Units} {u : Units} {m n : Nat}

def runs (c : SlowStartPollingPeriodCtrl) (calls : List Units) : SlowStartPollingPeriodCtrl :=
  calls.foldl (fun c u => c.run u.completed u.pending) c

@[simp] theorem runs_concat (c₀ : SlowStartPollingPeriodCtrl) (calls : List Units) (u : Units) :
    c₀.runs (calls ++ [u]) = (c₀.runs calls).run u.completed u.pending := by
  simp [runs]

/-- The last `k` calls are misses that leave the period as it is, since a call that had completions
or raised the period. -/
def MissesSince (c₀ : SlowStartPollingPeriodCtrl) (calls : List Units) (k : Nat) : Prop :=
  ∃ before last missed, calls = before ++ [last] ++ missed ∧ missed.length = k ∧
    (∀ v ∈ missed, v.completed = 0) ∧
    (∀ some, some <+: missed →
      (c₀.runs (before ++ [last] ++ some)).period = (c₀.runs (before ++ [last])).period) ∧
    (0 < last.completed ∨ (c₀.runs before).period < (c₀.runs (before ++ [last])).period)

/-- What the assertions of the controller say, over every sequence of calls, and when the period
moves which way. -/
structure StaysWithin (min max : Nat) : Prop where
  period : ∀ calls, min ≤ ((create min max).runs calls).period ∧
    ((create min max).runs calls).period ≤ max
  factor : ∀ calls, 3 / 2 ≤ ((create min max).runs calls).factor ∧
    ((create min max).runs calls).factor ≤ 2
  returned : ∀ calls u, min ≤ ((create min max).runs (calls ++ [u])).returned ∧
    ((create min max).runs (calls ++ [u])).returned ≤ max
  decreases : ∀ calls u, 0 < u.completed →
    ((create min max).runs (calls ++ [u])).period ≤ ((create min max).runs calls).period
  increases : ∀ calls u,
    ((create min max).runs calls).period < ((create min max).runs (calls ++ [u])).period →
    u.completed = 0 ∧ MissesSince (create min max) calls 49

/-- The bounds hold between calls. -/
structure Inv (m n : Nat) (c : SlowStartPollingPeriodCtrl) : Prop where
  minPeriod : c.minPeriod = m
  maxPeriod : c.maxPeriod = n
  period_pos : 0 < c.period
  le_period : m ≤ c.period
  period_le : c.period ≤ n
  le_factor : 3 / 2 ≤ c.factor
  factor_le : c.factor ≤ 2
  misses_nonneg : 0 ≤ c.misses
  misses_lt : c.misses < Tolerance

/-- A call is a tolerated miss, the last one that is, or has completions. -/
theorem run_cases (c : SlowStartPollingPeriodCtrl) (completed pending : Nat) :
    (completed = 0 ∧ c.misses + 1 < Tolerance ∧
      c.run completed pending = { c with misses := c.misses + 1 }) ∨
    (completed = 0 ∧ Tolerance ≤ c.misses + 1 ∧
      c.run completed pending = { c with
        misses := 0
        period := max (min (c.period * Penalty) c.maxPeriod) MinBase
        factor := (3 / 2 * c.maxPeriod +
          1 / 2 * max (min (c.period * Penalty) c.maxPeriod) MinBase) / c.maxPeriod }) ∨
    (0 < completed ∧
      c.run completed pending = { c with
        misses := 0
        period := max (c.period / c.factor) c.minPeriod }) := by
  unfold run
  split
  next h => exact .inl ⟨h.1, h.2, rfl⟩
  next h =>
    split
    next hc => exact .inr (.inl ⟨hc, not_lt.mp fun hlt => h ⟨hc, hlt⟩, rfl⟩)
    next hc => exact .inr (.inr ⟨Nat.pos_of_ne_zero hc, rfl⟩)

theorem Tolerance_pos : 0 < Tolerance := by decide

namespace Inv

theorem create (h : m < n) : Inv m n (create m n) where
  minPeriod := rfl
  maxPeriod := rfl
  period_pos := by
    change (0 : Rat) < n
    exact_mod_cast Nat.zero_lt_of_lt h
  le_period := by
    change (m : Rat) ≤ n
    exact_mod_cast h.le
  period_le := le_refl _
  le_factor := by norm_num [SlowStartPollingPeriodCtrl.create]
  factor_le := le_refl _
  misses_nonneg := le_refl _
  misses_lt := Tolerance_pos

theorem penalty (I : Inv m n c) (hn : 10 ≤ n) :
    c.period ≤ max (min (c.period * Penalty) c.maxPeriod) MinBase ∧
      max (min (c.period * Penalty) c.maxPeriod) MinBase ≤ n ∧
      (c.period < n → c.period < max (min (c.period * Penalty) c.maxPeriod) MinBase) := by
  have hpos := I.period_pos
  have hle := I.period_le
  have hbase : MinBase ≤ n := by
    change (10 : Rat) ≤ n
    exact_mod_cast hn
  rw [I.maxPeriod, Penalty]
  refine ⟨le_max_of_le_left (le_min (by linarith) hle), max_le (min_le_right ..) hbase, fun hlt => ?_⟩
  exact lt_max_of_lt_left (lt_min (by linarith) hlt)

theorem run (I : Inv m n c) (hn : 10 ≤ n) (completed pending : Nat) :
    Inv m n (c.run completed pending) := by
  have hn' : (0 : Rat) < n := by exact_mod_cast (by omega : 0 < n)
  rcases run_cases c completed pending with ⟨-, hlt, heq⟩ | ⟨-, -, heq⟩ | ⟨-, heq⟩
  · rw [heq]
    exact { I with
      misses_nonneg := by have := I.misses_nonneg; change 0 ≤ c.misses + 1; omega
      misses_lt := hlt }
  · obtain ⟨hup, hmax, -⟩ := I.penalty hn
    rw [heq]
    have hpos := I.period_pos.trans_le hup
    refine ⟨I.minPeriod, I.maxPeriod, hpos, I.le_period.trans hup, hmax, ?_, ?_, le_refl _,
      Tolerance_pos⟩
    · rw [I.maxPeriod] at hpos ⊢
      rw [le_div_iff₀ hn']
      linarith
    · rw [I.maxPeriod] at hmax ⊢
      rw [div_le_iff₀ hn']
      linarith
  · rw [heq]
    have hdown : c.period / c.factor ≤ c.period :=
      div_le_self I.period_pos.le (by linarith [I.le_factor])
    have hpos : 0 < c.period / c.factor :=
      div_pos I.period_pos (by linarith [I.le_factor])
    exact { I with
      period_pos := lt_max_of_lt_left hpos
      le_period := I.minPeriod ▸ le_max_right ..
      period_le := max_le (hdown.trans I.period_le)
        (I.minPeriod ▸ I.le_period.trans I.period_le)
      misses_nonneg := le_refl _
      misses_lt := Tolerance_pos }

theorem runs (h : m < n) (hn : 10 ≤ n) (calls : List Units) :
    Inv m n ((SlowStartPollingPeriodCtrl.create m n).runs calls) := by
  induction calls using List.reverseRecOn with
  | nil => exact create h
  | append_singleton calls u ih =>
    rw [runs_concat]
    exact ih.run hn _ _

end Inv

theorem MissesSince.concat (h : MissesSince c₀ calls k) (hu : u.completed = 0)
    (hsame : (c₀.runs (calls ++ [u])).period = (c₀.runs calls).period) :
    MissesSince c₀ (calls ++ [u]) (k + 1) := by
  obtain ⟨before, last, missed, rfl, rfl, hall, hperiod, hlast⟩ := h
  refine ⟨before, last, missed ++ [u], by simp, by simp, ?_, ?_, hlast⟩
  · intro v hv
    rcases List.mem_append.mp hv with hv | hv
    · exact hall v hv
    · exact List.mem_singleton.mp hv ▸ hu
  · intro some hsome
    rcases List.prefix_concat_iff.mp hsome with rfl | hsome
    · rw [← List.append_assoc, hsame]
      exact hperiod missed (List.prefix_refl _)
    · exact hperiod some hsome

theorem MissesSince.of_last
    (h : 0 < u.completed ∨ (c₀.runs calls).period < (c₀.runs (calls ++ [u])).period) :
    MissesSince c₀ (calls ++ [u]) 0 := by
  refine ⟨calls, u, [], by simp, rfl, by simp, fun some hsome => ?_, h⟩
  rw [List.prefix_nil.mp hsome, List.append_nil]

/-- Below the maximum, the counter of misses counts the calls since the last one that matters. -/
theorem missesSince_runs (h : m < n) (hn : 10 ≤ n) (calls : List Units)
    (hlt : ((create m n).runs calls).period < n) :
    MissesSince (create m n) calls ((create m n).runs calls).misses.toNat := by
  induction calls using List.reverseRecOn with
  | nil => exact absurd hlt (lt_irrefl _)
  | append_singleton calls u ih =>
    have I := Inv.runs h hn calls
    have hstep := runs_concat (create m n) calls u
    rcases run_cases ((create m n).runs calls) u.completed u.pending with
      ⟨hu, -, heq⟩ | ⟨hu, -, heq⟩ | ⟨hu, heq⟩
    · rw [heq] at hstep
      rw [hstep] at hlt
      have hcount : ((create m n).runs (calls ++ [u])).misses.toNat =
          ((create m n).runs calls).misses.toNat + 1 := by
        have := I.misses_nonneg
        rw [hstep]
        change (((create m n).runs calls).misses + 1).toNat = _
        omega
      rw [hcount]
      exact (ih hlt).concat hu (by rw [hstep])
    · rw [heq] at hstep
      obtain ⟨hup, -, hraise⟩ := I.penalty hn
      have hzero : ((create m n).runs (calls ++ [u])).misses.toNat = 0 := by rw [hstep]; rfl
      rw [hzero]
      refine .of_last (.inr ?_)
      rw [hstep] at hlt ⊢
      exact hraise (hup.trans_lt hlt)
    · rw [heq] at hstep
      have hzero : ((create m n).runs (calls ++ [u])).misses.toNat = 0 := by rw [hstep]; rfl
      rw [hzero]
      exact .of_last (.inl hu)

theorem staysWithin_of_le (h : m < n) (hn : 10 ≤ n) : StaysWithin m n where
  period calls := ⟨(Inv.runs h hn calls).le_period, (Inv.runs h hn calls).period_le⟩
  factor calls := ⟨(Inv.runs h hn calls).le_factor, (Inv.runs h hn calls).factor_le⟩
  returned calls u := by
    have I := Inv.runs h hn (calls ++ [u])
    have hfloor : (m : Int) ≤ ((create m n).runs (calls ++ [u])).period.floor :=
      Rat.le_floor_iff.mpr (by exact_mod_cast I.le_period)
    have hceil : ((create m n).runs (calls ++ [u])).period.floor ≤ (n : Int) := by
      have := (Rat.floor_le ((create m n).runs (calls ++ [u])).period).trans I.period_le
      exact_mod_cast this
    rw [SlowStartPollingPeriodCtrl.returned]
    omega
  decreases calls u hu := by
    have I := Inv.runs h hn calls
    rw [runs_concat]
    rcases run_cases ((create m n).runs calls) u.completed u.pending with
      ⟨hno, -⟩ | ⟨hno, -⟩ | ⟨-, heq⟩
    · omega
    · omega
    · rw [heq]
      exact max_le (div_le_self I.period_pos.le (by linarith [I.le_factor]))
        (I.minPeriod ▸ I.le_period)
  increases calls u hlt := by
    have I := Inv.runs h hn calls
    rw [runs_concat] at hlt
    rcases run_cases ((create m n).runs calls) u.completed u.pending with
      ⟨-, -, heq⟩ | ⟨hu, htol, heq⟩ | ⟨-, heq⟩
    · rw [heq] at hlt
      exact absurd hlt (lt_irrefl _)
    · have hmax := (I.penalty hn).2.1
      rw [heq] at hlt
      have hsince := missesSince_runs h hn calls (hlt.trans_le hmax)
      have hmisses : ((create m n).runs calls).misses.toNat = 49 := by
        have := I.misses_lt
        rw [Tolerance] at htol this
        omega
      exact ⟨hu, hmisses ▸ hsince⟩
    · rw [heq] at hlt
      refine absurd hlt (not_lt.mpr (max_le ?_ (I.minPeriod ▸ I.le_period)))
      exact div_le_self I.period_pos.le (by linarith [I.le_factor])

/-- Tolerated misses only count. -/
theorem runs_replicate (hk : k < 50) :
    (create m n).runs (List.replicate k ⟨0, 0⟩) = { create m n with misses := k } := by
  induction k with
  | zero => rfl
  | succ k ih =>
    rw [List.replicate_succ', runs_concat, ih (by omega), run, if_pos]
    · simp
    · refine ⟨rfl, ?_⟩
      change (k : Int) + 1 < 50
      omega

/-- The last tolerated miss raises the period to `MinBase`, above a smaller maximum. -/
theorem not_staysWithin_of_lt (hn : n < 10) : ¬ StaysWithin m n := by
  intro hstays
  have hle := (hstays.period (List.replicate 49 ⟨0, 0⟩ ++ [⟨0, 0⟩])).2
  rw [runs_concat, runs_replicate (by decide)] at hle
  have hbase : (10 : Rat) ≤ n := (le_max_right ..).trans hle
  exact absurd (by exact_mod_cast hbase) (not_le.mpr hn)

/-- The period stays within its bounds exactly if the maximum is not below `MinBase`. -/
theorem staysWithin_iff (min max : Nat) (h : min < max) : StaysWithin min max ↔ 10 ≤ max :=
  ⟨fun hstays => not_lt.mp fun hlt => not_staysWithin_of_lt hlt hstays, staysWithin_of_le h⟩

theorem staysWithin_10_1000 : StaysWithin 10 1000 :=
  (staysWithin_iff 10 1000 (by decide)).mpr (by decide)

/-- `TAMPI_POLLING_PERIOD=1:5`. -/
theorem not_staysWithin_1_5 : ¬ StaysWithin 1 5 :=
  not_staysWithin_of_lt (by decide)

end SlowStartPollingPeriodCtrl

/-! ## The polling period of a text -/

namespace PollingPeriodCtrl
variable {c : PollingPeriodCtrl} {present : Fin 3 → Bool} {text : Option (List Char)}

def runs (c : PollingPeriodCtrl) (calls : List Units) : PollingPeriodCtrl :=
  calls.foldl (fun c u => (c.getPeriod u.completed u.pending).2) c

theorem create_eq (present : Fin 3 → Bool) (text : Option (List Char)) :
    ∃ (parsed : Bool) (minPeriod maxPeriod : UInt64) (policy : List Char),
      create present text =
      if parsed = false then
        .error "Invalid format TAMPI_POLLING_PERIOD=minperiod[:maxperiod[:policy]]"
      else if minPeriod > maxPeriod then
        .error "TAMPI_POLLING_PERIOD has a minperiod greater than maxperiod"
      else if maxPeriod ≠ minPeriod then
        if policy = "slowstart".toList ∨ policy = "default".toList then
          .ok ⟨minPeriod.toNat, maxPeriod.toNat, policy,
            some (.create minPeriod.toNat maxPeriod.toNat)⟩
        else .error ("TAMPI_POLLING_PERIOD has an invalid policy '" ++ String.ofList policy ++ "'")
      else .ok ⟨minPeriod.toNat, maxPeriod.toNat, policy, none⟩ :=
  ⟨_, _, _, _, rfl⟩

/-- The constructor fails, or installs a static period, or bounds with their dynamic controller. -/
theorem create_cases (h : create present text = .ok c) :
    c.minPeriod = c.maxPeriod ∧ c.dynamicCtrl = none ∨
      c.minPeriod < c.maxPeriod ∧ c.dynamicCtrl = some (.create c.minPeriod c.maxPeriod) := by
  obtain ⟨parsed, minPeriod, maxPeriod, policy, heq⟩ := create_eq present text
  rw [heq] at h
  split at h
  · cases h
  split at h
  · cases h
  next hle =>
  rw [gt_iff_lt, UInt64.lt_iff_toNat_lt] at hle
  split at h
  next hne =>
    split at h
    · cases h
      rw [ne_eq, ← UInt64.toNat_inj] at hne
      exact .inr ⟨by change minPeriod.toNat < maxPeriod.toNat; omega, rfl⟩
    · cases h
  next heq =>
    cases h
    exact .inl ⟨congrArg UInt64.toNat (not_not.mp heq).symm, rfl⟩

theorem runs_static (h : c.dynamicCtrl = none) (calls : List Units) : c.runs calls = c := by
  induction calls with
  | nil => rfl
  | cons u calls ih =>
    rw [runs, List.foldl_cons, getPeriod, h]
    exact ih

theorem runs_dynamic (h : c.dynamicCtrl = some ctrl) (calls : List Units) :
    c.runs calls = { c with dynamicCtrl := some (ctrl.runs calls) } := by
  induction calls generalizing c ctrl with
  | nil =>
    rw [runs, SlowStartPollingPeriodCtrl.runs, List.foldl_nil, List.foldl_nil, ← h]
  | cons u calls ih =>
    rw [runs, List.foldl_cons, getPeriod, h]
    exact ih rfl

/-- Every period is within the bounds of the text, if these are equal or the maximum is not below
`MinBase`. -/
theorem getPeriod_bounds (h : create present text = .ok c)
    (hmax : c.minPeriod < c.maxPeriod → 10 ≤ c.maxPeriod) (calls : List Units) (u : Units) :
    c.minPeriod ≤ ((c.runs calls).getPeriod u.completed u.pending).1 ∧
      ((c.runs calls).getPeriod u.completed u.pending).1 ≤ c.maxPeriod := by
  rcases create_cases h with ⟨heq, hctrl⟩ | ⟨hlt, hctrl⟩
  · rw [runs_static hctrl, getPeriod, hctrl]
    exact ⟨heq.le, le_refl _⟩
  · have hstays := (SlowStartPollingPeriodCtrl.staysWithin_of_le hlt (hmax hlt)).returned calls u
    rw [SlowStartPollingPeriodCtrl.runs_concat] at hstays
    rw [runs_dynamic hctrl]
    exact hstays

theorem create_of_parse {s : List Char} {a b : UInt64} {policy : List Char}
    (hparse : parseThree s ⟨present, 0, 0, []⟩ ':' = (true, ⟨![true, true, true], a, b, policy⟩))
    (h : a < b) (hpolicy : policy = "slowstart".toList ∨ policy = "default".toList) :
    create present (some s) =
      .ok ⟨a.toNat, b.toNat, policy, some (.create a.toNat b.toNat)⟩ := by
  have hle : ¬ a > b := UInt64.not_lt.mpr (UInt64.le_of_lt h)
  have hne : b ≠ a := fun heq => UInt64.lt_irrefl a (heq ▸ h)
  have hread : (EnvironmentVariable.read (some s)
      (Nat.toDigits 10 DefaultPeriodUs.toNat)).value = s := rfl
  rw [create, hread]
  simp only [hparse, Matrix.cons_val, if_true, reduceCtorEq, if_false, if_neg hle, if_pos hne,
    if_pos hpolicy]

/-- A rendered configuration is read back. -/
theorem create_rendered {a b : UInt64} (h : a < b) (policy : List Char)
    (hpolicy : policy = "slowstart".toList ∨ policy = "default".toList) :
    create present (some (Nat.toDigits 10 a.toNat ++
      ':' :: (Nat.toDigits 10 b.toNat ++ ':' :: policy))) =
      .ok ⟨a.toNat, b.toNat, policy, some (.create a.toNat b.toNat)⟩ := by
  have hcomponent : Component ':' policy := by
    rcases hpolicy with rfl | rfl
    · exact ⟨by decide, by decide⟩
    · exact ⟨by decide, by decide⟩
  exact create_of_parse (parseThree_of_accepted (.three (component_toDigits a.toNat)
    (component_toDigits b.toNat) hcomponent (parse_toDigits a) (parse_toDigits b) rfl)) h hpolicy

end PollingPeriodCtrl
end Tampi
