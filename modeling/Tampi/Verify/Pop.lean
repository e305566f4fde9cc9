import Mathlib.Data.Prod.Lex
import Tampi.Verify.MultiLockFreeQueue

/-! # What a pop returns

A `pop` that is not disturbed by producers: `Getting` says how many elements it is about to return,
and every step of the consumer lowers `rest` (`consumerStep_lt`), the scans because they get nearer
to a queue that has something to give. -/

namespace Tampi.MultiLockFreeQueue
open Function (update)

variable {P : QueueParams} {m m' : MultiLockFreeQueue T} {N : Nat}

/-- The elements in all queues. -/
def total (P : QueueParams) (m : MultiLockFreeQueue T) : Nat :=
  ∑ q ∈ Finset.range P.queues, m.length P q

/-- The call of `pop` in progress returns `N` elements, unless there are pushes. -/
def Getting (P : QueueParams) (N : Nat) (m : MultiLockFreeQueue T) : Prop :=
  match m.consumer with
  | .refresh goal q _ =>
    ∃ n, goal = some n ∧ N = min n (m.total P) ∧ ∀ i < q, m.remaining i = m.length P i
  | .assign n _ _ perQueue _ _ => n = N ∧ 0 < perQueue
  | .sweep n .. | .block n .. | .read n .. => n = N
  | .returned vals => vals.length = N
  | _ => False

/-- What is left to do: the phase of the call, and in it the elements to get, then the way to the
next queue or slot to get one from. -/
noncomputable def rest (P : QueueParams) (m : MultiLockFreeQueue T) : Nat ×ₗ Nat ×ₗ Nat ×ₗ Nat :=
  match m.consumer with
  | .refresh _ q _ => toLex (3, toLex (P.queues - q, toLex (0, 0)))
  | .assign _ _ missing _ q left =>
    toLex (2, toLex (missing,
      toLex (Ring.gap (0 < left ·) P.queues m.current, if q < P.queues then 0 else 1)))
  | .sweep n i q left _ =>
    toLex (1, toLex (n - i, toLex (0, Ring.gap (fun q => left q < m.remaining q) P.queues q)))
  | .block n i _ =>
    toLex (1, toLex (n - i, toLex (0, Ring.gap (0 < m.remaining ·) P.queues m.current)))
  | .read n i _ assigned _ _ chunk =>
    toLex (1, toLex (n - (i + assigned), toLex (1, assigned - chunk.length)))
  | _ => toLex (0, toLex (0, toLex (0, 0)))

/-- The steps of the consumer, one constructor for each branch. -/
inductive ConsumerMove (P : QueueParams) (m : MultiLockFreeQueue T) : MultiLockFreeQueue T → Prop
  | refresh : m.consumer = .refresh goal q t → q < P.queues →
    ConsumerMove P m { m with
      remaining := update m.remaining q (m.getRemaining P q)
      consumer := .refresh goal (q + 1) (t + m.getRemaining P q) }
  | refreshed : m.consumer = .refresh goal q t → ¬ q < P.queues →
    ConsumerMove P m (m.refreshed P goal t)
  | dealt : m.consumer = .assign n queue0 missing perQueue q left → missing = 0 →
    ConsumerMove P m { m with
      totalRemaining := m.totalRemaining - n
      consumer := .sweep n 0 queue0 left [] }
  | deal : m.consumer = .assign n queue0 missing perQueue q left → missing ≠ 0 → q < P.queues →
    ConsumerMove P m { m with
      current := (m.current + 1) % P.queues
      consumer := .assign n queue0 (missing - min (left m.current) perQueue) perQueue (q + 1)
        (update left m.current (left m.current - min (left m.current) perQueue)) }
  | redeal : m.consumer = .assign n queue0 missing perQueue q left → missing ≠ 0 →
    ¬ q < P.queues →
    ConsumerMove P m { m with
      consumer := .assign n queue0 missing (max (missing / P.queues) 1) 0 left }
  | take : m.consumer = .sweep n i q left vals → i < n → left q < m.remaining q →
    ConsumerMove P m (m.unsafePop q (m.remaining q - left q) n i left vals)
  | skip : m.consumer = .sweep n i q left vals → i < n → ¬ left q < m.remaining q →
    ConsumerMove P m { m with consumer := .sweep n i ((q + 1) % P.queues) left vals }
  | swept : m.consumer = .sweep n i q left vals → ¬ i < n →
    ConsumerMove P m { m with consumer := .returned vals }
  | blockTake : m.consumer = .block n i vals → i < n → 0 < m.remaining m.current →
    ConsumerMove P m
      (m.unsafePop m.current (min (m.remaining m.current) (n - i)) n i m.remaining vals)
  | blockSkip : m.consumer = .block n i vals → i < n → ¬ 0 < m.remaining m.current →
    ConsumerMove P m { m with current := (m.current + 1) % P.queues }
  | blocked : m.consumer = .block n i vals → ¬ i < n →
    ConsumerMove P m { m with consumer := .returned vals }
  | read : m.consumer = .read n i q assigned left vals chunk → chunk.length < assigned →
    ConsumerMove P m { m with
      consumer := .read n i q assigned left vals
        (chunk ++ [m.data q (slot P (m.tail q) assigned chunk.length)]) }
  | release : m.consumer = .read n i q assigned left vals chunk → ¬ chunk.length < assigned →
    ConsumerMove P m { m with
      tail := update m.tail q ((m.tail q + assigned) % P.capacity)
      popped := update m.popped q (m.popped q ++ chunk)
      consumer := popLoop P n (i + assigned) q left (vals ++ chunk) }

theorem consumerMove_of_step (h : m.consumerStep P = some m') : ConsumerMove P m m' := by
  unfold consumerStep at h
  split at h
  next hc =>
    split at h <;> cases h
    · exact .refresh hc ‹_›
    · exact .refreshed hc ‹_›
  next hc =>
    split at h
    · cases h
      exact .dealt hc ‹_›
    · split at h <;> cases h
      · exact .deal hc ‹_› ‹_›
      · exact .redeal hc ‹_› ‹_›
  next hc =>
    split at h
    · dsimp only at h
      split at h <;> cases h
      · exact .take hc ‹_› (by omega)
      · exact .skip hc ‹_› (by omega)
    · cases h
      exact .swept hc ‹_›
  next hc =>
    split at h
    · dsimp only at h
      split at h <;> cases h
      · exact .blockSkip hc ‹_› (by omega)
      · exact .blockTake hc ‹_› (by omega)
    · cases h
      exact .blocked hc ‹_›
  next hc =>
    split at h <;> cases h
    · exact .read hc ‹_›
    · exact .release hc ‹_›
  · cases h

theorem exists_consumerStep (h : m.consumer.free = false) : ∃ m', m.consumerStep P = some m' := by
  cases hc : m.consumer with
  | idle | returned | returnedEmpty => simp [hc, Consumer.free] at h
  | refresh | assign | sweep | block | read =>
    simp only [consumerStep, hc]
    split_ifs <;> exact ⟨_, rfl⟩

/-! ## The number of elements -/

theorem Getting.beginTake (hn : n = N) : Getting P N (m.beginTake P n) := by
  unfold MultiLockFreeQueue.beginTake
  split
  · exact ⟨hn, Nat.lt_of_lt_of_le Nat.zero_lt_one (Nat.le_max_right ..)⟩
  · exact hn

theorem sumRemaining_le_total (H : QueueInv P m) : sumRemaining P m.remaining ≤ m.total P :=
  Finset.sum_le_sum fun q _ => (Nat.le_add_right ..).trans (H.remaining_le q)

theorem Getting.pop (H : QueueInv P m) (hf : m.consumer.free) :
    Getting P (min n (m.total P)) (m.pop P n) := by
  have hsum := free_total H hf
  have hle := sumRemaining_le_total H
  unfold MultiLockFreeQueue.pop
  split
  next h =>
    change 0 = _
    rw [h, Nat.zero_min]
  split
  · exact ⟨n, rfl, rfl, fun i hi => absurd hi (Nat.not_lt_zero i)⟩
  · exact .beginTake (Nat.min_eq_left (by omega)).symm

theorem Getting.refreshed (hg : goal = some n) (ht : t = m.total P) (hN : N = min n (m.total P)) :
    Getting P N (m.refreshed P goal t) := by
  subst hg
  simp only [MultiLockFreeQueue.refreshed]
  split
  next h0 =>
    change 0 = N
    rw [hN, ← ht, h0, Nat.min_zero]
  next => exact .beginTake (by rw [hN, ht])

theorem Getting.move (H : QueueInv P m) (G : Getting P N m) (h : ConsumerMove P m m') :
    Getting P N m' := by
  have hci := H.consumer
  cases h with
  | @refresh goal q t hc hq =>
    rw [Getting, hc] at G
    obtain ⟨n, rfl, hN, hall⟩ := G
    refine ⟨n, rfl, hN, fun i hi => ?_⟩
    change update m.remaining q (m.getRemaining P q) i = m.length P i
    by_cases h : i = q
    · subst h
      rw [Function.update_self, getRemaining_eq (H.tail_lt i)]
    · rw [Function.update_of_ne h]
      exact hall i (by omega)
  | @refreshed goal q t hc hq =>
    rw [Getting, hc] at G
    obtain ⟨n, rfl, hN, hall⟩ := G
    rw [hc] at hci
    obtain ⟨-, hle, ht⟩ := hci
    refine .refreshed rfl ?_ hN
    rw [ht, show q = P.queues by omega]
    exact Finset.sum_congr rfl fun i hi => hall i (by have := Finset.mem_range.mp hi; omega)
  | dealt hc | take hc | skip hc | blockTake hc =>
    rw [Getting, hc] at G
    first | exact G | exact G.1
  | deal hc =>
    rw [Getting, hc] at G
    exact G
  | redeal hc =>
    rw [Getting, hc] at G
    exact ⟨G.1, Nat.lt_of_lt_of_le Nat.zero_lt_one (Nat.le_max_right ..)⟩
  | swept hc hi =>
    rw [Getting, hc] at G
    rw [hc] at hci
    obtain ⟨-, -, hle, hv, hsum, -⟩ := hci
    have := sumRemaining_le (P := P) hle
    change _ = N
    omega
  | blockSkip hc =>
    rw [Getting, hc] at G
    simpa only [Getting, hc] using G
  | blocked hc hi =>
    rw [Getting, hc] at G
    rw [hc] at hci
    obtain ⟨-, hv, hle, -⟩ := hci
    change _ = N
    omega
  | read hc =>
    rw [Getting, hc] at G
    exact G
  | release hc =>
    rw [Getting, hc] at G
    cases hp : P.policy <;> simp only [Getting, popLoop, hp] <;> exact G

/-! ## Termination -/

theorem exists_pos_of_sumRemaining {f : Nat → Nat} (h : 0 < sumRemaining P f) :
    ∃ q < P.queues, 0 < f q := by
  by_contra hno
  push Not at hno
  have : sumRemaining P f = 0 :=
    Finset.sum_eq_zero fun q hq => Nat.le_zero.mp (hno q (Finset.mem_range.mp hq))
  omega

theorem exists_lt_of_sumRemaining {f g : Nat → Nat} (h : sumRemaining P f < sumRemaining P g) :
    ∃ q < P.queues, f q < g q := by
  by_contra hno
  push Not at hno
  have : sumRemaining P g ≤ sumRemaining P f :=
    Finset.sum_le_sum fun q hq => hno q (Finset.mem_range.mp hq)
  omega

theorem rest_beginTake_lt : (m.beginTake P n).rest P < toLex (3, x) := by
  unfold MultiLockFreeQueue.beginTake
  split <;> exact Prod.Lex.left _ _ (by decide)

theorem rest_refreshed_lt : (m.refreshed P goal t).rest P < toLex (3, x) := by
  unfold MultiLockFreeQueue.refreshed
  split
  · exact Prod.Lex.left _ _ (by decide)
  split
  · exact Prod.Lex.left _ _ (by decide)
  · exact rest_beginTake_lt

theorem rest_move_lt (H : QueueInv P m) (G : Getting P N m) (h : ConsumerMove P m m') :
    m'.rest P < m.rest P := by
  have hci := H.consumer
  cases h with
  | refresh hc hq =>
    simp only [rest, hc]
    exact Prod.Lex.right _ (Prod.Lex.left _ _ (by omega))
  | refreshed hc =>
    rw [rest.eq_def P m, hc]
    exact rest_refreshed_lt
  | dealt hc =>
    simp only [rest, hc]
    exact Prod.Lex.left _ _ (by decide)
  | @deal n queue0 missing perQueue q left hc hm hq =>
    rw [Getting, hc] at G
    obtain ⟨hshare, -⟩ := H.assignOne hc hm hq
    rw [hc] at hci
    obtain ⟨-, -, -, ht, hn, hsum, -, -⟩ := hci
    have hcur := H.current_lt (by omega)
    have hsome := exists_pos_of_sumRemaining (P := P) (f := left) (by omega)
    simp only [rest, hc]
    refine Prod.Lex.right _ ?_
    by_cases hpos : 0 < left m.current
    · have := G.2
      exact Prod.Lex.left _ _ (by omega)
    · have hz : min (left m.current) perQueue = 0 := by omega
      rw [hz, Nat.sub_zero, Nat.sub_zero, Function.update_eq_self]
      exact Prod.Lex.right _ (Prod.Lex.left _ _ (Ring.gap_lt hcur hsome hpos))
  | redeal hc hm hq =>
    rw [hc] at hci
    obtain ⟨-, hq0, -⟩ := hci
    simp only [rest, hc, if_neg hq, if_pos (Nat.zero_lt_of_lt hq0)]
    exact Prod.Lex.right _ (Prod.Lex.right _ (Prod.Lex.right _ Nat.zero_lt_one))
  | take hc hi hlt =>
    simp only [rest, hc, MultiLockFreeQueue.unsafePop]
    exact Prod.Lex.right _ (Prod.Lex.left _ _ (by omega))
  | @skip n i q left vals hc hi hlt =>
    rw [hc] at hci
    obtain ⟨-, hq, -, -, hsum, -⟩ := hci
    have hsome := exists_lt_of_sumRemaining (P := P) (f := left) (g := m.remaining) (by omega)
    simp only [rest, hc]
    exact Prod.Lex.right _ (Prod.Lex.right _ (Prod.Lex.right _ (Ring.gap_lt hq hsome hlt)))
  | swept hc | blocked hc =>
    simp only [rest, hc]
    exact Prod.Lex.left _ _ (by decide)
  | blockTake hc hi hpos =>
    simp only [rest, hc, MultiLockFreeQueue.unsafePop]
    exact Prod.Lex.right _ (Prod.Lex.left _ _ (by omega))
  | blockSkip hc hi hpos =>
    rw [hc] at hci
    obtain ⟨-, -, -, ht⟩ := hci
    have hsome := exists_pos_of_sumRemaining (P := P) (f := m.remaining) (by omega)
    obtain ⟨q, hq, -⟩ := id hsome
    simp only [rest, hc]
    exact Prod.Lex.right _ (Prod.Lex.right _ (Prod.Lex.right _
      (Ring.gap_lt (H.current_lt (by omega)) hsome hpos)))
  | read hc hlt =>
    simp only [rest, hc, List.length_append, List.length_singleton]
    exact Prod.Lex.right _ (Prod.Lex.right _ (Prod.Lex.right _ (by omega)))
  | release hc =>
    cases hp : P.policy <;> simp only [rest, hc, popLoop, hp] <;>
      exact Prod.Lex.right _ (Prod.Lex.right _ (Prod.Lex.left _ _ Nat.zero_lt_one))

/-! ## The elements taken -/

@[simp] theorem vals_beginTake : (m.beginTake P n).consumer.vals = [] := by
  unfold beginTake
  split <;> rfl

@[simp] theorem popped_beginTake : (m.beginTake P n).popped = m.popped := by
  unfold beginTake
  split <;> rfl

@[simp] theorem vals_pop : (m.pop P n).consumer.vals = [] := by
  unfold MultiLockFreeQueue.pop
  split_ifs
  · rfl
  · rfl
  · exact vals_beginTake

@[simp] theorem popped_pop : (m.pop P n).popped = m.popped := by
  unfold MultiLockFreeQueue.pop
  split_ifs
  · rfl
  · rfl
  · exact popped_beginTake

theorem refreshed_vals : (m.refreshed P goal t).consumer.vals = [] ∧
    (m.refreshed P goal t).popped = m.popped := by
  unfold MultiLockFreeQueue.refreshed
  split
  · exact ⟨rfl, rfl⟩
  split
  · exact ⟨rfl, rfl⟩
  · exact ⟨vals_beginTake, popped_beginTake⟩

/-- What the call has taken so far, of the elements that were there. -/
structure Popping (P : QueueParams) (N : Nat) (m₀ m : MultiLockFreeQueue T) : Prop where
  inv : QueueInv P m
  getting : Getting P N m
  pushed : m.pushed = m₀.pushed
  popped : ∀ q, m₀.popped q <+: m.popped q
  vals : ∑ q ∈ Finset.range P.queues, (m.popped q : Multiset T) =
    ∑ q ∈ Finset.range P.queues, (m₀.popped q : Multiset T) + (m.consumer.vals : Multiset T)

theorem Popping.pop (H : QueueInv P m) (hf : m.consumer.free) :
    Popping P (min n (m.total P)) m (m.pop P n) where
  inv := H.pop hf
  getting := .pop H hf
  pushed := pop_frame.pushed
  popped q := by rw [popped_pop]
  vals := by rw [popped_pop, vals_pop, Multiset.coe_nil, add_zero]

/-- The elements of a chunk leave their queue for the output array. -/
theorem taken_of_move (H : QueueInv P m) (h : ConsumerMove P m m') :
    m'.popped = m.popped ∧ m'.consumer.vals = m.consumer.vals ∨
      ∃ q < P.queues, ∃ chunk, m'.popped = update m.popped q (m.popped q ++ chunk) ∧
        m'.consumer.vals = m.consumer.vals ++ chunk := by
  cases h with
  | refreshed hc =>
    obtain ⟨hv, hp⟩ := refreshed_vals (P := P) (m := m)
    refine .inl ⟨hp, ?_⟩
    rw [hv, hc]
    rfl
  | refresh hc | dealt hc | deal hc | redeal hc | take hc | skip hc | swept hc | blockTake hc =>
    rw [hc]
    exact .inl ⟨rfl, rfl⟩
  | blockSkip hc | blocked hc | read hc =>
    rw [hc]
    exact .inl ⟨rfl, rfl⟩
  | @release n i q assigned left vals chunk hc hge =>
    have hci := H.consumer
    rw [hc] at hci
    refine .inr ⟨q, hci.1, chunk, rfl, ?_⟩
    rw [hc]
    change (popLoop P n (i + assigned) q left (vals ++ chunk)).vals = vals ++ chunk
    unfold popLoop
    split <;> rfl

theorem Popping.move (p : Popping P N m₀ m) (h : m.consumerStep P = some m') :
    Popping P N m₀ m' := by
  have hmove := consumerMove_of_step h
  refine ⟨p.inv.consumerStep h, p.getting.move p.inv hmove,
    (consumerStep_frame h).pushed.trans p.pushed, ?_, ?_⟩
  · intro q
    rcases taken_of_move p.inv hmove with ⟨hp, -⟩ | ⟨q', -, chunk, hp, -⟩
    · rw [hp]
      exact p.popped q
    · refine (p.popped q).trans ?_
      rw [hp]
      by_cases hq : q = q'
      · subst hq
        rw [Function.update_self]
        exact List.prefix_append ..
      · rw [Function.update_of_ne hq]
  · rcases taken_of_move p.inv hmove with ⟨hp, hv⟩ | ⟨q, hq, chunk, hp, hv⟩
    · rw [hp, hv]
      exact p.vals
    · have hsum := Counting.sum_of_eq_off (fun q => (m.popped q : Multiset T))
        (fun q' => (m'.popped q' : Multiset T)) hq
        (fun q' hne => by rw [hp, Function.update_of_ne hne])
      have hq' : (m'.popped q : Multiset T) = m.popped q + chunk := by
        rw [hp, Function.update_self, ← Multiset.coe_add]
      rw [hq', p.vals, ← add_assoc, add_right_comm] at hsum
      rw [hv, ← Multiset.coe_add, ← add_assoc]
      exact add_right_cancel hsum

/-- An undisturbed call returns; `J` is what else its steps keep. -/
theorem Popping.returns {J : MultiLockFreeQueue T → Prop} (p : Popping P N m₀ m) (hm : J m)
    (hJ : ∀ s t, Popping P N m₀ s → J s → s.consumerStep P = some t → J t) :
    ∃ k m' vals, Transition.System.run (step P) m (List.replicate k .consumer) = some m' ∧
      m'.consumer = .returned vals ∧ Popping P N m₀ m' ∧ J m' := by
  obtain ⟨k, m', hrun, ⟨p', hj⟩, hend⟩ := Transition.System.exists_run_replicate (f := step P)
    (l := QueueLabel.consumer) (I := fun m => Popping P N m₀ m ∧ J m) (μ := rest P)
    (fun s t hs h => ⟨⟨hs.1.move h, hJ s t hs.1 hs.2 h⟩,
      rest_move_lt hs.1.inv hs.1.getting (consumerMove_of_step h)⟩) m ⟨p, hm⟩
  have hfree : m'.consumer.free = true := by
    by_contra hno
    obtain ⟨t, ht⟩ := exists_consumerStep (P := P) (Bool.eq_false_of_not_eq_true hno)
    exact absurd (hend.symm.trans ht) (by simp)
  have hgetting := p'.getting
  cases hc : m'.consumer with
  | returned vals => exact ⟨k, m', vals, hrun, hc, p', hj⟩
  | idle | returnedEmpty =>
    rw [Getting, hc] at hgetting
    exact hgetting.elim
  | refresh | assign | sweep | block | read =>
    rw [hc] at hfree
    cases hfree

/-! ## The producers' side -/

/-- The queues without the producers' caches and calls, which no step of the consumer reads. -/
def forget (pushed : Nat → List T) (m : MultiLockFreeQueue T) : MultiLockFreeQueue T :=
  { m with
    available := fun _ => 0
    producer := fun _ => .idle
    pushed := pushed }

variable {h : Nat → List T}

theorem forget_beginTake : (m.forget h).beginTake P n = (m.beginTake P n).forget h := by
  unfold beginTake
  split <;> rfl

theorem forget_pop : (m.forget h).pop P n = (m.pop P n).forget h := by
  have ht : (m.forget h).totalRemaining = m.totalRemaining := rfl
  simp only [MultiLockFreeQueue.pop, forget_beginTake, ht]
  split_ifs <;> rfl

theorem forget_refreshed :
    (m.forget h).refreshed P goal t = (m.refreshed P goal t).forget h := by
  cases goal with
  | none => rfl
  | some n =>
    simp only [MultiLockFreeQueue.refreshed]
    split_ifs
    · rfl
    · exact forget_beginTake (m := { m with totalRemaining := t })

theorem forget_consumerStep :
    (m.forget h).consumerStep P = (m.consumerStep P).map (forget h) := by
  have hc : (m.forget h).consumer = m.consumer := rfl
  unfold consumerStep
  rw [hc]
  cases m.consumer with
  | idle | returned | returnedEmpty => rfl
  | refresh goal q t =>
    dsimp only
    split_ifs
    · rfl
    · exact congrArg some forget_refreshed
  | assign n queue0 missing perQueue q left =>
    dsimp only
    split_ifs <;> rfl
  | sweep n i q left vals =>
    dsimp only
    rw [apply_ite (Option.map (forget h)), apply_ite (Option.map (forget h))]
    rfl
  | block n i vals =>
    dsimp only
    rw [apply_ite (Option.map (forget h)), apply_ite (Option.map (forget h))]
    rfl
  | read n i q assigned left vals chunk =>
    dsimp only
    split_ifs <;> rfl

theorem forget_run (k : Nat) :
    Transition.System.run (step P) (m.forget h) (List.replicate k .consumer) =
      (Transition.System.run (step P) m (List.replicate k .consumer)).map (forget h) := by
  induction k generalizing m with
  | zero => rfl
  | succ k ih =>
    simp only [List.replicate_succ, Transition.System.run, step]
    rw [forget_consumerStep]
    cases m.consumerStep P with
    | none => rfl
    | some t => exact ih

/-! ## The result of a pop -/

/-- No call is in progress and the consumer's counters are conservative. -/
structure Consistent (P : QueueParams) (m : MultiLockFreeQueue T) : Prop where
  free : m.consumer.free
  head_lt : ∀ q, m.head q < P.capacity
  tail_lt : ∀ q, m.tail q < P.capacity
  current_lt : m.current < P.queues
  remaining_le : ∀ q, m.remaining q ≤ m.length P q
  total_eq : m.totalRemaining = ∑ q ∈ Finset.range P.queues, m.remaining q

/-- The unsigned subtractions of the next step do not wrap, and `unsafePop` is asked for no more
than the counter of the queue has. -/
def InRange (P : QueueParams) (m : MultiLockFreeQueue T) : Prop :=
  (match m.consumer with
    | .assign n _ missing perQueue q left =>
      n ≤ m.totalRemaining ∧
        (missing ≠ 0 → q < P.queues → min (left m.current) perQueue ≤ missing)
    | .sweep _ _ q left _ => left q ≤ m.remaining q
    | .block n i _ => i ≤ n
    | _ => True) ∧
  ∀ q assigned n i left vals,
    m.consumerStep P = some (m.unsafePop q assigned n i left vals) → assigned ≤ m.remaining q

theorem Consistent.queueInv (hm : Consistent P m) :
    QueueInv P (m.forget fun q => m.popped q ++ m.contents P q) where
  head_lt := hm.head_lt
  tail_lt := hm.tail_lt
  current_lt _ := hm.current_lt
  remaining_le q := by
    have hzero : claimed q m.consumer = 0 := by
      have := hm.free
      cases h : m.consumer <;> simp_all [Consumer.free, claimed]
    exact (congrArg (m.remaining q + ·) hzero).trans_le (hm.remaining_le q)
  available_le q := by
    change 0 + 0 + m.length P q < P.capacity
    have : m.length P q < P.capacity := Ring.dist_lt (hm.tail_lt q) (hm.head_lt q)
    omega
  history q := rfl
  producers q := trivial
  consumer := by
    have hfree := hm.free
    change ConsumerInv P m.data m.tail m.remaining m.totalRemaining m.consumer
    cases h : m.consumer with
    | idle | returned | returnedEmpty => exact hm.total_eq
    | refresh | assign | sweep | block | read =>
      rw [h] at hfree
      cases hfree

theorem unsafePop_le
    (h : m.consumerStep P = some (m.unsafePop q assigned n i left vals)) :
    assigned ≤ m.remaining q := by
  generalize ht : m.unsafePop q assigned n i left vals = t at h
  have hread : t.consumer = .read n i q assigned left vals [] := ht ▸ rfl
  cases consumerMove_of_step h with
  | take =>
    cases hread
    exact Nat.sub_le ..
  | blockTake =>
    cases hread
    exact Nat.min_le_left ..
  | read hc => simp at hread
  | release =>
    simp only [popLoop] at hread
    split at hread <;> cases hread
  | refreshed hc =>
    simp only [MultiLockFreeQueue.refreshed, MultiLockFreeQueue.beginTake] at hread
    split at hread
    · cases hread
    · split_ifs at hread
      split at hread <;> cases hread
  | refresh | dealt | deal | redeal | skip | swept | blocked => cases hread
  | blockSkip hc =>
    rw [hc] at hread
    cases hread

theorem QueueInv.inRange (H : QueueInv P m) : InRange P m := by
  refine ⟨?_, fun q assigned n i left vals => unsafePop_le⟩
  have hci := H.consumer
  cases hc : m.consumer with
  | assign n queue0 missing perQueue q left =>
    rw [hc] at hci
    exact ⟨hci.2.2.2.2.1, fun hm hq => (H.assignOne hc hm hq).1⟩
  | sweep n i q left vals =>
    rw [hc] at hci
    exact hci.2.2.1 q
  | block n i vals =>
    rw [hc] at hci
    exact hci.2.2.1
  | idle | refresh | read | returned | returnedEmpty => trivial

theorem forget_inRange (hm : InRange P (m.forget h)) : InRange P m := by
  refine ⟨hm.1, fun q assigned n i left vals hstep => ?_⟩
  refine hm.2 q assigned n i left vals ?_
  rw [forget_consumerStep, hstep]
  rfl

theorem Popping.run (p : Popping P N m₀ m)
    (hrun : Transition.System.run (step P) m (List.replicate k .consumer) = some m') :
    Popping P N m₀ m' := by
  induction k generalizing m with
  | zero =>
    cases hrun
    exact p
  | succ k ih =>
    obtain ⟨t, ht, hrun⟩ := Option.bind_eq_some_iff.mp hrun
    exact ih (p.move ht) hrun

theorem sum_coe_eq_flatMap (f : Nat → List T) (n : Nat) :
    ∑ q ∈ Finset.range n, (f q : Multiset T) = ((List.range n).flatMap f : List T) := by
  induction n with
  | zero => rfl
  | succ n ih =>
    rw [Finset.sum_range_succ, ih, List.range_succ, List.flatMap_append, ← Multiset.coe_add,
      List.flatMap_singleton]

/-- What the call took from each queue: the front of what was in it. -/
theorem Popping.taken (p : Popping P N m₀ m) (hm : QueueInv P m₀) :
    ∃ taken : Nat → List T, (∀ q, m₀.contents P q = taken q ++ m.contents P q) ∧
      m.consumer.vals.Perm ((List.range P.queues).flatMap taken) := by
  choose taken htaken using p.popped
  refine ⟨taken, fun q => ?_, ?_⟩
  · have hpushed : m.pushed q = m₀.pushed q := congrFun p.pushed q
    rw [p.inv.history q, hm.history q, ← htaken q, List.append_assoc] at hpushed
    exact (List.append_cancel_left hpushed).symm
  · rw [← Multiset.coe_eq_coe, ← sum_coe_eq_flatMap]
    have hvals := p.vals
    simp only [← htaken, ← Multiset.coe_add, Finset.sum_add_distrib] at hvals
    exact (add_left_cancel hvals).symm

theorem length_flatMap_range (f : Nat → List T) (n : Nat) :
    ((List.range n).flatMap f).length = ∑ q ∈ Finset.range n, (f q).length := by
  induction n with
  | zero => rfl
  | succ n ih =>
    rw [List.range_succ, List.flatMap_append, List.length_append, ih, Finset.sum_range_succ,
      List.flatMap_singleton]

theorem total_of_taken {taken : Nat → List T}
    (h : ∀ q, m.contents P q = taken q ++ m'.contents P q) :
    m.total P = ((List.range P.queues).flatMap taken).length + m'.total P := by
  rw [length_flatMap_range, total, total, ← Finset.sum_add_distrib]
  refine Finset.sum_congr rfl fun q _ => ?_
  rw [← length_contents, ← length_contents, h q, List.length_append]

/-- What a call of `pop(values, n)` on `m` that ends in `m'` with `vals` in the array has done. -/
structure PopSpec (P : QueueParams) (m : MultiLockFreeQueue T) (n : Nat) (vals : List T)
    (m' : MultiLockFreeQueue T) : Prop where
  returned : m'.consumer = .returned vals
  length_vals : vals.length = min n (m.total P)
  removed : m.total P = vals.length + m'.total P
  taken : ∃ taken : Nat → List T, (∀ q, m.contents P q = taken q ++ m'.contents P q) ∧
    vals.Perm ((List.range P.queues).flatMap taken)
  consistent : Consistent P m'

theorem Popping.popSpec {vals : List T} (p : Popping P (min n (m.total P)) (m.forget h) (m'.forget h))
    (hm : QueueInv P (m.forget h)) (hcur : m.current < P.queues)
    (hret : m'.consumer = .returned vals) : PopSpec P m n vals m' := by
  have hvals : (m'.forget h).consumer.vals = vals := by
    change m'.consumer.vals = vals
    rw [hret]
    rfl
  obtain ⟨taken, htaken, hperm⟩ := p.taken hm
  rw [hvals] at hperm
  refine ⟨hret, ?_, ?_, ⟨taken, htaken, hperm⟩, ?_⟩
  · have hget := p.getting
    rwa [Getting, show (m'.forget h).consumer = .returned vals from hret] at hget
  · rw [hperm.length_eq]
    exact total_of_taken htaken
  · refine ⟨hret ▸ rfl, p.inv.head_lt, p.inv.tail_lt, p.inv.current_lt (by omega), fun q => ?_, ?_⟩
    · exact (Nat.le_add_right ..).trans (p.inv.remaining_le q)
    · have hfree : (m'.forget h).consumer.free := by
        change m'.consumer.free
        rw [hret]
        rfl
      have htotal := free_total p.inv hfree
      exact htotal

/-- A pop without concurrent pushes returns as many elements as there are, up to `n`. -/
theorem pop_available (hm : Consistent P m) (n : Nat) :
    (∃ k m' vals, Transition.System.run (step P) m (.pop n :: List.replicate k .consumer) =
      some m' ∧ PopSpec P m n vals m') ∧
    ∀ k m', Transition.System.run (step P) m (.pop n :: List.replicate k .consumer) = some m' →
      InRange P m' := by
  have H := hm.queueInv
  set h := fun q => m.popped q ++ m.contents P q
  have p : Popping P (min n (m.total P)) (m.forget h) ((m.pop P n).forget h) :=
    forget_pop (P := P) (m := m) ▸ Popping.pop (n := n) H hm.free
  have hpop : ∀ k, Transition.System.run (step P) m (.pop n :: List.replicate k .consumer) =
      Transition.System.run (step P) (m.pop P n) (List.replicate k .consumer) := fun k => by
    simp [Transition.System.run, step, hm.free]
  refine ⟨?_, fun k m' hrun => ?_⟩
  · obtain ⟨k, t, vals, hrun, hret, p', -⟩ := p.returns (J := fun _ => True) trivial
      fun _ _ _ _ _ => trivial
    rw [forget_run] at hrun
    obtain ⟨m', hm', rfl⟩ := Option.map_eq_some_iff.mp hrun
    exact ⟨k, m', vals, (hpop k).trans hm', p'.popSpec H hm.current_lt hret⟩
  · rw [hpop] at hrun
    refine forget_inRange (h := h) (p.run (k := k) ?_).inv.inRange
    rw [forget_run, hrun]
    rfl

/-- Two queues that hold three elements and one, of which the consumer has seen one. -/
def staleQueues : MultiLockFreeQueue Nat where
  data q i := 10 * q + i
  tail _ := 0
  remaining q := if q = 0 then 1 else 0
  head q := if q = 0 then 3 else 1
  available _ := 0
  totalRemaining := 1
  current := 1
  producer _ := .idle
  consumer := .idle
  pushed _ := []
  popped _ := []

def staleParams : QueueParams :=
  ⟨4, 2, .cyclicRoundRobin, Nat.le_add_left 2 2, show 2 ^ 2 < 2 ^ 64 by decide⟩

theorem staleQueues_consistent : Consistent staleParams staleQueues where
  free := rfl
  head_lt q := by
    change (if q = 0 then 3 else 1) < 4
    split <;> decide
  tail_lt q := by
    change 0 < 4
    decide
  current_lt := by decide
  remaining_le q := by
    by_cases hq : q = 0
    · rw [hq]
      decide
    · simp [staleQueues, hq]
  total_eq := by decide

theorem pop_staleQueues : ∃ k m' vals, Transition.System.run (step staleParams) staleQueues
    (.pop 3 :: List.replicate k .consumer) = some m' ∧ vals.length = 3 ∧
      PopSpec staleParams staleQueues 3 vals m' := by
  obtain ⟨k, m', vals, hrun, hspec⟩ := (pop_available staleQueues_consistent 3).1
  exact ⟨k, m', vals, hrun, hspec.length_vals, hspec⟩

end Tampi.MultiLockFreeQueue
