import Mathlib.Algebra.Order.BigOperators.Group.Finset
import Tampi.Theory.Counting
import Tampi.Model.MultiLockFreeQueue

/-! # The pre-queues are bounded FIFOs

`QueueInv` is the invariant of the queues under every interleaving of the producers' and the
consumer's steps: the cached counters are conservative, an element being written lies in the free
part of its ring, an element being read in the occupied part, and what was pushed is what was popped
followed by what the queue holds. -/

namespace Tampi.MultiLockFreeQueue
open Function (update)

variable {P : QueueParams} {m m' : MultiLockFreeQueue T} {q : Nat}

/-- The elements a `push` has reserved slots for and not published. -/
def reserved : Producer T → Nat
  | .write elems _ | .publish elems => elems.length
  | _ => 0

/-- The elements of queue `q` that an `unsafePop` has claimed and not released. -/
def claimed (q : Nat) : Consumer T → Nat
  | .read _ _ q' assigned _ _ _ => if q' = q then assigned else 0
  | _ => 0

def sumRemaining (P : QueueParams) (remaining : Nat → Nat) : Nat :=
  ∑ q ∈ Finset.range P.queues, remaining q

/-- The slots a `push` has written so far hold its elements. -/
def ProducerInv (P : QueueParams) (data : Nat → T) (head : Nat) : Producer T → Prop
  | .write elems i =>
    i < elems.length ∧ Ring.window data P.capacity head i = elems.take i
  | .publish elems => Ring.window data P.capacity head elems.length = elems
  | _ => True

/-- The local variables of a `pop` agree with the cached counters. -/
def ConsumerInv (P : QueueParams) (data : Nat → Nat → T) (tail remaining : Nat → Nat)
    (totalRemaining : Nat) : Consumer T → Prop
  | .refresh goal q total =>
    goal ≠ some 0 ∧ q ≤ P.queues ∧ total = ∑ i ∈ Finset.range q, remaining i
  | .assign n queue0 missing perQueue q left =>
    P.policy = .cyclicRoundRobin ∧ queue0 < P.queues ∧ (∀ q, left q ≤ remaining q) ∧
    totalRemaining = sumRemaining P remaining ∧ n ≤ totalRemaining ∧
    sumRemaining P left + n = sumRemaining P remaining + missing ∧
    q ≤ P.queues ∧ (perQueue ≤ 1 ∨ (P.queues - q) * perQueue ≤ missing)
  | .sweep n i q left vals =>
    P.policy = .cyclicRoundRobin ∧ q < P.queues ∧ (∀ q, left q ≤ remaining q) ∧
    vals.length = i ∧ sumRemaining P remaining + i = sumRemaining P left + n ∧
    totalRemaining + n = sumRemaining P remaining + i
  | .block n i vals =>
    P.policy = .blockRoundRobin ∧ vals.length = i ∧ i ≤ n ∧
    totalRemaining + n = sumRemaining P remaining + i
  | .read n i q assigned left vals chunk =>
    q < P.queues ∧ 0 < assigned ∧ vals.length = i ∧ chunk.length ≤ assigned ∧
    chunk = Ring.window (data q) P.capacity (tail q) chunk.length ∧ i + assigned ≤ n ∧
    totalRemaining + n = sumRemaining P remaining + assigned + i ∧
    (P.policy = .cyclicRoundRobin → (∀ q, left q ≤ remaining q) ∧
      sumRemaining P remaining + assigned + i = sumRemaining P left + n)
  | _ => totalRemaining = sumRemaining P remaining

structure QueueInv (P : QueueParams) (m : MultiLockFreeQueue T) : Prop where
  head_lt : ∀ q, m.head q < P.capacity
  tail_lt : ∀ q, m.tail q < P.capacity
  current_lt : 0 < P.queues → m.current < P.queues
  remaining_le : ∀ q, m.remaining q + claimed q m.consumer ≤ m.length P q
  available_le : ∀ q, m.available q + reserved (m.producer q) + m.length P q < P.capacity
  history : ∀ q, m.pushed q = m.popped q ++ m.contents P q
  producers : ∀ q, ProducerInv P (m.data q) (m.head q) (m.producer q)
  consumer : ConsumerInv P m.data m.tail m.remaining m.totalRemaining m.consumer

/-! ## The counters -/

theorem getRemaining_eq (ht : m.tail q < P.capacity) :
    m.getRemaining P q = m.length P q := by
  have hw := P.lt_word
  unfold getRemaining length Ring.dist
  split
  · rfl
  · unfold add64 sub64
    rw [Nat.mod_eq_of_lt (a := m.head q + 2 ^ 64 - m.tail q) (by omega),
      Nat.mod_eq_sub_mod (by omega), Nat.mod_eq_of_lt (by omega)]
    omega

theorem getAvailable_eq (ht : m.tail q < P.capacity) (hh : m.head q < P.capacity) :
    m.getAvailable P q = P.capacity - (m.length P q + 1) := by
  have hw := P.lt_word
  have hl : m.length P q < P.capacity := Ring.dist_lt ht hh
  unfold getAvailable add64 sub64
  rw [getRemaining_eq ht, Nat.mod_eq_of_lt (a := m.length P q + 1) (by omega),
    Nat.mod_eq_sub_mod (by omega), Nat.mod_eq_of_lt (by omega)]
  omega

theorem slot_eq (hs : start < P.capacity) (hn : n ≤ P.capacity) (hi : i < n) :
    slot P start n i = (start + i) % P.capacity := by
  rw [Ring.add_mod_eq hs (by omega)]
  unfold slot
  split <;> split <;> omega

@[simp] theorem length_contents : (m.contents P q).length = m.length P q := by simp [contents]

theorem length_lt (H : QueueInv P m) : m.length P q < P.capacity :=
  Ring.dist_lt (H.tail_lt q) (H.head_lt q)

/-- The slots from `head` on are the slots from `tail` on, past the occupied ones. -/
theorem head_add_mod (H : QueueInv P m) (i : Nat) :
    (m.head q + i) % P.capacity = (m.tail q + (m.length P q + i)) % P.capacity := by
  conv_lhs => rw [← Ring.add_dist (H.tail_lt q) (H.head_lt q)]
  rw [Nat.mod_add_mod, Nat.add_assoc]
  rfl

theorem QueueInv.init (data : Nat → Nat → T) : QueueInv P (init data) where
  head_lt _ := by have := P.two_le; simp [MultiLockFreeQueue.init]; omega
  tail_lt _ := by have := P.two_le; simp [MultiLockFreeQueue.init]; omega
  current_lt h := h
  remaining_le _ := by simp [MultiLockFreeQueue.init, claimed]
  available_le _ := by
    have := P.two_le
    simp [MultiLockFreeQueue.init, reserved, length]; omega
  history _ := by simp [MultiLockFreeQueue.init, contents, length]
  producers _ := trivial
  consumer := by simp [MultiLockFreeQueue.init, ConsumerInv, sumRemaining]

/-! ## The producer side -/

/-- A step that changes only the cached counter and the call of one producer. -/
theorem QueueInv.setProducer (H : QueueInv P m) (queue a : Nat) (p : Producer T)
    (ha : a + reserved p + m.length P queue < P.capacity)
    (hp : ProducerInv P (m.data queue) (m.head queue) p) :
    QueueInv P { m with
      available := update m.available queue a
      producer := update m.producer queue p } where
  head_lt := H.head_lt
  tail_lt := H.tail_lt
  current_lt := H.current_lt
  remaining_le := H.remaining_le
  available_le q := by
    by_cases hq : q = queue
    · subst hq; simpa [length] using ha
    · simpa [hq, length] using H.available_le q
  history := H.history
  producers q := by
    by_cases hq : q = queue
    · subst hq; simpa using hp
    · simpa [hq] using H.producers q
  consumer := H.consumer

theorem QueueInv.unsafePush (H : QueueInv P m) (hfree : reserved (m.producer queue) = 0)
    (hne : elems ≠ []) (hn : elems.length ≤ m.available queue) :
    QueueInv P (m.unsafePush queue elems) := by
  refine H.setProducer queue _ _ ?_ ⟨List.length_pos_of_ne_nil hne, by simp⟩
  have := H.available_le queue
  simp only [reserved]
  omega

theorem QueueInv.push (H : QueueInv P m) (hfree : (m.producer queue).free) :
    QueueInv P (m.push queue elem) := by
  have hr : reserved (m.producer queue) = 0 := by
    cases h : m.producer queue <;> simp_all [Producer.free, reserved]
  unfold MultiLockFreeQueue.push
  split
  · have := H.setProducer queue (m.available queue) (.refresh elem)
      (by have := H.available_le queue; rw [hr] at this; exact this) trivial
    simpa using this
  · exact H.unsafePush hr (by simp) (by simp; omega)

theorem QueueInv.write (H : QueueInv P m) (hp : m.producer queue = .write elems i)
    (hx : elems[i]? = some x) :
    QueueInv P { m with
      data := update m.data queue
        (update (m.data queue) (slot P (m.head queue) elems.length i) x)
      producer := update m.producer queue
        (if i + 1 < elems.length then .write elems (i + 1) else .publish elems) } := by
  have hav := H.available_le queue
  have hpi := H.producers queue
  rw [hp] at hav hpi
  obtain ⟨hi, hw⟩ := hpi
  simp only [reserved] at hav
  have hslot : slot P (m.head queue) elems.length i =
      (m.tail queue + (m.length P queue + i)) % P.capacity := by
    rw [slot_eq (H.head_lt queue) (by omega) hi, head_add_mod H]
  -- the slot written lies past the occupied part of the ring
  have hfree : ∀ k, k ≤ m.length P queue →
      Ring.window (update (m.data queue) (slot P (m.head queue) elems.length i) x) P.capacity
        (m.tail queue) k = Ring.window (m.data queue) P.capacity (m.tail queue) k := by
    intro k hk
    rw [hslot]
    exact Ring.window_update (H.tail_lt queue) (by omega) (by omega)
  have hwritten : Ring.window (update (m.data queue) (slot P (m.head queue) elems.length i) x)
      P.capacity (m.head queue) (i + 1) = elems.take (i + 1) := by
    rw [slot_eq (H.head_lt queue) (by omega) hi, Ring.window_succ,
      Ring.window_update (H.head_lt queue) (le_refl i) (by omega), hw, Function.update_self]
    rw [List.getElem?_eq_some_iff] at hx
    obtain ⟨_, rfl⟩ := hx
    simp
  exact {
    head_lt := H.head_lt
    tail_lt := H.tail_lt
    current_lt := H.current_lt
    remaining_le := H.remaining_le
    available_le := by
      intro q
      by_cases hq : q = queue
      · subst hq
        have : reserved (if i + 1 < elems.length then .write elems (i + 1) else .publish elems) =
            elems.length := by split <;> rfl
        simpa [length, this] using hav
      · simpa [hq, length] using H.available_le q
    history := by
      intro q
      by_cases hq : q = queue
      · subst hq
        simp only [contents, length, Function.update_self]
        exact (H.history q).trans (congrArg _ (hfree _ (le_refl _)).symm)
      · simpa [hq, contents, length] using H.history q
    producers := by
      intro q
      by_cases hq : q = queue
      · subst hq
        simp only [Function.update_self]
        split
        · exact ⟨‹_›, by simpa using hwritten⟩
        · have hlen : i + 1 = elems.length := by omega
          rw [hlen, List.take_length] at hwritten
          exact hwritten
      · have := H.producers q
        simp only [hq, ne_eq, not_false_eq_true, Function.update_of_ne]
        cases h : m.producer q <;> simp_all [ProducerInv]
    consumer := by
      have hc := H.consumer
      have hrem := H.remaining_le queue
      cases h : m.consumer with
      | read n k q assigned left vals chunk =>
        rw [h] at hc hrem
        obtain ⟨h1, h2, h3, h4, h5, h6⟩ := hc
        refine ⟨h1, h2, h3, h4, ?_, h6⟩
        by_cases hq : q = queue
        · subst hq
          simp only [claimed, if_true] at hrem
          simp only [Function.update_self]
          rw [hfree _ (by omega)]
          exact h5
        · simpa [hq] using h5
      | _ => simpa [h, ConsumerInv] using hc }

theorem QueueInv.publish (H : QueueInv P m) (hp : m.producer queue = .publish elems) :
    QueueInv P { m with
      head := update m.head queue ((m.head queue + elems.length) % P.capacity)
      producer := update m.producer queue (.returned true)
      pushed := update m.pushed queue (m.pushed queue ++ elems) } := by
  have hav := H.available_le queue
  have hpi := H.producers queue
  rw [hp] at hav hpi
  simp only [reserved] at hav
  simp only [ProducerInv] at hpi
  have hlen : Ring.dist P.capacity (m.tail queue) ((m.head queue + elems.length) % P.capacity) =
      Ring.dist P.capacity (m.tail queue) (m.head queue) + elems.length :=
    Ring.dist_advance_head (H.tail_lt queue) (H.head_lt queue) (by simp only [length] at hav; omega)
  simp only [length] at hav
  exact {
    head_lt := by
      intro q
      by_cases hq : q = queue
      · subst hq
        have := P.two_le
        simpa using Nat.mod_lt _ (by omega)
      · simpa [hq] using H.head_lt q
    tail_lt := H.tail_lt
    current_lt := H.current_lt
    remaining_le := by
      intro q
      have := H.remaining_le q
      by_cases hq : q = queue
      · subst hq
        simp only [length] at this
        simp only [length, Function.update_self, hlen]
        omega
      · simpa [hq, length] using this
    available_le := by
      intro q
      by_cases hq : q = queue
      · subst hq
        simp only [length, Function.update_self, hlen, reserved]
        omega
      · simpa [hq, length] using H.available_le q
    history := by
      intro q
      by_cases hq : q = queue
      · subst hq
        simp only [contents, length, Function.update_self, hlen]
        rw [Ring.window_add, Ring.add_dist (H.tail_lt q) (H.head_lt q), hpi, ← List.append_assoc]
        exact congrArg (· ++ elems) (H.history q)
      · simpa [hq, contents, length] using H.history q
    producers := by
      intro q
      by_cases hq : q = queue
      · subst hq; simp [ProducerInv]
      · have := H.producers q
        simp only [hq, ne_eq, not_false_eq_true, Function.update_of_ne]
        cases h : m.producer q <;> simp_all [ProducerInv]
    consumer := H.consumer }

theorem QueueInv.producerStep (H : QueueInv P m) (h : m.producerStep P queue = some m') :
    QueueInv P m' := by
  unfold MultiLockFreeQueue.producerStep at h
  cases hp : m.producer queue with
  | refresh elem =>
    have hr : reserved (m.producer queue) = 0 := by rw [hp]; rfl
    have hl := length_lt H (q := queue)
    have ha := getAvailable_eq (P := P) (H.tail_lt queue) (H.head_lt queue)
    rw [hp] at h
    simp only at h
    split at h
    · cases h
      exact H.setProducer queue _ (.returned false) (by simp only [reserved]; omega) trivial
    · cases h
      have H' := H.setProducer queue (m.getAvailable P queue) (m.producer queue)
        (by rw [hr]; omega) (H.producers queue)
      rw [Function.update_eq_self] at H'
      exact H'.unsafePush hr (by simp) (by simp; omega)
  | write elems i =>
    simp only [hp, Option.map_eq_some_iff] at h
    obtain ⟨x, hx, rfl⟩ := h
    exact H.write hp hx
  | publish elems =>
    simp only [hp, Option.some.injEq] at h
    exact h ▸ H.publish hp
  | idle | returned => simp [hp] at h

/-! ## The consumer side -/

theorem sumRemaining_le {f g : Nat → Nat} (h : ∀ q, f q ≤ g q) :
    sumRemaining P f ≤ sumRemaining P g := Finset.sum_le_sum fun q _ => h q

theorem sumRemaining_update {f : Nat → Nat} (hq : q < P.queues) (h : k ≤ f q) :
    sumRemaining P (update f q (f q - k)) + k = sumRemaining P f := by
  have := Counting.sum_update f hq (f q - k)
  simp only [sumRemaining]
  omega

theorem queues_pos (h : 0 < sumRemaining P f) : 0 < P.queues := by
  by_contra h0
  have : P.queues = 0 := by omega
  simp [sumRemaining, this] at h

/-- A step that changes only the consumer's local state and its cached counters. -/
theorem QueueInv.setConsumer (H : QueueInv P m) (remaining : Nat → Nat) (total current : Nat)
    (c : Consumer T) (hcur : 0 < P.queues → current < P.queues)
    (hrem : ∀ q, remaining q + claimed q c ≤ m.length P q)
    (hc : ConsumerInv P m.data m.tail remaining total c) :
    QueueInv P { m with
      remaining := remaining, totalRemaining := total, current := current, consumer := c } where
  head_lt := H.head_lt
  tail_lt := H.tail_lt
  current_lt := hcur
  remaining_le := hrem
  available_le := H.available_le
  history := H.history
  producers := H.producers
  consumer := hc

/-- The consumer moves to a point where it claims no elements, and the counters of the queues stay as
they are. -/
theorem QueueInv.enter (H : QueueInv P m) (total : Nat) (c : Consumer T)
    (hclaim : ∀ q, claimed q c = 0) (hc : ConsumerInv P m.data m.tail m.remaining total c) :
    QueueInv P { m with totalRemaining := total, consumer := c } := by
  refine H.setConsumer m.remaining total m.current c H.current_lt (fun q => ?_) hc
  rw [hclaim q]
  exact (Nat.le_add_right ..).trans (H.remaining_le q)

/-- The next queue becomes the current one. -/
theorem QueueInv.advance (H : QueueInv P m) : QueueInv P { m with
    current := (m.current + 1) % P.queues } :=
  H.setConsumer m.remaining m.totalRemaining _ m.consumer (fun h => Nat.mod_lt _ h) H.remaining_le
    H.consumer

/-- The share of a queue is one element, or the queues can all give their share. -/
theorem share_le (missing queues : Nat) : max (missing / queues) 1 ≤ 1 ∨
    (queues - 0) * max (missing / queues) 1 ≤ missing := by
  rcases Nat.lt_or_ge (missing / queues) 2 with h | h
  · exact .inl (by omega)
  · refine .inr ?_
    rw [Nat.sub_zero, max_eq_left (by omega)]
    exact Nat.mul_div_le missing queues

/-- Entering the loops of a pop that was promised `n` elements. -/
theorem QueueInv.beginTake (H : QueueInv P m) (hc : m.totalRemaining = sumRemaining P m.remaining)
    (hn : 0 < n) (hle : n ≤ m.totalRemaining) : QueueInv P (m.beginTake P n) := by
  have hq : 0 < P.queues := queues_pos (P := P) (f := m.remaining) (by omega)
  unfold MultiLockFreeQueue.beginTake
  split
  · refine H.enter m.totalRemaining _ (fun _ => rfl) ?_
    exact ⟨‹_›, H.current_lt hq, fun _ => le_refl _, hc, hle, rfl, Nat.zero_le _, share_le ..⟩
  · refine H.enter _ _ (fun _ => rfl) ?_
    exact ⟨‹_›, rfl, Nat.zero_le _, by omega⟩

theorem free_total (H : QueueInv P m) (hf : m.consumer.free) :
    m.totalRemaining = sumRemaining P m.remaining := by
  have := H.consumer
  cases h : m.consumer <;> simp_all [Consumer.free, ConsumerInv]

theorem QueueInv.pop (H : QueueInv P m) (hf : m.consumer.free) : QueueInv P (m.pop P n) := by
  have ht := free_total H hf
  unfold MultiLockFreeQueue.pop
  split
  · exact H.enter m.totalRemaining (.returned []) (fun _ => rfl) ht
  split
  · exact H.enter m.totalRemaining (.refresh (some n) 0 0) (fun _ => rfl)
      ⟨by simpa using ‹_›, Nat.zero_le _, rfl⟩
  · exact H.beginTake ht (by omega) (by omega)

theorem QueueInv.empty (H : QueueInv P m) (hf : m.consumer.free) : QueueInv P m.empty := by
  have ht := free_total H hf
  unfold MultiLockFreeQueue.empty
  split
  · exact H.enter m.totalRemaining (.returnedEmpty false) (fun _ => rfl) ht
  · exact H.enter m.totalRemaining (.refresh none 0 0) (fun _ => rfl)
      ⟨by simp, Nat.zero_le _, rfl⟩

theorem QueueInv.refreshed (H : QueueInv P m) (hr : ∀ q, m.remaining q ≤ m.length P q)
    (ht : total = sumRemaining P m.remaining) (hg : goal ≠ some 0) :
    QueueInv P (m.refreshed P goal total) := by
  unfold MultiLockFreeQueue.refreshed
  have H' := H.setConsumer m.remaining total m.current (.returned []) H.current_lt hr ht
  split
  · exact H.setConsumer m.remaining total m.current (.returnedEmpty _) H.current_lt hr ht
  · rename_i n
    split
    · exact H'
    · have hn : n ≠ 0 := fun h => hg (h ▸ rfl)
      have := H'.beginTake (n := min n total) ht (by omega) (Nat.min_le_right n total)
      unfold MultiLockFreeQueue.beginTake at this ⊢
      split at this <;> exact this

theorem QueueInv.refreshOne (H : QueueInv P m) (hc : m.consumer = .refresh goal q total)
    (hq : q < P.queues) :
    QueueInv P { m with
      remaining := update m.remaining q (m.getRemaining P q)
      consumer := .refresh goal (q + 1) (total + m.getRemaining P q) } := by
  have hci := H.consumer
  rw [hc] at hci
  obtain ⟨hg, _, ht⟩ := hci
  refine H.setConsumer _ m.totalRemaining m.current _ H.current_lt ?_ ⟨hg, hq, ?_⟩
  · intro q'
    by_cases h : q' = q
    · subst h
      simp [claimed, getRemaining_eq (P := P) (H.tail_lt q')]
    · simpa [h, claimed, hc] using H.remaining_le q'
  · rw [Finset.sum_range_succ, Function.update_self, ht]
    congr 1
    refine Finset.sum_congr rfl fun i hi => ?_
    have := Finset.mem_range.mp hi
    exact (Function.update_of_ne (by omega) _ _).symm

/-- One iteration of the loop that deals `missing` elements out to the queues. The share of a
queue never exceeds what is missing, so the unsigned subtraction does not wrap. -/
theorem QueueInv.assignOne (H : QueueInv P m)
    (hc : m.consumer = .assign n queue0 missing perQueue q left)
    (hm : missing ≠ 0) (hq : q < P.queues) :
    min (left m.current) perQueue ≤ missing ∧
    QueueInv P { m with
      current := (m.current + 1) % P.queues
      consumer := .assign n queue0 (missing - min (left m.current) perQueue) perQueue (q + 1)
        (update left m.current (left m.current - min (left m.current) perQueue)) } := by
  have hci := H.consumer
  rw [hc] at hci
  obtain ⟨hpol, h0, hle, ht, hn, hsum, _, hper⟩ := hci
  have hcur := H.current_lt (by omega)
  have hk : ∃ k, P.queues - q = k + 1 ∧ P.queues - (q + 1) = k :=
    ⟨P.queues - q - 1, by omega, by omega⟩
  obtain ⟨k, hk, hk'⟩ := hk
  have hshare : min (left m.current) perQueue ≤ missing := by
    rcases hper with h | h
    · omega
    · rw [hk, Nat.succ_mul] at h
      have := Nat.zero_le (k * perQueue)
      omega
  have hupd := sumRemaining_update (P := P) (f := left) hcur
    (Nat.min_le_left (left m.current) perQueue)
  refine ⟨hshare, H.advance.enter m.totalRemaining _ (fun _ => rfl) ?_⟩
  dsimp only
  refine ⟨hpol, h0, fun q' => ?_, ht, hn, by omega, hq, ?_⟩
  · by_cases h : q' = m.current
    · subst h
      have := hle m.current
      simp only [Function.update_self]
      omega
    · simpa [h] using hle q'
  · rcases hper with h | h
    · exact .inl h
    · refine .inr ?_
      rw [hk, Nat.succ_mul] at h
      rw [hk']
      omega

theorem QueueInv.unsafePop (H : QueueInv P m) (hf : ∀ q, claimed q m.consumer = 0)
    (hq : q < P.queues) (ha : 0 < assigned) (hle : assigned ≤ m.remaining q)
    (hv : vals.length = i) (hi : i + assigned ≤ n)
    (ht : m.totalRemaining + n = sumRemaining P m.remaining + i)
    (hleft : P.policy = .cyclicRoundRobin → (∀ q', left q' ≤ m.remaining q') ∧
      left q + assigned ≤ m.remaining q ∧
      sumRemaining P m.remaining + i = sumRemaining P left + n) :
    QueueInv P (m.unsafePop q assigned n i left vals) := by
  have hupd := sumRemaining_update (P := P) (f := m.remaining) hq hle
  refine H.setConsumer _ m.totalRemaining m.current _ H.current_lt ?_ ?_
  · intro q'
    have := H.remaining_le q'
    rw [hf q'] at this
    by_cases h : q' = q
    · subst h
      simp only [Function.update_self, claimed, if_true]
      omega
    · simpa [h, claimed, Ne.symm h] using this
  · refine ⟨hq, ha, hv, Nat.zero_le _, by simp, hi, by omega, fun hp => ?_⟩
    obtain ⟨h1, h2, h3⟩ := hleft hp
    refine ⟨fun q' => ?_, by omega⟩
    by_cases h : q' = q
    · subst h
      simp only [Function.update_self]
      omega
    · simpa [h] using h1 q'

/-- Reading the slots of a claimed chunk, and releasing them. -/
theorem QueueInv.readOne (H : QueueInv P m) (hc : m.consumer = .read n i q assigned left vals chunk)
    (hlt : chunk.length < assigned) :
    QueueInv P { m with
      consumer := .read n i q assigned left vals
        (chunk ++ [m.data q (slot P (m.tail q) assigned chunk.length)]) } := by
  have hci := H.consumer
  have hrem := H.remaining_le
  rw [hc] at hci hrem
  obtain ⟨hq, ha, hv, _, hchunk, hrest⟩ := hci
  have hl := length_lt H (q := q)
  have hclaim := hrem q
  simp only [claimed, if_true] at hclaim
  refine H.setConsumer m.remaining m.totalRemaining m.current _ H.current_lt
    (fun q' => by simpa [claimed] using hrem q') ?_
  refine ⟨hq, ha, hv, by simpa using Nat.succ_le_of_lt hlt, ?_, hrest⟩
  rw [List.length_append, List.length_singleton, Ring.window_succ, ← hchunk,
    slot_eq (H.tail_lt q) (by omega) hlt]

theorem QueueInv.release (H : QueueInv P m) (hc : m.consumer = .read n i q assigned left vals chunk)
    (hge : ¬chunk.length < assigned) :
    chunk = (m.contents P q).take assigned ∧ assigned ≤ m.length P q ∧
    QueueInv P { m with
      tail := update m.tail q ((m.tail q + assigned) % P.capacity)
      popped := update m.popped q (m.popped q ++ chunk)
      consumer := popLoop P n (i + assigned) q left (vals ++ chunk) } := by
  have hci := H.consumer
  have hrem := H.remaining_le
  rw [hc] at hci hrem
  obtain ⟨hq, ha, hv, hcl, hchunk, hi, ht, hcyc⟩ := hci
  have hlen : chunk.length = assigned := by omega
  have hclaim := hrem q
  simp only [claimed, if_true] at hclaim
  have hle : assigned ≤ m.length P q := by omega
  have htake : chunk = (m.contents P q).take assigned := by
    rw [contents, Ring.window_take hle, ← hlen]
    exact hchunk
  have hdist : Ring.dist P.capacity ((m.tail q + assigned) % P.capacity) (m.head q) =
      m.length P q - assigned := Ring.dist_advance_tail (H.tail_lt q) (H.head_lt q) hle
  refine ⟨htake, hle, ?_⟩
  exact {
    head_lt := H.head_lt
    tail_lt := by
      intro q'
      by_cases h : q' = q
      · subst h
        have := P.two_le
        simpa using Nat.mod_lt _ (by omega)
      · simpa [h] using H.tail_lt q'
    current_lt := H.current_lt
    remaining_le := by
      intro q'
      have h0 : claimed q' (popLoop P n (i + assigned) q left (vals ++ chunk)) = 0 := by
        unfold popLoop
        split <;> rfl
      have := hrem q'
      simp only [h0, length, Function.update_apply]
      split
      · subst q'
        rw [hdist]
        omega
      · simpa [claimed, length, Ne.symm ‹_›] using this
    available_le := by
      intro q'
      have := H.available_le q'
      simp only [length, Function.update_apply]
      split
      · subst q'
        rw [hdist]
        omega
      · exact this
    history := by
      intro q'
      simp only [contents, length, Function.update_apply]
      split
      · subst q'
        rw [hdist, List.append_assoc, ← Ring.window_drop hle, htake]
        exact (H.history q).trans (congrArg _ (List.take_append_drop assigned _).symm)
      · exact H.history q'
    producers := H.producers
    consumer := by
      simp only [popLoop]
      have hvals : (vals ++ chunk).length = i + assigned := by simp; omega
      cases hp : P.policy with
      | cyclicRoundRobin =>
        obtain ⟨hleft, hsum⟩ := hcyc hp
        refine ⟨hp, Nat.mod_lt _ (by omega), hleft, hvals, ?_, ?_⟩ <;> omega
      | blockRoundRobin =>
        exact ⟨hp, hvals, hi, by omega⟩ }

/-- What the sweep takes from a queue is part of what it takes from all of them. -/
theorem sumRemaining_share {remaining : Nat → Nat} (hle : ∀ q, left q ≤ remaining q)
    (hq : q < P.queues) :
    sumRemaining P left + (remaining q - left q) ≤ sumRemaining P remaining := by
  have hupd := sumRemaining_update (P := P) (f := remaining) hq
    (Nat.sub_le (remaining q) (left q))
  have hrest : sumRemaining P left ≤
      sumRemaining P (update remaining q (remaining q - (remaining q - left q))) := by
    refine sumRemaining_le fun q' => ?_
    by_cases h : q' = q
    · subst h
      have := hle q'
      simp only [Function.update_self]
      omega
    · simpa [h] using hle q'
  omega

theorem QueueInv.consumerStep (H : QueueInv P m) (h : m.consumerStep P = some m') :
    QueueInv P m' := by
  have hci := H.consumer
  unfold MultiLockFreeQueue.consumerStep at h
  cases hc : m.consumer with
  | refresh goal q total =>
    rw [hc] at hci
    simp only [hc] at h
    split at h
    · cases h
      exact H.refreshOne hc ‹_›
    · cases h
      obtain ⟨hg, hq, ht⟩ := hci
      have hr := H.remaining_le
      rw [hc] at hr
      exact H.refreshed hr (by rw [ht, sumRemaining, show q = P.queues by omega]) hg
  | assign n queue0 missing perQueue q left =>
    rw [hc] at hci
    obtain ⟨hpol, h0, hle, ht, hn, hsum, hq, hper⟩ := hci
    simp only [hc] at h
    split at h
    · cases h
      exact H.enter _ _ (fun _ => rfl) ⟨hpol, h0, hle, rfl, by omega, by omega⟩
    split at h
    · cases h
      exact (H.assignOne hc ‹_› ‹_›).2
    · cases h
      exact H.enter m.totalRemaining _ (fun _ => rfl)
        ⟨hpol, h0, hle, ht, hn, hsum, Nat.zero_le _, share_le ..⟩
  | sweep n i q left vals =>
    rw [hc] at hci
    obtain ⟨hpol, hq, hle, hv, hsum, ht⟩ := hci
    have hsl := sumRemaining_le (P := P) hle
    simp only [hc] at h
    split at h
    · split at h
      · cases h
        have hshare := sumRemaining_share hle hq
        refine H.unsafePop (fun _ => by rw [hc]; rfl) hq ‹_› (Nat.sub_le _ _) hv (by omega) ht
          fun _ => ⟨hle, ?_, hsum⟩
        have := hle q
        omega
      · cases h
        exact H.enter m.totalRemaining _ (fun _ => rfl)
          ⟨hpol, Nat.mod_lt _ (by omega), hle, hv, hsum, ht⟩
    · cases h
      have : m.totalRemaining = sumRemaining P m.remaining := by omega
      exact H.enter m.totalRemaining (.returned vals) (fun _ => rfl) this
  | block n i vals =>
    rw [hc] at hci
    obtain ⟨hpol, hv, hi, ht⟩ := hci
    simp only [hc] at h
    split at h
    · split at h
      · cases h
        exact H.advance.enter m.totalRemaining (.block n i vals) (fun _ => rfl) ⟨hpol, hv, hi, ht⟩
      · cases h
        have hq : 0 < P.queues := queues_pos (P := P) (f := m.remaining) (by omega)
        exact H.unsafePop (fun _ => by rw [hc]; rfl) (H.current_lt hq) (by omega)
          (Nat.min_le_left _ _) hv (by omega) ht (fun h => by simp [hpol] at h)
    · cases h
      have : m.totalRemaining = sumRemaining P m.remaining := by omega
      exact H.enter m.totalRemaining (.returned vals) (fun _ => rfl) this
  | read n i q assigned left vals chunk =>
    simp only [hc] at h
    split at h
    · cases h
      exact H.readOne hc ‹_›
    · cases h
      exact (H.release hc ‹_›).2.2
  | idle | returned | returnedEmpty => simp [hc] at h

theorem QueueInv.step (H : QueueInv P m) (h : m.step P l = some m') : QueueInv P m' := by
  cases l with
  | push queue elem =>
    simp only [MultiLockFreeQueue.step] at h
    split at h
    · cases h
      exact H.push (by simp_all)
    · cases h
  | producer queue => exact H.producerStep h
  | pop n =>
    simp only [MultiLockFreeQueue.step] at h
    split at h
    · cases h
      exact H.pop ‹_›
    · cases h
  | empty =>
    simp only [MultiLockFreeQueue.step] at h
    split at h
    · cases h
      exact H.empty ‹_›
    · cases h
  | consumer => exact H.consumerStep h

theorem QueueInv.of_reachable (h : (system T P).Reachable m) : QueueInv P m := by
  refine Transition.System.Reachable.rec_inv (M := system T P) ?_ ?_ h
  · rintro _ ⟨data, rfl⟩
    exact .init data
  · intro s l t _ hs H
    exact H.step hs

/-! ## What a step can change -/

/-- The consumer leaves the producers' side alone. -/
structure ConsumerFrame (m m' : MultiLockFreeQueue T) : Prop where
  data : m'.data = m.data
  head : m'.head = m.head
  available : m'.available = m.available
  producer : m'.producer = m.producer
  pushed : m'.pushed = m.pushed

theorem beginTake_frame : ConsumerFrame m (m.beginTake P n) := by
  unfold beginTake
  split <;> exact ⟨rfl, rfl, rfl, rfl, rfl⟩

theorem pop_frame : ConsumerFrame m (m.pop P n) := by
  unfold pop
  split
  · exact ⟨rfl, rfl, rfl, rfl, rfl⟩
  split
  · exact ⟨rfl, rfl, rfl, rfl, rfl⟩
  · exact beginTake_frame

theorem empty_frame : ConsumerFrame m m.empty := by
  unfold empty
  split <;> exact ⟨rfl, rfl, rfl, rfl, rfl⟩

theorem refreshed_frame : ConsumerFrame m (m.refreshed P goal total) := by
  unfold refreshed
  split
  · exact ⟨rfl, rfl, rfl, rfl, rfl⟩
  split
  · exact ⟨rfl, rfl, rfl, rfl, rfl⟩
  · obtain ⟨h1, h2, h3, h4, h5⟩ := beginTake_frame (P := P)
      (m := { m with totalRemaining := total }) (n := min _ total)
    exact ⟨h1, h2, h3, h4, h5⟩

theorem consumerStep_frame (h : m.consumerStep P = some m') : ConsumerFrame m m' := by
  unfold consumerStep at h
  split at h
  · split at h <;> cases h
    · exact ⟨rfl, rfl, rfl, rfl, rfl⟩
    · exact refreshed_frame
  · split at h
    · cases h; exact ⟨rfl, rfl, rfl, rfl, rfl⟩
    · split at h <;> cases h <;> exact ⟨rfl, rfl, rfl, rfl, rfl⟩
  · split at h
    · dsimp only at h
      split at h <;> cases h <;> exact ⟨rfl, rfl, rfl, rfl, rfl⟩
    · cases h; exact ⟨rfl, rfl, rfl, rfl, rfl⟩
  · split at h
    · dsimp only at h
      split at h <;> cases h <;> exact ⟨rfl, rfl, rfl, rfl, rfl⟩
    · cases h; exact ⟨rfl, rfl, rfl, rfl, rfl⟩
  · split at h <;> cases h <;> exact ⟨rfl, rfl, rfl, rfl, rfl⟩
  · cases h

/-- A producer leaves the consumer's side and the other queues alone. -/
structure ProducerFrame (queue : Nat) (m m' : MultiLockFreeQueue T) : Prop where
  tail : m'.tail = m.tail
  remaining : m'.remaining = m.remaining
  totalRemaining : m'.totalRemaining = m.totalRemaining
  current : m'.current = m.current
  consumer : m'.consumer = m.consumer
  popped : m'.popped = m.popped
  data : ∀ q, q ≠ queue → m'.data q = m.data q
  head : ∀ q, q ≠ queue → m'.head q = m.head q
  producer : ∀ q, q ≠ queue → m'.producer q = m.producer q
  pushed : ∀ q, q ≠ queue → m'.pushed q = m.pushed q

theorem push_frame : ProducerFrame queue m (m.push queue elem) := by
  unfold push
  split <;> constructor <;> intros <;> simp_all [unsafePush]

theorem producerStep_frame (h : m.producerStep P queue = some m') : ProducerFrame queue m m' := by
  unfold producerStep at h
  split at h
  · dsimp only at h
    split at h <;> cases h <;> constructor <;> intros <;> simp_all [unsafePush]
  · obtain ⟨x, _, rfl⟩ := Option.map_eq_some_iff.mp h
    constructor <;> intros <;> simp_all
  · cases h
    constructor <;> intros <;> simp_all
  · cases h

/-! ## Bounded FIFOs -/

/-- Only the refresh of an exhausted producer can make a `push` return `false`. -/
theorem returned_false_step (h : m.step P l = some m') (h₀ : m.producer q ≠ .returned false)
    (h₁ : m'.producer q = .returned false) :
    l = .producer q ∧ (∃ elem, m.producer q = .refresh elem) ∧ m.getAvailable P q = 0 := by
  cases l with
  | push queue elem =>
    simp only [step] at h
    split at h
    · cases h
      by_cases hq : q = queue
      · subst hq
        unfold push at h₁
        split at h₁ <;> simp [unsafePush] at h₁
      · rw [push_frame.producer q hq] at h₁
        exact absurd h₁ h₀
    · cases h
  | producer queue =>
    by_cases hq : q = queue
    · subst hq
      refine ⟨rfl, ?_⟩
      simp only [step, producerStep] at h
      split at h
      · rename_i elem hp
        split at h
        · exact ⟨⟨elem, hp⟩, ‹_›⟩
        · cases h
          simp [unsafePush] at h₁
      · obtain ⟨x, _, rfl⟩ := Option.map_eq_some_iff.mp h
        simp only [Function.update_self] at h₁
        split at h₁ <;> cases h₁
      · cases h
        simp at h₁
      · cases h
    · rw [(producerStep_frame h).producer q hq] at h₁
      exact absurd h₁ h₀
  | pop n =>
    simp only [step] at h
    split at h <;> cases h
    rw [pop_frame.producer] at h₁
    exact absurd h₁ h₀
  | empty =>
    simp only [step] at h
    split at h <;> cases h
    rw [empty_frame.producer] at h₁
    exact absurd h₁ h₀
  | consumer =>
    rw [(consumerStep_frame h).producer] at h₁
    exact absurd h₁ h₀

/-- What it means that the queues are bounded FIFOs with conservative caches. -/
structure BoundedFifos (P : QueueParams) (m : MultiLockFreeQueue T) : Prop where
  /-- Nothing is lost, duplicated or reordered: the queue holds the rest of what was pushed. -/
  fifo : ∀ q, m.pushed q = m.popped q ++ m.contents P q
  popped_prefix : ∀ q, m.popped q <+: m.pushed q
  bounded : ∀ q, m.length P q ≤ P.capacity - 1
  remaining_le : ∀ q, m.remaining q ≤ m.length P q
  available_le : ∀ q, m.available q ≤ P.capacity - 1 - m.length P q
  total : m.consumer.free → m.totalRemaining = ∑ q ∈ Finset.range P.queues, m.remaining q
  /-- A slot about to be written holds no element that is still in the queue. -/
  write_free : ∀ q elems i, m.producer q = .write elems i → ∀ k < m.length P q,
    slot P (m.head q) elems.length i ≠ (m.tail q + k) % P.capacity
  /-- A slot about to be read holds the element of the queue that is next to be read. -/
  read_occupied : ∀ n i q assigned left vals chunk,
    m.consumer = .read n i q assigned left vals chunk → chunk.length < assigned →
    (m.contents P q)[chunk.length]? = some (m.data q (slot P (m.tail q) assigned chunk.length))

theorem QueueInv.boundedFifos (H : QueueInv P m) : BoundedFifos P m where
  fifo := H.history
  popped_prefix q := ⟨m.contents P q, (H.history q).symm⟩
  bounded q := by have := length_lt H (q := q); omega
  remaining_le q := by have := H.remaining_le q; omega
  available_le q := by have := H.available_le q; omega
  total := free_total H
  write_free q elems i hp k hk := by
    have hav := H.available_le q
    have hpi := H.producers q
    rw [hp] at hav hpi
    simp only [reserved] at hav
    obtain ⟨hi, _⟩ := hpi
    rw [slot_eq (H.head_lt q) (by omega) hi, head_add_mod H]
    intro h
    have := Ring.add_mod_inj (H.tail_lt q) (by omega) (by omega) h
    omega
  read_occupied n i q assigned left vals chunk hc hlt := by
    have hrem := H.remaining_le q
    rw [hc] at hrem
    simp only [claimed, if_true] at hrem
    have hl := length_lt H (q := q)
    rw [slot_eq (H.tail_lt q) (by omega) hlt, List.getElem?_eq_getElem (by simp; omega)]
    simp [contents, Ring.window_getElem]

/-- Along every interleaving of the producers and the consumer, for every number of queues, every
capacity and both pop policies, each queue is a bounded FIFO, and a `push` returns `false` only
when the queue it just looked at held `capacity - 1` elements. -/
theorem reachable_boundedFifos (h : (system T P).Reachable m) :
    BoundedFifos P m ∧ ∀ l m' q, m.step P l = some m' → m.producer q ≠ .returned false →
      m'.producer q = .returned false → l = .producer q ∧ m.length P q = P.capacity - 1 := by
  have H := QueueInv.of_reachable h
  refine ⟨H.boundedFifos, fun l m' q hs h₀ h₁ => ?_⟩
  obtain ⟨rfl, _, ha⟩ := returned_false_step hs h₀ h₁
  have hl := length_lt H (q := q)
  rw [getAvailable_eq (H.tail_lt q) (H.head_lt q)] at ha
  exact ⟨rfl, by omega⟩

/-- Two queues of one element each; the second `push` on queue 0 finds it full. -/
def demoParams : QueueParams := ⟨2, 2, .cyclicRoundRobin, by decide, by decide⟩

def demoRun : List (QueueLabel Nat) :=
  [.push 0 7, .producer 0, .push 1 8, .producer 0, .producer 0, .pop 2, .producer 1, .consumer,
    .producer 1, .push 0 9, .producer 1, .consumer, .consumer, .consumer, .producer 0, .consumer,
    .consumer, .consumer, .consumer, .consumer]

theorem demoRun_boundedFifos : ∃ m : MultiLockFreeQueue Nat, (system Nat demoParams).Reachable m ∧
    m.pushed 0 = [7] ∧ m.pushed 1 = [8] ∧ m.popped 0 = [7] ∧ m.producer 0 = .returned false ∧
    m.popped 0 <+: m.pushed 0 ∧ m.available 1 ≤ 1 - m.length demoParams 1 := by
  obtain ⟨m, hm⟩ : ∃ m, Transition.System.run (step demoParams) (init fun _ _ => 0) demoRun =
      some m := ⟨_, rfl⟩
  have hr : (system Nat demoParams).Reachable m :=
    ⟨_, _, ⟨_, rfl⟩, .of_run (fun _ _ _ _ h => h) hm⟩
  have hspec := (reachable_boundedFifos hr).1
  have heq := Option.some.inj hm
  refine ⟨m, hr, ?_, ?_, ?_, ?_, hspec.popped_prefix 0, hspec.available_le 1⟩ <;>
    rw [← heq] <;> rfl

end Tampi.MultiLockFreeQueue
