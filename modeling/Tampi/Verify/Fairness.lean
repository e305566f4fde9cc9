import Tampi.Verify.Pop

/-! # The shares of a cyclic pop

The first loop of `cyclicRoundRobinPop` deals in sweeps. Between sweeps all queues have been asked for
the same number of elements (`Dealt`); a sweep stops early only if it deals one element to each
queue, so the shares end max-min fair (`Dealt.fair`). The second loop takes what was dealt. -/

namespace Tampi.MultiLockFreeQueue
open Function (update)

variable {P : QueueParams} {m m₀ m' : MultiLockFreeQueue T} {N : Nat}

/-! ## The deal -/

/-- Queues with `r` elements that are left with `left` of them have been treated max-min fairly: none
has given two more than one that could have given more. -/
def Fair (P : QueueParams) (r left : Nat → Nat) : Prop :=
  ∀ p < P.queues, ∀ q < P.queues, 0 < left q → r p - left p ≤ r q - left q + 1

theorem Fair.congr (h : Fair P r left) (heq : ∀ p < P.queues, left p = left' p) :
    Fair P r left' := by
  intro p hp q hq
  rw [← heq p hp, ← heq q hq]
  exact h p hp q hq

/-- From queue `start` on, the first `q` queues have been asked for `t + perQueue` elements in all,
and the others for `t`. -/
def Dealt (P : QueueParams) (r left : Nat → Nat) (start t perQueue q : Nat) : Prop :=
  ∀ p < P.queues, left p = r p - if Ring.dist P.queues start p < q then t + perQueue else t

variable {r left : Nat → Nat} {start t perQueue q : Nat}

theorem Dealt.restart (h : Dealt P r left s t w P.queues) (hs : s < P.queues) :
    Dealt P r left start (t + w) perQueue 0 := by
  intro p hp
  rw [if_neg (Nat.not_lt_zero _), h p hp, if_pos (Ring.dist_lt hs hp)]

/-- The queue at distance `q` is asked for its share. -/
theorem Dealt.deal (h : Dealt P r left start t perQueue q) (hstart : start < P.queues)
    (hq : q < P.queues) (hc : c = (start + q) % P.queues) :
    Dealt P r (update left c (left c - min (left c) perQueue)) start t perQueue (q + 1) := by
  have hclt : c < P.queues := hc ▸ Nat.mod_lt _ (by omega)
  have hdist : Ring.dist P.queues start c = q := hc ▸ Ring.dist_add hstart hq
  intro p hp
  by_cases hpc : p = c
  · subst hpc
    rw [Function.update_self, if_pos (by omega), h p hp, if_neg (by omega)]
    omega
  · have hne : Ring.dist P.queues start p ≠ q := fun heq => hpc (by
      rw [hc, ← heq, Ring.add_dist hstart hp])
    rw [Function.update_of_ne hpc, h p hp]
    congr 1
    by_cases hlt : Ring.dist P.queues start p < q
    · rw [if_pos hlt, if_pos (by omega)]
    · rw [if_neg hlt, if_neg (by omega)]

/-- A sweep that stops early deals one element to each queue, so the queues it has not come to are
behind by one at most. -/
theorem Dealt.fair (h : Dealt P r left start t perQueue q) (hstart : start < P.queues)
    (hstop : perQueue ≤ 1 ∨ q = P.queues) : Fair P r left := by
  intro p hp p' hp' hpos
  have hlt := Ring.dist_lt hstart hp
  have hlt' := Ring.dist_lt hstart hp'
  rw [h p' hp'] at hpos ⊢
  rw [h p hp]
  split at hpos <;> split <;> omega

/-! ## The call -/

/-- The point of a cyclic pop that uses the counts `r`: how far it has dealt, and what the lengths
of the queues have become. -/
def Dealing (P : QueueParams) (r : Nat → Nat) (m₀ m : MultiLockFreeQueue T) : Prop :=
  match m.consumer with
  | .refresh .. => ∀ p < P.queues, m.length P p = r p ∧ m₀.length P p = r p
  | .assign _ _ _ perQueue q left =>
    (∀ p < P.queues, m.remaining p = r p ∧ m.length P p = m₀.length P p) ∧
      ∃ start t, start < P.queues ∧ m.current = (start + q) % P.queues ∧
        Dealt P r left start t perQueue q
  | .sweep _ _ _ left _ =>
    Fair P r left ∧ ∀ p < P.queues, m.length P p + r p = m.remaining p + m₀.length P p
  | .read _ _ q assigned left _ _ =>
    Fair P r left ∧ ∀ p < P.queues,
      m.length P p + r p = m.remaining p + (if p = q then assigned else 0) + m₀.length P p
  | .returned _ =>
    Fair P r m.remaining ∧ ∀ p < P.queues, m.length P p + r p = m.remaining p + m₀.length P p
  | _ => False

theorem Dealing.beginTake (hP : P.policy = .cyclicRoundRobin) (hcur : m.current < P.queues)
    (h : ∀ p < P.queues, m.remaining p = r p ∧ m.length P p = m₀.length P p) :
    Dealing P r m₀ (m.beginTake P n) := by
  simp only [MultiLockFreeQueue.beginTake, hP]
  refine ⟨h, m.current, 0, hcur, ?_, fun p hp => ?_⟩
  · rw [Nat.add_zero, Nat.mod_eq_of_lt hcur]
  · rw [if_neg (Nat.not_lt_zero _), Nat.sub_zero]
    exact (h p hp).1

theorem length_release (H : QueueInv P m) (hc : m.consumer = .read n i q assigned left vals chunk)
    (hge : ¬ chunk.length < assigned) (m' : MultiLockFreeQueue T)
    (htail : m'.tail = update m.tail q ((m.tail q + assigned) % P.capacity))
    (hhead : m'.head = m.head) (p : Nat) :
    m'.length P p + (if p = q then assigned else 0) = m.length P p := by
  obtain ⟨-, hle, -⟩ := H.release hc hge
  rw [length, length, htail, hhead]
  split
  next hp =>
    rw [length] at hle
    rw [hp, Function.update_self, Ring.dist_advance_tail (H.tail_lt q) (H.head_lt q) hle]
    omega
  next hp => rw [Function.update_of_ne hp, Nat.add_zero]

theorem Dealing.move (H : QueueInv P m) (hP : P.policy = .cyclicRoundRobin)
    (G : Getting P N m) (D : Dealing P r m₀ m) (h : ConsumerMove P m m') : Dealing P r m₀ m' := by
  have hci := H.consumer
  cases h with
  | refresh hc =>
    rw [Dealing, hc] at D
    exact D
  | @refreshed goal q t hc hq =>
    rw [Dealing, hc] at D
    rw [Getting, hc] at G
    obtain ⟨n, rfl, -, hall⟩ := G
    have hrem : ∀ p < P.queues, m.remaining p = r p := fun p hp =>
      (hall p (by omega)).trans (D p hp).1
    simp only [MultiLockFreeQueue.refreshed]
    split
    · refine ⟨fun p hp p' hp' _ => ?_, fun p hp => ?_⟩
      · have := hrem p hp
        change r p - m.remaining p ≤ _
        omega
      · have := D p hp
        have := hrem p hp
        change m.length P p + r p = m.remaining p + m₀.length P p
        omega
    next h0 =>
      have hpos : 0 < P.queues := by
        by_contra hno
        rw [hc] at hci
        have hz : q = 0 := by have := hci.2.1; omega
        exact h0 (by rw [hci.2.2, hz]; rfl)
      exact .beginTake hP (H.current_lt hpos) fun p hp =>
        ⟨hrem p hp, (D p hp).1.trans (D p hp).2.symm⟩
  | @dealt n queue0 missing perQueue q left hc hm =>
    rw [Dealing, hc] at D
    rw [Getting, hc] at G
    rw [hc] at hci
    obtain ⟨hlen, start, t, hstart, -, hdealt⟩ := D
    obtain ⟨-, -, -, -, -, -, hq, hper⟩ := hci
    refine ⟨hdealt.fair hstart (hper.imp_right fun hmul => ?_), fun p hp => ?_⟩
    · rcases Nat.mul_eq_zero.mp (Nat.le_zero.mp (hm ▸ hmul)) with h0 | h0
      · omega
      · exact absurd G.2 (by omega)
    · obtain ⟨hrem, hlen⟩ := hlen p hp
      change m.length P p + r p = m.remaining p + m₀.length P p
      omega
  | @deal n queue0 missing perQueue q left hc hm hq =>
    rw [Dealing, hc] at D
    obtain ⟨hlen, start, t, hstart, hcur, hdealt⟩ := D
    refine ⟨hlen, start, t, hstart, ?_, hdealt.deal hstart hq hcur⟩
    change (m.current + 1) % P.queues = (start + (q + 1)) % P.queues
    rw [hcur, Nat.mod_add_mod, Nat.add_assoc]
  | @redeal n queue0 missing perQueue q left hc hm hq =>
    rw [Dealing, hc] at D
    rw [hc] at hci
    obtain ⟨hlen, start, t, hstart, hcur, hdealt⟩ := D
    have hq' : q = P.queues := Nat.le_antisymm hci.2.2.2.2.2.2.1 (Nat.not_lt.mp hq)
    have hlt : m.current < P.queues := H.current_lt (by omega)
    refine ⟨hlen, m.current, t + perQueue, hlt, ?_, (hq' ▸ hdealt).restart hstart⟩
    rw [Nat.add_zero, Nat.mod_eq_of_lt hlt]
  | @take n i q left vals hc hi hlt =>
    rw [Dealing, hc] at D
    refine ⟨D.1, fun p hp => ?_⟩
    have := D.2 p hp
    change m.length P p + r p = update m.remaining q (m.remaining q - (m.remaining q - left q)) p +
      (if p = q then m.remaining q - left q else 0) + m₀.length P p
    by_cases hpq : p = q
    · subst hpq
      rw [Function.update_self, if_pos rfl]
      omega
    · rw [Function.update_of_ne hpq, if_neg hpq]
      omega
  | skip hc =>
    rw [Dealing, hc] at D
    exact D
  | @swept n i q left vals hc hi =>
    rw [Dealing, hc] at D
    rw [hc] at hci
    obtain ⟨-, -, hle, -, hsum, -⟩ := hci
    have hsums : sumRemaining P left = sumRemaining P m.remaining := by
      have := sumRemaining_le (P := P) hle
      omega
    have heq := (Finset.sum_eq_sum_iff_of_le fun q _ => hle q).mp hsums
    exact ⟨D.1.congr fun p hp => heq p (Finset.mem_range.mpr hp), D.2⟩
  | read hc =>
    rw [Dealing, hc] at D
    exact D
  | @release n i q assigned left vals chunk hc hge =>
    rw [Dealing, hc] at D
    have hlen := length_release H hc hge { m with
      tail := update m.tail q ((m.tail q + assigned) % P.capacity)
      popped := update m.popped q (m.popped q ++ chunk)
      consumer := popLoop P n (i + assigned) q left (vals ++ chunk) } rfl rfl
    simp only [Dealing, popLoop, hP] at hlen ⊢
    refine ⟨D.1, fun p hp => ?_⟩
    have := D.2 p hp
    have := hlen p
    omega
  | blockTake hc | blockSkip hc | blocked hc =>
    rw [Dealing, hc] at D
    exact D.elim

/-- The counts a cyclic pop of `n` elements uses: fresh ones if the cached ones are not enough. -/
def counts (P : QueueParams) (m : MultiLockFreeQueue T) (n : Nat) : Nat → Nat :=
  if m.totalRemaining < n then m.length P else m.remaining

theorem Dealing.pop (hP : P.policy = .cyclicRoundRobin) (hcur : m.current < P.queues) (hn : 0 < n) :
    Dealing P (m.counts P n) m (m.pop P n) := by
  have hne : n ≠ 0 := by omega
  rw [MultiLockFreeQueue.pop, counts, if_neg hne]
  by_cases hlt : m.totalRemaining < n
  · rw [if_pos hlt, if_pos hlt]
    exact fun p _ => ⟨rfl, rfl⟩
  · rw [if_neg hlt, if_neg hlt]
    exact .beginTake hP hcur fun p _ => ⟨rfl, rfl⟩

theorem Dealing.returned (D : Dealing P r m₀ m) (hc : m.consumer = .returned vals)
    {taken : Nat → List T} (htaken : ∀ q, m₀.contents P q = taken q ++ m.contents P q) :
    (∀ q < P.queues, (taken q).length ≤ r q) ∧
      ∀ p < P.queues, ∀ q < P.queues, (taken q).length < r q →
        (taken p).length ≤ (taken q).length + 1 := by
  rw [Dealing, hc] at D
  have hr : ∀ q < P.queues, r q = m.remaining q + (taken q).length := by
    intro q hq
    have hlen := congrArg List.length (htaken q)
    rw [length_contents, List.length_append, length_contents] at hlen
    have := D.2 q hq
    omega
  refine ⟨fun q hq => by rw [hr q hq]; omega, fun p hp q hq hlt => ?_⟩
  have hfair := D.1 p hp q hq (by have := hr q hq; omega)
  rw [hr p hp, hr q hq] at hfair
  omega

theorem sum_counts_le (hm : Consistent P m) :
    ∑ q ∈ Finset.range P.queues, m.counts P n q ≤ m.total P := by
  refine Finset.sum_le_sum fun q _ => ?_
  unfold counts
  split
  · exact le_refl _
  · exact hm.remaining_le q

/-- The elements that a cyclic pop takes are shared max-min fairly among the queues. -/
theorem cyclic_pop_fair (hP : P.policy = .cyclicRoundRobin) (hm : Consistent P m) (n : Nat)
    (hn : 0 < n) (hle : n ≤ ∑ q ∈ Finset.range P.queues, m.counts P n q) :
    ∃ k m' vals, Transition.System.run (step P) m (.pop n :: List.replicate k .consumer) =
        some m' ∧ m'.consumer = .returned vals ∧
      ∃ taken : Nat → List T, (∀ q, m.contents P q = taken q ++ m'.contents P q) ∧
        (∀ q < P.queues, (taken q).length ≤ m.counts P n q) ∧
        ∑ q ∈ Finset.range P.queues, (taken q).length = n ∧
        ∀ p < P.queues, ∀ q < P.queues, (taken q).length < m.counts P n q →
          (taken p).length ≤ (taken q).length + 1 := by
  have H := hm.queueInv
  set h := fun q => m.popped q ++ m.contents P q
  have p := Popping.pop (n := n) H hm.free
  have D : Dealing P (m.counts P n) (m.forget h) ((m.forget h).pop P n) :=
    .pop (m := m.forget h) hP hm.current_lt hn
  obtain ⟨k, t, vals, hrun, hret, p', D'⟩ := p.returns D fun s t ps hs hstep =>
    hs.move ps.inv hP ps.getting (consumerMove_of_step hstep)
  obtain ⟨taken, htaken, hperm⟩ := p'.taken H
  rw [forget_pop, forget_run] at hrun
  obtain ⟨m', hm', rfl⟩ := Option.map_eq_some_iff.mp hrun
  obtain ⟨hcount, hfair⟩ := D'.returned hret htaken
  refine ⟨k, m', vals, ?_, hret, taken, htaken, hcount, ?_, hfair⟩
  · simpa [Transition.System.run, step, hm.free] using hm'
  · have hget := p'.getting
    rw [Getting, hret] at hget
    rw [hret] at hperm
    rw [← length_flatMap_range, ← hperm.length_eq]
    refine hget.trans (Nat.min_eq_left ?_)
    exact hle.trans (sum_counts_le hm)

theorem cyclic_pop_staleQueues : ∃ k m' vals, Transition.System.run (step staleParams) staleQueues
      (.pop 3 :: List.replicate k .consumer) = some m' ∧ m'.consumer = .returned vals ∧
    ∃ taken : Nat → List Nat, (taken 0).length + (taken 1).length = 3 ∧
      (taken 0).length ≤ 3 ∧ (taken 1).length ≤ 1 := by
  obtain ⟨k, m', vals, hrun, hret, taken, -, hcount, hsum, -⟩ :=
    cyclic_pop_fair rfl staleQueues_consistent 3 (by decide) (by decide)
  exact ⟨k, m', vals, hrun, hret, taken, hsum, hcount 0 (by decide), hcount 1 (by decide)⟩

end Tampi.MultiLockFreeQueue
