import Tampi.Theory.Execution
import Tampi.Verify.Pop
import Tampi.Verify.QueueCalls

/-! # No pre-queue is passed over

A consumer that pops again and again gets to every element, however much is pushed meanwhile, if it
pops cyclically. While nothing is popped from a queue that is not empty, no call can choose to take
from it (`Chosen`); the counter of the queue is refreshed once the elements counted before are used
up, and from then on `_current` comes nearer to the queue with every share dealt (`lag`). -/

namespace Tampi
open Function (update)
open Transition (always_from)
open Filter (atTop frequently_atTop)

/-- The steps of the producer still to come. -/
def Producer.rank : Producer T → Nat
  | .refresh _ => 4
  | .write elems i => elems.length - i + 2
  | .publish _ => 1
  | .idle | .returned _ => 0

namespace MultiLockFreeQueue

/-! ## Steps of the queues -/

/-- A step of a producer or of the consumer; the consumer may forget the call that has returned. -/
inductive Moves (P : QueueParams) (m : MultiLockFreeQueue T) : MultiLockFreeQueue T → Prop
  | rest : Moves P m m
  | push : ProducerFrame queue m m' → m.pushed queue <+: m'.pushed queue → Moves P m m'
  | pop : m.consumer.free → Moves P m (m.pop P n)
  | empty : m.consumer.free → Moves P m m.empty
  | settle : m.consumer.free → Moves P m { m with consumer := .idle }
  | consume : m.consumerStep P = some m' → Moves P m m'

variable {P : QueueParams} {m m' : MultiLockFreeQueue T} {q : Nat}

theorem producerStep_pushed (h : m.producerStep P queue = some m') :
    m.pushed queue <+: m'.pushed queue := by
  unfold producerStep at h
  split at h
  · dsimp only at h
    split at h <;> cases h <;> exact List.prefix_rfl
  · obtain ⟨x, -, rfl⟩ := Option.map_eq_some_iff.mp h
    exact List.prefix_rfl
  · cases h
    simp only [Function.update_self]
    exact List.prefix_append ..
  · cases h

theorem moves_of_step {l : QueueLabel T} (h : m.step P l = some m') : Moves P m m' := by
  cases l with
  | push queue elem =>
    simp only [step] at h
    split at h
    · cases h
      exact .push push_frame (by rw [push_pushed])
    · cases h
  | producer queue => exact .push (producerStep_frame h) (producerStep_pushed h)
  | pop n =>
    simp only [step] at h
    split at h
    · cases h
      exact .pop ‹_›
    · cases h
  | empty =>
    simp only [step] at h
    split at h
    · cases h
      exact .empty ‹_›
    · cases h
  | consumer => exact .consume h

/-! ## Calls of `push` -/

theorem rank_push_le : ((m.push queue elem).producer queue).rank ≤ 4 := by
  unfold push
  split <;> simp [unsafePush, Producer.rank]

theorem exists_producerStep (H : QueueInv P m) (h : (m.producer queue).free = false) :
    ∃ m', m.producerStep P queue = some m' := by
  have hp := H.producers queue
  unfold producerStep
  cases hc : m.producer queue with
  | idle | returned =>
    rw [hc] at h
    cases h
  | refresh =>
    dsimp only
    split <;> exact ⟨_, rfl⟩
  | write elems i =>
    rw [hc] at hp
    dsimp only
    rw [List.getElem?_eq_getElem hp.1]
    exact ⟨_, rfl⟩
  | publish => exact ⟨_, rfl⟩

theorem rank_producerStep_lt (h : m.producerStep P queue = some m') :
    (m'.producer queue).rank < (m.producer queue).rank := by
  unfold producerStep at h
  split at h
  next elem hp =>
    dsimp only at h
    split at h <;> cases h <;> simp [unsafePush, Producer.rank, hp]
  next elems i hp =>
    obtain ⟨x, hx, rfl⟩ := Option.map_eq_some_iff.mp h
    obtain ⟨hi, -⟩ := List.getElem?_eq_some_iff.mp hx
    simp only [Function.update_self, hp]
    split <;> simp only [Producer.rank] <;> omega
  next elems hp =>
    cases h
    simp [Producer.rank, hp]
  next => cases h

/-- A push to a queue that is not full does not fail. -/
theorem not_returned_false (H : QueueInv P m) (hroom : m.length P queue + 1 < P.capacity)
    (h : m.producerStep P queue = some m') (hp : m.producer queue ≠ .returned false) :
    m'.producer queue ≠ .returned false := by
  intro hret
  obtain ⟨-, -, hz⟩ := returned_false_step (l := .producer queue) h hp hret
  rw [getAvailable_eq (H.tail_lt queue) (H.head_lt queue)] at hz
  omega

/-! ## A pop with producers at work -/

theorem share_pos : 0 < max (n / P.queues) 1 :=
  Nat.lt_of_lt_of_le Nat.zero_lt_one (Nat.le_max_right ..)

/-- A call of `pop` is in progress, or has returned. -/
def Taking (m : MultiLockFreeQueue T) : Prop :=
  match m.consumer with
  | .refresh goal _ _ => goal ≠ none
  | .assign _ _ _ perQueue _ _ => 0 < perQueue
  | .sweep .. | .block .. | .read .. | .returned _ => True
  | .idle | .returnedEmpty _ => False

theorem Taking.beginTake : (m.beginTake P n).Taking := by
  unfold MultiLockFreeQueue.beginTake
  split
  · exact share_pos
  · trivial

theorem Taking.pop : (m.pop P n).Taking := by
  unfold MultiLockFreeQueue.pop
  split
  · trivial
  split
  · exact Option.some_ne_none n
  · exact .beginTake

theorem Taking.move (G : m.Taking) (h : ConsumerMove P m m') : m'.Taking := by
  cases h with
  | refresh hc =>
    rw [Taking, hc] at G
    exact G
  | @refreshed goal q t hc =>
    rw [Taking, hc] at G
    obtain ⟨n, rfl⟩ := Option.ne_none_iff_exists'.mp G
    simp only [MultiLockFreeQueue.refreshed]
    split
    · trivial
    · exact .beginTake
  | deal hc =>
    rw [Taking, hc] at G
    exact G
  | redeal => exact share_pos
  | blockSkip hc =>
    simp only [Taking, hc]
  | release =>
    cases hp : P.policy <;> simp only [Taking, popLoop, hp]
  | dealt | take | skip | swept | blockTake | blocked | read => trivial

/-- Past the refresh the number of elements to return is settled. -/
theorem Taking.getting (G : m.Taking) (hc : ∀ goal q t, m.consumer ≠ .refresh goal q t) :
    ∃ N, Getting P N m := by
  unfold Taking at G
  unfold Getting
  cases h : m.consumer with
  | refresh goal q t => exact absurd h (hc goal q t)
  | assign n queue0 missing perQueue q left =>
    rw [h] at G
    exact ⟨n, rfl, G⟩
  | sweep n | block n | read n => exact ⟨n, rfl⟩
  | returned vals => exact ⟨vals.length, rfl⟩
  | idle | returnedEmpty =>
    rw [h] at G
    exact G.elim

/-- Every step of a pop gets on, whatever was pushed before it. -/
theorem Taking.rest_lt (H : QueueInv P m) (G : m.Taking) (h : ConsumerMove P m m') :
    m'.rest P < m.rest P := by
  by_cases hr : ∃ goal q t, m.consumer = .refresh goal q t
  · obtain ⟨goal, q, t, hr⟩ := hr
    cases h with
    | refresh hc hq =>
      simp only [rest, hc]
      exact Prod.Lex.right _ (Prod.Lex.left _ _ (by omega))
    | refreshed hc =>
      rw [rest.eq_def P m, hc]
      exact rest_refreshed_lt
    | dealt hc | deal hc | redeal hc | take hc | skip hc | swept hc | blockTake hc | blockSkip hc
    | blocked hc | read hc | release hc => cases hr.symm.trans hc
  · obtain ⟨N, hN⟩ := G.getting (P := P) fun goal q t hc => hr ⟨goal, q, t, hc⟩
    exact rest_move_lt H hN h

/-- A deal in progress deals at least one element at a time. -/
def Sharing (m : MultiLockFreeQueue T) : Prop :=
  match m.consumer with
  | .assign _ _ _ perQueue _ _ => 0 < perQueue
  | _ => True

theorem sharing_beginTake : (m.beginTake P n).Sharing := by
  unfold beginTake
  split
  · exact share_pos
  · trivial

theorem Sharing.move (A : m.Sharing) (M : Moves P m m') : m'.Sharing := by
  cases M with
  | rest => exact A
  | push F =>
    unfold Sharing at A ⊢
    rwa [F.consumer]
  | pop =>
    unfold MultiLockFreeQueue.pop
    split
    · trivial
    split
    · trivial
    · exact sharing_beginTake
  | empty =>
    unfold MultiLockFreeQueue.empty
    split <;> trivial
  | settle => trivial
  | consume h =>
    have M := consumerMove_of_step h
    cases M with
    | refreshed =>
      unfold MultiLockFreeQueue.refreshed
      split
      · trivial
      split
      · trivial
      · exact sharing_beginTake
    | deal hc =>
      rw [Sharing, hc] at A
      exact A
    | redeal => exact share_pos
    | blockSkip hc => simp only [Sharing, hc]
    | release => cases hp : P.policy <;> simp only [Sharing, popLoop, hp]
    | refresh | dealt | take | skip | swept | blockTake | blocked | read => trivial

/-- Every step of a call gets on. -/
theorem Sharing.rest_lt (A : m.Sharing) (H : QueueInv P m) (M : ConsumerMove P m m') :
    m'.rest P < m.rest P := by
  have htaking (h : m.Taking) : m'.rest P < m.rest P := h.rest_lt H M
  unfold Sharing at A
  unfold Taking at htaking
  cases hc : m.consumer with
  | refresh goal i t =>
    cases goal with
    | some n => exact htaking (by simp [hc])
    | none =>
      cases M with
      | refresh hc' hi =>
        simp only [rest, hc']
        exact Prod.Lex.right _ (Prod.Lex.left _ _ (by omega))
      | refreshed hc' =>
        rw [rest.eq_def P m, hc']
        exact rest_refreshed_lt
      | dealt hc' | deal hc' | redeal hc' | take hc' | skip hc' | swept hc' | blockTake hc'
      | blockSkip hc' | blocked hc' | read hc' | release hc' => cases hc.symm.trans hc'
  | assign | sweep | block | read | returned =>
    rw [hc] at A htaking
    exact htaking A
  | idle | returnedEmpty =>
    cases M with
    | refresh hc' | refreshed hc' | dealt hc' | deal hc' | redeal hc' | take hc' | skip hc'
    | swept hc' | blockTake hc' | blockSkip hc' | blocked hc' | read hc' | release hc' =>
      cases hc.symm.trans hc'

/-! ## A queue that is not popped from -/

/-- The call in progress is going to take elements of queue `q`. -/
def Chosen (q : Nat) (m : MultiLockFreeQueue T) : Prop :=
  match m.consumer with
  | .assign _ _ _ _ _ left | .sweep _ _ _ left _ => left q < m.remaining q
  | .read _ _ q' _ left _ _ => q' = q ∨ left q < m.remaining q
  | _ => False

/-- The refresh in progress has found queue `q` not empty when it came to it. -/
def Counted (q : Nat) (m : MultiLockFreeQueue T) : Prop :=
  match m.consumer with
  | .refresh _ i _ => q < i → 0 < m.remaining q
  | _ => True

/-- What keeps the consumer from queue `q`: the elements it still knows of elsewhere, as long as it
knows of none in `q`, and then the way of `_current` to `q`. -/
noncomputable def lag (P : QueueParams) (q : Nat) (m : MultiLockFreeQueue T) : Nat ×ₗ Nat :=
  if m.remaining q = 0 then toLex (1, m.totalRemaining)
  else toLex (0, Ring.gap (· = q) P.queues m.current)

/-- The call in progress is going to lower `lag`. -/
def Nearing (q : Nat) (m : MultiLockFreeQueue T) : Prop :=
  match m.consumer with
  | .refresh goal i _ => goal ≠ none ∧ (q < i → 0 < m.remaining q)
  | .assign n _ missing _ _ _ => 0 < n ∧ (0 < m.remaining q → 0 < missing)
  | _ => False

theorem Chosen.not_free (C : m.Chosen q) : m.consumer.free = false := by
  unfold Chosen at C
  cases hc : m.consumer with
  | assign | sweep | read => rfl
  | idle | refresh | block | returned | returnedEmpty =>
    rw [hc] at C
    exact C.elim

theorem Nearing.not_free (N : m.Nearing q) : m.consumer.free = false := by
  unfold Nearing at N
  cases hc : m.consumer with
  | refresh | assign => rfl
  | idle | sweep | block | read | returned | returnedEmpty =>
    rw [hc] at N
    exact N.elim

theorem lag_congr (hr : m'.remaining q = m.remaining q) (ht : m'.totalRemaining = m.totalRemaining)
    (hc : m'.current = m.current) : m'.lag P q = m.lag P q := by
  unfold lag
  rw [hr, ht, hc]

section
variable (hP : P.policy = .cyclicRoundRobin)
include hP

theorem beginTake_eq : m.beginTake P n = { m with
    consumer := .assign n m.current n (max (n / P.queues) 1) 0 m.remaining } := by
  unfold beginTake
  rw [hP]

/-- A call that has chosen the queue takes from it. -/
theorem Chosen.consume (C : m.Chosen q) (H : QueueInv P m) (M : ConsumerMove P m m')
    (hq : q < P.queues) : m'.Chosen q ∨ (m.popped q).length < (m'.popped q).length := by
  have hci := H.consumer
  cases M with
  | refresh hc | refreshed hc | blockTake hc | blockSkip hc | blocked hc =>
    rw [Chosen, hc] at C
    exact C.elim
  | dealt hc | redeal hc | skip hc =>
    rw [Chosen, hc] at C
    exact .inl C
  | deal hc =>
    rw [Chosen, hc] at C
    refine .inl (Nat.lt_of_le_of_lt ?_ C)
    by_cases hcur : m.current = q
    · simp [hcur]
    · rw [Function.update_of_ne (Ne.symm hcur)]
  | @take n i q' left vals hc hi hlt =>
    rw [Chosen, hc] at C
    by_cases hqq : q' = q
    · exact .inl (.inl hqq)
    · refine .inl (.inr ?_)
      change left q < update m.remaining q' _ q
      rwa [Function.update_of_ne (Ne.symm hqq)]
  | @swept n i q' left vals hc hi =>
    -- all queues have given what was dealt
    rw [Chosen, hc] at C
    rw [hc] at hci
    obtain ⟨-, -, hle, -, hsum, -⟩ := hci
    have hlt : sumRemaining P left < sumRemaining P m.remaining :=
      Finset.sum_lt_sum (fun p _ => hle p) ⟨q, Finset.mem_range.mpr hq, C⟩
    omega
  | read hc =>
    rw [Chosen, hc] at C
    exact .inl C
  | @release n i q' assigned left vals chunk hc hge =>
    rw [Chosen, hc] at C
    rw [hc] at hci
    by_cases hqq : q' = q
    · subst hqq
      refine .inr ?_
      have := hci.2.1
      simp only [Function.update_self, List.length_append]
      omega
    · refine .inl ?_
      simp only [Chosen, popLoop, hP]
      exact C.resolve_left hqq

theorem Chosen.move (C : m.Chosen q) (H : QueueInv P m) (M : Moves P m m') (hq : q < P.queues) :
    m'.Chosen q ∨ (m.popped q).length < (m'.popped q).length := by
  cases M with
  | rest => exact .inl C
  | push F =>
    unfold Chosen at C ⊢
    rw [F.consumer, F.remaining]
    exact .inl C
  | pop hf | empty hf | settle hf =>
    rw [C.not_free] at hf
    cases hf
  | consume h => exact C.consume hP H (consumerMove_of_step h) hq

end

/-- A step of the consumer that takes nothing from the queue and does not choose it. -/
theorem lag_consume (hP : P.policy = .cyclicRoundRobin) (H : QueueInv P m)
    (M : ConsumerMove P m m') (hq : q < P.queues) (hlen : 0 < m.length P q)
    (hno : ¬ m.Chosen q) (hno' : ¬ m'.Chosen q) (A : m.Sharing) (K : m.Counted q) :
    m'.Counted q ∧ m'.lag P q ≤ m.lag P q ∧
      (m.Nearing q → m'.Nearing q ∨ m'.lag P q < m.lag P q) := by
  have hci := H.consumer
  cases M with
  | @refresh goal i t hc hi =>
    rw [Counted, hc] at K
    rw [getRemaining_eq (H.tail_lt i)]
    by_cases hqi : i = q
    · subst hqi
      have hlag : (lag P i { m with
          remaining := update m.remaining i (m.length P i)
          consumer := .refresh goal (i + 1) (t + m.length P i) }) =
          toLex (0, Ring.gap (· = i) P.queues m.current) := by
        rw [lag, if_neg]
        simp only [Function.update_self]
        omega
      refine ⟨fun _ => by simpa using hlen, ?_⟩
      rw [hlag, lag]
      split
      · exact ⟨(Prod.Lex.left _ _ Nat.zero_lt_one : _ < _).le, fun _ =>
          .inr (Prod.Lex.left _ _ Nat.zero_lt_one)⟩
      · refine ⟨Std.le_refl _, fun N => .inl ?_⟩
        rw [Nearing, hc] at N
        exact ⟨N.1, fun _ => by simpa using hlen⟩
    · have hrem : update m.remaining i (m.length P i) q = m.remaining q :=
        Function.update_of_ne (Ne.symm hqi) ..
      refine ⟨fun hlt => ?_, ?_, fun N => .inl ?_⟩
      · change 0 < update m.remaining i (m.length P i) q
        rw [hrem]
        exact K (by omega)
      · exact le_of_eq (lag_congr hrem rfl rfl)
      · rw [Nearing, hc] at N
        refine ⟨N.1, fun hlt => ?_⟩
        change 0 < update m.remaining i (m.length P i) q
        rw [hrem]
        exact K (by omega)
  | @refreshed goal i t hc hi =>
    -- the queue has been counted
    rw [Counted, hc] at K
    have hpos : 0 < m.remaining q := K (by omega)
    have hlag {c : Consumer T} : lag P q { m with totalRemaining := t, consumer := c } =
        m.lag P q := by
      rw [lag, lag, if_neg (Nat.ne_of_gt hpos), if_neg (Nat.ne_of_gt hpos)]
    rw [hc] at hci
    have hi' : i = P.queues := Nat.le_antisymm hci.2.1 (Nat.le_of_not_lt hi)
    have ht : 0 < t := by
      rw [hci.2.2]
      exact Finset.sum_pos' (fun _ _ => Nat.zero_le _) ⟨q, Finset.mem_range.mpr (by omega), hpos⟩
    unfold MultiLockFreeQueue.refreshed
    cases goal with
    | none =>
      refine ⟨trivial, hlag.le, fun N => ?_⟩
      rw [Nearing, hc] at N
      exact absurd rfl N.1
    | some n =>
      have hn : 0 < n := Nat.pos_of_ne_zero fun h => hci.1 (by rw [h])
      simp only [if_neg (Nat.ne_of_gt ht), beginTake_eq hP]
      exact ⟨trivial, hlag.le, fun _ => .inl ⟨by omega, fun _ => by omega⟩⟩
  | @dealt n queue0 missing perQueue i left hc hm =>
    rw [hc] at hci
    obtain ⟨-, -, -, -, hle, -⟩ := hci
    by_cases hz : m.remaining q = 0
    · have hlt : lag P q { m with
          totalRemaining := m.totalRemaining - n
          consumer := .sweep n 0 queue0 left [] } = toLex (1, m.totalRemaining - n) := by
        rw [lag, if_pos hz]
      rw [hlt, lag, if_pos hz]
      refine ⟨trivial, ?_, fun N => .inr ?_⟩
      · exact Prod.Lex.toLex_le_toLex.mpr (.inr ⟨rfl, Nat.sub_le ..⟩)
      · rw [Nearing, hc] at N
        exact Prod.Lex.right _ (by omega)
    · refine ⟨trivial, ?_, fun N => ?_⟩
      · rw [lag, lag, if_neg hz, if_neg hz]
      · rw [Nearing, hc] at N
        have := N.2 (Nat.pos_of_ne_zero hz)
        omega
  | @deal n queue0 missing perQueue i left hc hm hi =>
    rw [hc] at hci
    obtain ⟨-, -, hle, -, -, -, -, hper⟩ := hci
    rw [Chosen, hc] at hno
    rw [Sharing, hc] at A
    by_cases hz : m.remaining q = 0
    · refine ⟨trivial, ?_, fun N => .inl ?_⟩
      · rw [lag, lag, if_pos hz, if_pos hz]
      · rw [Nearing, hc] at N
        exact ⟨N.1, fun h => absurd hz (Nat.ne_of_gt h)⟩
    · -- the share of the queue would not be empty
      have hne : m.current ≠ q := by
        rintro rfl
        have := hle m.current
        refine hno' ?_
        simp only [Chosen, Function.update_self]
        omega
      have hlt : lag P q { m with
          current := (m.current + 1) % P.queues
          consumer := .assign n queue0 (missing - min (left m.current) perQueue) perQueue (i + 1)
            (update left m.current (left m.current - min (left m.current) perQueue)) } <
          m.lag P q := by
        rw [lag, lag, if_neg hz, if_neg hz]
        exact Prod.Lex.right _ (Ring.gap_lt (H.current_lt (by omega)) ⟨q, hq, rfl⟩ hne)
      exact ⟨trivial, hlt.le, fun _ => .inr hlt⟩
  | @redeal n queue0 missing perQueue i left hc hm hi =>
    refine ⟨trivial, (lag_congr rfl rfl rfl).le, fun N => .inl ?_⟩
    rw [Nearing, hc] at N
    exact N
  | @take n i q' left vals hc hi hlt =>
    have hqq : q' ≠ q := by
      rintro rfl
      exact hno' (.inl rfl)
    have hrem : (m.unsafePop q' (m.remaining q' - left q') n i left vals).remaining q =
        m.remaining q := Function.update_of_ne (Ne.symm hqq) ..
    refine ⟨trivial, (lag_congr hrem rfl rfl).le, fun N => ?_⟩
    rw [Nearing, hc] at N
    exact N.elim
  | blockTake hc | blockSkip hc | blocked hc =>
    rw [hc] at hci
    cases hci.1.symm.trans hP
  | skip hc | swept hc | read hc =>
    refine ⟨trivial, (lag_congr rfl rfl rfl).le, fun N => ?_⟩
    rw [Nearing, hc] at N
    exact N.elim
  | release hc =>
    simp only [popLoop, hP]
    refine ⟨trivial, (lag_congr rfl rfl rfl).le, fun N => ?_⟩
    rw [Nearing, hc] at N
    exact N.elim

/-- A step of anybody. -/
theorem lag_move (hP : P.policy = .cyclicRoundRobin) (H : QueueInv P m) (M : Moves P m m')
    (hq : q < P.queues) (hlen : 0 < m.length P q) (hno : ¬ m.Chosen q) (hno' : ¬ m'.Chosen q)
    (A : m.Sharing) (K : m.Counted q) :
    m'.Counted q ∧ m'.lag P q ≤ m.lag P q ∧
      (m.Nearing q → m'.Nearing q ∨ m'.lag P q < m.lag P q) := by
  have hfree (hf : m.consumer.free) : ¬ m.Nearing q := fun N => by
    rw [N.not_free] at hf
    cases hf
  cases M with
  | rest => exact ⟨K, Std.le_refl _, .inl⟩
  | push F =>
    have hlag := lag_congr (P := P) (congrFun F.remaining q) F.totalRemaining F.current
    have hnear : m'.Nearing q = m.Nearing q := by
      unfold Nearing
      rw [F.consumer, F.remaining]
    refine ⟨?_, hlag.le, fun N => .inl (hnear ▸ N)⟩
    unfold Counted at K ⊢
    rwa [F.consumer, F.remaining]
  | pop hf =>
    refine ⟨?_, ?_, fun N => absurd N (hfree hf)⟩
    · unfold MultiLockFreeQueue.pop
      split
      · trivial
      split
      · exact fun h => absurd h (Nat.not_lt_zero q)
      · rw [beginTake_eq hP]
        trivial
    · unfold MultiLockFreeQueue.pop
      split
      · exact le_of_eq (lag_congr rfl rfl rfl)
      split
      · exact le_of_eq (lag_congr rfl rfl rfl)
      · rw [beginTake_eq hP]
        exact le_of_eq (lag_congr rfl rfl rfl)
  | empty hf =>
    refine ⟨?_, ?_, fun N => absurd N (hfree hf)⟩
    · unfold MultiLockFreeQueue.empty
      split
      · trivial
      · exact fun h => absurd h (Nat.not_lt_zero q)
    · unfold MultiLockFreeQueue.empty
      split <;> exact le_of_eq (lag_congr rfl rfl rfl)
  | settle hf => exact ⟨trivial, le_of_eq (lag_congr rfl rfl rfl), fun N => absurd N (hfree hf)⟩
  | consume h => exact lag_consume hP H (consumerMove_of_step h) hq hlen hno hno' A K

theorem Moves.grows (M : Moves P m m') (H : QueueInv P m) :
    m.pushed q <+: m'.pushed q ∧ m.popped q <+: m'.popped q := by
  cases M with
  | rest | settle => exact ⟨List.prefix_rfl, List.prefix_rfl⟩
  | @push queue _ F hp =>
    rw [F.popped]
    refine ⟨?_, List.prefix_rfl⟩
    by_cases hq : q = queue
    · exact hq ▸ hp
    · rw [F.pushed q hq]
  | pop => rw [pop_frame.pushed, popped_pop]; exact ⟨List.prefix_rfl, List.prefix_rfl⟩
  | empty =>
    rw [empty_frame.pushed]
    unfold MultiLockFreeQueue.empty
    split <;> exact ⟨List.prefix_rfl, List.prefix_rfl⟩
  | consume h =>
    rw [(consumerStep_frame h).pushed]
    refine ⟨List.prefix_rfl, ?_⟩
    rcases taken_of_move H (consumerMove_of_step h) with ⟨hp, -⟩ | ⟨q', -, chunk, hp, -⟩
    · rw [hp]
    · rw [hp]
      by_cases hq : q = q'
      · subst hq
        rw [Function.update_self]
        exact List.prefix_append ..
      · rw [Function.update_of_ne hq]

/-! ## Sequences of steps -/

/-- A consumer that pops again and again, beside the producers. -/
structure Served (P : QueueParams) (σ : Nat → MultiLockFreeQueue T) : Prop where
  inv : ∀ n, QueueInv P (σ n)
  sharing : ∀ n, (σ n).Sharing
  move : ∀ n, Moves P (σ n) (σ (n + 1))
  pops : ∀ n, ∃ m ≥ n, ∃ count > 0, (σ m).consumer.free ∧ σ (m + 1) = (σ m).pop P count

namespace Served
variable {σ : Nat → MultiLockFreeQueue T} (S : Served P σ)
include S

theorem grows (h : n ≤ k) :
    (σ n).pushed q <+: (σ k).pushed q ∧ (σ n).popped q <+: (σ k).popped q := by
  refine always_from (P := fun k => (σ n).pushed q <+: (σ k).pushed q ∧
    (σ n).popped q <+: (σ k).popped q) ⟨List.prefix_rfl, List.prefix_rfl⟩ ?_ k h
  rintro k _ ⟨hpush, hpop⟩
  obtain ⟨hpush', hpop'⟩ := (S.move k).grows (S.inv k)
  exact ⟨hpush.trans hpush', hpop.trans hpop'⟩

/-- From time `n` on nothing is popped from queue `q`. -/
theorem length_pos (hconst : ∀ k ≥ n, (σ k).popped q = (σ n).popped q)
    (hlen : 0 < (σ n).length P q) (hk : k ≥ n) : 0 < (σ k).length P q := by
  have hpush := (S.grows (q := q) hk).1.length_le
  rw [(S.inv n).history q, (S.inv k).history q, hconst k hk, List.length_append,
    List.length_append, length_contents, length_contents] at hpush
  omega

theorem not_chosen (hP : P.policy = .cyclicRoundRobin) (hq : q < P.queues)
    (hconst : ∀ k ≥ n, (σ k).popped q = (σ n).popped q) (hk : k ≥ n) : ¬ (σ k).Chosen q := by
  intro C
  have hall : ∀ j ≥ k, (σ j).Chosen q := by
    refine always_from C fun j hj C => ?_
    refine (C.move hP (S.inv j) (S.move j) hq).resolve_right ?_
    rw [hconst j (by omega), hconst (j + 1) (by omega)]
    exact lt_irrefl _
  obtain ⟨j, hj, count, -, hfree, -⟩ := S.pops k
  rw [(hall j hj).not_free] at hfree
  cases hfree

/-- Something is popped from a queue that is not empty. -/
theorem exists_popped (hP : P.policy = .cyclicRoundRobin) (hq : q < P.queues)
    (hlen : 0 < (σ n).length P q) :
    ∃ k ≥ n, ((σ n).popped q).length < ((σ k).popped q).length := by
  by_contra hno
  push Not at hno
  have hconst (k : Nat) (hk : k ≥ n) : (σ k).popped q = (σ n).popped q := by
    have hpre := (S.grows (q := q) hk).2
    exact (hpre.eq_of_length (Nat.le_antisymm hpre.length_le (hno k hk))).symm
  have hmove (k : Nat) (hk : k ≥ n) (K : (σ k).Counted q) :=
    lag_move hP (S.inv k) (S.move k) hq (S.length_pos hconst hlen hk)
      (S.not_chosen hP hq hconst hk) (S.not_chosen hP hq hconst (Nat.le_succ_of_le hk))
      (S.sharing k) K
  -- from the first call after `n` on
  obtain ⟨j, hj, -, -, hfree, -⟩ := S.pops n
  have hcounted : ∀ k ≥ j, (σ k).Counted q := by
    refine always_from ?_ fun k hk K => (hmove k (hj.trans hk) K).1
    unfold Counted
    cases hc : (σ j).consumer with
    | idle | returned | returnedEmpty => trivial
    | refresh | assign | sweep | block | read =>
      rw [hc] at hfree
      cases hfree
  obtain ⟨k, hk, hstop⟩ := Transition.eventually_not_of_lt (k := j) (f := fun k => (σ k).lag P q)
    (P := fun k => (σ (k + 1)).lag P q < (σ k).lag P q)
    (fun k hk => (hmove k (hj.trans hk) (hcounted k hk)).2.1) fun _ _ h => h
  obtain ⟨i, hi, count, hpos, -, hpop⟩ := S.pops k
  have hnear : ∀ l ≥ i + 1, (σ l).Nearing q := by
    refine always_from ?_ fun l hl N => ?_
    · rw [hpop]
      unfold MultiLockFreeQueue.pop
      rw [if_neg (Nat.ne_of_gt hpos)]
      split
      · exact ⟨Option.some_ne_none _, fun h => absurd h (Nat.not_lt_zero q)⟩
      · rw [beginTake_eq hP]
        exact ⟨hpos, fun _ => hpos⟩
    · have hlk : l ≥ k := by omega
      exact ((hmove l (by omega) (hcounted l (hk.trans hlk))).2.2 N).resolve_right (hstop l hlk)
  obtain ⟨l, hl, -, -, hfree, -⟩ := S.pops (i + 1)
  rw [(hnear l hl).not_free] at hfree
  cases hfree

/-- Whatever is in a queue is popped some time. -/
theorem exists_popped_all (hP : P.policy = .cyclicRoundRobin) (hq : q < P.queues) (n : Nat) :
    ∃ k ≥ n, (σ n).pushed q <+: (σ k).popped q := by
  obtain ⟨k, hk, hlt⟩ := Transition.exists_lt_of_progress (k := n)
    (f := fun k => ((σ k).popped q).length + 1) (b := ((σ n).pushed q).length) fun k hk hle => by
      obtain ⟨j, hj, hlt⟩ := S.exists_popped hP hq (n := k) (by
        have hlen := (S.grows (q := q) hk).1.length_le
        rw [(S.inv k).history q, List.length_append, length_contents] at hlen
        omega)
      exact ⟨j, hj, Nat.add_lt_add_right hlt 1⟩
  refine ⟨k, hk, List.prefix_of_prefix_length_le (S.grows hk).1 ?_ (by omega)⟩
  rw [(S.inv k).history q]
  exact List.prefix_append ..

end Served

/-! ## Fair runs -/

/-- Neither the consumer nor a producer stops in the middle of a call, and the consumer pops again and
again if its calls return. -/
structure FairRun (P : QueueParams) (σ : Nat → MultiLockFreeQueue T) (l : Nat → QueueLabel T) :
    Prop where
  execution : (system T P).Execution σ l
  producer : ∀ q, (system T P).WeaklyFair (· = .producer q) σ l
  consumer : (system T P).WeaklyFair (· = .consumer) σ l
  pops : (∃ᶠ n in atTop, (σ n).consumer.free) → ∃ᶠ n in atTop, ∃ count > 0, l n = .pop count

namespace FairRun
variable {σ : Nat → MultiLockFreeQueue T} {l : Nat → QueueLabel T} (F : FairRun P σ l)
include F

theorem inv (n : Nat) : QueueInv P (σ n) := .of_reachable (F.execution.reachable n)

theorem move (n : Nat) : Moves P (σ n) (σ (n + 1)) := moves_of_step (F.execution.step n)

theorem sharing (n : Nat) : (σ n).Sharing := by
  refine (F.execution.reachable n).rec_inv (I := Sharing) ?_ ?_
  · rintro _ ⟨data, rfl⟩
    trivial
  · intro m l m' _ hs A
    exact A.move (moves_of_step hs)

/-- Every call of the consumer returns. -/
theorem exists_free (n : Nat) : ∃ k ≥ n, (σ k).consumer.free := by
  by_contra hno
  push Not at hno
  have hbusy (k : Nat) (hk : k ≥ n) : (σ k).consumer.free = false :=
    Bool.eq_false_of_not_eq_true (hno k hk)
  have hrank (k : Nat) (hk : k ≥ n) : (σ (k + 1)).rest P ≤ (σ k).rest P ∧
      (l k = .consumer → (σ (k + 1)).rest P < (σ k).rest P) := by
    have hstep := F.execution.step k
    have hframe {queue : Nat} (G : ProducerFrame queue (σ k) (σ (k + 1))) :
        (σ (k + 1)).rest P = (σ k).rest P := by
      unfold rest
      rw [G.consumer, G.remaining, G.current]
    have H := F.inv k
    have A := F.sharing k
    have hb := hbusy k hk
    generalize σ (k + 1) = m' at hstep hframe
    generalize hl : l k = k' at hstep
    cases k' with
    | push queue elem =>
      simp only [system, step] at hstep
      split at hstep
      · cases hstep
        exact ⟨(hframe push_frame).le, fun h => by cases h⟩
      · cases hstep
    | producer queue => exact ⟨(hframe (producerStep_frame hstep)).le, fun h => by cases h⟩
    | pop | empty =>
      simp [system, step, hb] at hstep
    | consumer =>
      have hlt := A.rest_lt H (consumerMove_of_step hstep)
      exact ⟨hlt.le, fun _ => hlt⟩
  obtain ⟨k, hk, hdis⟩ := F.consumer.exists_disabled (μ := fun m => m.rest P)
    (fun k hk => (hrank k hk).1) fun k hk => (hrank k hk).2
  obtain ⟨m', hm⟩ := exists_consumerStep (P := P) (hbusy k hk)
  exact hdis ⟨.consumer, m', rfl, hm⟩

theorem served : Served P σ where
  inv := F.inv
  sharing := F.sharing
  move := F.move
  pops n := by
    obtain ⟨k, hk, count, hpos, hl⟩ := frequently_atTop.mp
      (F.pops (frequently_atTop.mpr F.exists_free)) n
    have hstep := F.execution.step k
    rw [hl] at hstep
    simp only [system, step] at hstep
    split at hstep
    · exact ⟨k, hk, count, hpos, ‹_›, (Option.some.inj hstep).symm⟩
    · cases hstep

/-- Every call of `push` returns. -/
theorem exists_returned (q n : Nat) : ∃ k ≥ n, ((σ k).producer q).free := by
  by_contra hno
  push Not at hno
  have hbusy (k : Nat) (hk : k ≥ n) : ((σ k).producer q).free = false :=
    Bool.eq_false_of_not_eq_true (hno k hk)
  have hrank (k : Nat) (hk : k ≥ n) :
      ((σ (k + 1)).producer q).rank ≤ ((σ k).producer q).rank ∧
      (l k = .producer q → ((σ (k + 1)).producer q).rank < ((σ k).producer q).rank) := by
    have hstep := F.execution.step k
    have hb := hbusy k hk
    generalize σ (k + 1) = m' at hstep
    generalize hl : l k = k' at hstep
    cases k' with
    | push queue elem =>
      simp only [system, step] at hstep
      split at hstep
      next h =>
        have hne : q ≠ queue := by
          rintro rfl
          rw [hb] at h
          cases h.2
        cases hstep
        rw [push_frame.producer q hne]
        exact ⟨Nat.le_refl _, fun h => by cases h⟩
      · cases hstep
    | producer queue =>
      by_cases hq : q = queue
      · subst hq
        have hlt := rank_producerStep_lt hstep
        exact ⟨hlt.le, fun _ => hlt⟩
      · rw [(producerStep_frame hstep).producer q hq]
        refine ⟨Nat.le_refl _, ?_⟩
        rintro ⟨⟩
        exact absurd rfl hq
    | pop n =>
      simp only [system, step] at hstep
      split at hstep
      · cases hstep
        rw [pop_frame.producer]
        exact ⟨Nat.le_refl _, fun h => by cases h⟩
      · cases hstep
    | empty =>
      simp only [system, step] at hstep
      split at hstep
      · cases hstep
        rw [empty_frame.producer]
        exact ⟨Nat.le_refl _, fun h => by cases h⟩
      · cases hstep
    | consumer =>
      rw [(consumerStep_frame hstep).producer]
      exact ⟨Nat.le_refl _, fun h => by cases h⟩
  obtain ⟨k, hk, hdis⟩ := (F.producer q).exists_disabled (μ := fun m => (m.producer q).rank)
    (fun k hk => (hrank k hk).1) fun k hk => (hrank k hk).2
  obtain ⟨m', hm⟩ := exists_producerStep (F.inv k) (hbusy k hk)
  exact hdis ⟨.producer q, m', rfl, hm⟩

/-- However much is pushed meanwhile, to this queue or to others, every push returns and, with the
cyclic policy, everything pushed is popped. -/
theorem serves (n : Nat) :
    (∀ q, ∃ k ≥ n, ((σ k).producer q).free) ∧
      (P.policy = .cyclicRoundRobin →
        ∀ q < P.queues, ∃ k ≥ n, (σ n).pushed q <+: (σ k).popped q) :=
  ⟨fun q => F.exists_returned q n, fun hP _ hq => F.served.exists_popped_all hP hq n⟩

end FairRun

/-- A push to queue 0, the pop of its element, and a pop in vain. -/
def pushThenPops : List (QueueLabel Nat) × List (QueueLabel Nat) :=
  ([.push 0 7, .producer 0, .producer 0, .producer 0],
    .pop 1 :: List.replicate 9 .consumer ++ [.pop 1, .consumer, .consumer, .consumer])

theorem serves_pushThenPops : ∃ σ l, FairRun demoParams (T := Nat) σ l ∧ (σ 0).pushed 0 = [7] ∧
    ∃ k, [7] <+: (σ k).popped 0 := by
  obtain ⟨s, hs, hpushed⟩ : ∃ s, Transition.System.run (step demoParams) (init fun _ _ => 0)
      pushThenPops.1 = some s ∧ s.pushed 0 = [7] :=
    ⟨_, rfl, rfl⟩
  have hreach : (system Nat demoParams).Reachable s :=
    ⟨_, pushThenPops.1, ⟨_, rfl⟩, .of_run (f := step demoParams) (fun _ _ _ _ h => h) hs⟩
  obtain ⟨t, u, ht, hu, hrem, heq, hidle⟩ : ∃ t u,
      Transition.System.run (step demoParams) s pushThenPops.2 = some t ∧
      Transition.System.run (step demoParams) t [.pop 1, .consumer, .consumer, .consumer] =
        some u ∧
      u.remaining = t.remaining ∧ u = { t with remaining := u.remaining } ∧
      ∀ q, (t.producer q).free := by
    cases hs
    refine ⟨_, _, rfl, rfl, funext fun q => ?_, rfl, fun q => ?_⟩
    · rcases q with _ | _ | q <;> rfl
    · rcases q with _ | q <;> rfl
  have hloop : Transition.System.run (step demoParams) t [.pop 1, .consumer, .consumer, .consumer] =
      some t := by
    rw [hu, heq, hrem]
  -- in the end the consumer pops in vain
  obtain ⟨σ₁, l₁, E₁, rfl, hl₁, -⟩ := Transition.System.exists_loop (f := step demoParams)
    (fun _ _ _ h => h) (hreach.reaches (.of_run (f := step demoParams) (fun _ _ _ _ h => h) ht))
    (by decide) hloop
  obtain ⟨σ, l, E, rfl, hσ, hl⟩ := E₁.of_run (f := step demoParams) (fun _ _ _ h => h) hreach ht
  have hproducer (n : Nat) : (σ₁ n).producer = (σ₁ 0).producer := by
    induction n with
    | zero => rfl
    | succ n ih =>
      rw [← ih]
      have hstep := E₁.step n
      have hmem := List.mem_of_getElem? (hl₁ n)
      simp only [List.mem_cons, List.not_mem_nil, or_false, or_self] at hmem
      generalize σ₁ (n + 1) = m' at hstep
      rcases hmem with h | h <;> rw [h] at hstep
      · simp only [system, step] at hstep
        split at hstep
        · cases hstep
          rw [pop_frame.producer]
        · cases hstep
      · rw [(consumerStep_frame hstep).producer]
  have hlabel (n : Nat) : l (4 * n + pushThenPops.2.length) = .pop 1 ∧
      l (4 * n + 1 + pushThenPops.2.length) = .consumer := by
    have h0 := hl₁ (4 * n)
    have h1 := hl₁ (4 * n + 1)
    rw [hl, hl]
    simp only [List.length_cons, List.length_nil, Nat.zero_add, Nat.reduceAdd, Nat.mul_mod_right,
      Nat.mul_add_mod_self_left] at h0 h1
    exact ⟨(Option.some.inj h0).symm, (Option.some.inj h1).symm⟩
  have F : FairRun demoParams σ l := by
    refine ⟨E, fun q => .of_drop (k := pushThenPops.2.length) fun hen => ?_, fun _ => ?_, fun _ => ?_⟩
    · obtain ⟨n, _, m', rfl, hstep⟩ := hen.exists
      have hlt : (m'.producer q).rank < ((σ (n + pushThenPops.2.length)).producer q).rank :=
        rank_producerStep_lt hstep
      rw [hσ, hproducer] at hlt
      have hfree := hidle q
      cases hp : (σ₁ 0).producer q with
      | idle | returned =>
        rw [hp] at hlt
        exact absurd hlt (Nat.not_lt_zero _)
      | refresh | write | publish =>
        rw [hp] at hfree
        cases hfree
    · exact frequently_atTop.mpr fun n => ⟨_, by omega, (hlabel n).2⟩
    · exact frequently_atTop.mpr fun n => ⟨_, by omega, 1, Nat.zero_lt_one, (hlabel n).1⟩
  obtain ⟨-, hpopped⟩ := F.serves 0
  obtain ⟨k, -, hk⟩ := hpopped rfl 0 (by decide)
  exact ⟨σ, l, F, hpushed, k, hpushed ▸ hk⟩

end MultiLockFreeQueue
end Tampi
