import Tampi.Verify.MultiLockFreeQueue

/-! # The pre-queues as their callers see them

A `push` in progress adds its element to the end of its queue when it returns `true`, and a `pop` in
progress takes elements from the front of the queues, at most as many as were asked for. -/

namespace Tampi

/-- The call of `push` in progress is for this element. -/
def Producer.Pushes (elem : T) : Producer T → Prop
  | .refresh e => e = elem
  | .write elems i => elems = [elem] ∧ i = 0
  | .publish elems => elems = [elem]
  | _ => False

/-- The most elements the `pop` in progress can return. -/
def Consumer.limit : Consumer T → Nat
  | .refresh (some n) _ _ | .assign n .. | .sweep n .. | .block n .. | .read n .. => n
  | .returned vals => vals.length
  | _ => 0

namespace MultiLockFreeQueue
open Function (update)

variable {P : QueueParams} {m m' : MultiLockFreeQueue T} {q : Nat}

/-! ## `push` -/

theorem push_pushes (elem : T) : ((m.push queue elem).producer queue).Pushes elem := by
  unfold push
  split <;> simp [unsafePush, Producer.Pushes]

theorem push_pushed : (m.push queue elem).pushed = m.pushed := by
  unfold push
  split <;> rfl

/-- A queue whose history has not changed holds what it held. -/
theorem contents_eq (H : QueueInv P m) (H' : QueueInv P m') (hp : m'.pushed q = m.pushed q)
    (hq : m'.popped q = m.popped q) : m'.contents P q = m.contents P q := by
  have h := H.history q
  have h' := H'.history q
  rw [hp, hq, h] at h'
  exact (List.append_cancel_left h').symm

theorem push_contents (H : QueueInv P m) (hf : (m.producer queue).free) :
    (m.push queue elem).contents P q = m.contents P q :=
  contents_eq H (H.push hf) (congrFun push_pushed q) (congrFun push_frame.popped q)

/-- What the next step of a `push` can do. -/
theorem producerStep_cases {elem : T} (h : m.producerStep P queue = some m')
    (hp : (m.producer queue).Pushes elem) :
    (m'.producer queue = .returned true ∧
      m'.pushed = update m.pushed queue (m.pushed queue ++ [elem])) ∨
    (m'.pushed = m.pushed ∧
      (m'.producer queue = .returned false ∨ (m'.producer queue).Pushes elem)) := by
  unfold producerStep at h
  cases hc : m.producer queue with
  | refresh e =>
    obtain rfl : e = elem := by simpa [hc, Producer.Pushes] using hp
    simp only [hc] at h
    split at h <;> cases h
    · exact .inr ⟨rfl, .inl (by simp)⟩
    · exact .inr ⟨rfl, .inr (by simp [unsafePush, Producer.Pushes])⟩
  | write elems i =>
    obtain ⟨rfl, rfl⟩ : elems = [elem] ∧ i = 0 := by simpa [hc, Producer.Pushes] using hp
    simp only [hc] at h
    cases h
    exact .inr ⟨rfl, .inr (by simp [Producer.Pushes])⟩
  | publish elems =>
    obtain rfl : elems = [elem] := by simpa [hc, Producer.Pushes] using hp
    simp only [hc] at h
    cases h
    exact .inl ⟨by simp, rfl⟩
  | idle | returned => simp [hc, Producer.Pushes] at hp

/-- The contents of the queues after the next step of a `push`. -/
theorem producerStep_contents {elem : T} (H : QueueInv P m) (h : m.producerStep P queue = some m')
    (hp : (m.producer queue).Pushes elem) :
    (m'.producer queue = .returned true ∧
      m'.contents P = update (m.contents P) queue (m.contents P queue ++ [elem])) ∨
    (m'.contents P = m.contents P ∧
      (m'.producer queue = .returned false ∨ (m'.producer queue).Pushes elem)) := by
  have H' := H.producerStep h
  have F := producerStep_frame h
  rcases producerStep_cases h hp with ⟨hr, hpushed⟩ | ⟨hpushed, hr⟩
  · refine .inl ⟨hr, funext fun q => ?_⟩
    by_cases hq : q = queue
    · subst hq
      have h' := H'.history q
      rw [hpushed, F.popped, Function.update_self, H.history q, List.append_assoc] at h'
      rw [Function.update_self]
      exact (List.append_cancel_left h').symm
    · rw [Function.update_of_ne hq]
      exact contents_eq H H' (F.pushed q hq) (congrFun F.popped q)
  · exact .inr ⟨funext fun q => contents_eq H H' (congrFun hpushed q) (congrFun F.popped q), hr⟩

/-! ## `pop` -/

theorem beginTake_calls : (m.beginTake P n).consumer.vals = [] ∧
    (m.beginTake P n).consumer.limit = n ∧ (m.beginTake P n).popped = m.popped := by
  unfold beginTake
  split <;> exact ⟨rfl, rfl, rfl⟩

theorem pop_calls (n : Nat) : (m.pop P n).consumer.vals = [] ∧ (m.pop P n).consumer.limit ≤ n ∧
    (m.pop P n).popped = m.popped := by
  unfold pop
  split
  · exact ⟨rfl, Nat.zero_le n, rfl⟩
  split
  · exact ⟨rfl, le_refl n, rfl⟩
  · obtain ⟨h1, h2, h3⟩ := beginTake_calls (P := P) (m := m) (n := n)
    exact ⟨h1, h2.le, h3⟩

/-- The caller has read what the `pop` returned. -/
theorem QueueInv.release_pop (H : QueueInv P m) (hf : m.consumer.free) :
    QueueInv P { m with consumer := .idle } :=
  H.enter m.totalRemaining .idle (fun _ => rfl) (free_total H hf)

theorem pop_contents (H : QueueInv P m) (hf : m.consumer.free) :
    (m.pop P n).contents P = m.contents P :=
  funext fun q => contents_eq H (H.pop hf) (congrFun pop_frame.pushed q)
    (congrFun (pop_calls n).2.2 q)

theorem refreshed_calls (goal : Nat) (total : Nat) :
    (m.refreshed P (some goal) total).consumer.vals = [] ∧
    (m.refreshed P (some goal) total).consumer.limit ≤ goal ∧
    (m.refreshed P (some goal) total).popped = m.popped := by
  unfold refreshed
  dsimp only
  split
  · exact ⟨rfl, Nat.zero_le goal, rfl⟩
  · obtain ⟨h1, h2, h3⟩ := beginTake_calls (P := P) (m := { m with totalRemaining := total })
      (n := min goal total)
    exact ⟨h1, h2.le.trans (Nat.min_le_left ..), h3⟩

/-- What the next step of a `pop` can do. -/
theorem consumerStep_cases (H : QueueInv P m) (h : m.consumerStep P = some m') :
    m'.consumer.limit ≤ m.consumer.limit ∧
    ((m'.popped = m.popped ∧ m'.consumer.vals = m.consumer.vals) ∨
    ∃ q chunk, m'.popped = update m.popped q (m.popped q ++ chunk) ∧
      m'.consumer.vals = m.consumer.vals ++ chunk) := by
  have hci := H.consumer
  unfold consumerStep at h
  cases hc : m.consumer with
  | refresh goal q total =>
    simp only [hc] at h
    split at h
    · cases h
      exact ⟨by cases goal <;> exact le_refl _, .inl ⟨rfl, rfl⟩⟩
    · cases h
      cases goal with
      | none => exact ⟨le_refl _, .inl ⟨rfl, rfl⟩⟩
      | some n =>
        obtain ⟨h1, h2, h3⟩ := refreshed_calls (P := P) (m := m) n total
        exact ⟨h2, .inl ⟨h3, h1⟩⟩
  | assign n queue0 missing perQueue q left =>
    simp only [hc] at h
    split at h
    · cases h
      exact ⟨le_refl _, .inl ⟨rfl, rfl⟩⟩
    · split at h <;> cases h <;> exact ⟨le_refl _, .inl ⟨rfl, rfl⟩⟩
  | sweep n i q left vals =>
    simp only [hc] at h hci
    split at h
    · split at h <;> cases h <;> exact ⟨le_refl _, .inl ⟨rfl, rfl⟩⟩
    · cases h
      obtain ⟨_, _, hle, hlen, hsum, _⟩ := hci
      have := sumRemaining_le (P := P) hle
      exact ⟨by simp only [Consumer.limit]; omega, .inl ⟨rfl, rfl⟩⟩
  | block n i vals =>
    simp only [hc] at h hci
    split at h
    · split at h <;> cases h
      · exact ⟨by simp, .inl ⟨rfl, by simp⟩⟩
      · exact ⟨le_refl _, .inl ⟨rfl, rfl⟩⟩
    · cases h
      obtain ⟨_, hlen, hle, _⟩ := hci
      exact ⟨by simp only [Consumer.limit]; omega, .inl ⟨rfl, rfl⟩⟩
  | read n i q assigned left vals chunk =>
    simp only [hc] at h
    split at h <;> cases h
    · exact ⟨le_refl _, .inl ⟨rfl, rfl⟩⟩
    · refine ⟨?_, .inr ⟨q, chunk, rfl, ?_⟩⟩ <;> (unfold popLoop; split <;> rfl)
  | idle | returned | returnedEmpty => simp [hc] at h

/-- The queues after the next step of a `pop`: it may have taken the front of one of them. -/
theorem consumerStep_contents (H : QueueInv P m) (h : m.consumerStep P = some m') :
    (m'.contents P = m.contents P ∧ m'.consumer.vals = m.consumer.vals) ∨
    ∃ q chunk rest, m.contents P q = chunk ++ rest ∧ m'.contents P = update (m.contents P) q rest ∧
      m'.consumer.vals = m.consumer.vals ++ chunk := by
  have H' := H.consumerStep h
  have F := consumerStep_frame h
  rcases (consumerStep_cases H h).2 with ⟨hpopped, hv⟩ | ⟨q, chunk, hpopped, hv⟩
  · exact .inl ⟨funext fun q => contents_eq H H' (congrFun F.pushed q) (congrFun hpopped q), hv⟩
  · refine .inr ⟨q, chunk, m'.contents P q, ?_, funext fun q' => ?_, hv⟩
    · have h' := H'.history q
      rw [F.pushed, hpopped, Function.update_self, H.history q, List.append_assoc] at h'
      exact List.append_cancel_left h'
    · by_cases hq : q' = q
      · subst hq; rw [Function.update_self]
      · rw [Function.update_of_ne hq]
        exact contents_eq H H' (congrFun F.pushed q') (by rw [hpopped, Function.update_of_ne hq])

end MultiLockFreeQueue

end Tampi
