import Tampi.Theory.HoleOrder
import Tampi.Verify.Agents
import Tampi.Verify.InFlight

/-! # The order of the indices of `MPI_Testsome`

MPI may return the indices of a batch in any order, and `internalTestRequests` passes them on as they
are. `internalCheckRequests` below is what a check does to the arrays, for the answers of MPI to its
batches; `check_refines` connects it to the steps of the polling task. -/

namespace Tampi.Arrays
open Function (update)
open Compaction

variable {a a' : Arrays} {n checked completed : Nat} {is : List Nat} {os os' : List (List Nat)}

/-- A batch MPI answers with the indices `is`: they are written behind the first `completed` ones,
and the loop over them adds the offset; MPI nulls the requests. -/
def testBatch (a : Arrays) (checked completed : Nat) (is : List Nat) : Arrays :=
  { a with
    requests := fun p => if checked ≤ p ∧ p - checked ∈ is then none else a.requests p
    indices := fun j =>
      if j < completed then a.indices j
      else (is[j - completed]?.map (· + checked)).getD (a.indices j) }

/-- All batches, with the number of completed requests. -/
def testBatches (a : Arrays) (checked completed : Nat) : List (List Nat) → Arrays × Nat
  | [] => (a, completed)
  | is :: os =>
    (a.testBatch checked completed is).testBatches (checked + BatchSize) (completed + is.length) os

/-- The arrays after a check of `pending` requests under `MPI_Testsome`. -/
def internalCheckRequests (a : Arrays) (pending : Nat) (os : List (List Nat)) : Option Arrays :=
  (a.testBatches 0 0 os).1.replace pending (a.testBatches 0 0 os).2

/-- MPI answers every batch with distinct indices of that batch. -/
def Answers (pending : Nat) : Nat → List (List Nat) → Prop
  | checked, [] => pending ≤ checked
  | checked, is :: os =>
    checked < pending ∧ is.Nodup ∧ (∀ i ∈ is, i < min (pending - checked) BatchSize) ∧
      Answers pending (checked + BatchSize) os

/-- The positions that are reported, in the order of the answers. -/
def reported (checked : Nat) : List (List Nat) → List Nat
  | [] => []
  | is :: os => is.map (· + checked) ++ reported (checked + BatchSize) os

/-- The requests and tickets at the first `m` positions. -/
def left (a : Arrays) (m : Nat) : Set (Request × Ticket) :=
  {x | ∃ p < m, x = (a.requests p, a.getAssociatedTicket p)}

/-! ## The batches -/

theorem holes_testBatch (a : Arrays) (checked completed : Nat) (is : List Nat) :
    holes (a.testBatch checked completed is).indices 0 (completed + is.length) =
      holes a.indices 0 completed ++ is.map (· + checked) := by
  refine List.ext_getElem (by simp [holes]) fun j h₁ h₂ => ?_
  simp only [holes, Nat.sub_zero, List.length_map, List.length_range'] at h₁
  by_cases hj : j < completed
  · rw [List.getElem_append_left (by simpa [holes] using hj)]
    simp [holes, testBatch, hj]
  · rw [List.getElem_append_right (by simpa [holes] using hj)]
    have hlt : j - completed < is.length := by omega
    simp [holes, testBatch, hj, hlt]

theorem mem_map_add {p : Nat} : p ∈ is.map (· + checked) ↔ checked ≤ p ∧ p - checked ∈ is := by
  rw [List.mem_map]
  constructor
  · rintro ⟨i, hi, rfl⟩
    exact ⟨Nat.le_add_left .., by rwa [Nat.add_sub_cancel]⟩
  · rintro ⟨hle, hi⟩
    exact ⟨_, hi, Nat.sub_add_cancel hle⟩

/-- `a'` is `a` after batches that reported the positions `ps`. -/
structure Batches (a : Arrays) (ps : List Nat) (a' : Arrays) : Prop where
  holes : holes a'.indices 0 ps.length = ps
  mappings : a'.mappings = a.mappings
  tickets : a'.tickets = a.tickets
  requests : ∀ p, a'.requests p = if p ∈ ps then none else a.requests p

theorem Batches.testBatch (H : Batches a ps a') (checked : Nat) (is : List Nat) :
    Batches a (ps ++ is.map (· + checked)) (a'.testBatch checked ps.length is) where
  holes := by
    rw [List.length_append, List.length_map, holes_testBatch, H.holes]
  mappings := H.mappings
  tickets := H.tickets
  requests p := by
    simp only [Arrays.testBatch, List.mem_append, mem_map_add, H.requests p]
    split <;> split <;> simp_all

theorem Batches.testBatches (H : Batches a ps a') (checked : Nat) (os : List (List Nat)) :
    (a'.testBatches checked ps.length os).2 = (ps ++ reported checked os).length ∧
      Batches a (ps ++ reported checked os) (a'.testBatches checked ps.length os).1 := by
  induction os generalizing ps a' checked with
  | nil => simpa [Arrays.testBatches, reported] using H
  | cons is os ih =>
    have ih := ih (H.testBatch checked is) (checked + BatchSize)
    rw [List.length_append, List.length_map, List.append_assoc] at ih
    exact ih

theorem batches_testBatches (a : Arrays) (os : List (List Nat)) :
    (a.testBatches 0 0 os).2 = (reported 0 os).length ∧
      Batches a (reported 0 os) (a.testBatches 0 0 os).1 := by
  have H : Batches a [] a := ⟨rfl, rfl, rfl, by simp⟩
  exact H.testBatches 0 os

/-! ## Answers -/

theorem le_of_mem_reported {p : Nat} (h : p ∈ reported checked os) : checked ≤ p := by
  induction os generalizing checked with
  | nil => cases h
  | cons is os ih =>
    rcases List.mem_append.mp h with h | h
    · exact (mem_map_add.mp h).1
    · exact (Nat.le_add_right ..).trans (ih h)

theorem Answers.lt {p : Nat} (A : Answers n checked os) (h : p ∈ reported checked os) : p < n := by
  induction os generalizing checked with
  | nil => cases h
  | cons is os ih =>
    obtain ⟨_, _, hlt, A⟩ := A
    rcases List.mem_append.mp h with h | h
    · obtain ⟨hle, hmem⟩ := mem_map_add.mp h
      have := hlt _ hmem
      omega
    · exact ih A h

/-- The first batch is before all others. -/
theorem Answers.lt_of_mem {p : Nat} (A : Answers n checked (is :: os))
    (h : p ∈ is.map (· + checked)) : p < checked + BatchSize := by
  obtain ⟨hle, hmem⟩ := mem_map_add.mp h
  have := A.2.2.1 _ hmem
  omega

theorem Answers.nodup (A : Answers n checked os) : (reported checked os).Nodup := by
  induction os generalizing checked with
  | nil => exact List.nodup_nil
  | cons is os ih =>
    refine List.nodup_append.mpr ⟨?_, ih A.2.2.2, ?_⟩
    · exact A.2.1.map fun i j h => Nat.add_right_cancel h
    · rintro p hp q hq rfl
      exact absurd (A.lt_of_mem hp) (Nat.not_lt.mpr (le_of_mem_reported hq))

theorem Answers.batched (A : Answers n checked os) (hc : BatchSize ∣ checked) :
    Batched BatchSize (reported checked os) := by
  induction os generalizing checked with
  | nil => exact List.Pairwise.nil
  | cons is os ih =>
    have hdiv {p : Nat} (hp : p ∈ is.map (· + checked)) : p / BatchSize = checked / BatchSize := by
      obtain ⟨k, rfl⟩ := hc
      have h₁ := (mem_map_add.mp hp).1
      have h₂ := A.lt_of_mem hp
      simp only [BatchSize] at *
      omega
    have hrest := ih A.2.2.2 (Nat.dvd_add hc (dvd_refl _))
    refine List.pairwise_append.mpr ⟨?_, hrest, fun p hp q hq => ?_⟩
    · exact List.pairwise_of_forall_mem_list fun p hp q hq => (hdiv hp).trans_le (hdiv hq).ge
    · have hle := le_of_mem_reported hq
      exact Nat.div_le_div_right ((A.lt_of_mem hp).le.trans hle)

theorem Answers.perm (A : Answers n checked os) (h : List.Forall₂ List.Perm os os') :
    Answers n checked os' ∧ (reported checked os').Perm (reported checked os) := by
  induction h generalizing checked with
  | nil => exact ⟨A, .refl _⟩
  | cons hp _ ih =>
    obtain ⟨A', hperm⟩ := ih A.2.2.2
    refine ⟨⟨A.1, hp.nodup_iff.mp A.2.1, fun i hi => A.2.2.1 i (hp.mem_iff.mpr hi), A'⟩, ?_⟩
    exact (hp.symm.map _).append hperm

/-- Every order of the reported positions that keeps the batches apart comes from answers of MPI. -/
theorem Answers.exists_of_batched (A : Answers n checked os) (hc : BatchSize ∣ checked)
    (hp : order.Perm (reported checked os)) (hB : Batched BatchSize order) :
    ∃ os', List.Forall₂ List.Perm os os' ∧ reported checked os' = order := by
  induction os generalizing checked order with
  | nil => exact ⟨[], .nil, hp.eq_nil.symm⟩
  | cons is os ih =>
    have hfirst : order.Pairwise fun g h => checked + BatchSize ≤ g → checked + BatchSize ≤ h := by
      refine hB.imp fun {g h} hle hg => ?_
      obtain ⟨k, rfl⟩ := hc
      simp only [BatchSize] at *
      omega
    have hsplit := filter_append_filter hfirst
    have hlow : (order.filter (· < checked + BatchSize)).Perm (is.map (· + checked)) := by
      refine (hp.filter _).trans (.of_eq ?_)
      rw [reported, List.filter_append, List.filter_eq_self.mpr fun p hp =>
        decide_eq_true (A.lt_of_mem hp), List.filter_eq_nil_iff.mpr fun p hp => by
        simpa using le_of_mem_reported hp, List.append_nil]
    have hhigh : (order.filter (checked + BatchSize ≤ ·)).Perm
        (reported (checked + BatchSize) os) := by
      refine (hp.filter _).trans (.of_eq ?_)
      rw [reported, List.filter_append, List.filter_eq_nil_iff.mpr fun p hp => by
        simpa using A.lt_of_mem hp, List.filter_eq_self.mpr fun p hp =>
        decide_eq_true (le_of_mem_reported hp), List.nil_append]
    obtain ⟨os', hos, heq⟩ := ih A.2.2.2 (Nat.dvd_add hc (dvd_refl _)) hhigh (hB.filter _)
    refine ⟨(order.filter (· < checked + BatchSize)).map (· - checked) :: os', .cons ?_ hos, ?_⟩
    · have hcancel : (is.map (· + checked)).map (· - checked) = is := by
        rw [List.map_map]
        exact (List.map_congr_left fun i _ => Nat.add_sub_cancel i checked).trans (List.map_id _)
      exact hcancel ▸ hlow.symm.map (· - checked)
    · have hcancel : ((order.filter (· < checked + BatchSize)).map (· - checked)).map (· + checked) =
          order.filter (· < checked + BatchSize) := by
        rw [List.map_map]
        exact (List.map_congr_left fun p hp => Nat.sub_add_cancel
          (mem_map_add.mp (hlow.mem_iff.mp hp)).1).trans (List.map_id _)
      rw [reported, hcancel, heq, hsplit]

/-! ## Order-insensitivity -/

/-- The replacement after batches never fails, and its moves are a compaction of the positions. -/
theorem Batches.replace (H : Batches a ps a₁) (hown : a.OwnTickets n) :
    ∃ a', a₁.replace n ps.length = some a' ∧ a'.OwnTickets n ∧
      a'.cell = moved (fun p => if p ∈ ps then (none, (a.cell p).2) else a.cell p)
        (assign (sources n ps.reverse) ps) := by
  have hown₁ : a₁.OwnTickets n := fun p hp => by rw [H.mappings, hown p hp]
  obtain ⟨a', hrun, hown', hcell, -, -⟩ := hown₁.replace ps.length
  rw [H.holes] at hcell
  refine ⟨a', hrun, hown', hcell.trans (congrArg (moved · _) (funext fun p => ?_))⟩
  rw [cell, H.requests p, H.tickets, getLocalPositionInTicket, H.mappings]
  split <;> rfl

theorem internalCheckRequests_spec (hown : a.OwnTickets n) (os : List (List Nat)) :
    ∃ a', a.internalCheckRequests n os = some a' ∧ a'.OwnTickets n ∧
      a'.cell = moved (fun p => if p ∈ reported 0 os then (none, (a.cell p).2) else a.cell p)
        (assign (sources n (reported 0 os).reverse) (reported 0 os)) := by
  obtain ⟨hk, H⟩ := batches_testBatches a os
  rw [internalCheckRequests, hk]
  exact H.replace hown

/-- The set that should be left: the requests that were not reported. -/
def survivors (a : Arrays) (n : Nat) (os : List (List Nat)) : Set (Request × Ticket) :=
  {x | ∃ p < n, p ∉ reported 0 os ∧ x = (a.requests p, a.getAssociatedTicket p)}

theorem mem_left {m : Nat} (hown : a.OwnTickets n) (hm : m ≤ n) :
    x ∈ a.left m ↔ ∃ p < m, x = ((a.cell p).1, (a.cell p).2.1) := by
  refine exists_congr fun p => and_congr_right fun hp => ?_
  rw [getAssociatedTicket, hown p (hp.trans_le hm)]
  rfl

theorem mem_survivors (hown : a.OwnTickets n) :
    x ∈ a.survivors n os ↔ ∃ p ∈ valid (reported 0 os) n, x = ((a.cell p).1, (a.cell p).2.1) := by
  simp only [survivors, Set.mem_ofPred_eq, mem_valid, and_assoc]
  refine exists_congr fun p => and_congr_right fun hp => ?_
  rw [getAssociatedTicket, hown p hp]
  rfl

/-- If the compaction keeps the valid entries, the check leaves the requests not reported. -/
theorem left_eq_survivors (hown : a.OwnTickets n)
    (h : ∀ f : Nat → Request × Ticket × Nat, (Multiset.range m).map
      (moved f (assign (sources n (reported 0 os).reverse) (reported 0 os))) =
        (valid (reported 0 os) n).map f) (hm : m ≤ n) :
    ∃ a', a.internalCheckRequests n os = some a' ∧ a'.left m = a.survivors n os := by
  obtain ⟨a', hrun, hown', hcell⟩ := internalCheckRequests_spec hown os
  refine ⟨a', hrun, Set.ext fun x => ?_⟩
  have hmap := h fun p => if p ∈ reported 0 os then (none, (a.cell p).2) else a.cell p
  rw [← hcell] at hmap
  rw [mem_left hown' hm, mem_survivors hown]
  constructor
  · rintro ⟨p, hp, rfl⟩
    have hmem := hmap ▸ Multiset.mem_map_of_mem a'.cell (Multiset.mem_range.mpr hp)
    obtain ⟨q, hq, heq⟩ := Multiset.mem_map.mp hmem
    rw [if_neg (mem_valid.mp hq).2] at heq
    exact ⟨q, hq, by rw [heq]⟩
  · rintro ⟨q, hq, rfl⟩
    have hmem := Multiset.mem_map_of_mem
      (fun p => if p ∈ reported 0 os then (none, (a.cell p).2) else a.cell p) hq
    rw [← hmap] at hmem
    obtain ⟨p, hp, heq⟩ := Multiset.mem_map.mp hmem
    rw [if_neg (mem_valid.mp hq).2] at heq
    exact ⟨p, Multiset.mem_range.mp hp, by rw [heq]⟩

/-- A reported position in front is not a request that should be left. -/
theorem left_ne_survivors (hown : a.OwnTickets n) (hactive : ∀ p < n, a.requests p ≠ none)
    (hrun : a.internalCheckRequests n os = some a') (hm : m ≤ n) (he : e < m)
    (hb : b ∈ reported 0 os)
    (h : moved id (assign (sources n (reported 0 os).reverse) (reported 0 os)) e = b) :
    a'.left m ≠ a.survivors n os := by
  obtain ⟨a₁, hrun₁, hown₁, hcell⟩ := internalCheckRequests_spec hown os
  cases hrun.symm.trans hrun₁
  intro heq
  have hnone : (a'.cell e).1 = none := by
    have hcomp := congrFun (moved_comp
      (fun p => if p ∈ reported 0 os then (none, (a.cell p).2) else a.cell p) id
      (assign (sources n (reported 0 os).reverse) (reported 0 os))) e
    rw [Function.comp_id, ← hcell, Function.comp_apply, h, if_pos hb] at hcomp
    rw [hcomp]
  have hmem := heq ▸ (mem_left hown₁ hm).mpr ⟨e, he, rfl⟩
  obtain ⟨q, hq, hpair⟩ := (mem_survivors hown).mp hmem
  exact hactive q (mem_valid.mp hq).1 ((congrArg Prod.fst hpair).symm.trans hnone)

theorem survivors_congr (h : ∀ p, p ∈ reported 0 os ↔ p ∈ reported 0 os') :
    a.survivors n os = a.survivors n os' := by
  simp only [survivors, h]

theorem Answers.length_le (A : Answers n 0 os) : (reported 0 os).length ≤ n := by
  have := card_valid A.nodup fun p hp => A.lt hp
  omega

/-- A check in an order that is tolerated leaves the requests not reported. -/
theorem Answers.left_of_tolerant (A : Answers n 0 os) (hown : a.OwnTickets n)
    (T : Tolerant BatchSize (n - (reported 0 os).length) (reported 0 os)) :
    ∃ a', a.internalCheckRequests n os = some a' ∧
      a'.left (n - (reported 0 os).length) = a.survivors n os :=
  left_eq_survivors hown (fun _ => T.map_moved (A.batched ⟨0, rfl⟩) A.nodup (fun _ hp => A.lt hp)
    (Nat.sub_add_cancel A.length_le)) (Nat.sub_le ..)

/-- The order in which MPI reports the requests of a batch matters exactly if a reported position
beyond the new end is in a batch with another one, unless it is reached from there over reported
positions and the batch of the new end reports none before it. -/
theorem order_insensitive_iff (hown : ∀ p < n, (a.mappings p).ticket = p)
    (hactive : ∀ p < n, a.requests p ≠ none) (A : Answers n 0 os) :
    (∀ os₁ os₂, List.Forall₂ List.Perm os os₁ → List.Forall₂ List.Perm os os₂ →
      ∃ a₁ a₂, a.internalCheckRequests n os₁ = some a₁ ∧ a.internalCheckRequests n os₂ = some a₂ ∧
        a₁.left (n - (reported 0 os).length) = a₂.left (n - (reported 0 os).length) ∧
        a₁.left (n - (reported 0 os).length) = a.survivors n os) ↔
      Tolerant BatchSize (n - (reported 0 os).length) (reported 0 os) := by
  constructor
  · intro H
    by_contra T
    obtain ⟨order, hperm, hB, e, he, b, hb, hmoved⟩ := exists_misplaced A.nodup
      (fun p hp => A.lt hp) (Nat.sub_add_cancel A.length_le) T
    obtain ⟨os', hos, rfl⟩ := A.exists_of_batched ⟨0, rfl⟩ hperm hB
    obtain ⟨a', -, hrun, -, -, hleft⟩ := H os' os' hos hos
    refine left_ne_survivors hown hactive hrun (Nat.sub_le ..) he (hperm.mem_iff.mpr hb) hmoved ?_
    rw [hleft, survivors_congr fun p => hperm.mem_iff]
  · intro T
    have hright {os₁ : List (List Nat)} (h : List.Forall₂ List.Perm os os₁) :
        ∃ a', a.internalCheckRequests n os₁ = some a' ∧
          a'.left (n - (reported 0 os).length) = a.survivors n os := by
      obtain ⟨A₁, hperm⟩ := A.perm h
      rw [survivors_congr fun p => hperm.mem_iff.symm, ← hperm.length_eq]
      rw [← hperm.length_eq] at T
      exact A₁.left_of_tolerant hown (T.congr fun p => hperm.mem_iff.symm)
    intro os₁ os₂ h₁ h₂
    obtain ⟨a₁, hrun₁, hleft₁⟩ := hright h₁
    obtain ⟨a₂, hrun₂, hleft₂⟩ := hright h₂
    exact ⟨a₁, a₂, hrun₁, hrun₂, hleft₁.trans hleft₂.symm, hleft₁⟩

/-- The first two of four requests may be reported in either order. -/
theorem order_insensitive_firstTwo : ∃ a₁ a₂,
    (demoArrays id).internalCheckRequests 4 [[0, 1]] = some a₁ ∧
      (demoArrays id).internalCheckRequests 4 [[1, 0]] = some a₂ ∧ a₁.left 2 = a₂.left 2 ∧
      a₁.left 2 = (demoArrays id).survivors 4 [[0, 1]] := by
  have A : Answers 4 0 [[0, 1]] :=
    ⟨by decide, by decide, by decide, (by decide : 4 ≤ 0 + BatchSize)⟩
  have T : Tolerant BatchSize 2 (reported 0 [[0, 1]]) := by
    intro s hs hlt
    have : s ∈ [0, 1] := hs
    simp at this
    omega
  exact (order_insensitive_iff (fun _ _ => rfl) (fun _ _ => Option.some_ne_none _) A).mpr T _ _
    (.cons (.refl _) .nil) (.cons (.swap 1 0 []) .nil)

/-- Of four requests the first and the last are reported. In one order the third one is left, in the
other it is lost and the null request of the last one left in its place. -/
theorem order_sensitive_firstLast : ∃ a₁ a₂,
    List.Forall₂ List.Perm [[0, 3]] [[3, 0]] ∧
      (demoArrays id).internalCheckRequests 4 [[0, 3]] = some a₁ ∧
      (demoArrays id).internalCheckRequests 4 [[3, 0]] = some a₂ ∧
      (some 2, (demoArrays id).tickets 2) ∈ a₁.left 2 ∧
      (some 2, (demoArrays id).tickets 2) ∉ a₂.left 2 ∧
      (none, (demoArrays id).tickets 3) ∈ a₂.left 2 := by
  refine ⟨_, _, .cons (.swap 3 0 []) .nil, rfl, rfl, ⟨0, by decide, rfl⟩, ?_, ⟨0, by decide, rfl⟩⟩
  rintro ⟨p, hp, heq⟩
  obtain rfl | rfl : p = 0 ∨ p = 1 := by omega
  · cases congrArg Prod.fst heq
  · cases congrArg Prod.fst heq

end Tampi.Arrays

/-! ## The steps of the polling task -/

namespace Tampi
open Function (update)
open Arrays

/-- What the reports of one `MPI_Testsome` do to the arrays. -/
structure Test.Reported (t : Test) (b : Buffers) (is : List Nat) (t' : Test) (b' : Buffers) :
    Prop where
  nodup : is.Nodup
  active : ∀ i ∈ is, b.requests (t.roff + i) ≠ none
  completed : t'.completed = t.completed + is.length
  requests : ∀ p, b'.requests p = if t.roff ≤ p ∧ p - t.roff ∈ is then none else b.requests p
  below : ∀ j < t.ioff + t.completed, b'.indices j = b.indices j
  indices : ∀ j i, is[j]? = some i → b'.indices (t.ioff + t.completed + j) = i

theorem Test.reportAll_spec {t t' : Test} {b b' : Buffers} {is : List Nat}
    (h : t.reportAll b is = some (t', b')) : t.Reported b is t' b' := by
  induction is generalizing t b with
  | nil =>
    cases h
    exact ⟨List.nodup_nil, by simp, rfl, by simp, fun _ _ => rfl, by simp⟩
  | cons i is ih =>
    obtain ⟨p, hreport, h⟩ := Option.bind_eq_some_iff.mp h
    obtain ⟨r, owner, status, hr, -, rfl⟩ := Test.report_eq_some hreport
    have R := ih h
    have hactive (j : Nat) (hj : j ∈ is) : j ≠ i ∧ b.requests (t.roff + j) ≠ none := by
      have hne : update b.requests (t.roff + i) none (t.roff + j) ≠ none := R.active j hj
      by_cases hji : j = i
      · subst hji
        exact absurd (Function.update_self ..) hne
      · rw [Function.update_of_ne (by omega)] at hne
        exact ⟨hji, hne⟩
    refine ⟨List.nodup_cons.mpr ⟨fun hi => (hactive i hi).1 rfl, R.nodup⟩, fun j hj => ?_, ?_,
      fun p => ?_, fun j hj => ?_, fun j k hj => ?_⟩
    · rcases List.mem_cons.mp hj with rfl | hj
      · rw [hr]
        exact Option.some_ne_none r
      · exact (hactive j hj).2
    · rw [R.completed, List.length_cons]
      exact Nat.add_right_comm ..
    · rw [R.requests p]
      by_cases hp : p = t.roff + i
      · subst hp
        simp
      · have : t.roff ≤ p → p - t.roff ≠ i := by omega
        simp only [Function.update_of_ne hp, List.mem_cons]
        congr 1
        simp only [eq_iff_iff, and_congr_right_iff]
        exact fun hle => (or_iff_right (this hle)).symm
    · rw [R.below j (by simp; omega)]
      exact Function.update_of_ne (by omega) ..
    · cases j with
      | zero =>
        rw [R.below _ (by simp), Nat.add_zero]
        simpa using hj
      | succ j =>
        have := R.indices j k hj
        rwa [show t.ioff + t.completed + (j + 1) = t.ioff + (t.completed + 1) + j by omega]

theorem reported_concat (c : Nat) (os : List (List Nat)) (is : List Nat) :
    reported c (os ++ [is]) = reported c os ++ is.map (· + (c + BatchSize * os.length)) := by
  induction os generalizing c with
  | nil => simp [reported]
  | cons is' os ih =>
    rw [List.cons_append, reported, ih, reported, List.append_assoc, List.length_cons, Nat.mul_succ,
      Nat.add_right_comm, Nat.add_assoc]

theorem mem_reported_concat {os : List (List Nat)} {is : List Nat} {p checked : Nat}
    (h : checked = BatchSize * os.length) :
    p ∈ reported 0 (os ++ [is]) ↔ p ∈ reported 0 os ∨ checked ≤ p ∧ p - checked ∈ is := by
  rw [reported_concat, List.mem_append, mem_map_add, Nat.zero_add, h]

theorem holes_congr {indices indices' : Nat → Nat} {c : Nat} (h : ∀ j < c, indices j = indices' j) :
    holes indices 0 c = holes indices' 0 c :=
  List.map_congr_left fun j hj => h j (by simpa using hj)

namespace Check

/-- The check has had the answers `os` to the batches before the current one. -/
structure Progress (n : Nat) (os : List (List Nat)) (k : Check) : Prop where
  answers : ∀ rest, Answers n k.checked rest → Answers n 0 (os ++ rest)
  checked : k.checked = BatchSize * os.length
  checked_lt : k.checked < n
  completed : k.completed = (reported 0 os).length

/-- The answer to the current batch is `is`, and its first `c` indices are corrected. -/
structure Storing (a : Arrays) (n : Nat) (os : List (List Nat)) (is : List Nat) (c : Nat)
    (b : Arrays) (k : Check) : Prop extends Progress n os k where
  nodup : is.Nodup
  lt_count : ∀ i ∈ is, i < min (n - k.checked) BatchSize
  le_length : c ≤ is.length
  mappings : b.mappings = a.mappings
  tickets : b.tickets = a.tickets
  requests : ∀ p, b.requests p = if p ∈ reported 0 (os ++ [is]) then none else a.requests p
  holes : holes b.indices 0 (k.completed + c) = reported 0 os ++ (is.take c).map (· + k.checked)
  raw : ∀ j i, c ≤ j → is[j]? = some i → b.indices (k.completed + j) = i

/-- Where the check of `n` requests that began with the arrays `a` is, when the arrays are `b`. -/
def At (a : Arrays) (n : Nat) (b : Arrays) (k : Check) : Prop :=
  match k.phase with
  | .test t => t = .start k.checked k.completed (min (n - k.checked) BatchSize) ∧
      ∃ os, Progress n os k ∧ Batches a (reported 0 os) b
  | .store c m => ∃ os is, m = is.length ∧ Storing a n os is c b k
  | .deliver c m => c < m ∧ ∃ os is, m = is.length ∧ Storing a n os is (c + 1) b k
  | .handoff m => ∃ os is, m = is.length ∧ Storing a n os is m b k
  | .replace => ∃ os, Answers n 0 os ∧ k.completed = (reported 0 os).length ∧
      Batches a (reported 0 os) b

variable {a b : Arrays} {n : Nat} {k : Check}

theorem at_start (a : Arrays) (hn : 0 < n) : (Check.batch n 0 0).At a n a :=
  ⟨rfl, [], ⟨fun _ h => h, rfl, hn, rfl⟩, ⟨rfl, rfl, rfl, by simp [reported]⟩⟩

/-- A batch is done once all its indices are corrected. -/
theorem Storing.batches (S : Storing a n os is is.length b k) :
    Batches a (reported 0 (os ++ [is])) b ∧
      k.completed + is.length = (reported 0 (os ++ [is])).length := by
  have hreported : reported 0 (os ++ [is]) = reported 0 os ++ is.map (· + k.checked) := by
    rw [reported_concat, Nat.zero_add, S.checked]
  have hlen : k.completed + is.length = (reported 0 (os ++ [is])).length := by
    rw [hreported, List.length_append, List.length_map, S.completed]
  refine ⟨⟨?_, S.mappings, S.tickets, S.requests⟩, hlen⟩
  rw [← hlen, S.holes, List.take_length, hreported]

/-- The answer to the current batch joins the others. -/
theorem Storing.answers_concat (S : Storing a n os is c b k) (rest : List (List Nat))
    (h : Answers n (k.checked + BatchSize) rest) : Answers n 0 (os ++ [is] ++ rest) := by
  rw [List.append_assoc]
  exact S.answers _ ⟨S.checked_lt, S.nodup, S.lt_count, h⟩

/-- The offset is added to one more index. -/
theorem Storing.correct (S : Storing a n os is c b k) (hc : c < is.length) (phase : CheckPhase) :
    Storing a n os is (c + 1)
      { b with
        indices := update b.indices (k.completed + c) (b.indices (k.completed + c) + k.checked) }
      { k with phase := phase } where
  __ := S
  le_length := hc
  holes := by
    have hraw := S.raw c is[c] (le_refl c) (List.getElem?_eq_getElem hc)
    have htake : is.take (c + 1) = is.take c ++ [is[c]] := by
      rw [List.take_add_one, List.getElem?_eq_getElem hc, Option.toList_some]
    dsimp only
    rw [← Nat.add_assoc, holes_concat, Function.update_self, hraw,
      holes_congr fun j hj => Function.update_of_ne (Nat.ne_of_lt hj) .., S.holes, htake,
      List.map_append, List.append_assoc]
    rfl
  raw := fun j i hj hi => by
    dsimp only
    rw [Function.update_of_ne (by omega)]
    exact S.raw j i (by omega) hi

end Check

namespace Sys
variable {cfg : Config} {s s' : Sys} {total inserted n : Nat} {k : Check} {a : Arrays}
  {ans : Answer}

/-- The check goes on, and is still where `At` says. -/
def StillAt (a : Arrays) (n total inserted : Nat) (s : Sys) : Prop :=
  s.manager.pending = n ∧
    ∃ k, s.poll = .check total inserted k ∧ k.At a n s.manager.arrays

/-- The check is over, and the arrays are what `internalCheckRequests` computes. -/
def Checked (a : Arrays) (n : Nat) (s : Sys) : Prop :=
  ∃ os a', Answers n 0 os ∧ a.internalCheckRequests n os = some a' ∧
    s.manager.pending = n - (reported 0 os).length ∧
    ∀ p < n, s.manager.arrays.record p = a'.record p

theorem checkStep_test (hcfg : cfg.generalTesting = .testSome) (hn : s.manager.pending = n)
    (hk : k.phase = .test t) (K : k.At a n s.manager.arrays)
    (h : s.checkStep cfg total inserted k ans = some s') (hf : s'.failure = none) :
    s'.StillAt a n total inserted := by
  simp only [Check.At, hk] at K
  obtain ⟨rfl, os, P, H⟩ := K
  simp only [checkStep, hk, hcfg, Option.map_eq_some_iff] at h
  obtain ⟨res, htest, rfl⟩ := h
  unfold internalTestRequests at htest
  dsimp only at htest
  split at htest
  · cases htest
    cases hf
  · split at htest
    · split at htest
      · rename_i is hall
        obtain ⟨⟨t', b'⟩, hreport, rfl⟩ := Option.map_eq_some_iff.mp htest
        have R := Test.reportAll_spec hreport
        refine ⟨hn, _, rfl, os, is, ?_, ?_⟩
        · simpa [Test.start] using R.completed
        · exact {
            P with
            nodup := R.nodup
            lt_count := fun i hi => of_decide_eq_true (List.all_eq_true.mp hall i hi)
            le_length := Nat.zero_le _
            mappings := H.mappings
            tickets := H.tickets
            requests := fun p => by
              have hr : s.manager.arrays.requests p = _ := H.requests p
              simp only [mem_reported_concat P.checked, R.requests p, Buffers.call, Test.start, hr]
              split <;> split <;> simp_all
            holes := by
              rw [List.take_zero, List.map_nil, List.append_nil, Nat.add_zero]
              exact (holes_congr R.below).trans (P.completed ▸ H.holes)
            raw := fun j i _ hj => R.indices j i hj }
      · cases htest
    · cases htest

theorem storeStatus_manager (s : Sys) (ignore : Bool) (ticket : Ticket) (status : Status)
    (position : Nat) :
    (if ignore then s else s.storeStatus ticket status position).manager = s.manager := by
  obtain ⟨memory, es, h, -⟩ := storeStatus_eq s ignore ticket status position
  rw [h]

theorem transferContexts_manager (cfg : Config) (s : Sys) (contexts : List TaskContext) :
    (s.transferContexts cfg contexts).manager = s.manager := by
  unfold transferContexts
  split <;> rfl

theorem checkStep_store (hn : s.manager.pending = n) (hk : k.phase = .store c m)
    (K : k.At a n s.manager.arrays) (h : s.checkStep cfg total inserted k ans = some s') :
    s'.StillAt a n total inserted := by
  simp only [Check.At, hk] at K
  obtain ⟨os, is, rfl, S⟩ := K
  simp only [checkStep, hk] at h
  split at h
  · rename_i hlt
    cases h
    refine ⟨?_, _, rfl, hlt, os, is, rfl, ?_⟩
    · exact (congrArg TicketManager.pending (storeStatus_manager ..)).trans hn
    · rw [storeStatus_manager]
      exact S.correct hlt _
  · rename_i hge
    cases h
    obtain rfl : c = is.length := Nat.le_antisymm S.le_length (Nat.le_of_not_lt hge)
    exact ⟨hn, _, rfl, os, is, rfl, { S with }⟩

theorem checkStep_deliver (hn : s.manager.pending = n) (hk : k.phase = .deliver c m)
    (K : k.At a n s.manager.arrays) (h : s.checkStep cfg total inserted k ans = some s') :
    s'.StillAt a n total inserted := by
  simp only [Check.At, hk] at K
  obtain ⟨-, os, is, rfl, S⟩ := K
  simp only [checkStep, hk] at h
  split at h
  · cases h
    exact ⟨hn, _, rfl, os, is, rfl, { S with }⟩
  · cases h
    exact ⟨hn, _, rfl, os, is, rfl, { S with }⟩

theorem checkStep_handoff (hn : s.manager.pending = n) (hk : k.phase = .handoff m)
    (K : k.At a n s.manager.arrays) (h : s.checkStep cfg total inserted k ans = some s')
    (hf : s'.failure = none) : s'.StillAt a n total inserted := by
  simp only [Check.At, hk] at K
  obtain ⟨os, is, rfl, S⟩ := K
  obtain ⟨H, hlen⟩ := S.batches
  simp only [checkStep, hk] at h
  generalize hs₁ : (if cfg.completionEnabled ∧ 0 < is.length then s.transferContexts cfg k.contexts
    else s) = s₁ at h
  have hm : s₁.manager = s.manager := by
    rw [← hs₁]
    split
    · exact transferContexts_manager ..
    · rfl
  cases h
  by_cases hfail : s₁.failure.isSome
  · rw [if_pos hfail] at hf
    rw [hf] at hfail
    cases hfail
  rw [if_neg hfail]
  have hn₁ : s₁.manager.pending = n := by rw [hm, hn]
  rw [hn₁]
  by_cases hlt : k.checked + min (n - k.checked) BatchSize < n
  · rw [if_pos hlt]
    have hchecked : k.checked + min (n - k.checked) BatchSize = k.checked + BatchSize := by omega
    refine ⟨hn₁, _, rfl, rfl, os ++ [is], ⟨fun rest hrest => ?_, ?_, hlt, hlen⟩, hm ▸ H⟩
    · exact S.answers_concat rest (hchecked ▸ hrest)
    · rw [List.length_append, List.length_singleton, Nat.mul_succ, ← S.checked]
      exact hchecked
  · rw [if_neg hlt]
    refine ⟨hn₁, _, rfl, os ++ [is], ?_, hlen, hm ▸ H⟩
    have hend : Answers n (k.checked + BatchSize) [] := by
      change n ≤ k.checked + BatchSize
      omega
    simpa using S.answers_concat [] hend

/-- The last step of a check computes what `internalCheckRequests` does. -/
theorem checkStep_last (hn : s.manager.pending = n) (hown : a.OwnTickets n)
    (hk : k.phase = .replace) (K : k.At a n s.manager.arrays)
    (h : s.checkStep cfg total inserted k ans = some s') :
    s'.poll = nextRound total inserted k.completed ∧ s'.Checked a n := by
  simp only [Check.At, hk] at K
  obtain ⟨os, A, hlen, H⟩ := K
  obtain ⟨a₁, hrun₁, hown₁, hcell₁⟩ := H.replace hown
  obtain ⟨a', hrun, hown', hcell⟩ := internalCheckRequests_spec hown os
  rw [← hlen] at hrun₁
  simp only [checkStep, hk, hn, hrun₁] at h
  cases h
  refine ⟨rfl, os, a', A, hrun, congrArg (n - ·) hlen, fun p hp => ?_⟩
  rw [hown₁.record_eq hp, hown'.record_eq hp, hcell₁, hcell]

/-- Only the polling task changes the arrays. -/
theorem step_manager (h : s.step cfg l = some s') (hl : l.isPoll = false) :
    s'.manager = s.manager ∧ s'.poll = s.poll := by
  cases agentMove_of_step h hl <;> exact ⟨rfl, rfl⟩

theorem nextRound_ne_check : nextRound total inserted completed ≠ .check total' inserted' k := by
  unfold nextRound
  split <;> exact Poll.noConfusion

/-- One step of the system during a check: the check goes on, or this was its last step. -/
theorem step_stillAt (hcfg : cfg.generalTesting = .testSome) (hown : a.OwnTickets n)
    (S : s.StillAt a n total inserted) (h : s.step cfg l = some s') (hf : s'.failure = none) :
    s'.StillAt a n total inserted ∨
      (∀ k, s'.poll ≠ .check total inserted k) ∧ s'.Checked a n := by
  obtain ⟨hn, k, hp, K⟩ := S
  cases l with
  | process | cpu | resume | completion | mpi =>
    obtain ⟨hm, hpoll⟩ := step_manager h rfl
    exact .inl ⟨hm ▸ hn, k, hpoll.trans hp, hm ▸ K⟩
  | poll ans =>
  have hstep : s.checkStep cfg total inserted k ans = some s' := by
    unfold step at h
    split at h
    · cases h
    · simpa only [pollStep, hp] using h
  cases hk : k.phase with
  | test t => exact .inl (checkStep_test hcfg hn hk K hstep hf)
  | store c m => exact .inl (checkStep_store hn hk K hstep)
  | deliver c m => exact .inl (checkStep_deliver hn hk K hstep)
  | handoff m => exact .inl (checkStep_handoff hn hk K hstep hf)
  | replace =>
    obtain ⟨hpoll, H⟩ := checkStep_last hn hown hk K hstep
    exact .inr ⟨fun _ => hpoll ▸ nextRound_ne_check, H⟩

/-- A check of the system, with steps of other tasks in between, leaves what `internalCheckRequests`
computes from the answers of MPI. -/
theorem check_refines {t u : Sys} (hcfg : cfg.generalTesting = .testSome)
    (hs : s.poll = .check total inserted (.batch s.manager.pending 0 0))
    (hpos : 0 < s.manager.pending) (hown : s.manager.arrays.OwnTickets s.manager.pending)
    (hr : (openSystem cfg).Reaches s ls t) (hstep : (openSystem cfg).step t l u)
    (hin : ∀ ls₁ ls₂ v, ls = ls₁ ++ ls₂ → (openSystem cfg).Reaches s ls₁ v →
      ∃ k, v.poll = .check total inserted k)
    (hout : ∀ k, u.poll ≠ .check total inserted k) (hu : u.failure = none) :
    u.Checked s.manager.arrays s.manager.pending := by
  have hstill : t.StillAt s.manager.arrays s.manager.pending total inserted := by
    have hf : t.failure = none := failure_of_step hstep
    clear hstep hout hu
    induction hr with
    | refl => exact ⟨rfl, _, hs, Check.at_start _ hpos⟩
    | @tail ls v l w hr hstep ih =>
      have S := ih (fun ls₁ ls₂ v heq => hin ls₁ (ls₂ ++ [l]) v (by simp [heq]))
        (failure_of_step hstep)
      refine (step_stillAt hcfg hown S hstep hf).resolve_right fun ⟨hne, _⟩ => ?_
      obtain ⟨k, hk⟩ := hin (ls ++ [l]) [] w (by simp) (hr.tail hstep)
      exact hne k hk
  refine ((step_stillAt hcfg hown hstill hstep hu).resolve_left ?_).2
  rintro ⟨-, k, hk, -⟩
  exact hout k hk

/-- A check begins with arrays in which every position has its own ticket and an active request. -/
theorem Inv.at_check (I : s.Inv cfg)
    (hs : s.poll = .check total inserted (.batch s.manager.pending 0 0)) :
    s.manager.arrays.OwnTickets s.manager.pending ∧
      ∀ p < s.manager.pending, s.manager.arrays.requests p ≠ none := by
  refine ⟨fun p hp => by rw [I.self p hp], fun p hp => ?_⟩
  obtain ⟨-, -, -, -, hrest, T⟩ := (I.check hs).phase
  by_cases hlt : p < min (s.manager.pending - 0) BatchSize
  · obtain ⟨r, hr⟩ := T.active_of_next_le (Nat.zero_le p) hlt
    rw [Test.start, Nat.zero_add] at hr
    simp [hr]
  · refine hrest p ?_ hp
    exact (Nat.zero_add _).trans_le (Nat.le_of_not_lt hlt)

/-- A check that begins in a state of the system leaves the requests that were not reported, if the
orders in which MPI answers are tolerated. -/
theorem Checked.left (C : s'.Checked s.manager.arrays s.manager.pending) (I : s.Inv cfg)
    (hs : s.poll = .check total inserted (.batch s.manager.pending 0 0)) :
    ∃ os, Answers s.manager.pending 0 os ∧
      (Compaction.Tolerant BatchSize (s.manager.pending - (reported 0 os).length) (reported 0 os) →
        s'.manager.arrays.left s'.manager.pending =
          s.manager.arrays.survivors s.manager.pending os) := by
  obtain ⟨os, a', A, hrun, hpending, hrecord⟩ := C
  refine ⟨os, A, fun T => ?_⟩
  obtain ⟨a₁, hrun₁, hleft⟩ := A.left_of_tolerant (I.at_check hs).1 T
  cases hrun.symm.trans hrun₁
  rw [hpending, ← hleft]
  refine Set.ext fun x => exists_congr fun p => and_congr_right fun hp => ?_
  have hp : p < s.manager.pending := hp.trans_le (Nat.sub_le ..)
  rw [(Prod.mk.inj (hrecord p hp)).1, (Prod.mk.inj (Prod.mk.inj (hrecord p hp)).2).1]

end Sys

end Tampi
