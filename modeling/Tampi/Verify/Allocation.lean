import Mathlib.Algebra.Group.Action.Defs
import Mathlib.Algebra.Order.BigOperators.Group.Finset
import Mathlib.Data.Multiset.Range
import Mathlib.Data.Multiset.Sum
import Mathlib.Tactic.Abel
import Tampi.Theory.Counting
import Tampi.Model.Allocator

/-! # The allocators hand out every object once

An object is in the central queue, in the cache of one CPU, or live. During an `alloc` that has
popped a batch, the object it will return is live and the others are counted in the cache they are
about to be pushed to. -/

namespace Tampi.Allocation
open Function (update)
open Transition

variable {a a' : Allocation} {capacity ncaches cpu : Nat} {objects : List Nat}

/-- The cache of a CPU, with the objects `alloc` is about to push to it. -/
def cached (a : Allocation) (cpu : Nat) : List Nat :=
  match a.points cpu with
  | .fill _ objects => objects.reverse ++ a.allocator.caches cpu
  | _ => a.allocator.caches cpu

def inHand : AllocPoint → Multiset Nat
  | .fill object _ => {object}
  | _ => 0

/-- The objects that were returned and not freed, and those about to be returned. -/
def live (ncaches : Nat) (a : Allocation) : Multiset Nat :=
  a.returned + ∑ cpu ∈ Finset.range ncaches, inHand (a.points cpu)

/-- All objects, with the places they are in. -/
def total (ncaches : Nat) (a : Allocation) : Multiset Nat :=
  a.allocator.central + ∑ cpu ∈ Finset.range ncaches, (a.cached cpu : Multiset Nat) + a.live ncaches

structure AllocInv (capacity ncaches : Nat) (a : Allocation) : Prop where
  conserved : a.total ncaches = Multiset.range capacity
  cached_le : ∀ cpu, (a.cached cpu).length ≤ ObjAllocator.BatchSize - 1
  empty : ∀ cpu, a.points cpu ≠ .idle → a.allocator.caches cpu = []
  failure : a.failure = none ∨ a.failure = some .unavailable ∧
    capacity ≤ (a.live ncaches).card + (ObjAllocator.BatchSize - 1) * (ncaches - 1)

/-- A step of one CPU keeps the objects when it keeps those of the central queue, of its cache and of
its calls. -/
theorem total_eq (hcpu : cpu < ncaches) (hc : ∀ c, c ≠ cpu → a'.cached c = a.cached c)
    (hp : ∀ c, c ≠ cpu → a'.points c = a.points c)
    (h : (a'.allocator.central + a'.cached cpu + a'.returned + inHand (a'.points cpu) :
        Multiset Nat) =
      a.allocator.central + a.cached cpu + a.returned + inHand (a.points cpu)) :
    a'.total ncaches = a.total ncaches := by
  have hcached := Counting.sum_of_eq_off (fun c => (a.cached c : Multiset Nat))
    (fun c => (a'.cached c : Multiset Nat)) hcpu fun c hne => by rw [hc c hne]
  have hhand := Counting.sum_of_eq_off (fun c => inHand (a.points c))
    (fun c => inHand (a'.points c)) hcpu fun c hne => by rw [hp c hne]
  simp only [total, live]
  refine add_right_cancel (b := (a.cached cpu : Multiset Nat) + inHand (a.points cpu)) ?_
  calc _ = (a'.allocator.central : Multiset Nat) +
        (∑ c ∈ Finset.range ncaches, (a'.cached c : Multiset Nat) + a.cached cpu) + a'.returned +
        (∑ c ∈ Finset.range ncaches, inHand (a'.points c) + inHand (a.points cpu)) := by abel
    _ = (a'.allocator.central + a'.cached cpu + a'.returned + inHand (a'.points cpu) :
          Multiset Nat) + ∑ c ∈ Finset.range ncaches, (a.cached c : Multiset Nat) +
        ∑ c ∈ Finset.range ncaches, inHand (a.points c) := by
      rw [hcached, hhand]
      abel
    _ = _ := by
      rw [h]
      abel

namespace AllocInv

theorem init : AllocInv capacity ncaches (init capacity) where
  conserved := by
    simp only [total, live, cached, inHand, Allocation.init, ObjAllocator.init, Multiset.coe_nil,
      Finset.sum_const_zero, add_zero, ← List.range_eq_range']
    rfl
  cached_le _ := Nat.zero_le _
  empty _ _ := rfl
  failure := .inl rfl

theorem card (I : AllocInv capacity ncaches a) :
    a.allocator.central.length + ∑ cpu ∈ Finset.range ncaches, (a.cached cpu).length +
      (a.live ncaches).card = capacity := by
  have h := congrArg Multiset.card I.conserved
  simpa only [total, Multiset.card_add, Multiset.coe_card, Multiset.card_sum,
    Multiset.card_range] using h

theorem live_nodup (I : AllocInv capacity ncaches a) : (a.live ncaches).Nodup := by
  refine Multiset.nodup_of_le ?_ (Multiset.nodup_range capacity)
  rw [← I.conserved]
  exact Multiset.le_add_left ..

theorem returned_nodup (I : AllocInv capacity ncaches a) : a.returned.Nodup :=
  Multiset.coe_nodup.mp (Multiset.nodup_of_le (Multiset.le_add_right ..) I.live_nodup)

theorem returned_length_le (I : AllocInv capacity ncaches a) :
    a.allocator.central.length + a.returned.length ≤ capacity := by
  have := I.card
  simp only [live, Multiset.card_add, Multiset.coe_card] at this
  omega

/-- When `alloc` finds the central queue empty, the caches of the other CPUs hold what is not
live. -/
theorem unavailable (I : AllocInv capacity ncaches a) (hcpu : cpu < ncaches)
    (hp : a.points cpu = .refill) (hempty : a.allocator.central = []) :
    capacity ≤ (a.live ncaches).card + (ObjAllocator.BatchSize - 1) * (ncaches - 1) := by
  have hcard := I.card
  have hown : (a.cached cpu).length = 0 := by
    rw [cached, hp]
    simpa using I.empty cpu (by simp [hp])
  have hsum := Finset.add_sum_erase (Finset.range ncaches) (fun c => (a.cached c).length)
    (Finset.mem_range.mpr hcpu)
  have hothers := Finset.sum_le_card_nsmul ((Finset.range ncaches).erase cpu)
    (fun c => (a.cached c).length) (ObjAllocator.BatchSize - 1) fun c _ => I.cached_le c
  rw [Finset.card_erase_of_mem (Finset.mem_range.mpr hcpu), Finset.card_range, smul_eq_mul,
    mul_comm] at hothers
  rw [hempty, List.length_nil] at hcard
  omega

theorem alloc (I : AllocInv capacity ncaches a) (hf : a.failure = none) (hcpu : cpu < ncaches)
    (hp : a.points cpu = .idle) : AllocInv capacity ncaches (a.alloc cpu) := by
  unfold Allocation.alloc
  split
  · rename_i object rest hcache
    refine ⟨?_, fun c => ?_, fun c hc => ?_, .inl hf⟩
    · rw [← I.conserved]
      refine total_eq hcpu (fun c hc => by simp [cached, hc]) (fun _ _ => rfl) ?_
      simp only [cached, hp, hcache, inHand, Function.update_self, ← Multiset.coe_add,
        ← Multiset.cons_coe, Multiset.coe_nil, ← Multiset.singleton_add]
      abel
    · have hle := I.cached_le c
      by_cases h : c = cpu
      · subst h
        simp only [cached, hp, hcache, Function.update_self, List.length_cons] at hle ⊢
        omega
      · simpa [cached, h] using hle
    · have h : c ≠ cpu := by
        rintro rfl
        exact hc hp
      simpa [h] using I.empty c hc
  · rename_i hcache
    have hsame : ∀ c, cached { a with points := update a.points cpu .refill } c = a.cached c := by
      intro c
      by_cases h : c = cpu
      · subst h
        simp [cached, hp]
      · simp [cached, h]
    refine ⟨?_, fun c => ?_, fun c hc => ?_, .inl hf⟩
    · rw [← I.conserved]
      exact total_eq hcpu (fun c _ => hsame c) (fun c hc => by simp [hc])
        (by simp [hsame, hp, inHand])
    · rw [hsame]
      exact I.cached_le c
    · by_cases h : c = cpu
      · subst h
        exact hcache
      · exact I.empty c (by simpa [h] using hc)

/-- The batch is popped, or there is none. -/
theorem refill (I : AllocInv capacity ncaches a) (hf : a.failure = none) (hcpu : cpu < ncaches)
    (hp : a.points cpu = .refill) (h : a.next cpu = some a') : AllocInv capacity ncaches a' := by
  simp only [Allocation.next, hp] at h
  have hempty := I.empty cpu (by simp [hp])
  split at h <;> cases h
  · rename_i htake
    have hcentral : a.allocator.central = [] := by
      simpa [ObjAllocator.BatchSize] using htake
    exact { I with failure := .inr ⟨rfl, I.unavailable hcpu hp hcentral⟩ }
  · rename_i object objects htake
    have hlen : objects.length ≤ ObjAllocator.BatchSize - 1 := by
      have := congrArg List.length htake
      rw [List.length_take, List.length_cons] at this
      omega
    refine ⟨?_, fun c => ?_, fun c hc => ?_, .inl hf⟩
    · rw [← I.conserved]
      refine total_eq hcpu (fun c hc => by simp [cached, hc]) (fun c hc => by simp [hc]) ?_
      have hsplit : (a.allocator.central : Multiset Nat) = (object :: objects : List Nat) +
          (a.allocator.central.drop ObjAllocator.BatchSize : List Nat) := by
        rw [← htake, Multiset.coe_add, List.take_append_drop]
      simp only [cached, hp, hempty, inHand, Function.update_self, hsplit, List.append_nil,
        Multiset.coe_reverse, ← Multiset.cons_coe, Multiset.coe_nil, ← Multiset.singleton_add]
      abel
    · by_cases h : c = cpu
      · subst h
        simpa [cached, hempty] using hlen
      · simpa [cached, h] using I.cached_le c
    · by_cases h : c = cpu
      · subst h
        exact hempty
      · exact I.empty c (by simpa [h] using hc)

/-- The rest of the batch goes to the cache, which has room for it. -/
theorem fill (I : AllocInv capacity ncaches a) (hf : a.failure = none) (hcpu : cpu < ncaches)
    (hp : a.points cpu = .fill object objects) (h : a.next cpu = some a') :
    AllocInv capacity ncaches a' := by
  have hle := I.cached_le cpu
  have hempty := I.empty cpu (by simp [hp])
  simp only [cached, hp, List.length_append, List.length_reverse] at hle
  simp only [Allocation.next, hp] at h
  rw [if_pos (by omega)] at h
  cases h
  refine ⟨?_, fun c => ?_, fun c hc => ?_, .inl hf⟩
  · rw [← I.conserved]
    refine total_eq hcpu (fun c hc => by simp [cached, hc]) (fun c hc => by simp [hc]) ?_
    simp only [cached, hp, inHand, Function.update_self, ← Multiset.coe_add, ← Multiset.cons_coe,
      Multiset.coe_nil, ← Multiset.singleton_add]
    abel
  · by_cases h : c = cpu
    · subst h
      simpa [cached] using hle
    · simpa [cached, h] using I.cached_le c
  · have h : c ≠ cpu := by
      rintro rfl
      simp at hc
    simpa [h] using I.empty c (by simpa [h] using hc)

/-- The freed objects fit in the central queue, whatever else it holds. -/
theorem free_fits (I : AllocInv capacity ncaches a) (hnodup : objects.Nodup)
    (hmem : ∀ object ∈ objects, object ∈ a.returned) :
    objects.length ≤ capacity - a.allocator.central.length := by
  have hlen := (hnodup.subperm hmem).length_le
  have := I.returned_length_le
  omega

theorem free (I : AllocInv capacity ncaches a) (hf : a.failure = none) (hnodup : objects.Nodup)
    (hmem : ∀ object ∈ objects, object ∈ a.returned) :
    AllocInv capacity ncaches (a.free capacity objects) := by
  have hfits := I.free_fits hnodup hmem
  have hle : (objects : Multiset Nat) ≤ a.returned := Multiset.coe_le.mpr (hnodup.subperm hmem)
  unfold Allocation.free
  rw [if_neg (by omega)]
  refine ⟨?_, I.cached_le, I.empty, .inl hf⟩
  rw [← I.conserved]
  obtain ⟨rest, hrest⟩ := Multiset.le_iff_exists_add.mp hle
  simp only [total, live, ObjAllocator.free, List.take_of_length_le hfits, ← Multiset.coe_add,
    ← Multiset.coe_sub, hrest, add_tsub_cancel_left]
  simp only [cached]
  abel

theorem step (I : AllocInv capacity ncaches a) (h : a.step capacity ncaches l = some a') :
    AllocInv capacity ncaches a' := by
  cases l with
  | alloc cpu =>
    simp only [Allocation.step] at h
    split at h <;> cases h
    rename_i hg
    exact I.alloc hg.1 hg.2.1 hg.2.2
  | next cpu =>
    simp only [Allocation.step] at h
    split at h
    · rename_i hg
      cases hp : a.points cpu with
      | idle => simp [Allocation.next, hp] at h
      | refill => exact I.refill hg.1 hg.2 hp h
      | fill object objects => exact I.fill hg.1 hg.2 hp h
    · cases h
  | free objects =>
    simp only [Allocation.step] at h
    split at h <;> cases h
    rename_i hg
    exact I.free hg.1 hg.2.1 hg.2.2

theorem of_reachable (h : (system capacity ncaches).Reachable a) : AllocInv capacity ncaches a := by
  refine h.rec_inv ?_ ?_
  · rintro a rfl
    exact .init
  · intro a l a' _ hs I
    exact I.step hs

/-- What a cache holds is part of what is counted for it. -/
theorem caches_le (I : AllocInv capacity ncaches a) (cpu : Nat) :
    (a.allocator.caches cpu).length ≤ ObjAllocator.BatchSize - 1 := by
  have hle := I.cached_le cpu
  unfold cached at hle
  split at hle
  · rw [List.length_append] at hle
    omega
  · exact hle

theorem free_push (I : AllocInv capacity ncaches a)
    (h : a.step capacity ncaches (.free objects) = some a') :
    a'.failure = none ∧ a'.allocator.central = a.allocator.central ++ objects := by
  simp only [Allocation.step] at h
  split at h <;> cases h
  rename_i hg
  have hfits := I.free_fits hg.2.1 hg.2.2
  unfold Allocation.free
  rw [if_neg (by omega)]
  exact ⟨hg.1, by simp [ObjAllocator.free, List.take_of_length_le hfits]⟩

end AllocInv

/-- For every capacity and number of caches and every interleaving of the calls: each object is in
one place and there once, `alloc` returns no live object, the caches keep below their bound, `free`
gives back all objects, and `alloc` fails only when the other caches hold what is not live. -/
theorem objects_conserved (h : (system capacity ncaches).Reachable a) :
    (a.allocator.central + ∑ cpu ∈ Finset.range ncaches, (a.cached cpu : Multiset Nat) +
      a.live ncaches = Multiset.range capacity) ∧
    (∀ l a' object, a.step capacity ncaches l = some a' →
      a'.returned = a.returned ++ [object] → object ∉ a.returned ∧ (a'.live ncaches).Nodup) ∧
    ((∀ cpu, (a.allocator.caches cpu).length ≤ 63 ∧ (a.cached cpu).length ≤ 63) ∧
      a.failure ≠ some .stackFull) ∧
    ((∀ objects a', a.step capacity ncaches (.free objects) = some a' → a'.failure = none ∧
      a'.allocator.central = a.allocator.central ++ objects) ∧ a.failure ≠ some .pushedShort) ∧
    (a.failure = some .unavailable → capacity - 63 * (ncaches - 1) ≤ (a.live ncaches).card) := by
  have I := AllocInv.of_reachable h
  refine ⟨I.conserved, fun l a' object hs hret => ?_,
    ⟨fun cpu => ⟨I.caches_le cpu, I.cached_le cpu⟩, ?_⟩, ⟨fun objects a' hs => I.free_push hs, ?_⟩,
    fun hf => ?_⟩
  · have I' := I.step hs
    refine ⟨fun hmem => ?_, I'.live_nodup⟩
    have hnodup := I'.returned_nodup
    rw [hret] at hnodup
    exact (List.nodup_append.mp hnodup).2.2 object hmem object (by simp) rfl
  · rcases I.failure with hf | ⟨hf, -⟩ <;> simp [hf]
  · rcases I.failure with hf | ⟨hf, -⟩ <;> simp [hf]
  · rcases I.failure with hn | ⟨-, hle⟩
    · rw [hf] at hn
      cases hn
    · have : ObjAllocator.BatchSize - 1 = 63 := rfl
      rw [this] at hle
      omega

/-- Two CPUs and 66 objects: the cache of one CPU keeps 63 of them while the other fails. -/
def exhausting : List AllocLabel :=
  [.alloc 0, .next 0, .alloc 1, .next 0, .next 1, .next 1, .free [0], .alloc 1, .alloc 1, .next 1,
    .next 1, .alloc 1, .next 1]

theorem objects_conserved_exhausting :
    ∃ a, (system 66 2).Reachable a ∧ a.failure = some .unavailable ∧ a.returned = [64, 65, 0] ∧
      3 ≤ (a.live 2).card ∧ (a.cached 0).length ≤ 63 := by
  have hrun : (System.run (fun a l => a.step 66 2 l) (init 66) exhausting).map
      (fun a => (a.failure, a.returned)) = some (some .unavailable, [64, 65, 0]) := by
    decide +kernel
  obtain ⟨a, ha, heq⟩ := Option.map_eq_some_iff.mp hrun
  obtain ⟨hf, hret⟩ := Prod.mk.inj heq
  have hreach : (system 66 2).Reachable a :=
    ⟨_, exhausting, rfl, .of_run (fun _ _ _ _ hs => hs) ha⟩
  obtain ⟨-, -, ⟨hcaches, -⟩, -, hbound⟩ := objects_conserved hreach
  exact ⟨a, hreach, hf, hret, hbound hf, (hcaches 0).2⟩

/-! ## Uninterrupted calls -/

/-- `ObjAllocator.alloc` is a call of `alloc` that nothing interrupts. -/
theorem reaches_alloc (hf : a.failure = none) (hcpu : cpu < ncaches) (hp : a.points cpu = .idle)
    (h : a.allocator.alloc cpu = some (object, b)) :
    ∃ ls, (system capacity ncaches).Reaches a ls
      { a with allocator := b, returned := a.returned ++ [object] } := by
  have hfirst : a.step capacity ncaches (.alloc cpu) = some (a.alloc cpu) := by
    simp [step, hf, hcpu, hp]
  unfold ObjAllocator.alloc at h
  split at h
  · rename_i rest hcache
    cases h
    refine ⟨[.alloc cpu], .single ?_⟩
    simpa [system, Allocation.alloc, hcache] using hfirst
  · rename_i hcache
    split at h
    · cases h
    · rename_i objects htake
      cases h
      have hlen : objects.length ≤ ObjAllocator.BatchSize := by
        have := congrArg List.length htake
        rw [List.length_take, List.length_cons] at this
        omega
      simp only [Allocation.alloc, hcache] at hfirst
      refine ⟨[.alloc cpu, .next cpu, .next cpu], .head hfirst (.head (t := { a with
        allocator := { a.allocator with
          central := a.allocator.central.drop ObjAllocator.BatchSize }
        points := update a.points cpu (.fill object objects) }) ?_ (.single ?_))⟩
      · simp [system, step, next, hf, hcpu, htake]
      · simp [system, step, next, hf, hcpu, hcache, hlen, ← hp]

/-- `ObjAllocator.free` of distinct returned objects is a call of `free`. -/
theorem step_free (I : AllocInv capacity ncaches a) (hf : a.failure = none)
    (hnodup : objects.Nodup) (hmem : ∀ object ∈ objects, object ∈ a.returned) :
    a.step capacity ncaches (.free objects) = some { a with
      allocator := a.allocator.free capacity objects
      returned := a.returned.diff objects } := by
  have hfits := I.free_fits hnodup hmem
  simp only [step, hf, hnodup, true_and, if_pos hmem, free, if_neg (Nat.not_lt.mpr hfits)]

end Tampi.Allocation
