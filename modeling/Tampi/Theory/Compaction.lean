import Mathlib.Data.Multiset.Filter
import Mathlib.Data.Multiset.Range
import Mathlib.Order.Interval.Finset.Nat

/-! # Compacting an array with holes

`valid holes n` are the positions below `n` of an array that are not holes. Filling the first hole
with the last valid entry keeps the entries at the valid positions.

A compaction reads the holes in the order of a list and gives each of them the next source above it.
The sources are the positions from the last one down, less the holes that are recognised because they
come next when the list of holes is read backwards. -/

namespace Compaction
open Function (update)

variable {α : Type*} {holes : List Nat} {n p : Nat} {f : Nat → α}

def valid (holes : List Nat) (n : Nat) : Multiset Nat := (Multiset.range n).filter (· ∉ holes)

theorem mem_valid : p ∈ valid holes n ↔ p < n ∧ p ∉ holes := by simp [valid]

theorem valid_succ_of_mem (h : n ∈ holes) : valid holes (n + 1) = valid holes n := by
  rw [valid, Multiset.range_succ, Multiset.filter_cons_of_neg _ (by simpa using h), valid]

theorem valid_succ_of_notMem (h : n ∉ holes) : valid holes (n + 1) = n ::ₘ valid holes n := by
  rw [valid, Multiset.range_succ, Multiset.filter_cons_of_pos (p := (· ∉ holes)) _ h, valid]

theorem valid_eq_range (h : ∀ p ∈ holes, n ≤ p) : valid holes n = Multiset.range n := by
  refine Multiset.filter_eq_self.mpr fun p hp hmem => ?_
  exact absurd (h p hmem) (not_le.mpr (Multiset.mem_range.mp hp))

/-- Without its first hole, an array has one more valid position. -/
theorem valid_tail (hp : p < n) (hnot : p ∉ holes) :
    valid holes n = p ::ₘ valid (p :: holes) n := by
  obtain ⟨s, hs⟩ := Multiset.exists_cons_of_mem (Multiset.mem_range.mpr hp)
  have hps : p ∉ s := by
    have := Multiset.nodup_range n
    rw [hs] at this
    exact (Multiset.nodup_cons.mp this).1
  rw [valid, valid, hs, Multiset.filter_cons_of_pos (p := (· ∉ holes)) _ hnot,
    Multiset.filter_cons_of_neg _ (by simp)]
  refine congrArg _ (Multiset.filter_congr fun q hq => ?_)
  have : q ≠ p := fun h => hps (h ▸ hq)
  simp [this]

/-- The last position is valid and its entry moves to the first hole. -/
theorem map_valid_fill (hp : p < n) (hnot : p ∉ holes) (hn : n ∉ p :: holes) :
    (valid holes n).map (update f p (f n)) = (valid (p :: holes) (n + 1)).map f := by
  rw [valid_tail hp hnot, valid_succ_of_notMem hn, Multiset.map_cons, Multiset.map_cons,
    Function.update_self]
  refine congrArg _ (Multiset.map_congr rfl fun q hq => Function.update_of_ne ?_ ..)
  rintro rfl
  exact (mem_valid.mp hq).2 (by simp)

/-- What remains of `n` entries when the holes are taken out. -/
theorem card_valid (hs : holes.Nodup) (hlt : ∀ p ∈ holes, p < n) :
    Multiset.card (valid holes n) + holes.length = n := by
  induction holes with
  | nil => simp [valid]
  | cons p holes ih =>
    obtain ⟨hnot, hs⟩ := List.nodup_cons.mp hs
    have ih := ih hs fun q hq => hlt q (by simp [hq])
    rw [valid_tail (hlt p (by simp)) hnot, Multiset.card_cons] at ih
    simp only [List.length_cons]
    omega

/-! ## Moves -/

/-- The array after the moves `(source, destination)`, one after another. -/
def moved (f : Nat → α) : List (Nat × Nat) → Nat → α
  | [] => f
  | (source, destination) :: ms => moved (update f destination (f source)) ms

theorem moved_append (f : Nat → α) (ms ms' : List (Nat × Nat)) :
    moved f (ms ++ ms') = moved (moved f ms) ms' := by
  induction ms generalizing f with
  | nil => rfl
  | cons m ms ih => exact ih _

theorem moved_of_forall_ne (h : ∀ m ∈ ms, m.2 ≠ p) : moved f ms p = f p := by
  induction ms generalizing f with
  | nil => rfl
  | cons m ms ih =>
    obtain ⟨hne, h⟩ := List.forall_mem_cons.mp h
    rw [moved, ih h, Function.update_of_ne hne.symm]

theorem moved_comp {β : Type*} (g : α → β) (f : Nat → α) (ms : List (Nat × Nat)) :
    moved (g ∘ f) ms = g ∘ moved f ms := by
  induction ms generalizing f with
  | nil => rfl
  | cons m ms ih => rw [moved, moved, ← ih, Function.comp_update, Function.comp_apply]

/-! ## Assigning sources to holes -/

/-- Each hole in turn takes the next source if that lies above it. -/
def assign : List Nat → List Nat → List (Nat × Nat)
  | _, [] => []
  | [], _ :: _ => []
  | x :: xs, h :: hs => if h < x then (x, h) :: assign xs hs else assign (x :: xs) hs

theorem mem_assign {xs hs : List Nat} (hm : m ∈ assign xs hs) :
    m.1 ∈ xs ∧ m.2 ∈ hs ∧ m.2 < m.1 := by
  induction xs, hs using assign.induct with
  | case1 | case2 => simp [assign] at hm
  | case3 x xs h hs hlt ih =>
    rw [assign, if_pos hlt, List.mem_cons] at hm
    rcases hm with rfl | hm
    · exact ⟨List.mem_cons_self, List.mem_cons_self, hlt⟩
    · obtain ⟨h₁, h₂, h₃⟩ := ih hm
      exact ⟨List.mem_cons_of_mem _ h₁, List.mem_cons_of_mem _ h₂, h₃⟩
  | case4 x xs h hs hlt ih =>
    rw [assign, if_neg hlt] at hm
    obtain ⟨h₁, h₂, h₃⟩ := ih hm
    exact ⟨h₁, List.mem_cons_of_mem _ h₂, h₃⟩

theorem assign_append {xs hs : List Nat} (hlen : xs.length = hs.length)
    (hlt : ∀ x ∈ xs, ∀ h ∈ hs, h < x) (ys hs' : List Nat) :
    assign (xs ++ ys) (hs ++ hs') = xs.zip hs ++ assign ys hs' := by
  induction xs generalizing hs with
  | nil =>
    cases hs with
    | nil => rfl
    | cons h hs => cases hlen
  | cons x xs ih =>
    cases hs with
    | nil => cases hlen
    | cons h hs =>
      have hlt' : ∀ y ∈ xs, ∀ g ∈ hs, g < y := fun y hy g hg =>
        hlt y (List.mem_cons_of_mem _ hy) g (List.mem_cons_of_mem _ hg)
      rw [List.cons_append, List.cons_append, assign, if_pos (hlt x (by simp) h (by simp)),
        ih (by simpa using hlen) hlt', List.zip_cons_cons, List.cons_append]

theorem assign_cons_of_le {xs : List Nat} (hle : ∀ x ∈ xs, x ≤ h) (hs : List Nat) :
    assign xs (h :: hs) = assign xs hs := by
  cases xs with
  | nil => cases hs <;> rfl
  | cons x xs => rw [assign, if_neg (Nat.not_lt.mpr (hle x (by simp)))]

/-! ## Sources -/

def sources : Nat → List Nat → List Nat
  | 0, _ => []
  | n + 1, [] => n :: sources n []
  | n + 1, h :: hs => if n = h then sources n hs else n :: sources n (h :: hs)

theorem lt_of_mem_sources {n : Nat} {hs : List Nat} (hp : p ∈ sources n hs) : p < n := by
  induction n, hs using sources.induct with
  | case1 => simp [sources] at hp
  | case2 n ih =>
    rw [sources, List.mem_cons] at hp
    rcases hp with rfl | hp
    · exact Nat.lt_succ_self p
    · exact Nat.lt_succ_of_lt (ih hp)
  | case3 n hs ih =>
    rw [sources, if_pos rfl] at hp
    exact Nat.lt_succ_of_lt (ih hp)
  | case4 n h hs hne ih =>
    rw [sources, if_neg hne, List.mem_cons] at hp
    rcases hp with rfl | hp
    · exact Nat.lt_succ_self p
    · exact Nat.lt_succ_of_lt (ih hp)

/-- The valid positions from `n` down to `t`. -/
def above (holes : List Nat) (t : Nat) : Nat → List Nat
  | 0 => []
  | n + 1 => if t ≤ n ∧ n ∉ holes then n :: above holes t n else above holes t n

theorem mem_above {t : Nat} : p ∈ above holes t n ↔ t ≤ p ∧ p < n ∧ p ∉ holes := by
  induction n with
  | zero => simp [above]
  | succ n ih =>
    rw [above]
    split
    · rename_i h
      rw [List.mem_cons, ih]
      constructor
      · rintro (rfl | ⟨h₁, h₂, h₃⟩)
        · exact ⟨h.1, Nat.lt_succ_self p, h.2⟩
        · exact ⟨h₁, Nat.lt_succ_of_lt h₂, h₃⟩
      · rintro ⟨h₁, h₂, h₃⟩
        rcases Nat.lt_succ_iff_lt_or_eq.mp h₂ with h₂ | rfl
        · exact .inr ⟨h₁, h₂, h₃⟩
        · exact .inl rfl
    · rename_i h
      rw [ih]
      refine ⟨fun ⟨h₁, h₂, h₃⟩ => ⟨h₁, Nat.lt_succ_of_lt h₂, h₃⟩, fun ⟨h₁, h₂, h₃⟩ => ?_⟩
      rcases Nat.lt_succ_iff_lt_or_eq.mp h₂ with h₂ | rfl
      · exact ⟨h₁, h₂, h₃⟩
      · exact absurd ⟨h₁, h₃⟩ h

theorem above_eq_nil {t : Nat} (h : n ≤ t) : above holes t n = [] :=
  List.eq_nil_iff_forall_not_mem.mpr fun p hp => by
    obtain ⟨h₁, h₂, _⟩ := mem_above.mp hp
    omega

theorem above_append {s t : Nat} (hs : t ≤ s) (hn : s ≤ n) :
    above holes t n = above holes s n ++ above holes t s := by
  induction n, hn using Nat.le_induction with
  | base => rw [above_eq_nil (le_refl s), List.nil_append]
  | succ n hn ih =>
    by_cases hmem : n ∈ holes
    · simp only [above, hmem, not_true_eq_false, and_false, if_false, ih]
    · rw [above, above, if_pos ⟨hs.trans hn, hmem⟩, if_pos ⟨hn, hmem⟩, ih, List.cons_append]

theorem above_congr {holes' : List Nat} {t : Nat}
    (h : ∀ p, t ≤ p → p < n → (p ∈ holes ↔ p ∈ holes')) : above holes t n = above holes' t n := by
  induction n with
  | zero => rfl
  | succ n ih =>
    have ih := ih fun p h₁ h₂ => h p h₁ (Nat.lt_succ_of_lt h₂)
    by_cases ht : t ≤ n
    · simp only [above, ih, h n ht (Nat.lt_succ_self n)]
    · simp only [above, ht, false_and, if_false, ih]

/-- Holes that end the list in ascending order, after one below them, are recognised. -/
theorem sources_append {t : Nat} (rest : List Nat) (ht : t ≤ n) (hs : holes.Pairwise (· > ·))
    (hlt : ∀ h ∈ holes, h < n) (hge : ∀ h ∈ holes, t ≤ h) (hrest : ∀ h ∈ rest.head?, h < t) :
    sources n (holes ++ rest) = above holes t n ++ sources t rest := by
  induction n, ht using Nat.le_induction generalizing holes with
  | base =>
    have : holes = [] := List.eq_nil_iff_forall_not_mem.mpr fun h hh => by
      have := hlt h hh
      have := hge h hh
      omega
    rw [above_eq_nil (le_refl t), this]
    rfl
  | succ n hn ih =>
    cases holes with
    | nil =>
      have ih := ih List.Pairwise.nil (by simp) (by simp)
      rw [List.nil_append] at ih ⊢
      rw [above, if_pos ⟨hn, List.not_mem_nil⟩, List.cons_append, ← ih]
      cases rest with
      | nil => rfl
      | cons h rest =>
        have : h < t := hrest h rfl
        rw [sources, if_neg (by omega)]
    | cons h holes =>
      obtain ⟨hmax, hs'⟩ := List.pairwise_cons.mp hs
      have hle : ∀ g ∈ holes, g < h := fun g hg => hmax g hg
      have hh : h < n + 1 := hlt h (by simp)
      by_cases heq : n = h
      · subst heq
        rw [List.cons_append, sources, if_pos rfl, ih hs' hle fun g hg => hge g (by simp [hg]), above,
          if_neg (by simp)]
        refine congrArg (· ++ _) (above_congr fun p _ hp => ?_)
        simp [hp.ne]
      · have hlt' : ∀ g ∈ h :: holes, g < n := by
          intro g hg
          rcases List.mem_cons.mp hg with rfl | hg
          · omega
          · have := hle g hg
            omega
        have hnot : n ∉ h :: holes := fun hmem => absurd (hlt' n hmem) (lt_irrefl n)
        rw [List.cons_append, sources, if_neg heq, ← List.cons_append, ih hs hlt' hge, above,
          if_pos ⟨hn, hnot⟩, List.cons_append]

/-- The first holes take all valid positions from `t` up, which leaves the entries below `t`. -/
theorem map_valid_zip {t : Nat} {hs rest : List Nat} (ht : t ≤ n) (hnodup : (hs ++ rest).Nodup)
    (hlt : ∀ h ∈ hs, h < t) (hlen : (above (hs ++ rest) t n).length = hs.length) :
    (valid rest t).map (moved f ((above (hs ++ rest) t n).zip hs)) =
      (valid (hs ++ rest) n).map f := by
  induction n, ht using Nat.le_induction generalizing f hs with
  | base =>
    rw [above_eq_nil (le_refl t)] at hlen ⊢
    obtain rfl : hs = [] := List.length_eq_zero_iff.mp hlen.symm
    rfl
  | succ n hn ih =>
    by_cases hmem : n ∈ hs ++ rest
    · have habove : above (hs ++ rest) t (n + 1) = above (hs ++ rest) t n := by
        rw [above, if_neg fun h => h.2 hmem]
      rw [habove] at hlen ⊢
      rw [ih hnodup hlt hlen, valid_succ_of_mem hmem]
    · have habove : above (hs ++ rest) t (n + 1) = n :: above (hs ++ rest) t n := by
        rw [above, if_pos ⟨hn, hmem⟩]
      rw [habove] at hlen ⊢
      cases hs with
      | nil => cases hlen
      | cons h hs =>
        have hh : h < t := hlt h (by simp)
        obtain ⟨hnot, hnodup'⟩ := List.nodup_cons.mp hnodup
        have hcongr : above (h :: hs ++ rest) t n = above (hs ++ rest) t n :=
          above_congr fun p hp _ => by simp [show p ≠ h by omega]
        rw [hcongr] at hlen ⊢
        rw [List.zip_cons_cons, moved, ih hnodup' (fun g hg => hlt g (by simp [hg]))
          (by simpa using hlen)]
        exact map_valid_fill (by omega) hnot hmem

theorem nodup_above {t : Nat} : (above holes t n).Nodup := by
  induction n with
  | zero => exact List.nodup_nil
  | succ n ih =>
    rw [above]
    split
    · exact List.nodup_cons.mpr ⟨fun h => absurd (mem_above.mp h).2.1 (lt_irrefl n), ih⟩
    · exact ih

/-- From `t` up a position is valid or a hole. -/
theorem length_above {t : Nat} (hs : holes.Nodup) (hlt : ∀ h ∈ holes, h < n) :
    (above holes t n).length + (holes.filter (t ≤ ·)).length = n - t := by
  have hvalid : (above holes t n).toFinset = (Finset.Ico t n).filter (· ∉ holes) := by
    ext p
    simp [mem_above, and_assoc]
  have hholes : (holes.filter (t ≤ ·)).toFinset = (Finset.Ico t n).filter (¬ · ∉ holes) := by
    ext p
    have := hlt p
    simp only [List.mem_toFinset, List.mem_filter, decide_eq_true_eq, Finset.mem_filter,
      Finset.mem_Ico, not_not]
    tauto
  rw [← List.toFinset_card_of_nodup nodup_above, ← List.toFinset_card_of_nodup (hs.filter _), hvalid,
    hholes, Finset.card_filter_add_card_filter_not, Nat.card_Ico]

/-- A list whose entries below `t` come first. -/
theorem filter_append_filter {t : Nat} (h : holes.Pairwise fun g h => t ≤ g → t ≤ h) :
    holes.filter (· < t) ++ holes.filter (t ≤ ·) = holes := by
  induction holes with
  | nil => rfl
  | cons g holes ih =>
    obtain ⟨hg, h⟩ := List.pairwise_cons.mp h
    by_cases hlt : g < t
    · rw [List.filter_cons_of_pos (by simpa using hlt), List.filter_cons_of_neg (by simpa using hlt),
        List.cons_append, ih h]
    · have hge : t ≤ g := Nat.le_of_not_lt hlt
      have hnil : holes.filter (· < t) = [] :=
        List.filter_eq_nil_iff.mpr fun x hx => by simpa using hg x hx hge
      have hall : holes.filter (t ≤ ·) = holes :=
        List.filter_eq_self.mpr fun x hx => by simpa using hg x hx hge
      rw [List.filter_cons_of_neg (by simpa using hlt), List.filter_cons_of_pos (by simpa using hge),
        hnil, hall, List.nil_append]

/-- If every position from `t` up is a source or recognised, and the holes below `t` come first, then
the compaction leaves the valid entries below `t`. -/
theorem map_moved_assign {t : Nat} (ys : List Nat) (hnodup : holes.Nodup)
    (hlt : ∀ h ∈ holes, h < n)
    (hn : t + holes.length = n) (hfirst : holes.Pairwise fun g h => t ≤ g → t ≤ h) :
    (Multiset.range t).map (moved f (assign (above holes t n ++ ys) holes)) =
      (valid holes n).map f := by
  have hcount := length_above (t := t) hnodup hlt
  obtain ⟨hs, rest, hsplit, hbelow, habove⟩ : ∃ hs rest, holes = hs ++ rest ∧
      (∀ h ∈ hs, h < t) ∧ ∀ h ∈ rest, t ≤ h :=
    ⟨_, _, (filter_append_filter hfirst).symm, by simp, by simp⟩
  have hlen : (above holes t n).length = hs.length := by
    have hrest : holes.filter (t ≤ ·) = rest := by
      rw [hsplit, List.filter_append, List.filter_eq_nil_iff.mpr fun h hh => by
        simpa using hbelow h hh, List.nil_append]
      exact List.filter_eq_self.mpr fun h hh => by simpa using habove h hh
    rw [hrest] at hcount
    rw [hsplit, List.length_append] at hn
    omega
  have hassign : assign (above holes t n ++ ys) holes =
      (above holes t n).zip hs ++ assign ys rest := by
    have happend := assign_append hlen (fun x hx h hh =>
      lt_of_lt_of_le (hbelow h hh) (mem_above.mp hx).1) ys rest
    rwa [← hsplit] at happend
  have hzip := map_valid_zip (f := f) (show t ≤ n by omega) (hsplit ▸ hnodup) hbelow (hsplit ▸ hlen)
  rw [← hsplit, valid_eq_range habove] at hzip
  rw [← hzip, hassign, moved_append]
  refine Multiset.map_congr rfl fun p hp => moved_of_forall_ne fun m hm => ?_
  have hge := habove _ (mem_assign hm).2.1
  have hlt := Multiset.mem_range.mp hp
  omega

/-- The entries below `t` come from the valid positions, one from each. -/
theorem bijOn_of_map_range {t : Nat} {σ : Nat → Nat}
    (h : (Multiset.range t).map σ = valid holes n) :
    Set.BijOn σ {p | p < t} {p | p < n ∧ p ∉ holes} := by
  have hnodup : ((Multiset.range t).map σ).Nodup := by
    rw [h]
    exact (Multiset.nodup_range n).filter _
  refine ⟨fun p hp => ?_, fun p hp q hq heq => ?_, fun p hp => ?_⟩
  · exact mem_valid.mp (h ▸ Multiset.mem_map_of_mem σ (Multiset.mem_range.mpr hp))
  · exact Multiset.inj_on_of_nodup_map hnodup p (Multiset.mem_range.mpr hp) q
      (Multiset.mem_range.mpr hq) heq
  · obtain ⟨q, hq, heq⟩ := Multiset.mem_map.mp (h ▸ mem_valid.mpr hp)
    exact ⟨q, Multiset.mem_range.mp hq, heq⟩

end Compaction
