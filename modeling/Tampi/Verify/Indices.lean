import Mathlib.Data.List.Forall2
import Tampi.Verify.StringSupport

/-! # Index lists

The loop over a range compares its counter with an end that is included, so it is over when the
counter exceeds the end (`pushRange_eq`), which never happens at the largest `uint64_t`
(`pushRange_top`). An item of a list is rejected, or stands for the indices between its bounds, and
`parseRanges_cases` inverts one round of the loop over the items accordingly. -/

namespace Tampi

/-- The indices of a range. -/
def between (begin' end' : UInt64) : List UInt64 :=
  (List.range' begin'.toNat (end'.toNat + 1 - begin'.toNat)).map .ofNat

/-- The items of an index list. -/
def items (list : List Char) : List (List Char) :=
  (list.splitOn ',').filter (· ≠ [])

/-- An item, with the bounds of the indices it stands for. -/
inductive Item (c : List Char) : UInt64 → UInt64 → Prop
  | index : '-' ∉ c → parse c = some v → Item c v v
  | range : '-' ∈ c → (c.splitOn '-').filter (· ≠ []) = [a, b] → parse a = some v →
    parse b = some w → v ≤ w → Item c v w

/-- A range up to the largest `uint64_t`. -/
def Item.Top (c : List Char) : Prop := '-' ∈ c ∧ ∃ v w, Item c v w ∧ w.toNat = UINT64_MAX

variable {v w v' w' : UInt64} {c : List Char} {indices : List UInt64} {fuel : Nat}

/-! ## The indices of a range -/

theorem mem_between (i : UInt64) : i ∈ between v w ↔ v ≤ i ∧ i ≤ w := by
  simp only [between, List.mem_map, List.mem_range'_1, UInt64.le_iff_toNat_le]
  constructor
  · rintro ⟨n, hn, rfl⟩
    have hw := w.toNat_lt
    have hlt : n < 2 ^ 64 := by omega
    rw [UInt64.toNat_ofNat_of_lt' hlt]
    omega
  · intro hi
    exact ⟨i.toNat, by omega, UInt64.ofNat_toNat⟩

theorem between_of_lt (h : w < v) : between v w = [] := by
  apply List.eq_nil_iff_forall_not_mem.mpr
  intro i hi
  have := (mem_between i).mp hi
  rw [UInt64.le_iff_toNat_le, UInt64.le_iff_toNat_le] at this
  rw [UInt64.lt_iff_toNat_lt] at h
  omega

/-- The counter does not wrap around below an end that is not the largest `uint64_t`. -/
theorem toNat_succ_of_le (h : v ≤ w) (hw : w.toNat ≠ UINT64_MAX) : (v + 1).toNat = v.toNat + 1 := by
  have hlt := w.toNat_lt
  rw [UInt64.le_iff_toNat_le] at h
  rw [UINT64_MAX] at hw
  rw [UInt64.toNat_add]
  apply Nat.mod_eq_of_lt
  change v.toNat + 1 < 2 ^ 64
  omega

theorem between_cons (h : v ≤ w) (hw : w.toNat ≠ UINT64_MAX) :
    between v w = v :: between (v + 1) w := by
  have hle := UInt64.le_iff_toNat_le.mp h
  have hlen : w.toNat + 1 - v.toNat = (w.toNat + 1 - (v.toNat + 1)) + 1 := by omega
  rw [between, between, toNat_succ_of_le h hw, hlen, List.range'_succ, List.map_cons,
    UInt64.ofNat_toNat]

theorem between_self (v : UInt64) : between v v = [v] := by
  simp [between]

/-! ## The loop over a range -/

/-- The loop tests its condition once more than there are indices. -/
theorem pushRange_eq (hw : w.toNat ≠ UINT64_MAX) :
    pushRange fuel v w indices =
      if w.toNat + 1 - v.toNat < fuel then some (indices ++ between v w) else none := by
  induction fuel generalizing v indices with
  | zero => rfl
  | succ fuel ih =>
    rw [pushRange]
    by_cases h : v ≤ w
    · have hle := UInt64.le_iff_toNat_le.mp h
      rw [if_pos h, ih, toNat_succ_of_le h hw, between_cons h hw, List.append_assoc]
      congr 1
      apply propext
      omega
    · rw [if_neg h, between_of_lt (UInt64.not_le.mp h), List.append_nil, if_pos]
      rw [UInt64.le_iff_toNat_le] at h
      omega

theorem pushRange_top (hw : w.toNat = UINT64_MAX) : pushRange fuel v w indices = none := by
  induction fuel generalizing v indices with
  | zero => rfl
  | succ fuel ih =>
    have hle : v ≤ w := by
      rw [UInt64.le_iff_toNat_le, hw]
      exact Nat.le_of_lt_succ v.toNat_lt
    rw [pushRange, if_pos hle]
    exact ih

/-! ## Items -/

theorem Item.unique (h : Item c v w) (h' : Item c v' w') : v = v' ∧ w = w' := by
  cases h with
  | index hc hv =>
    cases h' with
    | index _ hv' =>
      have := Option.some.inj (hv.symm.trans hv')
      exact ⟨this, this⟩
    | range hc' => exact absurd hc' hc
  | range hc hsplit hv hw =>
    cases h' with
    | index hc' => exact absurd hc hc'
    | range _ hsplit' hv' hw' =>
      obtain ⟨rfl, rfl⟩ : _ ∧ _ := by simpa using hsplit.symm.trans hsplit'
      exact ⟨Option.some.inj (hv.symm.trans hv'), Option.some.inj (hw.symm.trans hw')⟩

/-! ## The loop over the items -/

/-- The body of the loop for an item. -/
theorem parseRanges_of_item (hc : c ≠ []) (h : Item c v w) :
    parseRanges fuel (c :: ranges) indices =
      (if '-' ∈ c then pushRange fuel v w indices else some (indices ++ between v w)).bind
        (parseRanges fuel ranges) := by
  rw [parseRanges, if_neg hc]
  cases h with
  | index hdash hv => simp [hdash, hv, between_self]
  | range hdash hsplit hv hw hle =>
    rw [← split_eq] at hsplit
    rw [if_neg (not_not.mpr hdash), hsplit, if_pos hdash]
    simp only [hv, hw, if_neg (UInt64.not_lt.mpr hle)]
    cases pushRange fuel v w indices <;> rfl

/-- The body of the loop for a text that is no item. -/
theorem parseRanges_of_not_item (hc : c ≠ []) (h : ∀ v w, ¬ Item c v w) :
    parseRanges fuel (c :: ranges) indices = some (false, indices) := by
  rw [parseRanges, if_neg hc]
  by_cases hdash : '-' ∈ c
  · rw [if_neg (not_not.mpr hdash)]
    split
    next a b hsplit =>
      rw [split_eq] at hsplit
      split
      next v w hv hw =>
        rw [if_pos]
        by_contra hle
        exact h v w (.range hdash hsplit hv hw (UInt64.not_lt.mp hle))
      next => rfl
    next => rfl
  · rw [if_pos hdash]
    cases hv : (parse c : Option UInt64) with
    | none => rfl
    | some v => exact absurd (.index hdash hv) (h v v)

/-- Enough fuel for any range that ends. -/
theorem pushRange_of_le (hw : w.toNat ≠ UINT64_MAX) (hfuel : UINT64_MAX < fuel) :
    pushRange fuel v w indices = some (indices ++ between v w) := by
  rw [pushRange_eq hw, if_pos]
  have := w.toNat_lt
  rw [UINT64_MAX] at hw hfuel
  omega

/-- A round of the loop that is over: the item is rejected, or its indices are appended. -/
theorem parseRanges_cases (hc : c ≠ []) (h : parseRanges fuel (c :: ranges) indices = some r) :
    (∀ v w, ¬ Item c v w) ∧ r = (false, indices) ∨
      ∃ v w, Item c v w ∧ ¬ Item.Top c ∧
        parseRanges fuel ranges (indices ++ between v w) = some r := by
  by_cases hitem : ∃ v w, Item c v w
  · obtain ⟨v, w, hitem⟩ := hitem
    rw [parseRanges_of_item hc hitem] at h
    refine .inr ⟨v, w, hitem, ?_⟩
    by_cases hdash : '-' ∈ c
    · rw [if_pos hdash] at h
      by_cases hw : w.toNat = UINT64_MAX
      · rw [pushRange_top hw] at h
        cases h
      · rw [pushRange_eq hw] at h
        split at h
        · refine ⟨fun ⟨_, v', w', hitem', hw'⟩ => hw ?_, h⟩
          rw [(hitem.unique hitem').2, hw']
        · cases h
    · rw [if_neg hdash] at h
      exact ⟨fun htop => hdash htop.1, h⟩
  · push Not at hitem
    rw [parseRanges_of_not_item hc hitem] at h
    exact .inl ⟨hitem, (Option.some.inj h).symm⟩

/-- The indices of a list of items, by their bounds. -/
def allBetween (bounds : List (UInt64 × UInt64)) : List UInt64 :=
  bounds.flatMap fun b => between b.1 b.2

theorem parseRanges_true (hne : ∀ c ∈ ranges, c ≠ [])
    (h : parseRanges fuel ranges indices = some (true, indices')) :
    ∃ bounds, List.Forall₂ (fun c b => Item c b.1 b.2) ranges bounds ∧
      (∀ c ∈ ranges, ¬ Item.Top c) ∧ indices' = indices ++ allBetween bounds := by
  induction ranges generalizing indices with
  | nil =>
    cases h
    exact ⟨[], .nil, by simp, by simp [allBetween]⟩
  | cons c ranges ih =>
    rw [List.forall_mem_cons] at hne
    rcases parseRanges_cases hne.1 h with ⟨-, hr⟩ | ⟨v, w, hitem, htop, h⟩
    · cases hr
    · obtain ⟨bounds, hbounds, htops, rfl⟩ := ih hne.2 h
      exact ⟨(v, w) :: bounds, .cons hitem hbounds, List.forall_mem_cons.mpr ⟨htop, htops⟩,
        by simp [allBetween]⟩

/-- The body of the loop for an item that ends. -/
theorem parseRanges_of_not_top (hc : c ≠ []) (hitem : Item c v w) (htop : ¬ Item.Top c)
    (hfuel : UINT64_MAX < fuel) :
    parseRanges fuel (c :: ranges) indices = parseRanges fuel ranges (indices ++ between v w) := by
  have hround : (if '-' ∈ c then pushRange fuel v w indices
      else some (indices ++ between v w)) = some (indices ++ between v w) := by
    by_cases hdash : '-' ∈ c
    · rw [if_pos hdash]
      exact pushRange_of_le (fun hw => htop ⟨hdash, v, w, hitem, hw⟩) hfuel
    · rw [if_neg hdash]
  rw [parseRanges_of_item hc hitem, hround]
  rfl

theorem parseRanges_of_items (hne : ∀ c ∈ ranges, c ≠ [])
    (h : List.Forall₂ (fun c b => Item c b.1 b.2) ranges bounds)
    (htop : ∀ c ∈ ranges, ¬ Item.Top c) (hfuel : UINT64_MAX < fuel) :
    parseRanges fuel ranges indices = some (true, indices ++ allBetween bounds) := by
  induction h generalizing indices with
  | nil => simp [parseRanges, allBetween]
  | cons hitem _ ih =>
    rw [List.forall_mem_cons] at hne htop
    rw [parseRanges_of_not_top hne.1 hitem htop.1 hfuel, ih hne.2 htop.2]
    simp [allBetween]

/-- The loop gets to a range up to the largest `uint64_t`. -/
def ReachesTop (ranges : List (List Char)) : Prop :=
  ∃ before c after, ranges = before ++ c :: after ∧ (∀ d ∈ before, ∃ v w, Item d v w) ∧ Item.Top c

theorem parseRanges_of_reachesTop (hne : ∀ c ∈ ranges, c ≠ []) (h : ReachesTop ranges) :
    parseRanges fuel ranges indices = none := by
  obtain ⟨before, c, after, rfl, hbefore, htop⟩ := h
  apply Option.eq_none_iff_forall_ne_some.mpr
  intro r hr
  induction before generalizing indices with
  | nil =>
    rcases parseRanges_cases (hne c (by simp)) hr with ⟨hno, -⟩ | ⟨v, w, -, hno, -⟩
    · obtain ⟨-, v, w, hitem, -⟩ := htop
      exact hno v w hitem
    · exact hno htop
  | cons d before ih =>
    rw [List.cons_append, List.forall_mem_cons] at hne
    rw [List.forall_mem_cons] at hbefore
    rcases parseRanges_cases hne.1 hr with ⟨hno, -⟩ | ⟨v, w, -, -, hr⟩
    · obtain ⟨v, w, hitem⟩ := hbefore.1
      exact hno v w hitem
    · exact ih hne.2 hbefore.2 hr

theorem exists_parseRanges (indices : List UInt64) (hne : ∀ c ∈ ranges, c ≠ [])
    (h : ¬ ReachesTop ranges) (hfuel : UINT64_MAX < fuel) :
    ∃ r, parseRanges fuel ranges indices = some r := by
  induction ranges generalizing indices with
  | nil => exact ⟨_, rfl⟩
  | cons c ranges ih =>
    rw [List.forall_mem_cons] at hne
    by_cases hitem : ∃ v w, Item c v w
    · have hrest : ¬ ReachesTop ranges := by
        rintro ⟨before, d, after, rfl, hbefore, htop⟩
        exact h ⟨c :: before, d, after, rfl, List.forall_mem_cons.mpr ⟨hitem, hbefore⟩, htop⟩
      obtain ⟨v, w, hitem⟩ := hitem
      have htop : ¬ Item.Top c := fun htop => h ⟨[], c, ranges, rfl, by simp, htop⟩
      rw [parseRanges_of_not_top hne.1 hitem htop hfuel]
      exact ih _ hne.2 hrest
    · push Not at hitem
      exact ⟨_, parseRanges_of_not_item hne.1 hitem⟩

/-! ## The parser -/

theorem parseIndices_eq (fuel : Nat) (list : List Char) (indices : List UInt64) :
    parseIndices fuel list indices = parseRanges fuel (items list) indices := by
  rw [parseIndices, split_eq]
  change (if items list = [] then _ else parseRanges fuel (items list) indices) = _
  split
  next h => rw [h]; rfl
  next => rfl

theorem ne_nil_of_mem_items (h : c ∈ items list) : c ≠ [] := by
  simpa using (List.mem_filter.mp h).2

/-- The parser returns `true` exactly if every item is accepted and none is a range up to the
largest `uint64_t`. -/
theorem parseIndices_true_iff (hfuel : UINT64_MAX < fuel) :
    parseIndices fuel list indices = some (true, indices') ↔
      ∃ bounds, List.Forall₂ (fun c b => Item c b.1 b.2) (items list) bounds ∧
        (∀ c ∈ items list, ¬ Item.Top c) ∧ indices' = indices ++ allBetween bounds := by
  rw [parseIndices_eq]
  constructor
  · exact parseRanges_true fun c => ne_nil_of_mem_items
  · rintro ⟨bounds, hbounds, htop, rfl⟩
    exact parseRanges_of_items (fun c => ne_nil_of_mem_items) hbounds htop hfuel

/-- The example of the source. -/
example : parseIndices 10 "0,2,5-9,11".toList [] = some (true, [0, 2, 5, 6, 7, 8, 9, 11]) := by
  decide

/-! ### Rendered ranges -/

def rangeText (b : UInt64 × UInt64) : List Char :=
  Nat.toDigits 10 b.1.toNat ++ '-' :: Nat.toDigits 10 b.2.toNat

theorem not_mem_toDigits (h : d.isDigit = false) : d ∉ Nat.toDigits 10 n := by
  intro hmem
  rw [(decimal_toDigits n).2 d hmem] at h
  cases h

theorem item_rangeText (h : b.1 ≤ b.2) : Item (rangeText b) b.1 b.2 := by
  refine .range (by simp [rangeText]) ?_ (parse_toDigits b.1) (parse_toDigits b.2) h
  rw [rangeText, List.splitOn_append_cons_self_of_not_mem (not_mem_toDigits (by decide)),
    List.splitOn_eq_singleton (not_mem_toDigits (by decide))]
  simp [Nat.toDigits_ne_nil]

theorem items_rangeTexts (bounds : List (UInt64 × UInt64)) :
    items ([','].intercalate (bounds.map rangeText)) = bounds.map rangeText := by
  rw [items]
  by_cases hb : bounds = []
  · rw [hb]
    rfl
  · have hsep : ∀ c ∈ bounds.map rangeText, ',' ∉ c := by
      intro c hc
      obtain ⟨b, -, rfl⟩ := List.mem_map.mp hc
      simp [rangeText, not_mem_toDigits]
    rw [List.splitOn_intercalate _ hsep (by simpa using hb), List.filter_eq_self]
    intro c hc
    obtain ⟨b, -, rfl⟩ := List.mem_map.mp hc
    simp [rangeText]

/-- A rendered list of ranges is read back, if none ends at the largest `uint64_t`. -/
theorem parseIndices_rangeTexts (h : ∀ b ∈ bounds, b.1 ≤ b.2 ∧ b.2.toNat ≠ UINT64_MAX)
    (hfuel : UINT64_MAX < fuel) :
    parseIndices fuel ([','].intercalate (bounds.map rangeText)) indices =
      some (true, indices ++ allBetween bounds) := by
  rw [parseIndices_true_iff hfuel, items_rangeTexts]
  refine ⟨bounds, ?_, ?_, rfl⟩
  · rw [List.forall₂_map_left_iff, List.forall₂_same]
    exact fun b hb => item_rangeText (h b hb).1
  · intro c hc
    obtain ⟨b, hb, rfl⟩ := List.mem_map.mp hc
    rintro ⟨-, v, w, hitem, hw⟩
    rw [(hitem.unique (item_rangeText (h b hb).1)).2] at hw
    exact (h b hb).2 hw

/-! ### The promise -/

/-- What a call of `parseIndices` on `list` promises: it returns, and if it returns `true` then it
appended the indices of the items in order, each within the bounds of its item. -/
structure Enumerates (list : List Char) : Prop where
  returns : ∀ indices, ∃ fuel r, parseIndices fuel list indices = some r
  appended : ∀ fuel indices indices', parseIndices fuel list indices = some (true, indices') →
    ∃ bounds, List.Forall₂ (fun c b => Item c b.1 b.2) (items list) bounds ∧
      indices' = indices ++ allBetween bounds ∧
      ∀ b ∈ bounds, ∀ i ∈ between b.1 b.2, b.1 ≤ i ∧ i ≤ b.2

theorem not_enumerates_of_reachesTop (h : ReachesTop (items list)) : ¬ Enumerates list := by
  intro henum
  obtain ⟨fuel, r, hr⟩ := henum.returns []
  rw [parseIndices_eq, parseRanges_of_reachesTop (fun c => ne_nil_of_mem_items) h] at hr
  cases hr

theorem enumerates_of_not_reachesTop (h : ¬ ReachesTop (items list)) : Enumerates list where
  returns indices := by
    obtain ⟨r, hr⟩ := exists_parseRanges indices (fun c => ne_nil_of_mem_items) h
      (Nat.lt_succ_self UINT64_MAX)
    exact ⟨_, r, (parseIndices_eq ..).trans hr⟩
  appended fuel indices indices' hr := by
    rw [parseIndices_eq] at hr
    obtain ⟨bounds, hbounds, -, hindices⟩ := parseRanges_true (fun c => ne_nil_of_mem_items) hr
    exact ⟨bounds, hbounds, hindices, fun b _ i hi => (mem_between i).mp hi⟩

/-- The parser keeps its promise exactly if it does not get to a range up to the largest
`uint64_t`. -/
theorem enumerates_iff (list : List Char) : Enumerates list ↔ ¬ ReachesTop (items list) :=
  ⟨fun henum h => not_enumerates_of_reachesTop h henum, enumerates_of_not_reachesTop⟩

/-- A range of one index. -/
theorem not_enumerates_top : ¬ Enumerates "18446744073709551615-18446744073709551615".toList := by
  apply not_enumerates_of_reachesTop
  refine ⟨[], _, [], rfl, by simp, by decide, 18446744073709551615, 18446744073709551615, ?_, rfl⟩
  exact .range (a := "18446744073709551615".toList) (b := "18446744073709551615".toList)
    (by decide) (by decide) (by decide) (by decide) (by decide)

end Tampi
