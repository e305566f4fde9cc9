import Mathlib.Data.List.Basic
import Mathlib.Data.Nat.Lattice
import Mathlib.Logic.Function.Basic

/-! # Ring buffers

A ring of `cap` slots, one of them always free: `dist cap tail head` is the number of slots from
`tail` to `head`, and `window data cap start n` reads `n` slots from `start`, wrapping around. A scan
around the ring for a slot with some property gets nearer to it at each slot without (`gap_lt`). -/

namespace Ring

/-- How many places the head is ahead of the tail. -/
def dist (cap tail head : Nat) : Nat := if tail ≤ head then head - tail else head + cap - tail

/-- The elements of `n` slots from `start` on. -/
def window (data : Nat → α) (cap start n : Nat) : List α :=
  (List.range n).map fun i => data ((start + i) % cap)

variable {cap tail head start i j m n : Nat}

theorem dist_lt (ht : tail < cap) (hh : head < cap) : dist cap tail head < cap := by
  unfold dist; split <;> omega

@[simp] theorem dist_self : dist cap tail tail = 0 := by simp [dist]

/-- The slot `i` places after `start`, for at most one turn of the ring. -/
theorem add_mod_eq (hs : start < cap) (hi : i ≤ cap) :
    (start + i) % cap = if start + i < cap then start + i else start + i - cap := by
  split
  · exact Nat.mod_eq_of_lt ‹_›
  · rw [Nat.mod_eq_sub_mod (by omega), Nat.mod_eq_of_lt (by omega)]

theorem add_mod_inj (hs : start < cap) (hi : i < cap) (hj : j < cap)
    (h : (start + i) % cap = (start + j) % cap) : i = j := by
  rw [add_mod_eq hs (Nat.le_of_lt hi), add_mod_eq hs (Nat.le_of_lt hj)] at h
  split at h <;> split at h <;> omega

theorem add_dist (ht : tail < cap) (hh : head < cap) :
    (tail + dist cap tail head) % cap = head := by
  rw [add_mod_eq ht (Nat.le_of_lt (dist_lt ht hh))]
  unfold dist
  split <;> split <;> omega

theorem dist_advance_head (ht : tail < cap) (hh : head < cap) (h : dist cap tail head + n < cap) :
    dist cap tail ((head + n) % cap) = dist cap tail head + n := by
  rw [add_mod_eq hh (by omega)]
  unfold dist at *
  split at h <;> split <;> split <;> omega

theorem dist_add (ht : tail < cap) (hn : n < cap) : dist cap tail ((tail + n) % cap) = n := by
  rw [dist_advance_head ht ht (by simpa using hn), dist_self, Nat.zero_add]

theorem dist_advance_tail (ht : tail < cap) (hh : head < cap) (h : n ≤ dist cap tail head) :
    dist cap ((tail + n) % cap) head = dist cap tail head - n := by
  have hlt := dist_lt ht hh
  rw [add_mod_eq ht (by omega)]
  unfold dist at *
  split at h <;> split <;> split <;> omega

@[simp] theorem length_window : (window data cap start n).length = n := by simp [window]

@[simp] theorem window_zero : window data cap start 0 = [] := rfl

theorem window_getElem (h : i < (window data cap start n).length) :
    (window data cap start n)[i] = data ((start + i) % cap) := by simp [window]

theorem window_add : window data cap start (m + n) =
    window data cap start m ++ window data cap ((start + m) % cap) n := by
  simp only [window, List.range_add, List.map_append, List.map_map, List.append_cancel_left_eq]
  refine List.map_congr_left fun i _ => ?_
  simp [Nat.add_assoc]

theorem window_take (h : m ≤ n) : (window data cap start n).take m = window data cap start m := by
  obtain ⟨k, rfl⟩ := Nat.exists_eq_add_of_le h
  rw [window_add, List.take_left' (by simp)]

theorem window_drop (h : m ≤ n) :
    (window data cap start n).drop m = window data cap ((start + m) % cap) (n - m) := by
  obtain ⟨k, rfl⟩ := Nat.exists_eq_add_of_le h
  rw [window_add, List.drop_left' (by simp), Nat.add_sub_cancel_left]

/-- A write into the free part of the ring does not change what the window reads. -/
theorem window_update (hs : start < cap) (hn : n ≤ i) (hi : i < cap) :
    window (Function.update data ((start + i) % cap) x) cap start n = window data cap start n := by
  refine List.map_congr_left fun k hk => ?_
  have hk : k < n := List.mem_range.mp hk
  refine Function.update_of_ne (fun h => ?_) _ _
  have := add_mod_inj hs (by omega) hi h
  omega

theorem window_succ : window data cap start (n + 1) =
    window data cap start n ++ [data ((start + n) % cap)] := by
  simp [window, List.range_succ]

/-! ## Scans -/

variable {p : Nat → Prop}

/-- How far the next slot with the property is, from `start` on around the ring. -/
noncomputable def gap (p : Nat → Prop) (cap start : Nat) : Nat := sInf {d | p ((start + d) % cap)}

/-- Past a slot without the property, the next one with it is nearer. -/
theorem gap_lt (hs : start < cap) (hp : ∃ i < cap, p i) (hn : ¬ p start) :
    gap p cap ((start + 1) % cap) < gap p cap start := by
  have hmem : p ((start + gap p cap start) % cap) := by
    obtain ⟨i, hi, hpi⟩ := hp
    refine Nat.sInf_mem (s := {d | p ((start + d) % cap)}) ⟨dist cap start i, ?_⟩
    change p ((start + dist cap start i) % cap)
    rwa [add_dist hs hi]
  obtain ⟨d, hd⟩ : ∃ d, gap p cap start = d + 1 := by
    refine Nat.exists_eq_succ_of_ne_zero fun h0 => hn ?_
    rwa [h0, Nat.add_zero, Nat.mod_eq_of_lt hs] at hmem
  have hle : gap p cap ((start + 1) % cap) ≤ d := by
    refine Nat.sInf_le ?_
    change p (((start + 1) % cap + d) % cap)
    rw [Nat.mod_add_mod, Nat.add_assoc, Nat.add_comm 1 d, ← hd]
    exact hmem
  omega

end Ring
