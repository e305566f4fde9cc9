import Tampi.Theory.Compaction

/-! # The order of the holes

A compaction recognises a hole only if it comes next in the list read backwards. The holes come in
batches of `B` positions, and within a batch in any order. `Tolerant` says when the compaction leaves
the valid entries below `t` for all these orders. -/

namespace Compaction
open Function (update)

variable {α : Type*} {holes : List Nat} {B n p t θ : Nat} {f : Nat → α}

/-- The batches come one after another. -/
def Batched (B : Nat) (holes : List Nat) : Prop := holes.Pairwise fun g h => g / B ≤ h / B

instance : Decidable (Batched B holes) := inferInstanceAs (Decidable (List.Pairwise _ holes))

/-- A hole above `t` that shares its batch with another hole is reached from `t` over holes, and no
hole of the batch of `t` is below `t`. -/
def Tolerant (B t : Nat) (holes : List Nat) : Prop :=
  ∀ s ∈ holes, t < s → (∃ s' ∈ holes, s' ≠ s ∧ s' / B = s / B) →
    (∀ p, t ≤ p → p < s → p ∈ holes) ∧ ∀ h ∈ holes, h / B = t / B → t ≤ h

theorem Tolerant.congr {holes' : List Nat} (T : Tolerant B t holes)
    (h : ∀ p, p ∈ holes ↔ p ∈ holes') : Tolerant B t holes' := by
  simpa only [Tolerant, h] using T

/-! ## Orders that are tolerated -/

/-- Holes that are alone in their batch come in ascending order. -/
theorem Batched.ascending (hB : Batched B holes) (hnodup : holes.Nodup)
    (halone : ∀ s ∈ holes, θ < s → ∀ s' ∈ holes, s' / B = s / B → s' = s) :
    holes.Pairwise fun g h => θ < g → g < h := by
  refine (hnodup.and hB).imp_of_mem fun hg hh ⟨hne, hle⟩ hlt => ?_
  by_contra hge
  have hdiv := Nat.div_le_div_right (c := B) (Nat.le_of_not_lt hge)
  exact hne (halone _ hg hlt _ hh (hdiv.antisymm hle)).symm

/-- If the holes above `θ` ascend, they end the list. -/
theorem exists_split (hasc : holes.Pairwise fun g h => θ < g → g < h) :
    ∃ hs zs, holes = hs ++ zs ∧ (∀ h ∈ hs, h ≤ θ) ∧ (∀ h ∈ zs, θ < h) ∧ zs.Pairwise (· < ·) := by
  have hsplit : holes.filter (· < θ + 1) ++ holes.filter (θ + 1 ≤ ·) = holes :=
    filter_append_filter (hasc.imp fun h hle => hle.trans (h hle).le)
  have hzs : ∀ h ∈ holes.filter (θ + 1 ≤ ·), θ < h := fun h hh =>
    of_decide_eq_true (List.mem_filter.mp hh).2
  refine ⟨_, _, hsplit.symm, fun h hh => ?_, hzs, ?_⟩
  · exact Nat.le_of_lt_succ (of_decide_eq_true (List.mem_filter.mp hh).2)
  · exact (hasc.filter _).imp_of_mem fun hg _ h => h (hzs _ hg)

/-- Holes above `θ` that end the list in ascending order are recognised. -/
theorem sources_split {zs : List Nat} (hs : List Nat) (hbelow : ∀ h ∈ hs, h ≤ θ)
    (habove : ∀ h ∈ zs, θ < h) (hzs : zs.Pairwise (· < ·)) (hlt : ∀ h ∈ zs, h < n) (hθ : θ < n) :
    sources n (hs ++ zs).reverse = above (hs ++ zs) (θ + 1) n ++ sources (θ + 1) hs.reverse := by
  have hhead : ∀ h ∈ hs.reverse.head?, h < θ + 1 := fun h hh =>
    Nat.lt_succ_of_le (hbelow h (List.mem_reverse.mp (List.mem_of_mem_head? hh)))
  rw [List.reverse_append, sources_append hs.reverse hθ (List.pairwise_reverse.mpr hzs)
    (fun h hh => hlt h (List.mem_reverse.mp hh)) (fun h hh => habove h (List.mem_reverse.mp hh))
    hhead]
  refine congrArg (· ++ _) (above_congr fun p hp _ => ?_)
  have hnot : p ∉ hs := fun hmem => absurd (hbelow p hmem) (by omega)
  simp [hnot]

/-- The compaction is right if the holes above the first valid position from `t` up ascend and the
holes below `t` come first. -/
theorem map_moved_of_valid (hnodup : holes.Nodup) (hlt : ∀ h ∈ holes, h < n)
    (hn : t + holes.length = n) (hfirst : holes.Pairwise fun g h => t ≤ g → t ≤ h) (htθ : t ≤ θ)
    (hθ : θ < n) (hvalid : θ ∉ holes) (hmin : ∀ p, t ≤ p → p < θ → p ∈ holes)
    (hasc : holes.Pairwise fun g h => θ < g → g < h) :
    (Multiset.range t).map (moved f (assign (sources n holes.reverse) holes)) =
      (valid holes n).map f := by
  obtain ⟨hs, zs, rfl, hbelow, habove, hzs⟩ := exists_split hasc
  obtain ⟨ys, hys⟩ : ∃ ys, sources (θ + 1) hs.reverse = θ :: ys := by
    cases hr : hs.reverse with
    | nil => exact ⟨_, rfl⟩
    | cons h rs =>
      have hne : θ ≠ h := by
        rintro rfl
        have hmem : θ ∈ hs := List.mem_reverse.mp (hr ▸ List.mem_cons_self)
        exact hvalid (List.mem_append_left _ hmem)
      exact ⟨_, by rw [sources, if_neg hne]⟩
  have hnil : above (hs ++ zs) t θ = [] := List.eq_nil_iff_forall_not_mem.mpr fun p hp => by
    obtain ⟨h₁, h₂, h₃⟩ := mem_above.mp hp
    exact h₃ (hmin p h₁ h₂)
  have hsrc : sources n (hs ++ zs).reverse = above (hs ++ zs) t n ++ ys := by
    have hθ' : above (hs ++ zs) t (θ + 1) = [θ] := by rw [above, if_pos ⟨htθ, hvalid⟩, hnil]
    rw [sources_split _ hbelow habove hzs (fun h hh => hlt h (List.mem_append_right _ hh)) hθ, hys,
      above_append (htθ.trans (Nat.le_succ θ)) hθ, hθ', List.append_assoc]
    rfl
  rw [hsrc]
  exact map_moved_assign _ hnodup hlt hn hfirst

/-- The hole `t` is not the last one up to `t`: a source is moved to it, and from there to the last
hole `e` below it. -/
theorem map_moved_relay {hs zs : List Nat} {e : Nat} (hnodup : (hs ++ e :: zs).Nodup)
    (hlt : ∀ h ∈ hs ++ e :: zs, h < n) (hn : t + (hs ++ e :: zs).length = n) (ht : t ∈ hs)
    (hbelow : ∀ h ∈ hs, h ≤ t) (he : e < t) (habove : ∀ h ∈ zs, t < h)
    (hzs : zs.Pairwise (· < ·)) :
    (Multiset.range t).map (moved f (assign (sources n (hs ++ e :: zs).reverse) (hs ++ e :: zs))) =
      (valid (hs ++ e :: zs) n).map f := by
  have htn : t < n := hlt t (List.mem_append_left _ ht)
  have hlen : (above (hs ++ e :: zs) (t + 1) n).length = hs.length := by
    have hcount := length_above (t := t + 1) hnodup hlt
    have hfilter : (hs ++ e :: zs).filter (t + 1 ≤ ·) = zs := by
      rw [List.filter_append, List.filter_cons_of_neg (by simp; omega),
        List.filter_eq_nil_iff.mpr fun h hh => by simpa [Nat.lt_succ_iff] using hbelow h hh,
        List.nil_append]
      exact List.filter_eq_self.mpr fun h hh => decide_eq_true (habove h hh)
    rw [hfilter] at hcount
    simp only [List.length_append, List.length_cons] at hn
    omega
  have hsrc : sources n (hs ++ e :: zs).reverse =
      above (hs ++ e :: zs) (t + 1) n ++ t :: sources t (e :: hs.reverse) := by
    have hsplit := sources_split (hs ++ [e]) (fun h hh => by
      rcases List.mem_append.mp hh with hh | hh
      · exact hbelow h hh
      · exact List.mem_singleton.mp hh ▸ he.le) habove hzs
      (fun h hh => hlt h (List.mem_append_right _ (List.mem_cons_of_mem _ hh))) htn
    rw [List.append_assoc, List.singleton_append, List.reverse_concat, sources,
      if_neg he.ne'] at hsplit
    exact hsplit
  have hassign := assign_append hlen (fun x hx h hh =>
    lt_of_le_of_lt (hbelow h hh) (mem_above.mp hx).1) (t :: sources t (e :: hs.reverse)) (e :: zs)
  rw [assign, if_pos he] at hassign
  have hzip := map_valid_zip (f := f) (show t + 1 ≤ n from htn) hnodup
    (fun h hh => Nat.lt_succ_of_le (hbelow h hh)) hlen
  have hnot := (List.nodup_append.mp hnodup).2.1
  rw [List.nodup_cons] at hnot
  have htail : t ∉ e :: zs := fun hmem =>
    (List.nodup_append.mp hnodup).2.2 t ht t hmem rfl
  rw [hsrc, hassign, moved_append, moved, ← hzip, ← map_valid_fill he hnot.1 htail,
    valid_eq_range fun h hh => (habove h hh).le]
  refine Multiset.map_congr rfl fun p hp => moved_of_forall_ne fun m hm => ?_
  have hge := habove _ (mem_assign hm).2.1
  have hlt := Multiset.mem_range.mp hp
  omega

/-- If `t` is a hole and the holes above it ascend, then it may come anywhere. -/
theorem map_moved_of_hole (hnodup : holes.Nodup) (hlt : ∀ h ∈ holes, h < n)
    (hn : t + holes.length = n) (ht : t ∈ holes) (hasc : holes.Pairwise fun g h => t < g → g < h) :
    (Multiset.range t).map (moved f (assign (sources n holes.reverse) holes)) =
      (valid holes n).map f := by
  obtain ⟨hs, zs, rfl, hbelow, habove, hzs⟩ := exists_split hasc
  have hths : t ∈ hs :=
    (List.mem_append.mp ht).resolve_right fun h => absurd (habove t h) (lt_irrefl t)
  obtain ⟨h₁, h₂, rfl⟩ := List.append_of_mem hths
  have hnot : t ∉ h₁ ++ h₂ := (List.nodup_middle.mp (List.nodup_append.mp hnodup).1).notMem
  have hlt_of_mem : ∀ h ∈ h₁ ++ h₂, h < t := fun h hh =>
    lt_of_le_of_ne (hbelow h (by rcases List.mem_append.mp hh with hh | hh <;> simp [hh]))
      fun heq => hnot (heq ▸ hh)
  rcases List.eq_nil_or_concat h₂ with rfl | ⟨h₂, e, rfl⟩
  · -- `t` comes last of the holes up to `t`
    have hfirst : (h₁ ++ [t] ++ zs).Pairwise fun g h => t ≤ g → t ≤ h := by
      rw [List.append_nil] at hlt_of_mem
      rw [List.append_assoc, List.pairwise_append]
      refine ⟨List.pairwise_of_forall_mem_list fun g hg h _ hle => ?_,
        List.pairwise_of_forall_mem_list fun _ _ h hh _ => ?_, fun g hg h _ hle => ?_⟩
      · exact absurd (hlt_of_mem g hg) (Nat.not_lt.mpr hle)
      · rcases List.mem_cons.mp hh with rfl | hh
        · exact le_refl h
        · exact (habove h hh).le
      · exact absurd (hlt_of_mem g hg) (Nat.not_lt.mpr hle)
    have habove_succ : above (h₁ ++ [t] ++ zs) t n = above (h₁ ++ [t] ++ zs) (t + 1) n := by
      rw [above_append (Nat.le_succ t) (hlt t ht), above, if_neg fun h => h.2 ht,
        above_eq_nil (le_refl t), List.append_nil]
    rw [sources_split _ hbelow habove hzs (fun h hh => hlt h (List.mem_append_right _ hh)) (hlt t ht),
      ← habove_succ]
    exact map_moved_assign _ hnodup hlt hn hfirst
  · have heq : h₁ ++ t :: (h₂.concat e) ++ zs = (h₁ ++ t :: h₂) ++ e :: zs := by simp
    rw [heq] at hnodup hlt hn ⊢
    refine map_moved_relay hnodup hlt hn (by simp) (fun h hh => ?_) (hlt_of_mem e (by simp)) habove hzs
    exact hbelow h (by
      rcases List.mem_append.mp hh with hh | hh
      · simp [hh]
      · rcases List.mem_cons.mp hh with rfl | hh <;> simp [*])

theorem Tolerant.map_moved (T : Tolerant B t holes) (hB : Batched B holes) (hnodup : holes.Nodup)
    (hlt : ∀ h ∈ holes, h < n) (hn : t + holes.length = n) :
    (Multiset.range t).map (moved f (assign (sources n holes.reverse) holes)) =
      (valid holes n).map f := by
  have hcount := length_above (t := t) hnodup hlt
  by_cases hnone : ∀ h ∈ holes, t ≤ h
  · -- nothing below `t` is a hole
    have hnil : above holes t n = [] := by
      have hall : holes.filter (t ≤ ·) = holes :=
        List.filter_eq_self.mpr fun h hh => by simpa using hnone h hh
      rw [hall] at hcount
      exact List.eq_nil_of_length_eq_zero (by omega)
    have h := map_moved_assign (f := f) (sources n holes.reverse) hnodup hlt hn
      (List.pairwise_of_forall_mem_list fun _ _ h hh _ => hnone h hh)
    rwa [hnil, List.nil_append] at h
  by_cases hbatch : ∀ h ∈ holes, h / B = t / B → t ≤ h
  · -- the holes below `t` are in batches before that of `t`
    have hfirst : holes.Pairwise fun g h => t ≤ g → t ≤ h := by
      refine hB.imp_of_mem fun _ hh hle htg => ?_
      by_contra hlt'
      have h₁ := Nat.div_le_div_right (c := B) htg
      have h₂ := Nat.div_le_div_right (c := B) (Nat.le_of_not_le hlt')
      exact hlt' (hbatch _ hh (h₂.antisymm (h₁.trans hle)))
    have hex : ∃ p, t ≤ p ∧ p < n ∧ p ∉ holes := by
      by_contra hall
      have hnil : above holes t n = [] := List.eq_nil_iff_forall_not_mem.mpr fun p hp =>
        hall ⟨p, mem_above.mp hp⟩
      rw [hnil, List.length_nil] at hcount
      have hlen : (holes.filter (t ≤ ·)).length = holes.length := by omega
      exact hnone fun h hh => of_decide_eq_true (List.length_filter_eq_length_iff.mp hlen h hh)
    obtain ⟨htθ, hθ, hvalid⟩ := Nat.find_spec hex
    refine map_moved_of_valid hnodup hlt hn hfirst htθ hθ hvalid (fun p hp hpθ => ?_) ?_
    · by_contra hmem
      exact Nat.find_min hex hpθ ⟨hp, hpθ.trans hθ, hmem⟩
    · refine hB.ascending hnodup fun s hs hlt' s' hs' hdiv => ?_
      by_contra hne
      exact hvalid ((T s hs (htθ.trans_lt hlt') ⟨s', hs', hne, hdiv⟩).1 _ htθ hlt')
  · have hasc : holes.Pairwise fun g h => t < g → g < h := by
      refine hB.ascending hnodup fun s hs hlt' s' hs' hdiv => ?_
      by_contra hne
      exact hbatch (T s hs hlt' ⟨s', hs', hne, hdiv⟩).2
    by_cases ht : t ∈ holes
    · exact map_moved_of_hole hnodup hlt hn ht hasc
    · refine map_moved_of_valid hnodup hlt hn ?_ (le_refl t) ?_ ht ?_ hasc
      · refine hasc.imp_of_mem fun hg _ h hle => ?_
        have hlt' := lt_of_le_of_ne hle fun heq => ht (heq ▸ hg)
        exact (hlt'.trans (h hlt')).le
      · have hpos : holes ≠ [] := by
          rintro rfl
          exact hnone (by simp)
        have := List.length_pos_iff.mpr hpos
        omega
      · exact fun p h₁ h₂ => absurd h₁ (Nat.not_le.mpr h₂)

/-! ## Orders that are not -/

/-- As many holes as there are valid positions above `b` come first, then a hole `e` below `b`, with
`b` perhaps before it. If the list does not end with `b` and the holes above it, then `e` gets what
was at `b`. -/
theorem moved_id_eq {ps rs ys qs zs : List Nat} {b e g : Nat} (hrs : rs = [] ∨ rs = [b])
    (horder : holes = ps ++ (rs ++ e :: ys)) (hend : holes = qs ++ [g] ++ zs) (hnodup : holes.Nodup)
    (hlt : ∀ h ∈ zs, h < n) (hb : b < n) (hps : ∀ h ∈ ps, h < b) (he : e < b)
    (hqs : ∀ h ∈ qs, h ≤ b) (hg : g < b) (habove : ∀ h ∈ zs, b < h) (hzs : zs.Pairwise (· < ·))
    (hlen : (above holes (b + 1) n).length = ps.length) :
    moved id (assign (sources n holes.reverse) holes) e = b := by
  have hsrc : sources n holes.reverse =
      above holes (b + 1) n ++ b :: sources b (g :: qs.reverse) := by
    have hsplit := sources_split (qs ++ [g]) (fun h hh => by
      rcases List.mem_append.mp hh with hh | hh
      · exact hqs h hh
      · exact List.mem_singleton.mp hh ▸ hg.le) habove hzs hlt hb
    rw [← hend, List.reverse_concat, sources, if_neg hg.ne'] at hsplit
    exact hsplit
  have hassign : assign (above holes (b + 1) n ++ b :: sources b (g :: qs.reverse)) holes =
      (above holes (b + 1) n).zip ps ++ (b, e) :: assign (sources b (g :: qs.reverse)) ys := by
    have happend := assign_append hlen (fun x hx h hh =>
      (hps h hh).trans (mem_above.mp hx).1) (b :: sources b (g :: qs.reverse)) (rs ++ e :: ys)
    rw [← horder] at happend
    rcases hrs with rfl | rfl
    · rwa [List.nil_append, assign, if_pos he] at happend
    · rwa [List.singleton_append, assign, if_neg (lt_irrefl b), assign, if_pos he] at happend
  have hys : e ∉ ys := by
    rw [horder] at hnodup
    have := (List.nodup_append.mp (List.nodup_append.mp hnodup).2.1).2.1
    exact (List.nodup_cons.mp this).1
  have hrest : ∀ m ∈ assign (sources b (g :: qs.reverse)) ys, m.2 ≠ e := fun m hm heq =>
    hys (heq ▸ (mem_assign hm).2.1)
  rw [hsrc, hassign, moved_append, moved, moved_of_forall_ne hrest, Function.update_self]
  refine moved_of_forall_ne fun m hm heq => ?_
  exact absurd (hps _ (List.of_mem_zip hm).2) (heq ▸ lt_irrefl b)

theorem Batched.of_map (hB : Batched B holes)
    (h : order.map (· / B) = holes.map (· / B)) : Batched B order := by
  have hmap : (holes.map (· / B)).Pairwise (· ≤ ·) := List.pairwise_map.mpr hB
  exact List.pairwise_map.mp (h ▸ hmap)

/-- Exchanging `b` with the hole before it, of the same batch, leaves at `e` what was at `b`. -/
theorem exists_exchange {ps ws zs : List Nat} {b e : Nat}
    (hnodup : (ps ++ e :: ws ++ b :: zs).Nodup) (hB : Batched B (ps ++ e :: ws ++ b :: zs))
    (hlt : ∀ h ∈ ps ++ e :: ws ++ b :: zs, h < n) (hbelow : ∀ h ∈ ps ++ e :: ws, h < b)
    (habove : ∀ h ∈ zs, b < h) (hzs : zs.Pairwise (· < ·))
    (hlast : ∀ vs g, e :: ws = vs ++ [g] → g / B = b / B)
    (hlen : (above (ps ++ e :: ws ++ b :: zs) (b + 1) n).length = ps.length) :
    ∃ order, order.Perm (ps ++ e :: ws ++ b :: zs) ∧ Batched B order ∧
      moved id (assign (sources n order.reverse) order) e = b := by
  have hps : ∀ h ∈ ps, h < b := fun h hh => hbelow h (by simp [hh])
  have he : e < b := hbelow e (by simp)
  have hb : b < n := hlt b (by simp)
  have hzn : ∀ h ∈ zs, h < n := fun h hh => hlt h (by simp [hh])
  have hcongr {order : List Nat} (hperm : order.Perm (ps ++ e :: ws ++ b :: zs)) :
      (above order (b + 1) n).length = ps.length := by
    rw [above_congr fun p _ _ => hperm.mem_iff, hlen]
  rcases List.eq_nil_or_concat ws with rfl | ⟨ws, g, rfl⟩
  · have hperm : (ps ++ ([b] ++ e :: zs)).Perm (ps ++ [e] ++ b :: zs) := by
      simpa using (List.Perm.swap e b zs).append_left ps
    refine ⟨_, hperm, hB.of_map (by simp [hlast [] e rfl]), ?_⟩
    refine moved_id_eq (.inr rfl) rfl (show _ = ps ++ [b] ++ [e] ++ zs by simp)
      (hperm.nodup_iff.mpr hnodup) hzn hb hps he (fun h hh => ?_) he habove hzs (hcongr hperm)
    rcases List.mem_append.mp hh with hh | hh
    · exact (hps h hh).le
    · exact (List.mem_singleton.mp hh).le
  · have hg : g < b := hbelow g (by simp)
    have hperm : (ps ++ ([] ++ e :: (ws ++ b :: g :: zs))).Perm
        (ps ++ e :: ws.concat g ++ b :: zs) := by
      simpa using ((List.Perm.swap g b zs).append_left ws).cons e |>.append_left ps
    refine ⟨_, hperm, hB.of_map (by simp [hlast (e :: ws) g (by simp)]), ?_⟩
    refine moved_id_eq (.inl rfl) rfl (show _ = ps ++ e :: ws ++ [b] ++ [g] ++ zs by simp)
      (hperm.nodup_iff.mpr hnodup) hzn hb hps he (fun h hh => ?_) hg habove hzs (hcongr hperm)
    rcases List.mem_append.mp hh with hh | hh
    · refine (hbelow h ?_).le
      rcases List.mem_append.mp hh with hh | hh
      · simp [hh]
      · rcases List.mem_cons.mp hh with rfl | hh <;> simp [*]
    · exact (List.mem_singleton.mp hh).le

/-- The holes in ascending order. -/
def ascending (n : Nat) (holes : List Nat) : List Nat := (List.range n).filter (· ∈ holes)

theorem pairwise_ascending : (ascending n holes).Pairwise (· < ·) := List.pairwise_lt_range.filter _

theorem ascending_perm (hnodup : holes.Nodup) (hlt : ∀ h ∈ holes, h < n) :
    (ascending n holes).Perm holes := by
  refine (List.perm_ext_iff_of_nodup (pairwise_ascending.imp fun h => h.ne) hnodup).mpr fun p => ?_
  simp only [ascending, List.mem_filter, List.mem_range, decide_eq_true_eq]
  exact ⟨fun h => h.2, fun h => ⟨hlt p h, h⟩⟩

theorem batched_of_pairwise (h : holes.Pairwise (· < ·)) : Batched B holes :=
  h.imp fun hlt => Nat.div_le_div_right hlt.le

theorem le_last (h : holes.Pairwise (· < ·)) (hlast : holes = vs ++ [x]) (hg : g ∈ holes) :
    g ≤ x := by
  subst hlast
  rcases List.mem_append.mp hg with hg | hg
  · exact ((List.pairwise_append.mp h).2.2 g hg x (by simp)).le
  · exact (List.mem_singleton.mp hg).le

theorem div_eq_of_le {x g b : Nat} (hgx : g ≤ x) (hxb : x ≤ b) (hdiv : g / B = b / B) :
    x / B = b / B :=
  (Nat.div_le_div_right hxb).antisymm (hdiv ▸ Nat.div_le_div_right hgx)

theorem exists_cons_of_lt {l : List Nat} {k : Nat} (h : k < l.length) :
    ∃ ps e ws, k = ps.length ∧ l = ps ++ e :: ws := by
  refine ⟨l.take k, l[k], l.drop (k + 1), ?_, ?_⟩
  · rw [List.length_take_of_le h.le]
  · rw [List.getElem_cons_drop, List.take_append_drop]

section
variable {low mid zs : List Nat} {b g : Nat} (hsorted : (low ++ mid ++ b :: zs).Pairwise (· < ·))
  (hlt : ∀ h ∈ low ++ mid ++ b :: zs, h < n) (hlow : ∀ h ∈ low, h < t)
  (hg : g ∈ low ++ mid) (hdiv : g / B = b / B)
include hsorted hlt hlow hg hdiv

/-- A valid position between `t` and `b` is a source after `b`. -/
theorem exists_misplaced_of_valid
    (hlen : (above (low ++ mid ++ b :: zs) (b + 1) n).length < low.length) :
    ∃ order, order.Perm (low ++ mid ++ b :: zs) ∧ Batched B order ∧ ∃ e < t,
      moved id (assign (sources n order.reverse) order) e = b := by
  obtain ⟨hsorted₁, hsorted₂, hcross⟩ := List.pairwise_append.mp hsorted
  obtain ⟨habove, hzs⟩ := List.pairwise_cons.mp hsorted₂
  obtain ⟨ps, e, ws, hps, rfl⟩ := exists_cons_of_lt hlen
  have heq : ps ++ e :: ws ++ mid ++ b :: zs = ps ++ e :: (ws ++ mid) ++ b :: zs := by simp
  rw [heq] at hsorted hlt hps ⊢
  obtain ⟨order, hperm, hB, hmoved⟩ := exists_exchange (hsorted.imp fun h => h.ne)
    (batched_of_pairwise hsorted) hlt (fun h hh => hcross h (by simpa using hh) b (by simp)) habove hzs
    (fun vs x hx => by
      have hlast : ps ++ e :: ws ++ mid = ps ++ vs ++ [x] := by
        rw [List.append_assoc, List.cons_append, hx, List.append_assoc]
      refine div_eq_of_le (le_last hsorted₁ hlast hg) ?_ hdiv
      exact (hcross x (by rw [hlast]; simp) b (by simp)).le) hps
  exact ⟨order, hperm, hB, e, hlow e (by simp), hmoved⟩

/-- When all positions between `t` and `b` are holes, `t` takes a source that `e` then lacks. -/
theorem exists_misplaced_of_hole (hmid : ∀ h ∈ mid, t ≤ h) (ht : t ∈ mid) (he : e ∈ low)
    (hediv : e / B = t / B)
    (hlen : (above (low ++ mid ++ b :: zs) (b + 1) n).length = low.length) :
    ∃ order, order.Perm (low ++ mid ++ b :: zs) ∧ Batched B order ∧ ∃ e < t,
      moved id (assign (sources n order.reverse) order) e = b := by
  obtain ⟨hsorted₁, hsorted₂, hcross⟩ := List.pairwise_append.mp hsorted
  obtain ⟨habove, hzs⟩ := List.pairwise_cons.mp hsorted₂
  obtain ⟨hsorted_low, hsorted_mid, -⟩ := List.pairwise_append.mp hsorted₁
  obtain rfl | ⟨ps, last, rfl⟩ := List.eq_nil_or_concat low
  · cases he
  obtain ⟨ws, rfl⟩ : ∃ ws, mid = t :: ws := by
    cases mid with
    | nil => cases ht
    | cons x ws =>
      rcases List.mem_cons.mp ht with rfl | ht
      · exact ⟨ws, rfl⟩
      · have := (List.pairwise_cons.mp hsorted_mid).1 t ht
        exact absurd (hmid x (by simp)) (Nat.not_le.mpr this)
  have hlast : last / B = t / B :=
    div_eq_of_le (le_last hsorted_low (List.concat_eq_append ..) he) (hlow last (by simp)).le hediv
  -- the list with `t` in front of the last hole below it
  have hperm₁ : ((ps ++ [t]) ++ last :: ws ++ b :: zs).Perm
      (ps.concat last ++ t :: ws ++ b :: zs) := by
    simpa using (List.Perm.swap last t (ws ++ b :: zs)).append_left ps
  have hB₁ : Batched B ((ps ++ [t]) ++ last :: ws ++ b :: zs) :=
    (batched_of_pairwise hsorted).of_map (by simp [hlast])
  have hmem : ∀ h ∈ (ps ++ [t]) ++ last :: ws, h < b := fun h hh =>
    hcross h (by simp at hh ⊢; tauto) b (by simp)
  have hend (vs : List Nat) (x : Nat) (hx : ps.concat last ++ t :: ws = vs ++ [x]) :
      x / B = b / B :=
    div_eq_of_le (le_last hsorted₁ hx hg) (hcross x (by rw [hx]; simp) b (by simp)).le hdiv
  have hexchange (vs : List Nat) (x : Nat) (hx : last :: ws = vs ++ [x]) : x / B = b / B := by
    obtain rfl | ⟨us, y, rfl⟩ := List.eq_nil_or_concat ws
    · obtain ⟨-, rfl⟩ : [] = vs ∧ last = x := by
        simpa using List.append_inj' (show [] ++ [last] = vs ++ [x] from hx) rfl
      exact hlast.trans (hend _ t rfl)
    · obtain ⟨-, rfl⟩ : last :: us = vs ∧ y = x := by
        simpa using List.append_inj' (show last :: us ++ [y] = vs ++ [x] by simpa using hx) rfl
      exact hend (ps.concat last ++ t :: us) y (by simp)
  obtain ⟨order, hperm, hB, hmoved⟩ := exists_exchange
    (hperm₁.nodup_iff.mpr (hsorted.imp fun h => h.ne)) hB₁
    (fun h hh => hlt h (hperm₁.mem_iff.mp hh)) hmem habove hzs hexchange
    (by rw [above_congr fun p _ _ => hperm₁.mem_iff, hlen]; simp)
  exact ⟨order, hperm.trans hperm₁, hB, last, hlow last (by simp), hmoved⟩

end

/-- The holes in ascending order, split at `t` and at the hole `b`. -/
theorem exists_ascending_split (hnodup : holes.Nodup) (hlt : ∀ h ∈ holes, h < n) (hb : b ∈ holes)
    (htb : t < b) : ∃ low mid zs, (low ++ mid ++ b :: zs).Perm holes ∧
      (low ++ mid ++ b :: zs).Pairwise (· < ·) ∧ (∀ h ∈ low, h < t) ∧ ∀ h ∈ mid, t ≤ h := by
  have hperm := ascending_perm hnodup hlt
  have hsorted : (ascending n holes).Pairwise (· < ·) := pairwise_ascending
  have hsplit := filter_append_filter (t := t) (hsorted.imp fun h hle => hle.trans h.le)
  generalize ascending n holes = asc at hperm hsorted hsplit
  have hmem : b ∈ asc.filter (t ≤ ·) :=
    List.mem_filter.mpr ⟨hperm.mem_iff.mpr hb, decide_eq_true htb.le⟩
  obtain ⟨mid, zs, hmid⟩ := List.append_of_mem hmem
  have heq : asc.filter (· < t) ++ mid ++ b :: zs = asc := by
    rw [List.append_assoc, ← hmid, hsplit]
  refine ⟨asc.filter (· < t), mid, zs, ?_, ?_, fun h hh => ?_, fun h hh => ?_⟩
  · rwa [heq]
  · rwa [heq]
  · exact of_decide_eq_true (List.mem_filter.mp hh).2
  · have hh' : h ∈ asc.filter (t ≤ ·) := hmid ▸ List.mem_append_left _ hh
    exact of_decide_eq_true (List.mem_filter.mp hh').2

/-- What is before an element of an ascending list is before it in the list. -/
theorem mem_of_lt {xs zs : List Nat} (hsorted : (xs ++ b :: zs).Pairwise (· < ·))
    (hh : h ∈ xs ++ b :: zs) (hlt : h < b) : h ∈ xs := by
  have hzs := (List.pairwise_cons.mp (List.pairwise_append.mp hsorted).2.1).1
  rcases List.mem_append.mp hh with hh | hh
  · exact hh
  · rcases List.mem_cons.mp hh with rfl | hh
    · exact absurd hlt (lt_irrefl h)
    · exact absurd (hzs h hh) (Nat.not_lt.mpr hlt.le)

/-- There are as many holes below `t` as valid positions from `t` up. -/
theorem length_low {low mid zs : List Nat} (hsorted : (low ++ mid ++ b :: zs).Pairwise (· < ·))
    (hlt : ∀ h ∈ low ++ mid ++ b :: zs, h < n) (hn : t + (low ++ mid ++ b :: zs).length = n)
    (hlow : ∀ h ∈ low, h < t) (hmid : ∀ h ∈ mid, t ≤ h) (htb : t < b) :
    low.length = (above (low ++ mid ++ b :: zs) (b + 1) n).length +
      (above (low ++ mid ++ b :: zs) t (b + 1)).length := by
  have hcount := length_above (t := t) (hsorted.imp fun h => h.ne) hlt
  have hfilter : (low ++ mid ++ b :: zs).filter (t ≤ ·) = mid ++ b :: zs := by
    rw [List.append_assoc, List.filter_append, List.filter_eq_nil_iff.mpr fun h hh => by
      simpa using hlow h hh, List.nil_append]
    refine List.filter_eq_self.mpr fun h hh => decide_eq_true ?_
    rcases List.mem_append.mp hh with hh | hh
    · exact hmid h hh
    · rcases List.mem_cons.mp hh with rfl | hh
      · exact htb.le
      · have hzs := (List.pairwise_cons.mp (List.pairwise_append.mp hsorted).2.1).1
        exact (htb.trans (hzs h hh)).le
  have hb : b + 1 ≤ n := hlt b (by simp)
  have htb' : t ≤ b + 1 := htb.le.trans (Nat.le_succ b)
  rw [hfilter, above_append htb' hb, List.length_append] at hcount
  simp only [List.length_append, List.length_cons] at hn hcount
  omega

/-- Of two holes of a batch the greater one. -/
theorem exists_batchmate_lt {s s' : Nat} (hs : s ∈ holes) (hs' : s' ∈ holes) (hne : s' ≠ s)
    (hdiv : s' / B = s / B) : ∃ b ∈ holes, s ≤ b ∧ ∃ g ∈ holes, g < b ∧ g / B = b / B := by
  rcases Nat.lt_or_gt_of_ne hne with hlt | hlt
  · exact ⟨s, hs, le_refl s, s', hs', hlt, hdiv⟩
  · exact ⟨s', hs', hlt.le, s, hs, hlt, hdiv.symm⟩

/-- Without the condition some order leaves a hole below `t`. -/
theorem exists_misplaced (hnodup : holes.Nodup) (hlt : ∀ h ∈ holes, h < n)
    (hn : t + holes.length = n) (T : ¬ Tolerant B t holes) :
    ∃ order, order.Perm holes ∧ Batched B order ∧ ∃ e < t, ∃ b ∈ holes,
      moved id (assign (sources n order.reverse) order) e = b := by
  simp only [Tolerant, not_forall] at T
  obtain ⟨s, hs, hts, ⟨s', hs', hne, hdiv⟩, T⟩ := T
  obtain ⟨b, hb, hsb, g, hg, hgb, hgdiv⟩ := exists_batchmate_lt hs hs' hne hdiv
  have htb : t < b := hts.trans_le hsb
  obtain ⟨low, mid, zs, hperm, hsorted, hlow, hmid⟩ := exists_ascending_split hnodup hlt hb htb
  have hmem (p : Nat) : p ∈ low ++ mid ++ b :: zs ↔ p ∈ holes := hperm.mem_iff
  have hlt' : ∀ h ∈ low ++ mid ++ b :: zs, h < n := fun h hh => hlt h ((hmem h).mp hh)
  have hlen := length_low hsorted hlt' (by rw [hperm.length_eq, hn]) hlow hmid htb
  have hg' : g ∈ low ++ mid := mem_of_lt hsorted ((hmem g).mpr hg) hgb
  suffices H : ∃ order, order.Perm (low ++ mid ++ b :: zs) ∧ Batched B order ∧ ∃ e < t,
      moved id (assign (sources n order.reverse) order) e = b by
    obtain ⟨order, hp, hB, e, he, hmoved⟩ := H
    exact ⟨order, hp.trans hperm, hB, e, he, b, hb, hmoved⟩
  cases hbetween : above (low ++ mid ++ b :: zs) t (b + 1) with
  | cons p ps =>
    rw [hbetween, List.length_cons] at hlen
    exact exists_misplaced_of_valid hsorted hlt' hlow hg' hgdiv (by omega)
  | nil =>
    rw [hbetween, List.length_nil] at hlen
    have hall (p : Nat) (h₁ : t ≤ p) (h₂ : p < b) : p ∈ holes := by
      by_contra hp
      have : p ∈ above (low ++ mid ++ b :: zs) t (b + 1) :=
        mem_above.mpr ⟨h₁, Nat.lt_succ_of_lt h₂, fun h => hp ((hmem p).mp h)⟩
      rw [hbetween] at this
      cases this
    have hT : ∃ e ∈ holes, e / B = t / B ∧ e < t := by
      by_contra hno
      refine T ⟨fun p h₁ h₂ => hall p h₁ (h₂.trans_le hsb), fun h hh hdiv => ?_⟩
      exact Nat.le_of_not_lt fun hlt => hno ⟨h, hh, hdiv, hlt⟩
    obtain ⟨e, he, hediv, het⟩ := hT
    have hlow' : e ∈ low := by
      have hmem' := mem_of_lt hsorted ((hmem e).mpr he) (het.trans htb)
      exact (List.mem_append.mp hmem').resolve_right fun h =>
        absurd (hmid e h) (Nat.not_le.mpr het)
    have hmid' : t ∈ mid := by
      have hmem' := mem_of_lt hsorted ((hmem t).mpr (hall t (le_refl t) htb)) htb
      exact (List.mem_append.mp hmem').resolve_left fun h => absurd (hlow t h) (lt_irrefl t)
    exact exists_misplaced_of_hole hsorted hlt' hlow hg' hgdiv hmid hmid' hlow' hediv (by omega)

end Compaction
