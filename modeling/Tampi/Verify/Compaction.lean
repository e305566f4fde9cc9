import Tampi.Theory.Compaction
import Tampi.Model.System

/-! # The smart replacement (`internalCheckRequests`)

Whatever the order of the indices, the replacement loop stays inside its arrays, and its moves are
those of a compaction: each index in turn takes the next source above it. With strictly ascending
indices all completed requests are recognised, and the entries of the pending ones are left at the
first positions. -/

namespace Tampi.Arrays
open Function (update)
open Compaction

variable {a a' : Arrays} {n completed c replacement reverse : Nat} {indices : Nat → Nat}

/-! ## The positions -/

/-- What the arrays hold at a position. -/
def entry (a : Arrays) (p : Nat) : Request × Ticket := (a.requests p, a.tickets p)

/-- What the accessors give for a position. -/
def record (a : Arrays) (p : Nat) : Request × Ticket × Nat :=
  (a.requests p, a.getAssociatedTicket p, a.getLocalPositionInTicket p)

/-- Every position below `n` refers to the ticket at that position. -/
def OwnTickets (a : Arrays) (n : Nat) : Prop := ∀ p < n, (a.mappings p).ticket = p

/-- Every position below `n` refers to its own ticket. -/
def SelfMapped (a : Arrays) (n : Nat) : Prop := ∀ p < n, a.mappings p = ⟨p, 0⟩

/-- What `moveRequest` copies when the source refers to its own ticket. -/
def cell (a : Arrays) (p : Nat) : Request × Ticket × Nat :=
  (a.requests p, a.tickets p, a.getLocalPositionInTicket p)

theorem OwnTickets.record_eq (H : a.OwnTickets n) (hp : p < n) : a.record p = a.cell p := by
  rw [record, cell, getAssociatedTicket, H p hp]

theorem entry_eq (a : Arrays) : a.entry = (fun x => (x.1, x.2.1)) ∘ a.cell := rfl

theorem SelfMapped.ownTickets (H : a.SelfMapped n) : a.OwnTickets n := fun p hp => by rw [H p hp]

theorem OwnTickets.selfMapped (H : a.OwnTickets n) (h : ∀ p < n, (a.cell p).2.2 = 0) :
    a.SelfMapped n := by
  intro p hp
  have hm : a.mappings p = ⟨(a.mappings p).ticket, (a.cell p).2.2⟩ := rfl
  rw [hm, H p hp, h p hp]

theorem OwnTickets.moveRequest (H : a.OwnTickets n) (hs : source < n) (hd : destination < source) :
    ∃ a', a.moveRequest source destination = some a' ∧ a'.OwnTickets n ∧
      a'.cell = update a.cell destination (a.cell source) ∧
      a'.indices = a.indices ∧ a'.statuses = a.statuses := by
  have hm := H source hs
  simp only [Arrays.moveRequest, hd.ne', hm, if_true, if_false]
  refine ⟨_, rfl, fun p hp => ?_, ?_, rfl, rfl⟩
  · by_cases h : p = destination
    · subst h; simp
    · simpa [h] using H p hp
  · funext p
    by_cases h : p = destination
    · subst h; simp [cell, getLocalPositionInTicket]
    · simp [cell, getLocalPositionInTicket, h]

theorem moveRequest_indices (h : a.moveRequest source destination = some a') :
    a'.indices = a.indices := by
  unfold Arrays.moveRequest at h
  split at h
  · cases h
  · split at h <;> cases h <;> rfl

/-- The calls of `moveRequest` for pairs of a source and a destination. -/
def moveAll (a : Arrays) : List (Nat × Nat) → Option Arrays
  | [] => some a
  | (source, destination) :: ms => (a.moveRequest source destination).bind (·.moveAll ms)

theorem OwnTickets.moveAll (H : a.OwnTickets n) (hms : ∀ m ∈ ms, m.2 < m.1 ∧ m.1 < n) :
    ∃ a', a.moveAll ms = some a' ∧ a'.OwnTickets n ∧ a'.cell = moved a.cell ms ∧
      a'.indices = a.indices ∧ a'.statuses = a.statuses := by
  induction ms generalizing a with
  | nil => exact ⟨a, rfl, H, rfl, rfl, rfl⟩
  | cons m ms ih =>
    obtain ⟨⟨hd, hs⟩, hms⟩ := List.forall_mem_cons.mp hms
    obtain ⟨a₁, hmove, H₁, hcell₁, hind₁, hst₁⟩ := H.moveRequest hs hd
    obtain ⟨a', hrun, H', hcell, hind, hst⟩ := ih H₁ hms
    refine ⟨a', ?_, H', ?_, hind.trans hind₁, hst.trans hst₁⟩
    · rw [Arrays.moveAll, hmove, Option.bind_some, hrun]
    · rw [hcell, hcell₁, moved]

/-! ## The moves of the loop -/

/-- The calls of `moveRequest` in the iterations of `replaceLoop`. -/
def replaceMoves (indices : Nat → Nat) (completed : Nat) :
    (todo replacement reverse : Nat) → Option (List (Nat × Nat))
  | 0, _, _ => some []
  | todo + 1, replacement, reverse =>
    let current := indices (completed - (todo + 1))
    match findReplacement indices current replacement reverse with
    | none => none
    | some (true, replacement, reverse) =>
      (replaceMoves indices completed todo (replacement - 1) reverse).map
        ((replacement - 1, current) :: ·)
    | some (false, replacement, reverse) =>
      replaceMoves indices completed todo replacement reverse

theorem bind_moveAll_cons (a : Arrays) (ms : Option (List (Nat × Nat))) (source destination : Nat) :
    (ms.map ((source, destination) :: ·)).bind a.moveAll =
      (a.moveRequest source destination).bind fun a' => ms.bind a'.moveAll := by
  cases ms with
  | none => cases a.moveRequest source destination <;> rfl
  | some ms => rfl

theorem replaceLoop_eq_moveAll : a.replaceLoop completed todo replacement reverse =
    (replaceMoves a.indices completed todo replacement reverse).bind a.moveAll := by
  induction todo generalizing a replacement reverse with
  | zero => rfl
  | succ todo ih =>
    rw [replaceLoop, replaceMoves]
    cases findReplacement a.indices (a.indices (completed - (todo + 1))) replacement reverse with
    | none => rfl
    | some res =>
      obtain ⟨replace, r, v⟩ := res
      cases replace with
      | false => exact ih
      | true =>
        dsimp only
        rw [bind_moveAll_cons]
        cases hmove : a.moveRequest (r - 1) (a.indices (completed - (todo + 1))) with
        | none => rfl
        | some a₁ => rw [Option.bind_some, Option.bind_some, ih, moveRequest_indices hmove]

/-- The indices of the completed requests from the `c`-th on. -/
def holes (indices : Nat → Nat) (c completed : Nat) : List Nat :=
  (List.range' c (completed - c)).map indices

theorem holes_succ (h : c < completed) :
    holes indices c completed = indices c :: holes indices (c + 1) completed := by
  obtain ⟨k, hk⟩ : ∃ k, completed - c = k + 1 := ⟨completed - c - 1, by omega⟩
  have : completed - (c + 1) = k := by omega
  simp [holes, hk, this, List.range'_succ]

theorem holes_concat : holes indices 0 (c + 1) = holes indices 0 c ++ [indices c] := by
  simp [holes, List.range'_concat]

theorem mem_holes : p ∈ holes indices c completed ↔ ∃ j, c ≤ j ∧ j < completed ∧ indices j = p := by
  simp only [holes, List.mem_map, List.mem_range'_1]
  constructor
  · rintro ⟨j, hj, rfl⟩
    exact ⟨j, by omega, by omega, rfl⟩
  · rintro ⟨j, h1, h2, rfl⟩
    exact ⟨j, by omega, rfl⟩

/-- The indices before the cursor `reverse`, as the loop reads them. -/
def readBack (indices : Nat → Nat) (reverse : Nat) : List Nat := (holes indices 0 reverse).reverse

theorem readBack_succ : readBack indices (c + 1) = indices c :: readBack indices c := by
  rw [readBack, holes_concat, List.reverse_append, List.reverse_singleton]
  rfl

/-- The cursor `reverse` has passed only positions that `replacement` has passed. -/
def Passed (indices : Nat → Nat) (completed replacement reverse : Nat) : Prop :=
  ∀ j, reverse ≤ j → j < completed → replacement ≤ indices j

/-- The inner loop stays inside `indices`, and finds the first source if that is above the hole. -/
theorem findReplacement_spec (P : Passed indices completed replacement reverse)
    (hc : c < completed) :
    ∃ replace replacement' reverse', findReplacement indices (indices c) replacement reverse =
        some (replace, replacement', reverse') ∧
      (replace = true → ∃ last, replacement' = last + 1 ∧ indices c < last ∧
        Passed indices completed last reverse' ∧
        sources replacement (readBack indices reverse) =
          last :: sources last (readBack indices reverse')) ∧
      (replace = false → replacement' ≤ indices c + 1 ∧
        Passed indices completed replacement' reverse' ∧
        sources replacement (readBack indices reverse) =
          sources replacement' (readBack indices reverse')) := by
  induction replacement generalizing reverse with
  | zero => exact ⟨false, 0, reverse, rfl, by simp, fun _ => ⟨by omega, P, rfl⟩⟩
  | succ last ih =>
    have P' : Passed indices completed last reverse := fun j h₁ h₂ =>
      (Nat.le_succ last).trans (P j h₁ h₂)
    by_cases hlt : last > indices c
    · -- an index that was passed cannot be below `last`
      obtain ⟨reverse, rfl⟩ : ∃ k, reverse = k + 1 := by
        refine Nat.exists_eq_succ_of_ne_zero ?_
        rintro rfl
        have := P c (Nat.zero_le c) hc
        omega
      by_cases heq : last = indices reverse
      · have P'' : Passed indices completed last reverse := by
          intro j h₁ h₂
          rcases Nat.eq_or_lt_of_le h₁ with rfl | h₁
          · exact heq.le
          · exact P' j h₁ h₂
        obtain ⟨b, r, v, hfind, htrue, hfalse⟩ := ih P''
        have hsrc : sources (last + 1) (readBack indices (reverse + 1)) =
            sources last (readBack indices reverse) := by
          rw [readBack_succ, sources, if_pos heq]
        refine ⟨b, r, v, ?_, hsrc ▸ htrue, hsrc ▸ hfalse⟩
        rw [findReplacement, if_pos hlt]
        simpa only [heq, ne_eq, not_true_eq_false, if_false] using hfind
      · refine ⟨true, last + 1, reverse + 1, by simp [findReplacement, hlt, heq],
          fun _ => ⟨last, rfl, hlt, P', ?_⟩, by simp⟩
        rw [readBack_succ, sources, if_neg heq]
    · exact ⟨false, last + 1, reverse, by simp [findReplacement, hlt], by simp,
        fun _ => ⟨by omega, P, rfl⟩⟩

theorem replaceMoves_eq (P : Passed indices completed replacement reverse)
    (hc : c + todo = completed) : replaceMoves indices completed todo replacement reverse =
      some (assign (sources replacement (readBack indices reverse))
        (holes indices c completed)) := by
  induction todo generalizing c replacement reverse with
  | zero =>
    have : holes indices c completed = [] := by simp [holes, show completed - c = 0 by omega]
    rw [this, assign, replaceMoves]
  | succ todo ih =>
    have hcur : completed - (todo + 1) = c := by omega
    obtain ⟨b, r, v, hfind, htrue, hfalse⟩ := findReplacement_spec P (show c < completed by omega)
    rw [holes_succ (by omega), replaceMoves]
    simp only [hcur, hfind]
    cases b with
    | true =>
      obtain ⟨last, rfl, hlt, P', hsrc⟩ := htrue rfl
      rw [hsrc, assign, if_pos hlt]
      simp only [Nat.add_sub_cancel, ih (c := c + 1) P' (by omega), Option.map_some]
    | false =>
      obtain ⟨hle, P', hsrc⟩ := hfalse rfl
      rw [hsrc, assign_cons_of_le fun x hx => by
        have := lt_of_mem_sources hx
        omega]
      exact ih (c := c + 1) P' (by omega)

/-- The moves of the whole loop, for the completed indices in any order. -/
theorem replaceMoves_eq_assign (indices : Nat → Nat) (n completed : Nat) :
    replaceMoves indices completed completed n completed =
      some (assign (sources n (holes indices 0 completed).reverse) (holes indices 0 completed)) :=
  replaceMoves_eq (fun _ h₁ h₂ => absurd h₁ (not_le.mpr h₂)) (Nat.zero_add completed)

/-- The replacement never fails, and copies the cells as its moves say. -/
theorem OwnTickets.replace (H : a.OwnTickets n) (completed : Nat) :
    ∃ a', a.replace n completed = some a' ∧ a'.OwnTickets n ∧
      a'.cell = moved a.cell (assign (sources n (holes a.indices 0 completed).reverse)
        (holes a.indices 0 completed)) ∧
      a'.indices = a.indices ∧ a'.statuses = a.statuses := by
  have hms : ∀ m ∈ assign (sources n (holes a.indices 0 completed).reverse)
      (holes a.indices 0 completed), m.2 < m.1 ∧ m.1 < n := by
    intro m hm
    obtain ⟨h₁, _, h₃⟩ := mem_assign hm
    exact ⟨h₃, lt_of_mem_sources h₁⟩
  obtain ⟨a', hrun, h⟩ := H.moveAll hms
  refine ⟨a', ?_, h⟩
  rw [Arrays.replace, replaceLoop_eq_moveAll, replaceMoves_eq_assign, Option.bind_some, hrun]

/-! ## Ascending indices -/

section
variable (hsorted : ∀ i j, i < j → j < completed → indices i < indices j)
include hsorted

theorem pairwise_holes : (holes indices 0 completed).Pairwise (· < ·) := by
  rw [holes, List.pairwise_map]
  refine (List.pairwise_lt_range' 1).imp_of_mem fun _ hj hlt => ?_
  simp only [List.mem_range'_1] at hj
  exact hsorted _ _ hlt (by omega)

/-- All completed requests are recognised. -/
theorem sources_holes (hlt : ∀ j < completed, indices j < n) :
    sources n (holes indices 0 completed).reverse = above (holes indices 0 completed) 0 n := by
  have h := sources_append [] (Nat.zero_le n)
    (List.pairwise_reverse.mpr (pairwise_holes hsorted)) (fun p hp => by
      obtain ⟨j, _, hj, rfl⟩ := mem_holes.mp (List.mem_reverse.mp hp)
      exact hlt j hj) (fun _ _ => Nat.zero_le _) (by simp)
  rw [List.append_nil, sources, List.append_nil] at h
  rw [h]
  exact above_congr fun p _ _ => List.mem_reverse

/-- The compaction leaves the valid entries at the first positions. -/
theorem map_moved_holes {f : Nat → α} (hlt : ∀ j < completed, indices j < n) :
    (Multiset.range (n - completed)).map (moved f (assign
        (sources n (holes indices 0 completed).reverse) (holes indices 0 completed))) =
      (valid (holes indices 0 completed) n).map f := by
  have hpairwise := pairwise_holes hsorted
  have hlt' : ∀ p ∈ holes indices 0 completed, p < n := fun p hp => by
    obtain ⟨j, _, hj, rfl⟩ := mem_holes.mp hp
    exact hlt j hj
  have hnodup : (holes indices 0 completed).Nodup := hpairwise.imp fun h => h.ne
  have hlen : (holes indices 0 completed).length = completed := by simp [holes]
  have hcard := card_valid hnodup hlt'
  rw [sources_holes hsorted hlt, above_append (Nat.zero_le (n - completed)) (Nat.sub_le n completed)]
  exact map_moved_assign _ hnodup hlt' (by omega) (hpairwise.imp fun h hle => hle.trans h.le)

end

/-- The replacement loop succeeds and moves the entries of the pending requests to the front. -/
theorem replace_spec (hsorted : ∀ i j, i < j → j < completed → a.indices i < a.indices j)
    (hlt : ∀ j < completed, a.indices j < n) (hself : a.SelfMapped n) :
    ∃ a', a.replace n completed = some a' ∧ a'.SelfMapped (n - completed) ∧
      (Multiset.range (n - completed)).map a'.entry =
        (valid (holes a.indices 0 completed) n).map a.entry ∧
      a'.indices = a.indices ∧ a'.statuses = a.statuses := by
  obtain ⟨a', hrun, hown, hcell, hind, hst⟩ := hself.ownTickets.replace completed
  have hmap := map_moved_holes (f := a.cell) hsorted hlt
  rw [← hcell] at hmap
  have hown' : a'.OwnTickets (n - completed) := fun p hp => hown p (by omega)
  refine ⟨a', hrun, hown'.selfMapped fun p hp => ?_, ?_, hind, hst⟩
  · have hmem : a'.cell p ∈ (valid (holes a.indices 0 completed) n).map a.cell :=
      hmap ▸ Multiset.mem_map_of_mem _ (Multiset.mem_range.mpr hp)
    obtain ⟨q, hq, heq⟩ := Multiset.mem_map.mp hmem
    rw [← heq, cell, getLocalPositionInTicket, hself q (mem_valid.mp hq).1]
  · rw [entry_eq, entry_eq, ← Multiset.map_map, ← Multiset.map_map, hmap]

/-- The replacement of a check whose completed indices ascend. -/
theorem checkStep_replace (cfg : Config) (s : Sys) (total inserted : Nat) {k : Check} (ans : Answer)
    (hk : k.phase = .replace)
    (hown : ∀ p < s.manager.pending, (s.manager.arrays.mappings p).ticket = p)
    (hsorted : ∀ i j, i < j → j < k.completed →
      s.manager.arrays.indices i < s.manager.arrays.indices j)
    (hlt : ∀ j < k.completed, s.manager.arrays.indices j < s.manager.pending) :
    ∃ ms s' σ,
      replaceMoves s.manager.arrays.indices k.completed k.completed s.manager.pending k.completed =
        some ms ∧
      (∀ m ∈ ms, m.1 ≠ m.2 ∧ ∀ j < k.completed, s.manager.arrays.indices j ≠ m.1) ∧
      s.checkStep cfg total inserted k ans = some s' ∧ s'.failure = s.failure ∧
      s'.manager.pending = s.manager.pending - k.completed ∧
      Set.BijOn σ {p | p < s'.manager.pending}
        {p | p < s.manager.pending ∧ ∀ j < k.completed, s.manager.arrays.indices j ≠ p} ∧
      (∀ p < s'.manager.pending, s'.manager.arrays.record p = s.manager.arrays.record (σ p)) ∧
      (∀ p < s'.manager.pending, (∀ j < k.completed, s.manager.arrays.indices j ≠ p) → σ p = p) ∧
      ∀ p < s'.manager.pending, (s'.manager.arrays.mappings p).ticket = p := by
  have hnot {p : Nat} : p ∉ holes s.manager.arrays.indices 0 k.completed ↔
      ∀ j < k.completed, s.manager.arrays.indices j ≠ p := by
    simp [mem_holes]
  have hmoves := replaceMoves_eq_assign s.manager.arrays.indices s.manager.pending k.completed
  have hbij := bijOn_of_map_range ((map_moved_holes (f := id) hsorted hlt).trans (Multiset.map_id _))
  obtain ⟨a', hrun, hown', hcell, -, -⟩ := OwnTickets.replace hown k.completed
  generalize hms : assign (sources s.manager.pending
    (holes s.manager.arrays.indices 0 k.completed).reverse)
    (holes s.manager.arrays.indices 0 k.completed) = ms at hmoves hbij hcell
  have hstep : s.checkStep cfg total inserted k ans = some { s with
      manager := { s.manager with arrays := a', pending := s.manager.pending - k.completed }
      poll := nextRound total inserted k.completed } := by
    rw [Sys.checkStep, hk, hrun]
  refine ⟨ms, _, moved id ms, hmoves, fun m hm => ?_, hstep, rfl, rfl, ?_, fun p hp => ?_,
    fun p hp hnotp => ?_, fun p hp => hown' p (lt_of_lt_of_le hp (Nat.sub_le ..))⟩
  · rw [← hms, sources_holes hsorted hlt] at hm
    obtain ⟨hsrc, _, hgt⟩ := mem_assign hm
    exact ⟨hgt.ne', hnot.mp (mem_above.mp hsrc).2.2⟩
  · simpa only [hnot] using hbij
  · have hσ := (hbij.mapsTo hp).1
    have hp' : p < s.manager.pending := lt_of_lt_of_le hp (Nat.sub_le ..)
    rw [hown'.record_eq hp', OwnTickets.record_eq hown hσ, hcell]
    exact congrFun (moved_comp s.manager.arrays.cell id ms) p
  · refine moved_of_forall_ne fun m hm heq => ?_
    rw [← hms] at hm
    exact hnot.mpr hnotp (heq ▸ (mem_assign hm).2.1)

/-- Requests in flight at all positions, with the given completed indices. -/
def demoArrays (indices : Nat → Nat) : Arrays where
  requests p := some p
  statuses _ := default
  mappings p := ⟨p, 0⟩
  tickets p := ⟨⟨false, p, ⟨.p2p, 0, p⟩⟩, .ignore⟩
  indices := indices

/-- Four requests are in flight; the first and the last one have completed. -/
def demoCheck : Sys :=
  { Sys.initial (.defaults 1 Nat.one_pos) (fun _ _ => 0)
      (fun _ _ => .p2p ⟨⟨.p2p, 0, 0⟩, 0, .ignore, 0, 0, 0, 0, 0, 0, .SEND, .BLK⟩) (demoArrays id)
      (fun _ => default) with
    manager := ⟨4, demoArrays (3 * ·), .defaults⟩ }

theorem checkStep_replace_firstLast : ∃ s',
    demoCheck.checkStep (.defaults 1 Nat.one_pos) 0 0 ⟨4, 2, [], .replace⟩ .silent = some s' ∧
      s'.manager.pending = 2 ∧ s'.manager.arrays.record 0 = demoCheck.manager.arrays.record 2 ∧
      s'.manager.arrays.record 1 = demoCheck.manager.arrays.record 1 := by
  obtain ⟨ms, s', σ, -, -, hstep, -, hpending, hbij, hrecord, hstay, -⟩ :=
    checkStep_replace (.defaults 1 Nat.one_pos) demoCheck 0 0 (k := ⟨4, 2, [], .replace⟩) .silent rfl
      (fun _ _ => rfl) (fun i j hij _ => Nat.mul_lt_mul_of_pos_left hij (by decide))
      (fun j (hj : j < 2) => show 3 * j < 4 by omega)
  have hp : s'.manager.pending = 2 := hpending
  have h1 : σ 1 = 1 := hstay 1 (by omega) fun j _ => show 3 * j ≠ 1 by omega
  have h0 : σ 0 = 2 := by
    have hmem := hbij.mapsTo (show 0 < s'.manager.pending by omega)
    have hlt : σ 0 < 4 := hmem.1
    have hne0 : σ 0 ≠ 0 := (hmem.2 0 (by decide)).symm
    have hne3 : σ 0 ≠ 3 := (hmem.2 1 (by decide)).symm
    have hne1 : σ 0 ≠ 1 := fun h => absurd
      (hbij.injOn (show 0 < _ by omega) (show 1 < _ by omega) (h.trans h1.symm)) (by decide)
    omega
  refine ⟨s', hstep, hp, ?_, ?_⟩
  · rw [hrecord 0 (by omega), h0]
  · rw [hrecord 1 (by omega), h1]

end Tampi.Arrays
