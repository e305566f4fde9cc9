import Mathlib.Data.List.Perm.Basic
import Tampi.Verify.Completed
import Tampi.Verify.Objects

/-! # The operations of a batch

`transferOperations` numbers the operations of its batch twice, as entries and, without those whose
request is null, as requests. `Batch` says how the two numberings agree and `Progress` what has
become of the entries so far, whatever the order the immediate test reports them in. Every step of
`transferOperations` keeps `Progress` (`Progress.move`). -/

namespace Tampi
open Function (update)

/-! ## The two numberings -/

/-- The entries whose request is not null, of those issued with the requests `rs`. -/
def activeEntries (rs : List Request) : List Nat :=
  (List.range rs.length).filter fun e => (rs.getD e none).isSome

def nullEntries (rs : List Request) : List Nat :=
  (List.range rs.length).filter fun e => !(rs.getD e none).isSome

section
variable {rs : List Request}

theorem filter_range_concat (f : Request → Bool) (rs : List Request) (r : Request) :
    ((List.range (rs ++ [r]).length).filter fun e => f ((rs ++ [r]).getD e none)) =
      ((List.range rs.length).filter fun e => f (rs.getD e none)) ++
        if f r then [rs.length] else [] := by
  rw [List.length_append, List.length_singleton, List.range_succ, List.filter_append]
  congr 1
  · refine List.filter_congr fun e he => ?_
    have := List.mem_range.mp he
    simp [List.getElem?_append_left this]
  · cases h : f r <;> simp [h]

theorem activeEntries_concat_some (rs : List Request) (h : Nat) :
    activeEntries (rs ++ [some h]) = activeEntries rs ++ [rs.length] :=
  filter_range_concat Option.isSome rs (some h)

theorem activeEntries_concat_none (rs : List Request) :
    activeEntries (rs ++ [none]) = activeEntries rs :=
  (filter_range_concat Option.isSome rs none).trans (List.append_nil _)

theorem nullEntries_concat_some (rs : List Request) (h : Nat) :
    nullEntries (rs ++ [some h]) = nullEntries rs :=
  (filter_range_concat (!·.isSome) rs (some h)).trans (List.append_nil _)

theorem nullEntries_concat_none (rs : List Request) :
    nullEntries (rs ++ [none]) = nullEntries rs ++ [rs.length] :=
  filter_range_concat (!·.isSome) rs none

theorem activeEntries_lt (h : e ∈ activeEntries rs) : e < rs.length :=
  List.mem_range.mp (List.mem_filter.mp h).1

theorem request_ne_none (h : e ∈ activeEntries rs) : rs.getD e none ≠ none :=
  Option.isSome_iff_ne_none.mp (List.mem_filter.mp h).2

theorem nullEntries_append_perm (rs : List Request) :
    (nullEntries rs ++ activeEntries rs).Perm (List.range rs.length) :=
  List.perm_append_comm.trans (List.filter_append_perm (fun e => (rs.getD e none).isSome) _)

theorem length_activeEntries_le (rs : List Request) : (activeEntries rs).length ≤ rs.length :=
  (List.length_filter_le _ _).trans_eq List.length_range

theorem activeEntries_sorted (rs : List Request) : (activeEntries rs).Pairwise (· < ·) :=
  List.pairwise_lt_range.filter _

theorem getD_mem {l : List Nat} (h : r < l.length) : l.getD r 0 ∈ l := by
  simp [List.getElem?_eq_getElem h]

theorem getD_concat {α : Type} {l : List α} {a d : α} (h : e < l.length) :
    (l ++ [a]).getD e d = l.getD e d := by
  simp [List.getElem?_append_left h]

theorem getD_concat_self {α : Type} {l : List α} {a d : α} : (l ++ [a]).getD l.length d = a := by
  simp

theorem map_getD_range {α : Type} {d : α} (l : List α) :
    (List.range l.length).map (l.getD · d) = l :=
  List.ext_getElem (by simp) fun r h₁ h₂ => by simp [List.getElem?_eq_getElem h₂]

end

/-! ## A batch in transfer -/

/-- The requests of a list of issues. -/
def requestsOf (is : List (OpId × MpiCall × Request)) : List Request := is.map (·.2.2)

namespace Transfer

/-- The requests `R` have been reported, and the entries of `F` filtered out. -/
structure Batch (op : Nat → Op) (rs : List Request) (R F : List Nat) (x : Transfer) : Prop where
  tickets : x.tickets = (List.range rs.length).map fun e => .ofOp (op e)
  nodup : R.Nodup
  lt : ∀ r ∈ R, r < (activeEntries rs).length
  complentries : x.complentries = nullEntries rs ++ F.map ((activeEntries rs).getD · 0)
  nreqs : x.req2entry.length = (activeEntries rs).length
  req2entry : ∀ r < (activeEntries rs).length,
    x.req2entry.getD r none = if r ∈ F then none else some ((activeEntries rs).getD r 0)
  requests : ∀ r < (activeEntries rs).length,
    x.requests r = if r ∈ R then none else rs.getD ((activeEntries rs).getD r 0) none

namespace Batch
variable {op : Nat → Op} {rs : List Request} {R F : List Nat} {x x' : Transfer}

theorem length_tickets (B : x.Batch op rs R F) : x.tickets.length = rs.length := by
  simp [B.tickets]

theorem ticketAt (B : x.Batch op rs R F) (he : e < rs.length) :
    x.ticketAt e = .ofOp (op e) := by
  simp [Transfer.ticketAt, B.tickets, he]

theorem congr (B : x.Batch op rs R F) (ht : x'.tickets = x.tickets)
    (hc : x'.complentries = x.complentries) (hr : x'.req2entry = x.req2entry)
    (hq : x'.requests = x.requests) : x'.Batch op rs R F where
  tickets := ht.trans B.tickets
  nodup := B.nodup
  lt := B.lt
  complentries := hc.trans B.complentries
  nreqs := hr ▸ B.nreqs
  req2entry := hr ▸ B.req2entry
  requests := hq ▸ B.requests

theorem concat_tickets (B : x.Batch op rs R F) (r : Request) :
    x.tickets ++ [Ticket.ofOp (op rs.length)] =
      (List.range (rs ++ [r]).length).map fun e => .ofOp (op e) := by
  rw [List.length_append, List.length_singleton, List.range_succ, List.map_append, B.tickets,
    List.map_singleton]

theorem issueNull (B : x.Batch op rs [] []) :
    ({ x with
      tickets := x.tickets ++ [.ofOp (op rs.length)]
      requests := update x.requests x.req2entry.length none
      complentries := x.complentries ++ [x.tickets.length] } : Transfer).Batch op (rs ++ [none])
        [] [] where
  tickets := B.concat_tickets none
  nodup := List.nodup_nil
  lt := by simp
  complentries := by
    rw [B.complentries, B.length_tickets, nullEntries_concat_none]
    simp
  nreqs := by rw [activeEntries_concat_none, B.nreqs]
  req2entry r hr := by
    rw [activeEntries_concat_none] at hr ⊢
    exact B.req2entry r hr
  requests r hr := by
    rw [activeEntries_concat_none] at hr ⊢
    refine (Function.update_of_ne (show r ≠ _ by rw [B.nreqs]; omega) ..).trans ?_
    rw [B.requests r hr, getD_concat (activeEntries_lt (getD_mem hr))]

theorem issue (B : x.Batch op rs [] []) (h : Nat) :
    ({ x with
      tickets := x.tickets ++ [.ofOp (op rs.length)]
      requests := update x.requests x.req2entry.length (some h)
      req2entry := x.req2entry ++ [some x.tickets.length] } : Transfer).Batch op (rs ++ [some h])
        [] [] where
  tickets := B.concat_tickets (some h)
  nodup := List.nodup_nil
  lt := by simp
  complentries := by rw [B.complentries, nullEntries_concat_some, List.map_nil, List.map_nil]
  nreqs := by simp [activeEntries_concat_some, B.nreqs]
  req2entry r hr := by
    rw [activeEntries_concat_some, List.length_append, List.length_singleton] at hr
    rw [activeEntries_concat_some]
    rcases Nat.lt_or_eq_of_le (Nat.lt_succ_iff.mp hr) with hr | rfl
    · rw [getD_concat (B.nreqs ▸ hr), getD_concat hr, B.req2entry r hr]
    · rw [← B.nreqs, getD_concat_self, B.nreqs, getD_concat_self, B.length_tickets]
      simp
  requests r hr := by
    rw [activeEntries_concat_some, List.length_append, List.length_singleton] at hr
    rw [activeEntries_concat_some]
    rcases Nat.lt_or_eq_of_le (Nat.lt_succ_iff.mp hr) with hr | rfl
    · refine (Function.update_of_ne (show r ≠ _ by rw [B.nreqs]; omega) ..).trans ?_
      rw [B.requests r hr, getD_concat hr, getD_concat (activeEntries_lt (getD_mem hr))]
    · dsimp only
      rw [← B.nreqs, Function.update_self, B.nreqs, getD_concat_self, getD_concat_self]
      simp

/-- MPI reports the requests `is`. -/
theorem report {t t' : Test} {b b' : Buffers} (B : x.Batch op rs R [])
    (hR : t.Reported b is t' b') (hb : b.requests = x.requests) (hroff : t.roff = 0)
    (hlt : ∀ i ∈ is, i < (activeEntries rs).length) (ht : x'.tickets = x.tickets)
    (hc : x'.complentries = x.complentries) (hr : x'.req2entry = x.req2entry)
    (hq : x'.requests = b'.requests) : x'.Batch op rs (R ++ is) [] where
  tickets := ht.trans B.tickets
  nodup := by
    refine List.nodup_append.mpr ⟨B.nodup, hR.nodup, ?_⟩
    rintro r hr _ hi rfl
    refine hR.active r hi ?_
    rw [hroff, Nat.zero_add, hb, B.requests r (B.lt r hr), if_pos hr]
  lt r hr := (List.mem_append.mp hr).elim (B.lt r) (hlt r)
  complentries := hc.trans B.complentries
  nreqs := hr ▸ B.nreqs
  req2entry := hr ▸ B.req2entry
  requests r hr := by
    rw [hq, hR.requests r, hroff, Nat.sub_zero, hb, B.requests r hr]
    by_cases h₁ : r ∈ R <;> by_cases h₂ : r ∈ is <;> simp [h₁, h₂]

/-- The filter loop comes to one more reported request. -/
theorem mark (B : x.Batch op rs R (R.take c)) (hc : c < R.length)
    (hreq : x.testcompl2req c = R[c]) (n : Nat) :
    (x.mark c n ((activeEntries rs).getD R[c] 0)).Batch op rs R (R.take (c + 1)) := by
  have htake : R.take (c + 1) = R.take c ++ [R[c]] := by
    rw [List.take_add_one, List.getElem?_eq_getElem hc, Option.toList_some]
  have hlt : R[c] < x.req2entry.length := B.nreqs ▸ B.lt _ (List.getElem_mem hc)
  exact {
    tickets := B.tickets
    nodup := B.nodup
    lt := B.lt
    complentries := by
      simp only [Transfer.mark, B.complentries, htake, List.map_append, List.map_singleton,
        List.append_assoc]
    nreqs := by simp [Transfer.mark, B.nreqs]
    req2entry := fun r hr => by
      simp only [Transfer.mark, hreq, htake, List.mem_append, List.mem_singleton]
      by_cases h : r = R[c]
      · rw [h, getD_mark_self hlt, if_pos (.inr rfl)]
      · rw [getD_mark h, B.req2entry r hr]
        simp [h]
    requests := B.requests }

/-- The request the filter loop comes to has kept its entry. -/
theorem entry (B : x.Batch op rs R (R.take c)) (hc : c < R.length) :
    x.req2entry.getD R[c] none = some ((activeEntries rs).getD R[c] 0) := by
  rw [B.req2entry _ (B.lt _ (List.getElem_mem hc)), if_neg]
  intro hmem
  obtain ⟨j, hj, heq⟩ := List.getElem_of_mem hmem
  rw [List.length_take] at hj
  rw [List.getElem_take] at heq
  have := (List.Nodup.getElem_inj_iff B.nodup).mp heq
  omega

/-- The entries left when all reported requests are filtered out. -/
theorem kept (B : x.Batch op rs R R) : x.req2entry.filterMap id =
    ((List.range (activeEntries rs).length).filter (· ∉ R)).map ((activeEntries rs).getD · 0) := by
  have hlist : x.req2entry = (List.range (activeEntries rs).length).map fun r =>
      if r ∈ R then none else some ((activeEntries rs).getD r 0) := by
    refine List.ext_getElem (by simp [B.nreqs]) fun r h₁ h₂ => ?_
    have := B.req2entry r (B.nreqs ▸ h₁)
    rw [List.getD_eq_getElem?_getD, List.getElem?_eq_getElem h₁, Option.getD_some] at this
    simpa using this
  rw [hlist, List.filterMap_map]
  generalize List.range (activeEntries rs).length = l
  induction l with
  | nil => rfl
  | cons r l ih =>
    by_cases h : r ∈ R
    · simpa [h] using ih
    · simpa [h] using ih

/-- Each entry is completed or left. -/
theorem perm (B : x.Batch op rs R R) :
    (x.complentries ++ x.req2entry.filterMap id).Perm (List.range rs.length) := by
  have hR : (R ++ (List.range (activeEntries rs).length).filter (· ∉ R)).Perm
      (List.range (activeEntries rs).length) := by
    refine (List.perm_ext_iff_of_nodup ?_ List.nodup_range).mpr fun r => ?_
    · refine List.nodup_append.mpr ⟨B.nodup, List.nodup_range.filter _, ?_⟩
      rintro r hr _ h rfl
      simp [hr] at h
    · simp only [List.mem_append, List.mem_filter, List.mem_range, decide_eq_true_eq]
      by_cases h : r ∈ R
      · simp [h, B.lt r h]
      · simp [h]
  rw [B.complentries, B.kept, List.append_assoc, ← List.map_append]
  refine (List.Perm.append_left _ ((hR.map _).trans ?_)).trans (nullEntries_append_perm rs)
  rw [map_getD_range]

theorem kept_sublist (B : x.Batch op rs R R) :
    (x.req2entry.filterMap id).Sublist (activeEntries rs) := by
  rw [B.kept]
  refine (List.filter_sublist.map _).trans ?_
  rw [map_getD_range]

theorem complentries_lt (B : x.Batch op rs R F) (hF : ∀ r ∈ F, r < (activeEntries rs).length) :
    ∀ e ∈ x.complentries, e < rs.length := by
  intro e he
  rw [B.complentries] at he
  rcases List.mem_append.mp he with he | he
  · exact List.mem_range.mp (List.mem_filter.mp he).1
  · obtain ⟨r, hr, rfl⟩ := List.mem_map.mp he
    exact activeEntries_lt (getD_mem (hF r hr))

end Batch

/-- The reported requests the filter loop has come to. -/
def filtered (x : Transfer) (R : List Nat) : List Nat :=
  match x.phase with
  | .issue | .test _ => []
  | .filter c _ => R.take c
  | .process _ | .handoff | .append _ | .free => R

/-- The entries whose contexts are in the local array. -/
def collected (enabled : Bool) (x : Transfer) : List Nat :=
  match x.phase with
  | .issue | .test _ | .filter .. => []
  | .process c => if enabled then x.complentries.take c else []
  | .handoff | .append _ | .free => if enabled then x.complentries else []

/-- The entries that have been delivered. -/
def handed (enabled : Bool) (x : Transfer) : List Nat :=
  match x.phase with
  | .issue | .test _ | .filter .. => []
  | .process c => if enabled then [] else x.complentries.take c
  | .handoff => if enabled then [] else x.complentries
  | .append _ | .free => x.complentries

/-- The entries that have been moved to the in-flight arrays. -/
def moved (x : Transfer) : List Nat :=
  match x.phase with
  | .append r => (x.req2entry.take r).filterMap id
  | .free => x.req2entry.filterMap id
  | _ => []

/-- The entries are the last positions of the in-flight arrays, which began as `m₀`. -/
structure Placed (op : Nat → Op) (rs : List Request) (m₀ m : TicketManager) (entries : List Nat) :
    Prop where
  pending : m.pending = m₀.pending + entries.length
  slot : ∀ i (h : i < entries.length),
    m.arrays.requests (m₀.pending + i) = rs.getD entries[i] none ∧
    m.arrays.mappings (m₀.pending + i) = ⟨m₀.pending + i, 0⟩ ∧
    m.arrays.tickets (m₀.pending + i) = .ofOp (op entries[i])
  below : ∀ p < m₀.pending, m.arrays.requests p = m₀.arrays.requests p ∧
    m.arrays.mappings p = m₀.arrays.mappings p ∧ m.arrays.tickets p = m₀.arrays.tickets p

/-- What the loop at the current point has come to. -/
def Reached (cfg : Config) (rs : List Request) (R : List Nat) (x : Transfer) : Prop :=
  match x.phase with
  | .issue => rs.length ≤ x.operations.length ∧ R = []
  | .test t => rs.length = x.operations.length ∧ t.roff = 0 ∧ t.ioff = 0 ∧
    t.count = (activeEntries rs).length ∧ t.Fresh cfg.immediateTesting x.requests ∧
    t.reported x.testcompl2req = R ∧ (cfg.immediateTesting = .testSome → t.next < t.count)
  | .filter c n => rs.length = x.operations.length ∧ c ≤ n ∧ (List.range n).map x.testcompl2req = R
  | .process c => rs.length = x.operations.length ∧ c ≤ x.complentries.length
  | .append r => rs.length = x.operations.length ∧ r ≤ x.req2entry.length
  | .handoff | .free => rs.length = x.operations.length

/-- Where a transfer is that has delivered `ds` and issued `is`. -/
structure Progress (cfg : Config) (op : Nat → Op) (m₀ m : TicketManager) (ds : List TaskContext)
    (is : List (OpId × MpiCall × Request)) (R : List Nat) (x : Transfer) : Prop where
  issued : ∀ e (h : e < is.length), is[e].1 = (op e).id ∧ (op e).issue = some is[e].2.1
  batch : x.Batch op (requestsOf is) R (x.filtered R)
  contexts : x.contexts = (x.collected cfg.completionEnabled).map fun e => (op e).context
  delivered : ds = (x.handed cfg.completionEnabled).map fun e => (op e).context
  placed : Placed op (requestsOf is) m₀ m x.moved
  reached : x.Reached cfg (requestsOf is) R

namespace Progress
variable {cfg : Config} {op : Nat → Op} {m₀ : TicketManager} {ds : List TaskContext}
  {is : List (OpId × MpiCall × Request)} {R : List Nat} {s s₁ : Sys} {x x' : Transfer}

/-- The entry of one more issue. -/
theorem issued_concat (hi : ∀ e (h : e < is.length), is[e].1 = (op e).id ∧
    (op e).issue = some is[e].2.1) (hcall : (op is.length).issue = some call) (r : Request) (e : Nat)
    (h : e < (is ++ [((op is.length).id, call, r)]).length) :
    (is ++ [((op is.length).id, call, r)])[e].1 = (op e).id ∧
      (op e).issue = some (is ++ [((op is.length).id, call, r)])[e].2.1 := by
  rw [List.length_append, List.length_singleton] at h
  rcases Nat.lt_or_eq_of_le (Nat.lt_succ_iff.mp h) with h | rfl
  · simpa [List.getElem_append_left h] using hi e h
  · simpa using hcall

/-- One more operation is issued, with the request `r`. -/
theorem issue (G : x.Progress cfg op m₀ m ds is R) (hp : x.phase = .issue)
    (hlt : x.tickets.length < x.operations.length) (hcall : (op is.length).issue = some call)
    (hB : x.Batch op (requestsOf is) [] [] → x'.Batch op (requestsOf is ++ [r]) [] [])
    (hp' : x'.phase = .issue) (ho : x'.operations = x.operations)
    (hctx : x'.contexts = x.contexts) :
    x'.Progress cfg op m₀ m ds (is ++ [((op is.length).id, call, r)]) R := by
  have hrs : requestsOf (is ++ [((op is.length).id, call, r)]) = requestsOf is ++ [r] := by
    simp [requestsOf]
  have hreached := G.reached
  have B := G.batch
  simp only [Reached, hp] at hreached
  obtain ⟨hle, rfl⟩ := hreached
  simp only [filtered, hp] at B
  refine ⟨issued_concat G.issued hcall r, ?_, ?_, ?_, ?_, ?_⟩
  · simpa only [filtered, hp', hrs] using hB B
  · simpa only [collected, hp, hp', hctx] using G.contexts
  · simpa only [handed, hp, hp'] using G.delivered
  · have hplaced := G.placed
    simp only [Transfer.moved, hp, hp'] at hplaced ⊢
    exact ⟨hplaced.pending, fun i h => absurd h (Nat.not_lt_zero i), hplaced.below⟩
  · have := B.length_tickets
    simp only [Reached, hp', hrs, List.length_append, List.length_singleton, ho]
    exact ⟨by omega, trivial⟩

/-- A step that delivers, collects and moves nothing. -/
theorem keep (G : x.Progress cfg op m₀ m ds is R)
    (hB : x'.Batch op (requestsOf is) R' (x'.filtered R'))
    (hctx : x'.contexts = x.contexts)
    (hc : x'.collected cfg.completionEnabled = x.collected cfg.completionEnabled)
    (hh : x'.handed cfg.completionEnabled = x.handed cfg.completionEnabled)
    (hm : x'.moved = x.moved) (hr : x'.Reached cfg (requestsOf is) R') :
    x'.Progress cfg op m₀ m ds is R' where
  issued := G.issued
  batch := hB
  contexts := by rw [hctx, hc, G.contexts]
  delivered := by rw [hh, G.delivered]
  placed := hm ▸ G.placed
  reached := hr

theorem issued_phase (G : x.Progress cfg op m₀ m ds is R) (hp : x.phase = .issue)
    (hlen : x.operations.length ≤ x.tickets.length) :
    ({ x with
      phase := if 0 < x.req2entry.length then .test (.start 0 0 x.req2entry.length)
        else .filter 0 0 } : Transfer).Progress cfg op m₀ m ds is [] := by
  have hreached := G.reached
  have B := G.batch
  simp only [Reached, hp] at hreached
  obtain ⟨hle, rfl⟩ := hreached
  simp only [filtered, hp] at B
  have hcount := B.length_tickets
  have hall : (requestsOf is).length = x.operations.length := by omega
  by_cases hpos : 0 < x.req2entry.length
  · simp only [if_pos hpos]
    refine G.keep (B.congr rfl rfl rfl rfl) rfl ?_ ?_ ?_ ?_
    · simp only [collected, hp]
    · simp only [handed, hp]
    · simp only [Transfer.moved, hp]
    · refine ⟨hall, rfl, rfl, B.nreqs, ⟨fun i _ hi => ?_, fun _ => rfl⟩, rfl, fun _ => hpos⟩
      have hi : i < (activeEntries (requestsOf is)).length := B.nreqs ▸ hi
      simp only [Test.start, Nat.zero_add]
      rw [B.requests i hi, if_neg (by simp)]
      exact request_ne_none (getD_mem hi)
  · simp only [if_neg hpos]
    refine G.keep (B.congr rfl rfl rfl rfl) rfl ?_ ?_ ?_ ?_
    · simp only [collected, hp]
    · simp only [handed, hp]
    · simp only [Transfer.moved, hp]
    · exact ⟨hall, Nat.le_refl 0, rfl⟩

theorem reported_append {t t' : Test} {b b' : Buffers} (hR : t.Reported b ps t' b')
    (hioff : t.ioff = 0) :
    (List.range t'.completed).map b'.indices = t.reported b.indices ++ ps := by
  rw [hR.completed, List.range_add, List.map_append, List.map_map]
  congr 1
  · refine List.map_congr_left fun j hj => ?_
    rw [hioff, Nat.zero_add]
    exact hR.below j (by have := List.mem_range.mp hj; omega)
  · refine List.ext_getElem (by simp) fun j h₁ h₂ => ?_
    have := hR.indices j ps[j] (List.getElem?_eq_getElem h₂)
    rw [hioff, Nat.zero_add] at this
    simpa using this

theorem test {t t' : Test} {b' : Buffers} (G : x.Progress cfg op m₀ m ds is R)
    (hp : x.phase = .test t) (hR : t.Reported (s.transferBuffers x) ps t' b')
    (hps : ∀ i ∈ ps, i < t.count)
    (hphase : x'.phase = .test t' ∧ t' = { t with completed := t.completed + ps.length, next := n } ∧
      t.next < n ∧ (∀ i ∈ ps, t.next ≤ i ∧ i < n) ∧ cfg.immediateTesting ≠ .none ∧
      cfg.immediateTesting ≠ .testSome ∨
      x'.phase = .filter 0 t'.completed)
    (hx : x' = { x with
      requests := b'.requests, testcompl2req := b'.indices, statuses := b'.statuses
      phase := x'.phase }) :
    x'.Progress cfg op m₀ m ds is (R ++ ps) := by
  have hreached := G.reached
  have B := G.batch
  simp only [Reached, hp] at hreached
  obtain ⟨hall, hroff, hioff, hcount, hfresh, hrep, -⟩ := hreached
  simp only [filtered, hp] at B
  have happend := reported_append hR hioff
  have hB : x'.Batch op (requestsOf is) (R ++ ps) [] :=
    B.report hR rfl hroff (hcount ▸ hps) (by rw [hx]) (by rw [hx]) (by rw [hx]) (by rw [hx])
  have happend : (List.range t'.completed).map b'.indices = R ++ ps := hrep ▸ happend
  rcases hphase with ⟨hp', ht', hlt, hbounds, hne, hsome⟩ | hp'
  · refine G.keep ?_ (by rw [hx]) ?_ ?_ ?_ ?_
    · simpa only [filtered, hp'] using hB
    · simp only [collected, hp, hp']
    · simp only [handed, hp, hp']
    · simp only [Transfer.moved, hp, hp']
    · simp only [Reached, hp']
      rw [hx]
      refine ⟨hall, by rw [ht', hroff], by rw [ht', hioff], by rw [ht', hcount], ⟨?_, ?_⟩, ?_,
        fun h => absurd h hsome⟩
      · intro i hi hic
        rw [ht'] at hi hic ⊢
        dsimp only at hi hic ⊢
        rw [hR.requests, if_neg, Sys.transferBuffers]
        · exact hfresh.active i (by omega) hic
        · rintro ⟨-, hmem⟩
          rw [Nat.add_sub_cancel_left] at hmem
          have := (hbounds i hmem).2
          omega
      · exact fun h => absurd h hne
      · simpa [Test.reported, ht', hioff] using happend
  · refine G.keep ?_ (by rw [hx]) ?_ ?_ ?_ ?_
    · simpa only [filtered, hp', List.take_zero] using hB
    · simp only [collected, hp, hp']
    · simp only [handed, hp, hp']
    · simp only [Transfer.moved, hp, hp']
    · simp only [Reached, hp']
      rw [hx]
      exact ⟨hall, Nat.zero_le _, happend⟩

theorem filter (G : x.Progress cfg op m₀ m ds is R) (hp : x.phase = .filter c n) (hlt : c < n)
    (hentry : x.req2entry.getD (x.testcompl2req c) none = some entry) :
    (x.mark c n entry).Progress cfg op m₀ m ds is R := by
  have hreached := G.reached
  have B := G.batch
  simp only [Reached, hp] at hreached
  obtain ⟨hall, hle, hR⟩ := hreached
  simp only [filtered, hp] at B
  have hc : c < R.length := by rw [← hR]; simpa using hlt
  have hreq : x.testcompl2req c = R[c] := by simp [← hR]
  have hent := B.entry hc
  rw [hreq, hent] at hentry
  cases hentry
  refine G.keep (B.mark hc hreq n) rfl ?_ ?_ ?_ ⟨hall, hlt, hR⟩
  · simp only [collected, hp, Transfer.mark]
  · simp only [handed, hp, Transfer.mark]
  · simp only [Transfer.moved, hp, Transfer.mark]

theorem filtered_phase (G : x.Progress cfg op m₀ m ds is R) (hp : x.phase = .filter c n)
    (hge : ¬ c < n) :
    ({ x with phase := .process 0 } : Transfer).Progress cfg op m₀ m ds is R := by
  have hreached := G.reached
  have B := G.batch
  simp only [Reached, hp] at hreached
  obtain ⟨hall, hle, hR⟩ := hreached
  have hlen : R.length ≤ c := by rw [← hR]; simpa using hge
  simp only [filtered, hp, List.take_of_length_le hlen] at B
  refine G.keep (B.congr rfl rfl rfl rfl) rfl ?_ ?_ ?_ ⟨hall, Nat.zero_le _⟩
  · simp only [collected, hp, List.take_zero, ite_self]
  · simp only [handed, hp, List.take_zero, ite_self]
  · simp only [Transfer.moved, hp]

/-- The ticket the process loop comes to is that of its entry. -/
theorem process_ticket (G : x.Progress cfg op m₀ m ds is R) (hp : x.phase = .process c)
    (hlt : c < x.complentries.length) :
    (x.ticketAt (x.complentries.getD c 0)).context = (op x.complentries[c]).context := by
  have B := G.batch
  simp only [filtered, hp] at B
  have hmem := B.complentries_lt B.lt x.complentries[c] (List.getElem_mem hlt)
  have hget : x.complentries.getD c 0 = x.complentries[c] := by
    simp [List.getElem?_eq_getElem hlt]
  rw [hget, B.ticketAt hmem]
  rfl

theorem take_succ_map {α β : Type} {l : List α} (f : α → β) (h : c < l.length) :
    (l.take (c + 1)).map f = (l.take c).map f ++ [f l[c]] := by
  rw [List.take_add_one, List.getElem?_eq_getElem h, Option.toList_some, List.map_append,
    List.map_singleton]

theorem collect (G : x.Progress cfg op m₀ m ds is R) (hp : x.phase = .process c)
    (hlt : c < x.complentries.length) (he : cfg.completionEnabled) :
    ({ x with
      contexts := x.contexts ++ [(x.ticketAt (x.complentries.getD c 0)).context]
      phase := .process (c + 1) } : Transfer).Progress cfg op m₀ m ds is R := by
  have hticket := G.process_ticket hp hlt
  obtain ⟨hissued, B, hctx, hds, hplaced, hreached⟩ := G
  simp only [Reached, filtered, collected, handed, Transfer.moved, hp, he, if_true]
    at B hctx hds hplaced hreached
  refine ⟨hissued, B.congr rfl rfl rfl rfl, ?_, ?_, hplaced, hreached.1, hlt⟩
  · simp only [collected, he, if_true, hticket, take_succ_map _ hlt, hctx]
  · simpa only [handed, he, if_true] using hds

theorem complete (G : x.Progress cfg op m₀ m ds is R) (hp : x.phase = .process c)
    (hlt : c < x.complentries.length) (he : cfg.completionEnabled = false) :
    ({ x with phase := .process (c + 1) } : Transfer).Progress cfg op m₀ m
      (ds ++ [(x.ticketAt (x.complentries.getD c 0)).context]) is R := by
  have hticket := G.process_ticket hp hlt
  obtain ⟨hissued, B, hctx, hds, hplaced, hreached⟩ := G
  simp only [Reached, filtered, collected, handed, Transfer.moved, hp, he]
    at B hctx hds hplaced hreached
  refine ⟨hissued, B.congr rfl rfl rfl rfl, ?_, ?_, hplaced, hreached.1, hlt⟩
  · simpa [collected, he] using hctx
  · rw [hds, hticket]
    simp [handed, he, take_succ_map _ hlt]

theorem processed (G : x.Progress cfg op m₀ m ds is R) (hp : x.phase = .process c)
    (hge : ¬ c < x.complentries.length) :
    ({ x with phase := .handoff } : Transfer).Progress cfg op m₀ m ds is R := by
  have hreached := G.reached
  have B := G.batch
  simp only [Reached, hp] at hreached
  simp only [filtered, hp] at B
  have hall : x.complentries.take c = x.complentries := List.take_of_length_le (by omega)
  refine G.keep (B.congr rfl rfl rfl rfl) rfl ?_ ?_ ?_ hreached.1
  · simp only [collected, hp, hall]
  · simp only [handed, hp, hall]
  · simp only [Transfer.moved, hp]

theorem handoff (G : x.Progress cfg op m₀ m ds is R) (hp : x.phase = .handoff)
    (he : cfg.completionEnabled) :
    ({ x with phase := .append 0 } : Transfer).Progress cfg op m₀ m (ds ++ x.contexts) is R := by
  obtain ⟨hissued, B, hctx, hds, hplaced, hreached⟩ := G
  simp only [Reached, filtered, collected, handed, Transfer.moved, hp, he, if_true]
    at B hctx hds hplaced hreached
  refine ⟨hissued, B.congr rfl rfl rfl rfl, ?_, ?_, ?_, hreached, Nat.zero_le _⟩
  · simpa only [collected, he, if_true] using hctx
  · simp [handed, hds, hctx]
  · simpa [Transfer.moved] using hplaced

theorem noHandoff (G : x.Progress cfg op m₀ m ds is R) (hp : x.phase = .handoff)
    (hno : ¬ (cfg.completionEnabled ∧ 0 < x.complentries.length)) :
    ({ x with phase := .append 0 } : Transfer).Progress cfg op m₀ m ds is R := by
  obtain ⟨hissued, B, hctx, hds, hplaced, hreached⟩ := G
  simp only [Reached, filtered, collected, handed, Transfer.moved, hp]
    at B hctx hds hplaced hreached
  refine ⟨hissued, B.congr rfl rfl rfl rfl, hctx, ?_, ?_, hreached, Nat.zero_le _⟩
  · cases he : cfg.completionEnabled with
    | false => simpa [handed, he] using hds
    | true =>
      have hnil : x.complentries = [] := by
        refine List.eq_nil_of_length_eq_zero (Nat.eq_zero_of_not_pos fun h => hno ⟨he, h⟩)
      simpa [handed, he, hnil] using hds
  · simpa [Transfer.moved] using hplaced

theorem moved_succ {l : List (Option Nat)} (h : r < l.length) :
    (l.take (r + 1)).filterMap id = (l.take r).filterMap id ++ (l.getD r none).toList := by
  rw [List.take_add_one, List.filterMap_append, List.getElem?_eq_getElem h, Option.toList_some]
  congr 1
  have : l.getD r none = l[r] := by simp [List.getElem?_eq_getElem h]
  rw [this]
  cases l[r] <;> rfl

theorem skip (G : x.Progress cfg op m₀ m ds is R) (hp : x.phase = .append r)
    (hlt : r < x.req2entry.length) (hnone : x.req2entry.getD r none = none) :
    ({ x with phase := .append (r + 1) } : Transfer).Progress cfg op m₀ m ds is R := by
  have hreached := G.reached
  have B := G.batch
  simp only [Reached, hp] at hreached
  simp only [filtered, hp] at B
  refine G.keep (B.congr rfl rfl rfl rfl) rfl ?_ ?_ ?_ ⟨hreached.1, hlt⟩
  · simp only [collected, hp]
  · simp only [handed, hp]
  · simp only [Transfer.moved, hp, moved_succ hlt, hnone, Option.toList_none, List.append_nil]

/-- One more entry is appended to the in-flight arrays. -/
theorem placed_append {rs : List Request} {entries : List Nat} {ticket : Ticket}
    (H : Placed op rs m₀ m entries) (hticket : ticket = .ofOp (op entry))
    (hreq : req = rs.getD entry none) :
    Placed op rs m₀ { m with
      arrays := (m.arrays.allocateTicket m.pending ticket).associateRequest m.pending req m.pending 0
      pending := m.pending + 1 } (entries ++ [entry]) where
  pending := by
    simp only [H.pending, List.length_append, List.length_singleton]
    omega
  slot i hi := by
    rw [List.length_append, List.length_singleton] at hi
    simp only [Arrays.associateRequest, Arrays.allocateTicket, H.pending]
    rcases Nat.lt_or_eq_of_le (Nat.lt_succ_iff.mp hi) with hi | rfl
    · have hne : m₀.pending + i ≠ m₀.pending + entries.length := by omega
      simp only [Function.update_of_ne hne, List.getElem_append_left hi]
      exact H.slot i hi
    · simp [hreq, hticket]
  below p hp := by
    have hne : p ≠ m.pending := by
      have := H.pending
      omega
    simp only [Arrays.associateRequest, Arrays.allocateTicket, Function.update_of_ne hne]
    exact H.below p hp

theorem append (G : x.Progress cfg op m₀ m ds is R) (hp : x.phase = .append r)
    (hlt : r < x.req2entry.length) (hentry : x.req2entry.getD r none = some entry) :
    ({ x with phase := .append (r + 1) } : Transfer).Progress cfg op m₀ { m with
      arrays := (m.arrays.allocateTicket m.pending (x.ticketAt entry)).associateRequest m.pending
        (x.requests r) m.pending 0
      pending := m.pending + 1 } ds is R := by
  obtain ⟨hissued, B, hctx, hds, hplaced, hreached⟩ := G
  simp only [Reached, filtered, collected, handed, Transfer.moved, hp]
    at B hctx hds hplaced hreached
  have hr : r < (activeEntries (requestsOf is)).length := B.nreqs ▸ hlt
  have hkept := hentry
  rw [B.req2entry r hr] at hkept
  split at hkept
  · cases hkept
  rename_i hnot
  cases hkept
  refine ⟨hissued, B.congr rfl rfl rfl rfl, hctx, hds, ?_, hreached.1, hlt⟩
  simp only [Transfer.moved, moved_succ hlt, hentry, Option.toList_some]
  refine placed_append hplaced ?_ ?_
  · exact B.ticketAt (activeEntries_lt (getD_mem hr))
  · rw [B.requests r hr, if_neg hnot]

theorem appended (G : x.Progress cfg op m₀ m ds is R) (hp : x.phase = .append r)
    (hge : ¬ r < x.req2entry.length) :
    ({ x with phase := .free } : Transfer).Progress cfg op m₀ m ds is R := by
  have hreached := G.reached
  have B := G.batch
  simp only [Reached, hp] at hreached
  simp only [filtered, hp] at B
  refine G.keep (B.congr rfl rfl rfl rfl) rfl ?_ ?_ ?_ hreached.1
  · simp only [collected, hp]
  · simp only [handed, hp]
  · simp only [Transfer.moved, hp, List.take_of_length_le (Nat.le_of_not_lt hge)]

theorem start (cfg : Config) (op : Nat → Op) (m : TicketManager) (kind : OpKind) (os : List Nat) :
    (Transfer.start kind os).Progress cfg op m m [] [] [] where
  issued e h := absurd h (Nat.not_lt_zero e)
  batch := ⟨rfl, List.nodup_nil, by simp, rfl, rfl, fun r hr => absurd hr (Nat.not_lt_zero r),
    fun r hr => absurd hr (Nat.not_lt_zero r)⟩
  contexts := rfl
  delivered := rfl
  placed := ⟨rfl, fun i h => absurd h (Nat.not_lt_zero i), fun _ _ => ⟨rfl, rfl, rfl⟩⟩
  reached := ⟨Nat.zero_le _, rfl⟩

/-- One step of `transferOperations`. -/
theorem move (G : x.Progress cfg op m₀ s.manager ds is R) (M : s.TransferMove cfg x a s₁ x')
    (hop : ∀ e < x.operations.length, s.objects x.kind (x.operations.getD e 0) = op e) :
    ∃ es R', s₁.log = s.log ++ es ∧ x'.Progress cfg op m₀ s₁.manager
      (ds ++ es.filterMap Event.delivered) (is ++ es.filterMap Event.issuance) R' := by
  have hsilent {R' : List Nat} {es : List Event} {m : TicketManager}
      (hd : es.filterMap Event.delivered = []) (hi : es.filterMap Event.issuance = [])
      (G' : x'.Progress cfg op m₀ m ds is R') : x'.Progress cfg op m₀ m
        (ds ++ es.filterMap Event.delivered) (is ++ es.filterMap Event.issuance) R' := by
    rwa [hd, hi, List.append_nil, List.append_nil]
  have hnil : s.log = s.log ++ [] := by simp
  have hlen : x.tickets.length = is.length := by
    rw [G.batch.length_tickets, requestsOf, List.length_map]
  have hobject {object : Nat} (hobj : x.operations[x.tickets.length]? = some object) :
      x.tickets.length < x.operations.length ∧ s.objects x.kind object = op is.length := by
    obtain ⟨hlt, hget⟩ := List.getElem?_eq_some_iff.mp hobj
    refine ⟨hlt, ?_⟩
    rw [← hop is.length (hlen ▸ hlt), ← hlen, List.getD_eq_getElem?_getD, hobj, Option.getD_some]
  cases M with
  | issueNull hp hobj hcall =>
    obtain ⟨hlt, hop⟩ := hobject hobj
    rw [hop] at hcall ⊢
    refine ⟨_, R, rfl, ?_⟩
    simp only [List.filterMap_cons, List.filterMap_nil, Event.delivered, Event.issuance,
      List.append_nil]
    refine G.issue hp hlt hcall (fun B => ?_) hp rfl rfl
    have := B.issueNull
    rwa [requestsOf, List.length_map] at this
  | @issue object call h hp hobj hcall hfree =>
    obtain ⟨hlt, hop⟩ := hobject hobj
    rw [hop] at hcall ⊢
    refine ⟨_, R, rfl, ?_⟩
    simp only [List.filterMap_cons, List.filterMap_nil, Event.delivered, Event.issuance,
      List.append_nil]
    refine G.issue hp hlt hcall (fun B => ?_) hp rfl rfl
    have := B.issue h
    rwa [requestsOf, List.length_map] at this
  | issued hp hlen => exact ⟨[], [], hnil, hsilent rfl rfl (G.issued_phase hp hlen)⟩
  | @test t a t' b hp T =>
    have hreached := G.reached
    simp only [Reached, hp] at hreached
    obtain ⟨ps, t₁, b₁, es, hR, hps, hres, hlog, hes⟩ := T.reported hreached.2.2.2.2.1
    cases hres with
    | running heq hlt hle hbounds =>
      refine ⟨es, R ++ ps, hlog, hsilent hes.delivered hes.issuance ?_⟩
      have hne : cfg.immediateTesting ≠ .none ∧ cfg.immediateTesting ≠ .testSome := by
        constructor <;>
        · intro h
          rw [h] at T
          cases T
      exact G.test hp hR hps (.inl ⟨rfl, heq, hlt, hbounds, hne⟩) rfl
  | tested hp T =>
    have hreached := G.reached
    simp only [Reached, hp] at hreached
    obtain ⟨ps, t₁, b₁, es, hR, hps, hres, hlog, hes⟩ := T.reported hreached.2.2.2.2.1
    cases hres with
    | returned =>
      exact ⟨es, R ++ ps, hlog, hsilent hes.delivered hes.issuance
        (G.test (n := 0) hp hR hps (.inr rfl) rfl)⟩
  | @filter c n entry a hp hlt hentry =>
    obtain ⟨es, hlog, hes⟩ := stored_log s (x.ticketAt entry) (x.statuses c)
    obtain ⟨-, hm, -⟩ := Sys.stored_frame s (x.ticketAt entry) (x.statuses c)
    rw [hm]
    exact ⟨es, R, hlog, hsilent hes.delivered hes.issuance (G.filter hp hlt hentry)⟩
  | filtered hp hge => exact ⟨[], R, hnil, hsilent rfl rfl (G.filtered_phase hp hge)⟩
  | collect hp hlt he => exact ⟨[], R, hnil, hsilent rfl rfl (G.collect hp hlt he)⟩
  | complete hp hlt he =>
    refine ⟨_, R, rfl, ?_⟩
    simp only [List.filterMap_cons, List.filterMap_nil, Event.delivered, Event.issuance,
      List.append_nil]
    exact G.complete hp hlt he
  | processed hp hge => exact ⟨[], R, hnil, hsilent rfl rfl (G.processed hp hge)⟩
  | handoff hp he =>
    refine ⟨_, R, rfl, ?_⟩
    simpa [Event.delivered, Event.issuance, List.filterMap_map, Function.comp_def] using
      G.handoff hp he
  | keep hp hno => exact ⟨[], R, hnil, hsilent rfl rfl (G.noHandoff hp hno)⟩
  | skip hp hlt hnone => exact ⟨[], R, hnil, hsilent rfl rfl (G.skip hp hlt hnone)⟩
  | append hp hlt hentry => exact ⟨[], R, hnil, hsilent rfl rfl (G.append hp hlt hentry)⟩
  | appended hp hge => exact ⟨[], R, hnil, hsilent rfl rfl (G.appended hp hge)⟩

theorem length_le (G : x.Progress cfg op m₀ m ds is R) :
    (requestsOf is).length ≤ x.operations.length := by
  have hreached := G.reached
  unfold Reached at hreached
  cases hp : x.phase <;> rw [hp] at hreached
  · exact hreached.1
  · exact Nat.le_of_eq hreached.1
  · exact Nat.le_of_eq hreached.1
  · exact Nat.le_of_eq hreached.1
  · exact Nat.le_of_eq hreached
  · exact Nat.le_of_eq hreached.1
  · exact Nat.le_of_eq hreached

theorem nodup_length_le {l : List Nat} {n : Nat} (hn : l.Nodup) (h : ∀ i ∈ l, i < n) :
    l.length ≤ n := by
  have hsub : l ⊆ List.range n := fun i hi => List.mem_range.mpr (h i hi)
  have := (hn.subperm hsub).length_le
  rwa [List.length_range] at this

/-- No loop of the batch takes more iterations than it has operations. -/
theorem rest_le (G : x.Progress cfg op m₀ m ds is R) : x.rest ≤ x.operations.length := by
  have hle := G.length_le
  have hreached := G.reached
  have B := G.batch
  have hactive := length_activeEntries_le (requestsOf is)
  have hR : R.length ≤ (activeEntries (requestsOf is)).length := nodup_length_le B.nodup B.lt
  unfold Reached at hreached
  unfold rest
  cases hp : x.phase <;> simp only [hp] at hreached ⊢
  · omega
  · have := hreached.2.2.2.1
    omega
  · rename_i c n
    have : n = R.length := by rw [← hreached.2.2, List.length_map, List.length_range]
    omega
  · have hc := congrArg List.length B.complentries
    have hperm := (nullEntries_append_perm (requestsOf is)).length_eq
    simp only [filtered, hp, List.length_append, List.length_map, List.length_range] at hc hperm
    omega
  · omega
  · have := B.nreqs
    omega
  · omega

end Progress

/-- A bound for the steps left of the batch. -/
def left (x : Transfer) : Nat := x.phase.rank * (x.operations.length + 1) + x.rest

theorem left_start {k : OpKind} : (Transfer.start k os).left = 7 * os.length + 6 := by
  simp only [left, Transfer.start, rest, TransferPhase.rank, List.length_nil]
  omega

theorem left_lt {cfg : Config} {s s₁ : Sys} {x x' : Transfer} (M : s.TransferMove cfg x a s₁ x')
    (hle : x'.rest ≤ x.operations.length) : x'.left < x.left := by
  have ho := M.frame.2.2
  unfold left
  rw [ho]
  rcases M.rank_rest with hlt | ⟨heq, hlt⟩
  · have := Nat.mul_le_mul_right (x.operations.length + 1) (Nat.succ_le_of_lt hlt)
    rw [Nat.succ_mul] at this
    omega
  · rw [heq]
    omega

end Transfer

end Tampi
