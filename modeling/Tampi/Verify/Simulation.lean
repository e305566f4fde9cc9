import Tampi.Verify.Agents
import Tampi.Verify.Poll
import Tampi.Verify.Submission

/-! # The code follows the life of the operations

Every step of the code, by any of its agents, is a run of `Life`; so what holds of every life holds
of every run of the code, failed or not. -/

namespace Tampi
open Function (update)

def Label.submits : Label → Bool
  | .process .. => true
  | _ => false

/-- The life the state stands for; once the code has failed only its history counts. -/
structure Represents (cfg : Config) (s : Sys) (L : Life) : Prop where
  log : L.log = s.log
  memory : L.memory = s.memory
  running : s.failure = none → s.Inv cfg ∧ L = s.life cfg
  failed : ∀ f, s.failure = some f → f.Allowed

namespace Sys
variable {cfg : Config} {s s' : Sys} {l : Label}

theorem contents_init (data : Nat → Nat → Nat) (c : Nat) :
    (MultiLockFreeQueue.init data).contents cfg.queue c = [] := by
  simp [MultiLockFreeQueue.contents, MultiLockFreeQueue.length, MultiLockFreeQueue.init, Ring.dist,
    Ring.window]

theorem Inv.initial {data : Nat → Nat → Nat} {objects : OpKind → Nat → Op} {arrays : Arrays}
    {memory : Nat → Status} : (initial cfg data objects arrays memory).Inv cfg where
  queue := .init data
  cpus _ := rfl
  tasks _ := trivial
  outside c _ := ⟨rfl, contents_init data c⟩
  objects kind := by
    have hlive : (Sys.initial cfg data objects arrays memory).live cfg kind = 0 := by
      cases kind with
      | p2p =>
        simp only [live, queued, Sys.initial, contents_init, Cpu.held, Multiset.coe_nil,
          Finset.sum_const_zero]
        rfl
      | coll =>
        simp only [live, queued, Sys.initial, Cpu.held, Multiset.coe_nil, Finset.sum_const_zero]
        rfl
    rw [hlive, add_zero]
    simp only [ObjAllocator.unused, Sys.initial, ObjAllocator.init, ← List.range_eq_range',
      Multiset.coe_nil, Finset.sum_const_zero, add_zero]
    rfl
  self p h := absurd h (Nat.not_lt_zero p)
  pending_le := Nat.zero_le _
  consuming left h := by simp [Sys.initial] at h
  poll := ⟨rfl, fun p _ h => absurd h (Nat.not_lt_zero p)⟩

theorem life_initial {data : Nat → Nat → Nat} {objects : OpKind → Nat → Op} {arrays : Arrays}
    {memory : Nat → Status} :
    (initial cfg data objects arrays memory).life cfg = .initial memory := by
  ext1 <;> try rfl
  funext line
  cases line with
  | p2p c =>
    simp only [life, queue, waiting, Life.initial]
    exact congrArg _ (contents_init data c)
  | coll => rfl

/-! ## One step -/

/-- A step other than the entry of `process`. -/
theorem step_sim (I : s.Inv cfg) (HL : (s.life cfg).Inv) (hf : s.failure = none)
    (hasc : l.Ascending) (hl : l.submits = false) (h : s.step cfg l = some s') : Sim cfg s s' := by
  unfold step at h
  rw [if_neg (by simp [hf])] at h
  cases l with
  | process => simp [Label.submits] at hl
  | cpu cpu => exact cpuStep_sim I hf h
  | resume task => exact resume_sim I hf h
  | poll a => exact pollStep_sim I HL hf (fun is hi => by subst hi; exact hasc) h
  | completion => exact completionStep_sim I hf h
  | mpi request status =>
    dsimp only at h
    split at h
    · rename_i owner hm
      cases h
      exact mpi_sim I hf hm
    · cases h

/-- The entry of `process`. -/
theorem submit_sim (I : s.Inv cfg) (hf : s.failure = none) (hl : l.submits)
    (h : s.step cfg l = some s') :
    ∃ op, s'.failure = none ∧ s'.Inv cfg ∧ (s.life cfg).Move (.bind op) (s'.life cfg) := by
  unfold step at h
  rw [if_neg (by simp [hf])] at h
  cases l with
  | process cpu task nature args =>
    dsimp only at h
    split at h
    · rename_i hc ht
      split at h
      · rename_i hlt
        cases h
        obtain ⟨I', hm⟩ := process_sim nature args I hc ht hlt
        exact ⟨_, hf, I', hm⟩
      · cases h
    · cases h
  | cpu | resume | poll | completion | mpi => simp [Label.submits] at hl

end Sys

/-! ## All steps -/

theorem simulation (cfg : Config) : Transition.System.Simulation (system cfg) Life.system
    (Represents cfg) (fun l k => k.isBind → l.submits) where
  init := by
    rintro s ⟨data, objects, arrays, memory, rfl⟩
    refine ⟨.initial memory, ⟨memory, rfl⟩, rfl, rfl, fun _ => ⟨.initial, ?_⟩, ?_⟩
    · exact Sys.life_initial.symm
    · intro f hf
      simp [Sys.initial] at hf
  step := by
    rintro s L l s' hL hR ⟨hasc, hstep⟩
    have hf := Sys.failure_of_step hstep
    obtain ⟨I, rfl⟩ := hR.running hf
    have HL := Life.Inv.of_reachable hL
    by_cases hl : l.submits
    · obtain ⟨op, hf', I', hm⟩ := Sys.submit_sim I hf hl hstep
      refine ⟨[.bind op], s'.life cfg, .single hm, fun _ _ _ => hl, rfl, rfl, fun _ => ⟨I', rfl⟩, ?_⟩
      simp [hf']
    · rcases Sys.step_sim I HL hf hasc (by simpa using hl) hstep with
        ⟨hf', I', ks, hks, hb⟩ | ⟨hf', hal, -, hlog, hmem⟩
      · refine ⟨ks, s'.life cfg, hks, fun k hk hbind => ?_, rfl, rfl, fun _ => ⟨I', rfl⟩, ?_⟩
        · simp [hb k hk] at hbind
        · simp [hf']
      · refine ⟨[], s.life cfg, .refl, by simp, hlog.symm, hmem.symm, ?_, ?_⟩
        · simp [hf']
        · intro f h
          rw [hf'] at h
          cases h
          exact hal

section
variable {cfg : Config} {s : Sys}

/-- Every history of the code is the history of a life. -/
theorem exists_life (h : (system cfg).Reachable s) : ∃ L : Life, L.Inv ∧ Represents cfg s L := by
  obtain ⟨L, hL, hR⟩ := (simulation cfg).reachable h
  exact ⟨L, .of_reachable hL, hR⟩

/-- The state a run of the step function leads to. -/
theorem reachable_of_run {data : Nat → Nat → Nat} {objects : OpKind → Nat → Op} {arrays : Arrays}
    {memory : Nat → Status} {ls : List Label} (hasc : ∀ l ∈ ls, l.Ascending)
    (h : Transition.System.run (Sys.step cfg) (.initial cfg data objects arrays memory) ls = some s) :
    (system cfg).Reachable s :=
  ⟨_, ls, ⟨data, objects, arrays, memory, rfl⟩, .of_run (fun l hl _ _ hs => ⟨hasc l hl, hs⟩) h⟩

theorem Sys.Inv.of_reachable (h : (system cfg).Reachable s) (hf : s.failure = none) :
    s.Inv cfg ∧ (s.life cfg).Inv := by
  obtain ⟨L, hL, hR⟩ := exists_life h
  obtain ⟨I, rfl⟩ := hR.running hf
  exact ⟨I, hL⟩

end

end Tampi
