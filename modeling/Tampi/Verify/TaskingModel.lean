import Tampi.Model.TaskingModel
import Tampi.Verify.Environment

/-! # No call through a symbol that was not found

`initialize` loads the functions of the modes it is asked for, and fails when the runtime lacks one of
them. It loads the functions of the later versions of the interface when the runtime has them. So
along every run a call to the runtime finds its function loaded, when the runtime exports what its
version and its answer to the feature check promise (`no_null_call`). -/

namespace Tampi
open Function (update)
open Transition

/-- The runtime implements version 1.2 of the interface or a later one. -/
def Runtime.hasFeatureCheck (R : Runtime) : Prop :=
  1 < R.provided.1 ∨ R.provided.1 = 1 ∧ 2 ≤ R.provided.2

def Runtime.suspends (R : Runtime) : Prop :=
  R.hasFeatureCheck ∧ R.featureCheck ALPI_FEATURE_SUSPEND = ALPI_SUCCESS

instance (R : Runtime) : Decidable R.hasFeatureCheck :=
  inferInstanceAs (Decidable (1 < R.provided.1 ∨ R.provided.1 = 1 ∧ 2 ≤ R.provided.2))

instance (R : Runtime) : Decidable R.suspends :=
  inferInstanceAs (Decidable (R.hasFeatureCheck ∧ _ = ALPI_SUCCESS))

/-- The functions of a version, and those of a feature, are there where the runtime says so. -/
structure Runtime.Conforms (R : Runtime) : Prop where
  featureCheck : R.hasFeatureCheck → R.exported .featureCheck = true
  suspend : R.suspends → R.exported .taskSuspend = true ∧ R.exported .taskSuspendModeSet = true

/-- A runtime of version 1.1 that exports the functions of this version only. -/
def demoRuntime : Runtime where
  exported
    | .infoGet | .featureCheck => false
    | _ => true
  versionGet := 0
  provided := (1, 1)
  versionCheck major _ := if major = 1 then 0 else ALPI_ERR_VERSION
  featureCheck _ := 7
  errorString _ := "Error code not recognized"

theorem demoRuntime_conforms : demoRuntime.Conforms where
  featureCheck h := absurd h (by decide)
  suspend h := absurd h.1 (by decide)

namespace TaskingModel
variable {R : Runtime} {s t : TaskingModel}

/-- The functions that are loaded, or that a list of loads finds. -/
def finds (R : Runtime) (s : TaskingModel) (fs : List (AlpiFunction × Bool)) (f : AlpiFunction) :
    Bool :=
  s.loaded f || (R.exported f && f ∈ fs.map Prod.fst)

/-- The function is mandatory and nowhere. -/
def lacks (R : Runtime) (s : TaskingModel) (p : AlpiFunction × Bool) : Bool :=
  p.2 && !(s.loaded p.1 || R.exported p.1)

theorem load_cases (R : Runtime) (s : TaskingModel) (p : AlpiFunction × Bool) :
    (s.lacks R p = true ∧ s.load R p.1 p.2 = .error (.notFound p.1)) ∨
    ∃ t, s.lacks R p = false ∧ s.load R p.1 p.2 = .ok t ∧ t.lacks R = s.lacks R ∧
      (∀ fs, { t with loaded := t.finds R fs } = { s with loaded := s.finds R (p :: fs) }) := by
  obtain ⟨f, mandatory⟩ := p
  unfold load
  cases hs : s.loaded f with
  | true =>
    refine .inr ⟨s, by simp [lacks, hs], by simp, rfl, fun fs => ?_⟩
    congr 1
    funext g
    by_cases hg : g = f
    · subst hg
      simp [finds, hs]
    · simp [finds, hg]
  | false =>
    cases hR : R.exported f with
    | true =>
      refine .inr ⟨_, by simp [lacks, hR], by simp; rfl, ?_, fun fs => ?_⟩
      · funext ⟨g, m⟩
        by_cases hg : g = f
        · subst hg
          simp [lacks, hR]
        · simp [lacks, hg]
      · congr 1
        funext g
        by_cases hg : g = f
        · subst hg
          simp [finds, hR]
        · simp [finds, hg]
    | false =>
      cases mandatory with
      | true => exact .inl (by simp [lacks, hs, hR])
      | false =>
        refine .inr ⟨s, by simp [lacks], by simp, rfl, fun fs => ?_⟩
        congr 1
        funext g
        by_cases hg : g = f
        · subst hg
          simp [finds, hR]
        · simp [finds, hg]

/-- The loads succeed, or fail at the first mandatory function that is nowhere. -/
theorem loadAll_eq (R : Runtime) (fs : List (AlpiFunction × Bool)) (s : TaskingModel) :
    loadAll R fs s =
      match fs.find? (s.lacks R) with
      | some p => .error (.notFound p.1)
      | none => .ok { s with loaded := s.finds R fs } := by
  induction fs generalizing s with
  | nil =>
    have hfinds : s.finds R [] = s.loaded := by
      funext f
      simp [finds]
    rw [hfinds]
    rfl
  | cons p fs ih =>
    unfold loadAll
    rcases load_cases R s p with ⟨hlacks, hload⟩ | ⟨t, hlacks, hload, hsame, hfinds⟩
    · rw [hload, List.find?_cons_of_pos hlacks]
    · rw [hload, List.find?_cons_of_neg (by simp [hlacks])]
      dsimp only
      rw [ih, hsame, hfinds]

/-- A call of a function that is loaded fails only with the error the runtime returns. -/
theorem call_eq (hf : s.loaded f = true) (he : s.loaded .errorString = true) (err : Int) :
    s.call R f err = if err ≠ 0 then .error (.failed f (R.errorString err)) else .ok () := by
  simp [call, callNative, processFailure, hf, he]

/-- What `initialize` needs of the runtime. -/
structure Serves (R : Runtime) (pollingMode : String) (blocking events : Bool) : Prop where
  exported : ∀ f, (f, true) ∈ symbols blocking events → R.exported f = true
  versionGet : R.versionGet = 0
  versionCheck : R.versionCheck ALPI_VERSION_MAJOR 0 = 0
  pollingMode : pollingMode = "suspend" ∧ R.suspends ∨ pollingMode = "blocking" ∨
    pollingMode = "auto"

/-- What is loaded for the modes and the polling task. -/
structure Ready (R : Runtime) (blocking events : Bool) (s : TaskingModel) : Prop where
  mandatory : ∀ f, (f, true) ∈ symbols blocking events → s.loaded f = true
  polling : s.pollingFunction = some .generic ∨ s.pollingFunction = some .suspend ∧ R.suspends ∧
    s.loaded .taskSuspend = true ∧ s.loaded .taskSuspendModeSet = true

/-- Nothing is loaded that the runtime lacks. -/
def Sound (R : Runtime) (s : TaskingModel) : Prop := ∀ f, s.loaded f = true → R.exported f = true

theorem sound_finds (hs : s.Sound R) (fs : List (AlpiFunction × Bool)) :
    Sound R { s with loaded := s.finds R fs } := by
  intro f hf
  simp only [finds, Bool.or_eq_true, Bool.and_eq_true] at hf
  rcases hf with hf | ⟨hf, -⟩
  · exact hs f hf
  · exact hf

theorem loaded_of_exported {fs : List (AlpiFunction × Bool)} (hR : R.exported f = true)
    (hf : f ∈ fs.map Prod.fst) : s.finds R fs f = true := by
  simp [finds, hR, hf]

theorem finds_of_mandatory {fs : List (AlpiFunction × Bool)} (h : fs.find? (s.lacks R) = none)
    (hf : (f, true) ∈ fs) : s.finds R fs f = true := by
  have hnot : s.lacks R (f, true) = false := by simpa using List.find?_eq_none.mp h _ hf
  have hmem : f ∈ fs.map Prod.fst := List.mem_map_of_mem hf
  cases hl : s.loaded f <;> simp_all [lacks, finds]

/-- The feature check is not called where it is not there. -/
theorem supportsSuspend_eq (hf : R.hasFeatureCheck → s.loaded .featureCheck = true) :
    s.supportsSuspend R = .ok (decide R.suspends) := by
  unfold supportsSuspend
  split
  next h =>
    have hs : R.suspends ↔ R.featureCheck ALPI_FEATURE_SUSPEND = ALPI_SUCCESS :=
      and_iff_right h
    simp [callNative, hf h, hs]
    rfl
  next h =>
    have hs : ¬ R.suspends := fun hs => h hs.1
    simp [hs]

theorem choosePolling_ok (h : s.choosePolling pollingMode (decide R.suspends) = .ok t) :
    t.loaded = s.loaded ∧
      (t.pollingFunction = some .generic ∨ t.pollingFunction = some .suspend ∧ R.suspends) := by
  unfold choosePolling at h
  repeat' split at h
  all_goals cases h <;> simp_all

theorem choosePolling_error (h : s.choosePolling pollingMode b = .error e) (f : AlpiFunction) :
    e ≠ .null f := by
  unfold choosePolling at h
  repeat' split at h
  all_goals cases h <;> simp

theorem mem_symbols (hm : (blocking || events) = true) :
    (.featureCheck ∈ (symbols blocking events).map Prod.fst) ∧
    (.taskSuspend ∈ (symbols blocking events).map Prod.fst) ∧
    (.taskSuspendModeSet ∈ (symbols blocking events).map Prod.fst) ∧
    (AlpiFunction.errorString, true) ∈ symbols blocking events ∧
    (AlpiFunction.versionGet, true) ∈ symbols blocking events ∧
    (AlpiFunction.versionCheck, true) ∈ symbols blocking events := by
  cases blocking <;> cases events <;> simp_all [symbols]

theorem initializeModel_eq (hR : R.Conforms)
    (hm : (blocking || events) = true) :
    s.initializeModel R pollingMode blocking events =
      match (symbols blocking events).find? (s.lacks R) with
      | some p => .error (.notFound p.1)
      | none =>
        if R.versionGet ≠ 0 then .error (.failed .versionGet (R.errorString R.versionGet))
        else if R.versionCheck ALPI_VERSION_MAJOR 0 = ALPI_ERR_VERSION then
          .error (.version R.provided)
        else if R.versionCheck ALPI_VERSION_MAJOR 0 ≠ 0 then
          .error (.failed .versionCheck (R.errorString (R.versionCheck ALPI_VERSION_MAJOR 0)))
        else
          choosePolling { s with loaded := s.finds R (symbols blocking events) } pollingMode
            (decide R.suspends) := by
  obtain ⟨hfeature, -, -, herror, hget, hcheck⟩ := mem_symbols hm
  have hnot : (!blocking && !events) = false := by
    cases blocking <;> cases events <;> simp_all
  unfold initializeModel
  rw [hnot, loadAll_eq]
  cases hfind : (symbols blocking events).find? (s.lacks R) with
  | some p => rfl
  | none =>
    have hloaded {f : AlpiFunction} (hf : (f, true) ∈ symbols blocking events) :
        s.finds R (symbols blocking events) f = true := finds_of_mandatory hfind hf
    have hsupports : supportsSuspend R { s with loaded := s.finds R (symbols blocking events) } =
        .ok (decide R.suspends) :=
      supportsSuspend_eq fun h => loaded_of_exported (hR.featureCheck h) hfeature
    dsimp only
    rw [call_eq (hloaded hget) (hloaded herror), hsupports, callNative, if_pos (hloaded hcheck)]
    by_cases hv : R.versionGet = 0
    · simp only [hv, ne_eq, not_true_eq_false, if_false]
      simp [processFailure, hloaded herror]
    · simp [hv]

theorem initializeModel_ok (hR : R.Conforms) (hs : s.Sound R) (hm : (blocking || events) = true)
    (h : s.initializeModel R pollingMode blocking events = .ok t) :
    t.Sound R ∧ t.Ready R blocking events := by
  rw [initializeModel_eq hR hm] at h
  split at h
  · cases h
  next hfind =>
    split at h
    · cases h
    · split at h
      · cases h
      · split at h
        · cases h
        · obtain ⟨hloaded, hpolling⟩ := choosePolling_ok h
          obtain ⟨-, hsuspend, hmode, -⟩ := mem_symbols hm
          have hfinds (f : AlpiFunction) : t.loaded f = s.finds R (symbols blocking events) f :=
            congrFun hloaded f
          refine ⟨fun f hf => sound_finds hs _ f (hfinds f ▸ hf), fun f hf => ?_, ?_⟩
          · rw [hfinds]
            exact finds_of_mandatory hfind hf
          · rcases hpolling with hgeneric | ⟨hsuspended, hR'⟩
            · exact .inl hgeneric
            · obtain ⟨h₁, h₂⟩ := hR.suspend hR'
              refine .inr ⟨hsuspended, hR', ?_, ?_⟩
              · rw [hfinds]
                exact loaded_of_exported h₁ hsuspend
              · rw [hfinds]
                exact loaded_of_exported h₂ hmode

/-- With a runtime that keeps its promises nothing is called while the library is initialized that
was not found. -/
theorem initializeModel_error (hR : R.Conforms)
    (h : s.initializeModel R pollingMode blocking events = .error e) (f : AlpiFunction) :
    e ≠ .null f := by
  cases hm : blocking || events with
  | false =>
    have hnot : (!blocking && !events) = true := by
      cases blocking <;> cases events <;> simp_all
    rw [initializeModel, if_pos hnot] at h
    cases h
  | true =>
    rw [initializeModel_eq hR hm] at h
    repeat' split at h
    all_goals first | exact choosePolling_error h f | (cases h; simp)

/-- If some mode is requested and the runtime exports what its version and its feature check promise,
the library starts exactly when the runtime has what the modes need, in the version the library
expects, and can do the polling it is asked for. -/
theorem initializeModel_ok_iff (hR : R.Conforms) (hs : s.Sound R)
    (hm : (blocking || events) = true) :
    (∃ t, s.initializeModel R pollingMode blocking events = .ok t) ↔
      Serves R pollingMode blocking events := by
  rw [initializeModel_eq hR hm]
  constructor
  · rintro ⟨t, h⟩
    split at h
    · cases h
    next hfind =>
      split at h
      · cases h
      next hget =>
        split at h
        · cases h
        · split at h
          · cases h
          next hcheck =>
            refine ⟨fun f hf => ?_, not_not.mp hget, not_not.mp hcheck, ?_⟩
            · exact sound_finds hs _ f (finds_of_mandatory hfind hf)
            · unfold choosePolling at h
              repeat' split at h
              all_goals cases h <;> simp_all
  · rintro ⟨hexported, hget, hcheck, hmode⟩
    have hfind : (symbols blocking events).find? (s.lacks R) = none := by
      refine List.find?_eq_none.mpr ?_
      rintro ⟨f, mandatory⟩ hf
      cases mandatory with
      | false => simp [lacks]
      | true => simp [lacks, hexported f hf]
    rw [hfind]
    simp only [hget, hcheck, ne_eq, not_true_eq_false, if_false]
    rw [if_neg (by decide)]
    unfold choosePolling
    rcases hmode with ⟨rfl, hs⟩ | rfl | rfl <;> simp [*]

/-- Without the suspend API the library starts with the blocking polling, and refuses the suspend one. -/
theorem initializeModel_ok_demoRuntime :
    (∃ t, init.initializeModel demoRuntime "auto" true true = .ok t) ∧
    ¬ ∃ t, init.initializeModel demoRuntime "suspend" true true = .ok t := by
  have hinit : init.Sound demoRuntime := fun f h => by cases h
  refine ⟨(initializeModel_ok_iff demoRuntime_conforms hinit rfl).mpr
    ⟨fun f hf => by cases f <;> simp_all [symbols, demoRuntime], rfl, rfl, .inr (.inr rfl)⟩,
    fun h => ?_⟩
  have H := (initializeModel_ok_iff demoRuntime_conforms hinit rfl).mp h
  exact absurd H.pollingMode (by decide)

end TaskingModel

/-! ## Along runs -/

namespace Environment
variable {B : Build} {s s' : Environment}

/-- The modes are left as they are, or both are off. -/
def ModesKept (s s' : Environment) : Prop :=
  (s'.blockingMode = s.blockingMode ∧ s'.nonBlockingMode = s.nonBlockingMode) ∨
    s'.blockingMode = false ∧ s'.nonBlockingMode = false

theorem initializeLibrary_same (h : s.initializeLibrary B required p automatic true = .ok (s', p'))
    (hno : s.initializeLibrary B required p automatic false ≠ .error .runtime) : s' = s := by
  unfold initializeLibrary at h hno
  split at h
  · cases h
  · cases h
    rfl
  next hinit => simp [hinit] at hno

theorem nativeInitialized_modes (h : s.nativeInitialized B required p true = .ok s')
    (hno : s.nativeInitialized B required p false ≠ .error .runtime) : s.ModesKept s' := by
  unfold nativeInitialized at h hno
  cases hpre : s.preinitializeLibrary p with
  | error f => simp [hpre] at h
  | ok s₁ =>
    simp only [hpre] at h hno
    have hs₁ : s₁.blockingMode = s.blockingMode ∧ s₁.nonBlockingMode = s.nonBlockingMode := by
      unfold preinitializeLibrary at hpre
      repeat' split at hpre
      all_goals cases hpre <;> exact ⟨rfl, rfl⟩
    split at h
    · cases h
    next s₂ p₂ hinit =>
      cases h
      have hsame := initializeLibrary_same hinit fun hrun => by simp [hrun] at hno
      subst hsame
      exact .inl hs₁

theorem finalizeLibrary_modes (h : s.finalizeLibrary B automatic = .ok s') : s.ModesKept s' := by
  rcases finalizeLibrary_ok h with rfl | ⟨-, rfl⟩
  · exact .inl ⟨rfl, rfl⟩
  · rw [disable_eq]
    exact .inr ⟨rfl, rfl⟩

/-- A call that does not get to `TaskingModel::initialize` enables no mode. -/
theorem modes_of_call {l : EnvCall} (h : s.call B (l.withRuntime true) = .ok (s', code))
    (hno : s.call B (l.withRuntime false) ≠ .error .runtime) : s.ModesKept s' := by
  cases l with
  | mpiInit err level =>
    simp only [EnvCall.withRuntime, call, mpiInit] at h hno
    split at h
    · cases h
      exact .inl ⟨rfl, rfl⟩
    next herr =>
      rw [if_neg herr] at hno
      split at h
      · cases h
        exact .inl ⟨rfl, rfl⟩
      next hq =>
        simp only [hq] at hno
        split at h <;> cases h
        rename_i hinit
        exact nativeInitialized_modes (s := { s with native := some level }) hinit
          fun hrun => by simp [hrun] at hno
  | mpiInitThread required err level =>
    simp only [EnvCall.withRuntime, call, mpiInitThread] at h hno
    split at h
    · cases h
    next hmultiple =>
      rw [if_neg hmultiple] at hno
      split at h
      · cases h
        exact .inl ⟨rfl, rfl⟩
      next herr =>
        rw [if_neg herr] at hno
        split at h <;> cases h
        rename_i hinit
        exact nativeInitialized_modes (s := { s with native := some level }) hinit
          fun hrun => by simp [hrun] at hno
  | tampiInit required p =>
    simp only [EnvCall.withRuntime, call, tampiInit] at h hno
    split at h <;> cases h
    rename_i hinit
    have hsame := initializeLibrary_same hinit fun hrun => by simp [hrun] at hno
    subst hsame
    exact .inl ⟨rfl, rfl⟩
  | mpiFinalize err =>
    simp only [EnvCall.withRuntime, call, mpiFinalize] at h
    split at h
    · cases h
      exact .inl ⟨rfl, rfl⟩
    · split at h <;> cases h
      exact finalizeLibrary_modes ‹_›
  | tampiFinalize =>
    simp only [EnvCall.withRuntime, call, tampiFinalize] at h
    split at h <;> cases h
    exact finalizeLibrary_modes ‹_›
  | propertySet thread property value =>
    simp only [EnvCall.withRuntime, call, tampiPropertySet, Except.ok.injEq, Prod.mk.injEq] at h
    obtain ⟨rfl, -⟩ := h
    unfold setProperty
    repeat' split
    all_goals exact .inl ⟨rfl, rfl⟩

end Environment

namespace Library
variable {B : Build} {R : Runtime} {pollingMode : String} {s s' : Library}

/-- What the library has found serves the modes that are on. -/
structure LibraryInv (R : Runtime) (s : Library) : Prop where
  sound : s.taskingModel.Sound R
  ready : s.on = true →
    s.taskingModel.Ready R s.environment.blockingMode s.environment.nonBlockingMode

theorem modes_of_not_loads (h : s.environment.step B (l.withRuntime true) = some e)
    (hl : ¬ s.loads B l = true) : s.environment.ModesKept e := by
  unfold Environment.step at h
  split at h
  · cases h
  · split at h <;> cases h
    rename_i hcall
    refine Environment.modes_of_call hcall fun hrun => hl ?_
    rw [loads, hrun]

theorem LibraryInv.init : LibraryInv R (init B) where
  sound f h := by cases h
  ready h := by cases h

theorem LibraryInv.step (hR : R.Conforms) (I : LibraryInv R s)
    (h : s.step B R pollingMode l = some s') : LibraryInv R s' := by
  unfold Library.step at h
  split at h
  · cases h
  next e he =>
    split at h
    next hloads =>
      split at h <;> cases h
      rename_i t ht
      cases hm : e.blockingMode || e.nonBlockingMode with
      | false =>
        have hsame : s.taskingModel = t := by
          have hnot : (!e.blockingMode && !e.nonBlockingMode) = true := by
            cases hb : e.blockingMode <;> cases hn : e.nonBlockingMode <;> simp_all
          rw [TaskingModel.initializeModel, if_pos hnot] at ht
          exact Except.ok.inj ht
        subst hsame
        exact ⟨I.sound, fun hon => absurd hon (by simp [on, hm])⟩
      | true =>
        obtain ⟨hsound, hready⟩ := TaskingModel.initializeModel_ok hR I.sound hm ht
        exact ⟨hsound, fun _ => hready⟩
    next hloads =>
      cases h
      refine ⟨I.sound, fun hon => ?_⟩
      rcases modes_of_not_loads he hloads with ⟨hb, hn⟩ | ⟨hb, hn⟩
      · rw [on, hb, hn] at hon
        rw [hb, hn]
        exact I.ready hon
      · simp [on, hb, hn] at hon

theorem LibraryInv.of_reachable (hR : R.Conforms) (h : (system B R pollingMode).Reachable s) :
    LibraryInv R s := by
  refine h.rec_inv ?_ ?_
  · rintro s rfl
    exact .init
  · intro s l s' _ hs I
    exact I.step hR hs

theorem on_of_makes (hc : s.makes c = true) : s.on = true := by
  cases c <;> simp_all [makes, on]

/-- The functions a call uses are mandatory for the modes in which the library makes it, or come with
the polling mode that was chosen. -/
theorem loaded_of_makes (I : LibraryInv R s) (hc : s.makes c = true) (hf : f ∈ c.functions) :
    s.taskingModel.loaded f = true := by
  have H := I.ready (on_of_makes hc)
  cases c with
  | suspendPolling =>
    have hp : s.taskingModel.pollingFunction = some .suspend := by
      simpa using (Bool.and_eq_true_iff.mp hc).2
    rcases H.polling with hg | ⟨-, -, hsuspend, hmode⟩
    · rw [hp] at hg
      cases hg
    · have hself : s.taskingModel.loaded .taskSelf = true :=
        H.mandatory _ (by simp [TaskingModel.symbols])
      simp only [TaskingCall.functions, List.mem_cons, List.not_mem_nil, or_false] at hf
      rcases hf with rfl | rfl | rfl <;> assumption
  | blockCurrentTask | unblockTask | increaseCurrentTaskEvents | decreaseTaskEvents =>
    have hmode := hc
    simp only [makes] at hmode
    refine H.mandatory f ?_
    simp only [TaskingCall.functions, List.mem_singleton] at hf
    subst hf
    simp [TaskingModel.symbols, hmode]
  | _ =>
    refine H.mandatory f ?_
    simp only [TaskingCall.functions, List.mem_singleton] at hf
    subst hf
    simp [TaskingModel.symbols]

/-- With a runtime that exports what its version and its feature check promise, no function is ever
called that was not found: not while the library is initialized, whatever modes are asked for, and
not by a task or a polling task while a mode is enabled. So a call of the runtime stops the library
only with an error of the runtime, and the text of that error. -/
theorem no_null_call (hR : R.Conforms) (h : (system B R pollingMode).Reachable s) :
    (∀ blocking events e f,
      s.taskingModel.initializeModel R pollingMode blocking events = .error e → e ≠ .null f) ∧
    (∀ c, s.makes c = true → ∀ f ∈ c.functions, R.exported f = true ∧
      ∀ err, s.taskingModel.call R f err =
        if err ≠ 0 then .error (.failed f (R.errorString err)) else .ok ()) ∧
    (s.makes .registerPolling = true →
      s.makes .genericPolling = true ∨ s.makes .suspendPolling = true) := by
  have I := LibraryInv.of_reachable hR h
  refine ⟨fun blocking events e f he => TaskingModel.initializeModel_error hR he f,
    fun c hc f hf => ?_, fun hon => ?_⟩
  · have hloaded := loaded_of_makes I hc hf
    refine ⟨I.sound f hloaded, TaskingModel.call_eq hloaded ?_⟩
    exact (I.ready (on_of_makes hc)).mandatory _ (by simp [TaskingModel.symbols])
  · have hon : s.on = true := hon
    rcases (I.ready hon).polling with hg | ⟨hs, -⟩
    · exact .inl (by simp [makes, hon, hg])
    · exact .inr (by simp [makes, hon, hs])

/-- The library is initialized explicitly with a runtime that has no suspend API. -/
theorem no_null_call_explicitInit : ∃ s,
    (system Environment.demoBuild demoRuntime "auto").Reachable s ∧
    s.makes .blockCurrentTask = true ∧ s.makes .genericPolling = true ∧
    s.taskingModel.call demoRuntime .taskBlock 5 =
      .error (.failed .taskBlock "Error code not recognized") := by
  obtain ⟨s, hs, hblock, hpoll⟩ : ∃ s,
      (system Environment.demoBuild demoRuntime "auto").Reachable s ∧
      s.makes .blockCurrentTask = true ∧ s.makes .genericPolling = true :=
    ⟨_, ⟨_, Environment.explicitInit, rfl,
      .of_run (f := Library.step Environment.demoBuild demoRuntime "auto") (fun _ _ _ _ h => h) rfl⟩,
      rfl, rfl⟩
  have H := (no_null_call demoRuntime_conforms hs).2.1 _ hblock .taskBlock (by decide)
  exact ⟨s, hs, hblock, hpoll, H.2 5⟩

end Library
end Tampi
