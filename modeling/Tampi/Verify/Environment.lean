import Tampi.Model.Environment

/-! # Modes, levels and resources

`EnvMove` says what a call can do that reaches no failure. From it follow what the library reports
about its modes, for every sequence of calls, and which resources it holds. The resources match the
modes as long as `TAMPI_Init` is not called while a mode is enabled: nothing in `shouldInitialize`
rejects such a call, and it overwrites the pointers to the polling instances and the allocators. -/

namespace Tampi.Environment
open Transition

variable {B : Build} {s s' : Environment}

/-- The environment of a native MPI that was just initialized. -/
def started (s : Environment) (level : Int) : Environment :=
  { s with native := some level, nativeThreadLevel := level, preinitialized := true }

/-- The environment after a call of `initialize` that takes effect. -/
def entered (B : Build) (s : Environment) (required : Int) : Environment :=
  { (s.enable B required).1 with reported := some (s.enable B required).2 }

/-- What a call that reaches no failure can do. -/
inductive EnvMove (B : Build) (s : Environment) : EnvCall → Environment → Prop
  | same : EnvMove B s l s
  | property : EnvMove B s (.propertySet thread property value) (s.setProperty thread property value).1
  | native : l.provides = some level → s.native = none → s.autoInitialize = false →
    EnvMove B s l { s.started level with reported := some level }
  | auto : l.provides = some level → s.native = none → s.autoInitialize = true →
    EnvMove B s l ((s.started level).entered B required)
  | explicit : s.preinitialized = true → s.autoInitialize = false →
    EnvMove B s (.tampiInit required provided runtime) (s.entered B required)
  | finalized : s.initialized = true → EnvMove B s l (s.disable B)

section
variable (B s) (required : Int)

/-- Whether `initialize` enables the modes. -/
def enablesBlocking : Bool :=
  s.nativeThreadLevel == B.threadMultiple && shouldEnableBlocking B required

def enablesNonBlocking : Bool :=
  s.nativeThreadLevel == B.threadMultiple && shouldEnableNonBlocking B required

/-- `initialize` changes the modes, the mark and the resources only. -/
theorem entered_eq : s.entered B required =
    { (if s.enablesBlocking B required || s.enablesNonBlocking B required then s.makeResources B
        else s) with
      blockingMode := s.enablesBlocking B required
      nonBlockingMode := s.enablesNonBlocking B required
      initialized := true
      reported := some (if s.enablesBlocking B required then B.taskMultiple
        else s.nativeThreadLevel) } := by
  have hlevel (c : Bool) : (if c then s.makeResources B else s).nativeThreadLevel =
      s.nativeThreadLevel := by
    cases c <;> rfl
  simp only [entered, enable, hlevel]
  rfl

@[simp] theorem entered_preinitialized : (s.entered B required).preinitialized = s.preinitialized := by
  rw [entered_eq]
  split <;> rfl

@[simp] theorem entered_native : (s.entered B required).native = s.native := by
  rw [entered_eq]
  split <;> rfl

@[simp] theorem entered_nativeThreadLevel :
    (s.entered B required).nativeThreadLevel = s.nativeThreadLevel := by
  rw [entered_eq]
  split <;> rfl

@[simp] theorem entered_autoInitialize : (s.entered B required).autoInitialize = s.autoInitialize := by
  rw [entered_eq]
  split <;> rfl

@[simp] theorem entered_initialized : (s.entered B required).initialized = true := by
  rw [entered_eq]

@[simp] theorem entered_blockingMode :
    (s.entered B required).blockingMode = s.enablesBlocking B required := by
  rw [entered_eq]

@[simp] theorem entered_nonBlockingMode :
    (s.entered B required).nonBlockingMode = s.enablesNonBlocking B required := by
  rw [entered_eq]

@[simp] theorem entered_reported : (s.entered B required).reported =
    some (if s.enablesBlocking B required then B.taskMultiple else s.nativeThreadLevel) := by
  rw [entered_eq]

theorem disable_eq : s.disable B =
    { (if s.blockingMode || s.nonBlockingMode then s.dropResources B else s) with
      blockingMode := false
      nonBlockingMode := false
      initialized := false
      reported := none } := rfl

end

/-- What the modes, the native level and the reports have to do with each other. -/
structure EnvInv (B : Build) (s : Environment) : Prop where
  preinitialized : s.native.isSome → s.preinitialized = true
  native : s.preinitialized = true → s.native = some s.nativeThreadLevel
  initialized : s.initialized = true → s.preinitialized = true
  modes : s.blockingMode = true ∨ s.nonBlockingMode = true →
    s.initialized = true ∧ s.nativeThreadLevel = B.threadMultiple
  nonBlocking : B.disableNonBlockingMode = false → s.blockingMode = true →
    s.nonBlockingMode = true
  reported : ∀ level, s.reported = some level → s.mpiQueryThread B = some level

namespace EnvInv

theorem init : EnvInv B (init B) where
  preinitialized h := by simp [Environment.init] at h
  native h := by simp [Environment.init] at h
  initialized h := by simp [Environment.init] at h
  modes h := by simp [Environment.init] at h
  nonBlocking _ h := by simp [Environment.init] at h
  reported level h := by simp [Environment.init] at h

/-- No mode is enabled before the native MPI is initialized. -/
theorem modes_off (I : EnvInv B s) (h : s.native = none) :
    s.blockingMode = false ∧ s.nonBlockingMode = false := by
  by_contra hne
  have hmode : s.blockingMode = true ∨ s.nonBlockingMode = true := by
    cases hb : s.blockingMode <;> cases hn : s.nonBlockingMode <;> simp_all
  have := I.native (I.initialized (I.modes hmode).1)
  rw [h] at this
  cases this

/-- An initialization that takes effect after the native one. -/
theorem entered (hp : s.preinitialized = true) (hn : s.native = some s.nativeThreadLevel)
    (required : Int) : EnvInv B (s.entered B required) where
  preinitialized _ := by simpa using hp
  native _ := by simpa using hn
  initialized _ := by simpa using hp
  modes h := by
    simp only [entered_blockingMode, entered_nonBlockingMode, enablesBlocking, enablesNonBlocking,
      Bool.and_eq_true, beq_iff_eq] at h
    rcases h with h | h <;> simpa using h.1
  nonBlocking hd h := by
    simp only [entered_blockingMode, enablesBlocking, shouldEnableBlocking, Bool.and_eq_true] at h
    simp [enablesNonBlocking, shouldEnableNonBlocking, hd, h.1, h.2.2]
  reported level h := by
    simp only [entered_reported, Option.some.injEq] at h
    simp only [mpiQueryThread, entered_blockingMode, entered_native, hn, ← h]
    split <;> rfl

theorem started (I : EnvInv B s) (hn : s.native = none) (level : Int) :
    EnvInv B { s.started level with reported := some level } where
  preinitialized _ := rfl
  native _ := rfl
  initialized _ := rfl
  modes h := by
    obtain ⟨hb, hnb⟩ := I.modes_off hn
    simp [Environment.started, hb, hnb] at h
  nonBlocking _ h := by simp [Environment.started, (I.modes_off hn).1] at h
  reported l h := by
    simpa [mpiQueryThread, Environment.started, (I.modes_off hn).1] using h

theorem disable (I : EnvInv B s) : EnvInv B (s.disable B) := by
  rw [disable_eq]
  split
  · exact ⟨I.preinitialized, I.native, by simp, by simp, by simp, by simp⟩
  · exact ⟨I.preinitialized, I.native, by simp, by simp, by simp, by simp⟩

theorem setProperty (I : EnvInv B s) (thread : Nat) (property value : Int) :
    EnvInv B (s.setProperty thread property value).1 := by
  unfold Environment.setProperty
  repeat' split
  all_goals exact { I with }

end EnvInv

/-! ## Calls -/

theorem initializeLibrary_ok
    (h : s.initializeLibrary B required provided automatic runtime = .ok (s', p)) :
    s.preinitialized = true ∧
      (automatic = true ∧ s.autoInitialize = false ∧ s' = s ∧ p = provided ∨
        automatic = s.autoInitialize ∧ (s', p) = s.enable B required) := by
  unfold initializeLibrary shouldInitialize at h
  cases hp : s.preinitialized <;> cases automatic <;> cases ha : s.autoInitialize <;>
    cases runtime <;> simp_all

theorem finalizeLibrary_ok (h : s.finalizeLibrary B automatic = .ok s') :
    s' = s ∨ s.initialized = true ∧ s' = s.disable B := by
  unfold finalizeLibrary shouldFinalize at h
  cases automatic <;> cases ha : s.autoInitialize <;> cases hi : s.initialized <;> simp_all

/-- What follows the native initialization of an MPI that was not initialized before. -/
theorem nativeInitialized_ok {l : EnvCall} (hn : s.native = none) (hl : l.provides = some level)
    (h : { s with native := some level }.nativeInitialized B required level runtime = .ok s') :
    EnvMove B s l s' := by
  unfold nativeInitialized preinitializeLibrary at h
  dsimp only at h
  split at h
  · cases h
  · rename_i s₁ h₁
    split at h₁
    · cases h₁
    · split at h₁ <;> cases h₁
      split at h
      · cases h
      · rename_i s₂ p h₂
        cases h
        obtain ⟨-, ⟨-, ha, rfl, rfl⟩ | ⟨ha, he⟩⟩ := initializeLibrary_ok h₂
        · exact .native hl hn ha
        · obtain ⟨rfl, rfl⟩ := Prod.mk.inj he
          exact .auto hl hn ha.symm

theorem step_cases {l : EnvCall} (I : EnvInv B s) (h : s.step B l = some s') : EnvMove B s l s' := by
  unfold step at h
  split at h
  · cases h
  · rename_i hnative
    split at h
    · cases h
    · rename_i s₁ code hcall
      cases h
      cases l with
      | mpiInit err level runtime =>
        simp only [call, mpiInit] at hcall
        split at hcall
        · cases hcall
          exact .same
        · rename_i herr
          have hl : (EnvCall.mpiInit err level runtime).provides = some level := by
            simpa [EnvCall.provides] using herr
          have hn : s.native = none := by simpa [hl] using hnative
          have hq : { s with native := some level }.mpiQueryThread B = some level := by
            simp [mpiQueryThread, (I.modes_off hn).1]
          simp only [hq] at hcall
          split at hcall <;> cases hcall
          exact nativeInitialized_ok hn hl ‹_›
      | mpiInitThread required err level runtime =>
        simp only [call, mpiInitThread] at hcall
        split at hcall
        · cases hcall
        · split at hcall
          · cases hcall
            exact .same
          · rename_i herr
            have hl : (EnvCall.mpiInitThread required err level runtime).provides = some level := by
              simpa [EnvCall.provides] using herr
            have hn : s.native = none := by simpa [hl] using hnative
            split at hcall <;> cases hcall
            exact nativeInitialized_ok hn hl ‹_›
      | mpiFinalize err =>
        simp only [call, mpiFinalize] at hcall
        split at hcall
        · cases hcall
          exact .same
        · split at hcall <;> cases hcall
          rename_i hfin
          rcases finalizeLibrary_ok hfin with rfl | ⟨hi, rfl⟩
          · exact .same
          · exact .finalized hi
      | tampiInit required provided runtime =>
        simp only [call, tampiInit] at hcall
        split at hcall <;> cases hcall
        rename_i s₂ p hinit
        obtain ⟨hp, ⟨ha, -⟩ | ⟨ha, he⟩⟩ := initializeLibrary_ok hinit
        · cases ha
        · obtain ⟨rfl, rfl⟩ := Prod.mk.inj he
          exact .explicit hp ha.symm
      | tampiFinalize =>
        simp only [call, tampiFinalize] at hcall
        split at hcall <;> cases hcall
        rename_i hfin
        rcases finalizeLibrary_ok hfin with rfl | ⟨hi, rfl⟩
        · exact .same
        · exact .finalized hi
      | propertySet thread property value =>
        cases hcall
        exact .property

theorem EnvInv.move {l : EnvCall} (I : EnvInv B s) (h : EnvMove B s l s') : EnvInv B s' := by
  cases h with
  | same => exact I
  | property => exact I.setProperty ..
  | native _ hn _ => exact I.started hn _
  | auto => exact .entered rfl rfl _
  | explicit hp _ => exact .entered hp (I.native hp) _
  | finalized => exact I.disable

theorem EnvInv.of_reachable (h : (system B).Reachable s) : EnvInv B s := by
  refine h.rec_inv ?_ ?_
  · rintro s rfl
    exact .init
  · intro s l s' _ hs I
    exact I.move (step_cases I hs)

/-! ## Reports -/

/-- The native MPI provided the level of the call that initialized it. -/
theorem native_le {l : EnvCall} (h : EnvMove B s l s')
    (hl : ∀ level, l.provides = some level → level ≤ m)
    (hs : ∀ level, s.native = some level → level ≤ m) :
    ∀ level, s'.native = some level → level ≤ m := by
  intro level hlevel
  cases h with
  | same => exact hs level hlevel
  | property =>
    refine hs level ?_
    rw [← hlevel]
    unfold setProperty
    repeat' split
    all_goals rfl
  | native hp =>
    cases hlevel
    exact hl _ hp
  | auto hp =>
    rw [entered_native] at hlevel
    cases hlevel
    exact hl _ hp
  | explicit =>
    rw [entered_native] at hlevel
    exact hs level hlevel
  | finalized =>
    refine hs level ?_
    rw [← hlevel, disable_eq]
    split <;> rfl

theorem native_le_of_reaches {ls : List EnvCall} (h : (system B).Reaches (init B) ls s)
    (hl : ∀ l ∈ ls, ∀ level, l.provides = some level → level ≤ m) :
    ∀ level, s.native = some level → level ≤ m := by
  induction h with
  | refl =>
    intro level h
    cases h
  | tail hr hs ih =>
    have I := EnvInv.of_reachable ⟨_, _, rfl, hr⟩
    exact native_le (step_cases I hs) (hl _ (by simp)) (ih fun l hmem => hl l (by simp [hmem]))

/-- A property that cannot be set is not. -/
theorem setProperty_error (h : (s.setProperty thread property value).2 ≠ 0) :
    (s.setProperty thread property value).1 = s := by
  unfold setProperty at h ⊢
  split_ifs at h ⊢ <;> first
    | rfl
    | simp at h

/-- Nothing sets the automatic initialization once MPI is initialized. -/
theorem autoInitialize_eq {l : EnvCall} (I : EnvInv B s) (h : EnvMove B s l s')
    (hn : s.native.isSome) : s'.autoInitialize = s.autoInitialize := by
  cases h with
  | same => rfl
  | property =>
    simp only [setProperty, I.preinitialized hn, if_true]
    repeat' split
    all_goals rfl
  | native _ h | auto _ h => simp [h] at hn
  | explicit => simp
  | finalized =>
    rw [disable_eq]
    split <;> rfl

/-- For every sequence of calls that reaches no failure, with any levels, properties and values. The
native MPI provides at most `MPI_THREAD_MULTIPLE`. -/
theorem reports_agree {ls : List EnvCall} (h : (system B).Reaches (init B) ls s)
    (hlevel : ∀ l ∈ ls, ∀ level, l.provides = some level → level ≤ B.threadMultiple) :
    (s.isBlockingEnabled ∨ s.isNonBlockingEnabled →
      s.preinitialized ∧ s.initialized ∧ s.native = some B.threadMultiple) ∧
    (B.disableBlockingMode = false → B.disableNonBlockingMode = false →
      s.isBlockingEnabled → s.isNonBlockingEnabled) ∧
    (∀ level, s.reported = some level → s.mpiQueryThread B = some level ∧
      ∀ thread, level = B.taskMultiple ↔
        s.tampiPropertyGet thread TAMPI_PROPERTY_BLOCKING_MODE = some 1) ∧
    (s.native.isSome → ∀ l s', s.step B l = some s' → s'.autoInitialize = s.autoInitialize) ∧
    (∀ thread property value, (s.tampiPropertySet B thread property value).2 ≠ MPI_SUCCESS →
      (s.tampiPropertySet B thread property value).1 = s) := by
  have I := EnvInv.of_reachable ⟨_, ls, rfl, h⟩
  have hnative := native_le_of_reaches h hlevel
  refine ⟨fun hm => ?_, fun _ hd hb => I.nonBlocking hd hb,
    fun level hr => ⟨I.reported level hr, fun thread => ?_⟩,
    fun hn l s' hs => autoInitialize_eq I (step_cases I hs) hn,
    fun thread property value herr => ?_⟩
  · obtain ⟨hi, hl⟩ := I.modes hm
    have hp := I.initialized hi
    exact ⟨hp, hi, hl ▸ I.native hp⟩
  · have hq := I.reported level hr
    simp only [tampiPropertyGet, getProperty, if_true, Option.some.injEq]
    unfold mpiQueryThread at hq
    cases hb : s.blockingMode with
    | true =>
      rw [hb] at hq
      simpa using hq.symm
    | false =>
      rw [hb] at hq
      have := hnative level (by simpa using hq)
      simp [Build.taskMultiple]
      omega
  · refine setProperty_error (fun h => herr ?_)
    simp [tampiPropertySet, h]

/-- Open MPI, with all modes compiled in. -/
def demoBuild : Build where
  threadSingle := 0
  threadMultiple := 3
  errArg := 13
  errOther := 16
  disableBlockingMode := false
  disableNonBlockingMode := false
  completionEnabled := true
  errArg_ne := by decide

/-- Explicit initialization, as in `tests/oss/InitExplicitTaskAware.cpp`. -/
def explicitInit : List EnvCall :=
  [.propertySet 0 TAMPI_PROPERTY_AUTO_INIT 0, .mpiInitThread 3 MPI_SUCCESS 3 true,
    .tampiInit 4 0 true]

theorem reports_agree_explicitInit :
    ∃ s, (system demoBuild).Reaches (init demoBuild) explicitInit s ∧
    s.reported = some 4 ∧ s.mpiQueryThread demoBuild = some 4 ∧ s.isNonBlockingEnabled := by
  obtain ⟨s, hs, hr, hb⟩ : ∃ s, (system demoBuild).Reaches (init demoBuild) explicitInit s ∧
      s.reported = some 4 ∧ s.isBlockingEnabled :=
    ⟨_, .of_run (f := step demoBuild) (fun _ _ _ _ h => h) rfl, rfl, rfl⟩
  have H := reports_agree hs (by decide)
  exact ⟨s, hs, hr, (H.2.2.1 4 hr).1, H.2.1 rfl rfl hb⟩

end Tampi.Environment

/-! ## Resources -/

namespace Tampi.Resource
variable {r : Resource} {on : Bool}

/-- One object is live exactly when there should be one, and then the pointer refers to it; every
other object was dropped once. -/
structure Matches (on : Bool) (r : Resource) : Prop where
  single : on = true → ∃ object, r.pointer = some object ∧ r.live = [object]
  none : on = false → r.live = []
  once : ∀ object, object < r.made → r.dropped.count object = if object ∈ r.live then 0 else 1
  dropped_lt : ∀ object ∈ r.dropped, object < r.made
  live_lt : ∀ object ∈ r.live, object < r.made

namespace Matches

theorem empty : Matches false empty where
  single h := by cases h
  none _ := rfl
  once object h := absurd h (Nat.not_lt_zero object)
  dropped_lt object h := by cases h
  live_lt object h := by cases h

theorem make (h : Matches false r) : Matches true r.make where
  single _ := ⟨r.made, rfl, by simp [Resource.make, h.none rfl]⟩
  none h := by cases h
  once object hlt := by
    have hnil := h.none rfl
    have hlt' : object < r.made + 1 := hlt
    simp only [Resource.make, hnil, List.nil_append, List.mem_singleton]
    split
    · rename_i heq
      subst heq
      exact List.count_eq_zero.mpr fun hmem => Nat.lt_irrefl _ (h.dropped_lt _ hmem)
    · simpa [hnil] using h.once object (by omega)
  dropped_lt object hmem := Nat.lt_succ_of_lt (h.dropped_lt object hmem)
  live_lt object hmem := by
    simp only [Resource.make, h.none rfl, List.nil_append, List.mem_singleton] at hmem ⊢
    omega

theorem drop (h : Matches true r) : Matches false r.drop := by
  obtain ⟨object, hpointer, hlive⟩ := h.single rfl
  have hdrop : r.drop = { r with live := [], dropped := r.dropped ++ [object] } := by
    simp [Resource.drop, hpointer, hlive]
  have hlt : object < r.made := h.live_lt object (by simp [hlive])
  rw [hdrop]
  refine ⟨by simp, fun _ => rfl, fun o ho => ?_, fun o ho => ?_, by simp⟩
  · have hcount := h.once o ho
    simp only [hlive, List.mem_singleton] at hcount
    simp only [List.count_append, List.not_mem_nil, if_false, List.count_singleton]
    split at hcount <;> simp_all
    omega
  · rcases List.mem_append.mp ho with ho | ho
    · exact h.dropped_lt o ho
    · rw [List.mem_singleton.mp ho]
      exact hlt

/-- A pointer may be cleared when no object is live. -/
theorem clear (h : Matches false r) : Matches false { r with pointer := Option.none } :=
  ⟨by simp, h.none, h.once, h.dropped_lt, h.live_lt⟩

/-- A second object leaves two of them live. -/
theorem not_make (h : Matches true r) : ¬ Matches on r.make := by
  obtain ⟨object, -, hlive⟩ := h.single rfl
  intro h'
  cases on with
  | false => simpa [Resource.make] using h'.none rfl
  | true =>
    obtain ⟨o, -, ho⟩ := h'.single rfl
    simp [Resource.make, hlive] at ho

end Matches

end Tampi.Resource

namespace Tampi.Environment
open Transition

variable {B : Build} {s s' : Environment}

def enabled (s : Environment) : Bool := s.blockingMode || s.nonBlockingMode

/-- The polling instances and the allocators are those of the enabled modes. -/
structure ResourcesMatch (B : Build) (s : Environment) : Prop where
  polling : s.pollingInstance.Matches s.enabled
  completions : s.completionPollingInstance.Matches (s.enabled && B.completionEnabled)
  operations : s.operations.Matches s.enabled
  collOperations : s.collOperations.Matches s.enabled

namespace ResourcesMatch

theorem init : ResourcesMatch B (init B) := ⟨.empty, .empty, .empty, .empty⟩

theorem entered_enabled (required : Int) : (s.entered B required).enabled =
    (s.enablesBlocking B required || s.enablesNonBlocking B required) := by
  simp [enabled]

theorem entered (R : ResourcesMatch B s) (hoff : s.enabled = false) (required : Int) :
    ResourcesMatch B (s.entered B required) := by
  obtain ⟨h1, h2, h3, h4⟩ := R
  simp only [hoff, Bool.false_and] at h1 h2 h3 h4
  cases hon : s.enablesBlocking B required || s.enablesNonBlocking B required with
  | false =>
    constructor <;> rw [entered_enabled, hon] <;> simpa [entered_eq, hon]
  | true =>
    constructor <;> rw [entered_enabled, hon]
    · simpa [entered_eq, hon, makeResources] using h1.make
    · cases hc : B.completionEnabled with
      | false => simpa [entered_eq, hon, makeResources, hc] using h2
      | true => simpa [entered_eq, hon, makeResources, hc] using h2.make
    · simpa [entered_eq, hon, makeResources] using h3.make
    · simpa [entered_eq, hon, makeResources] using h4.make

/-- An initialization while a mode is enabled adds a polling instance or leaves the old one behind. -/
theorem not_entered (R : ResourcesMatch B s) (hon : s.enabled = true) (required : Int) :
    ¬ ResourcesMatch B (s.entered B required) := by
  intro R'
  have h := hon ▸ R.polling
  have h' := R'.polling
  rw [entered_enabled] at h'
  cases he : s.enablesBlocking B required || s.enablesNonBlocking B required with
  | true =>
    simp only [entered_eq, he, if_true, makeResources] at h'
    exact h.not_make h'
  | false =>
    simp only [entered_eq, he, Bool.false_eq_true, if_false] at h'
    obtain ⟨object, -, hlive⟩ := h.single rfl
    simpa [hlive] using h'.none rfl

theorem disable (R : ResourcesMatch B s) : ResourcesMatch B (s.disable B) := by
  obtain ⟨h1, h2, h3, h4⟩ := R
  have hoff : (s.disable B).enabled = false := by simp [disable_eq, enabled]
  cases hon : s.enabled with
  | false =>
    have hs : s.disable B = { s with
        blockingMode := false, nonBlockingMode := false, initialized := false, reported := none } := by
      rw [disable_eq, ← enabled, hon]
      rfl
    rw [hon] at h1 h2 h3 h4
    constructor <;> rw [hoff, hs]
    · exact h1
    · exact h2
    · exact h3
    · exact h4
  | true =>
    have hs : s.disable B = { s.dropResources B with
        blockingMode := false, nonBlockingMode := false, initialized := false, reported := none } := by
      rw [disable_eq, ← enabled, hon]
      rfl
    rw [hon] at h1 h2 h3 h4
    constructor <;> rw [hoff, hs]
    · exact h1.drop
    · cases hc : B.completionEnabled with
      | false => simpa [dropResources, hc] using h2
      | true => simpa [dropResources, hc] using (hc ▸ h2).drop
    · exact h3.drop.clear
    · exact h4.drop.clear

theorem move {l : EnvCall} (I : EnvInv B s) (R : ResourcesMatch B s) (h : EnvMove B s l s')
    (hguard : l.isTampiInit = true → s.enabled = false) : ResourcesMatch B s' := by
  cases h with
  | same => exact R
  | property =>
    unfold setProperty
    repeat' split
    all_goals exact { R with }
  | native => exact { R with }
  | auto _ hn _ =>
    obtain ⟨hb, hnb⟩ := I.modes_off hn
    refine entered (s := s.started _) { R with } ?_ _
    simp [enabled, started, hb, hnb]
  | explicit => exact R.entered (hguard rfl) _
  | finalized => exact R.disable

end ResourcesMatch

theorem step_tampiInit (h : s.step B (.tampiInit required provided runtime) = some s') :
    s' = s.entered B required := by
  simp only [step, EnvCall.provides, Option.isSome_none, Bool.false_and, Bool.false_eq_true, if_false,
    call, tampiInit] at h
  split at h
  · cases h
  · rename_i hcall
    cases h
    split at hcall <;> cases hcall
    obtain ⟨-, ⟨ha, -⟩ | ⟨-, he⟩⟩ := initializeLibrary_ok ‹_›
    · cases ha
    · obtain ⟨rfl, rfl⟩ := Prod.mk.inj he
      rfl

theorem step_unique (s : Environment) (l : EnvCall) (t t' : Environment)
    (h : (system B).step s l t) (h' : (system B).step s l t') : t = t' :=
  Option.some.inj (h.symm.trans h')

/-- In every sequence of calls that reaches no failure, the resources match the modes after each call
exactly when no `TAMPI_Init` is called while a mode is enabled. -/
theorem resources_match_iff {ls : List EnvCall} (h : (system B).Reaches (init B) ls s) :
    (∀ ls₁ ls₂ t, ls = ls₁ ++ ls₂ → (system B).Reaches (init B) ls₁ t → ResourcesMatch B t) ↔
      ∀ ls₁ l ls₂ t, ls = ls₁ ++ l :: ls₂ → (system B).Reaches (init B) ls₁ t →
        l.isTampiInit = true → t.enabled = false := by
  refine System.Reaches.always_iff (M := system B) ?_ .init ?_ h
  · exact step_unique
  · intro ks t l u hr hs R
    have I := EnvInv.of_reachable ⟨_, ks, rfl, hr⟩
    constructor
    · intro R' hl
      cases l with
      | tampiInit required provided runtime =>
        cases step_tampiInit hs
        by_contra hon
        exact R.not_entered (by simpa using hon) required R'
      | mpiInit | mpiInitThread | mpiFinalize | tampiFinalize | propertySet => cases hl
    · exact R.move I (step_cases I hs)

/-- After the explicit initialization there is one instance of each kind. -/
theorem resources_match_explicitInit : ∃ s,
    (system demoBuild).Reaches (init demoBuild) explicitInit s ∧ s.enabled = true ∧
      ResourcesMatch demoBuild s := by
  obtain ⟨s, hs, hon⟩ : ∃ s, (system demoBuild).Reaches (init demoBuild) explicitInit s ∧
      s.enabled = true :=
    ⟨_, .of_run (f := step demoBuild) (fun _ _ _ _ h => h) rfl, rfl⟩
  refine ⟨s, hs, hon, (resources_match_iff hs).mpr ?_ explicitInit [] s (by simp) hs⟩
  intro ls₁ l ls₂ t heq ht hl
  rcases ls₁ with _ | ⟨a, _ | ⟨b, _ | ⟨c, ls₁⟩⟩⟩
  · cases heq
    cases hl
  · cases heq
    cases hl
  · cases heq
    have ht' : (system demoBuild).Reaches (init demoBuild) (explicitInit.take 2) _ :=
      .of_run (f := step demoBuild) (fun _ _ _ _ h => h) rfl
    rw [ht.unique step_unique ht']
    rfl
  · simp [explicitInit] at heq

/-- A second `TAMPI_Init` registers second polling instances and makes second allocators; the first
ones stay live and nothing refers to them. -/
theorem resources_mismatch_of_second_init : ∃ s,
    (system demoBuild).Reaches (init demoBuild) (explicitInit ++ [.tampiInit 4 0 true]) s ∧
      s.enabled = true ∧ s.pollingInstance.live = [0, 1] ∧ s.operations.live = [0, 1] ∧
      ¬ ResourcesMatch demoBuild s := by
  refine ⟨_, .of_run (f := step demoBuild) (fun _ _ _ _ h => h) rfl, rfl, rfl, rfl, fun R => ?_⟩
  obtain ⟨object, -, hlive⟩ := R.polling.single rfl
  cases hlive

end Tampi.Environment
