import Mathlib.Logic.Function.Basic
import Tampi.Theory.Transition

/-! # The environment (`Environment.hpp`, `c/InitFinalize.cpp`, `c/Utils.cpp`)

The library is initialized with MPI or by `TAMPI_Init`, and finalized with MPI or by
`TAMPI_Finalize`. The functions below are the bodies of the API functions, which run one at a time
under the mutex of the environment; `.error` is a call that stops in `ErrorHandler::fail` or at an
assertion. The answers of the native MPI functions and of the tasking runtime are inputs. -/

namespace Tampi
open Function (update)

def MPI_SUCCESS : Int := 0

/-- What the MPI implementation and the configuration of the library fix. -/
structure Build where
  threadSingle : Int
  threadMultiple : Int
  /-- `MPI_ERR_ARG`, and what the native `MPI_Query_thread` returns before `MPI_Init`. -/
  errArg : Int
  errOther : Int
  disableBlockingMode : Bool
  disableNonBlockingMode : Bool
  /-- `CompletionManager::isEnabled()`. -/
  completionEnabled : Bool
  errArg_ne : errArg ≠ MPI_SUCCESS

/-- `MPI_TASK_MULTIPLE`. -/
def Build.taskMultiple (B : Build) : Int := B.threadMultiple + 1

def TAMPI_PROPERTY_BLOCKING_MODE : Int := 0x1
def TAMPI_PROPERTY_NONBLOCKING_MODE : Int := 0x2
def TAMPI_PROPERTY_AUTO_INIT : Int := 0x3
def TAMPI_PROPERTY_THREAD_TASKAWARE : Int := 0x4

inductive EnvFailure
  | initBeforeMpi
  | explicitInit
  | explicitFinalize
  | finalizeBeforeInit
  | taskMultiple
  /-- In `TaskingModel::initialize` or `Instrument::initialize`. -/
  | runtime
  | assertion (condition : String)
  deriving DecidableEq, Repr

def EnvFailure.message : EnvFailure → String
  | .initBeforeMpi => "Intializing TAMPI before MPI is invalid"
  | .explicitInit | .explicitFinalize => "Explicitly initializing TAMPI is invalid by default"
  | .finalizeBeforeInit => "Finalizing TAMPI before initializing is invalid"
  | .taskMultiple => "The MPI_TASK_MULTIPLE must be passed to TAMPI_Init"
  | .runtime => "Could not find symbol "
  | .assertion condition => condition

/-- A global pointer to an object made on the heap, with the objects made and not dropped. An object
is named by how many were made before it; `dropped` is a history variable. -/
structure Resource where
  pointer : Option Nat
  live : List Nat
  made : Nat
  dropped : List Nat
  deriving DecidableEq, Repr

namespace Resource
variable (r : Resource)

def empty : Resource := ⟨none, [], 0, []⟩

/-- The pointer is set to a new object, whatever it was. -/
def make : Resource :=
  { r with pointer := some r.made, live := r.live ++ [r.made], made := r.made + 1 }

/-- The object the pointer refers to is dropped; dropping a null pointer has no effect. -/
def drop : Resource :=
  match r.pointer with
  | none => r
  | some object => { r with live := r.live.erase object, dropped := r.dropped ++ [object] }

end Resource

/-- `Environment::_state`, with the resources the library makes and what the native MPI knows. -/
structure Environment where
  preinitialized : Bool
  initialized : Bool
  autoInitialize : Bool
  nativeThreadLevel : Int
  threadTaskAwareness : Nat → Bool
  blockingMode : Bool
  nonBlockingMode : Bool
  pollingInstance : Resource
  completionPollingInstance : Resource
  operations : Resource
  collOperations : Resource
  /-- The level the native MPI provided when it was initialized. -/
  native : Option Int
  /-- History variable: the last level returned in `*provided` by an initialization, until a
  finalization. -/
  reported : Option Int

namespace Environment

def init (B : Build) : Environment where
  preinitialized := false
  initialized := false
  autoInitialize := true
  nativeThreadLevel := B.threadSingle
  threadTaskAwareness _ := true
  blockingMode := false
  nonBlockingMode := false
  pollingInstance := .empty
  completionPollingInstance := .empty
  operations := .empty
  collOperations := .empty
  native := none
  reported := none

variable (B : Build) (s : Environment)

def isBlockingEnabled : Bool := s.blockingMode

def isNonBlockingEnabled : Bool := s.nonBlockingMode

def isBlockingEnabledForCurrentThread (thread : Nat) : Bool :=
  s.threadTaskAwareness thread && s.isBlockingEnabled

/-- `none` is the error. -/
def getProperty (thread : Nat) (property : Int) : Option Int :=
  if property = TAMPI_PROPERTY_BLOCKING_MODE then some s.blockingMode.toInt
  else if property = TAMPI_PROPERTY_NONBLOCKING_MODE then some s.nonBlockingMode.toInt
  else if property = TAMPI_PROPERTY_THREAD_TASKAWARE then some (s.threadTaskAwareness thread).toInt
  else if property = TAMPI_PROPERTY_AUTO_INIT then some s.autoInitialize.toInt
  else none

def setProperty (thread : Nat) (property value : Int) : Environment × Int :=
  if property = TAMPI_PROPERTY_BLOCKING_MODE ∨ property = TAMPI_PROPERTY_NONBLOCKING_MODE then (s, 1)
  else if property = TAMPI_PROPERTY_THREAD_TASKAWARE then
    ({ s with threadTaskAwareness := update s.threadTaskAwareness thread (value != 0) }, 0)
  else if property = TAMPI_PROPERTY_AUTO_INIT then
    if s.preinitialized then (s, 1) else ({ s with autoInitialize := value != 0 }, 0)
  else (s, 1)

/-- `Environment::preinitialize`. -/
def preinitializeLibrary (provided : Int) : Except EnvFailure Environment :=
  if s.preinitialized then .error (.assertion "!_state.preinitialized")
  else if s.initialized then .error (.assertion "!_state.initialized")
  else .ok { s with nativeThreadLevel := provided, preinitialized := true }

def shouldEnableBlocking (level : Int) : Bool :=
  !B.disableBlockingMode && level == B.taskMultiple

def shouldEnableNonBlocking (level : Int) : Bool :=
  !B.disableNonBlockingMode && (level == B.taskMultiple || level == B.threadMultiple)

def shouldInitialize (automatic : Bool) : Except EnvFailure Bool :=
  if !s.preinitialized then .error .initBeforeMpi
  else if !automatic && s.autoInitialize then .error .explicitInit
  else .ok (!automatic || s.autoInitialize)

def shouldFinalize (automatic : Bool) : Except EnvFailure Bool :=
  if automatic && !s.autoInitialize then .ok s.initialized
  else if !automatic && s.autoInitialize then .error .explicitFinalize
  else if !s.initialized then .error .finalizeBeforeInit
  else .ok true

/-- `Allocator::initialize` and `Polling::initialize`. -/
def makeResources : Environment :=
  { s with
    operations := s.operations.make
    collOperations := s.collOperations.make
    pollingInstance := s.pollingInstance.make
    completionPollingInstance := if B.completionEnabled then s.completionPollingInstance.make
      else s.completionPollingInstance }

/-- `Polling::finalize` and `Allocator::finalize`; only the latter clears its pointers. -/
def dropResources : Environment :=
  { s with
    pollingInstance := s.pollingInstance.drop
    completionPollingInstance := if B.completionEnabled then s.completionPollingInstance.drop
      else s.completionPollingInstance
    operations := { s.operations.drop with pointer := none }
    collOperations := { s.collOperations.drop with pointer := none } }

/-- `Environment::initialize` after its checks: the environment and `*provided`. -/
def enable (required : Int) : Environment × Int :=
  -- the modes are off when the native MPI does not support multithreading
  let multiple := s.nativeThreadLevel == B.threadMultiple
  let enableBlocking := multiple && shouldEnableBlocking B required
  let enableNonBlocking := multiple && shouldEnableNonBlocking B required
  let s := if enableBlocking || enableNonBlocking then s.makeResources B else s
  ({ s with
    blockingMode := enableBlocking
    nonBlockingMode := enableNonBlocking
    initialized := true },
    if enableBlocking then B.taskMultiple else s.nativeThreadLevel)

/-- `Environment::finalize` after its checks. -/
def disable : Environment :=
  let s := if s.blockingMode || s.nonBlockingMode then s.dropResources B else s
  { s with
    blockingMode := false
    nonBlockingMode := false
    initialized := false
    reported := none }

/-- `Environment::initialize`; `runtime` says whether the tasking runtime and the instrumentation can
be loaded. -/
def initializeLibrary (required provided : Int) (automatic runtime : Bool) :
    Except EnvFailure (Environment × Int) :=
  match s.shouldInitialize automatic with
  | .error f => .error f
  | .ok false => .ok (s, provided)
  | .ok true => if runtime then .ok (s.enable B required) else .error .runtime

/-- `Environment::finalize`. -/
def finalizeLibrary (automatic : Bool) : Except EnvFailure Environment :=
  match s.shouldFinalize automatic with
  | .error f => .error f
  | .ok false => .ok s
  | .ok true => .ok (s.disable B)

/-! ## The API functions -/

/-- `MPI_Query_thread`; `none` is an error of the native function. -/
def mpiQueryThread : Option Int := if s.blockingMode then some B.taskMultiple else s.native

/-- What follows a successful native initialization that provided `provided`. -/
def nativeInitialized (required provided : Int) (runtime : Bool) : Except EnvFailure Environment :=
  match s.preinitializeLibrary provided with
  | .error f => .error f
  | .ok s =>
    match s.initializeLibrary B required provided true runtime with
    | .error f => .error f
    | .ok (s, provided) => .ok { s with reported := some provided }

/-- The native `MPI_Init` returns `err` and, on success, the native MPI provides `level`. -/
def mpiInit (err level : Int) (runtime : Bool) : Except EnvFailure (Environment × Int) :=
  if err ≠ MPI_SUCCESS then .ok (s, err)
  else
    let s := { s with native := some level }
    match s.mpiQueryThread B with
    | none => .ok (s, B.errOther)
    | some provided =>
      match s.nativeInitialized B provided provided runtime with
      | .error f => .error f
      | .ok s => .ok (s, MPI_SUCCESS)

/-- The native `MPI_Init_thread`, called with `MPI_THREAD_MULTIPLE` in place of `MPI_TASK_MULTIPLE`,
returns `err` and provides `level`. -/
def mpiInitThread (required err level : Int) (runtime : Bool) :
    Except EnvFailure (Environment × Int) :=
  if !s.autoInitialize && required == B.taskMultiple then .error .taskMultiple
  else if err ≠ MPI_SUCCESS then .ok (s, err)
  else
    match { s with native := some level }.nativeInitialized B required level runtime with
    | .error f => .error f
    | .ok s => .ok (s, MPI_SUCCESS)

def mpiFinalize (err : Int) : Except EnvFailure (Environment × Int) :=
  if err ≠ MPI_SUCCESS then .ok (s, err)
  else
    match s.finalizeLibrary B true with
    | .error f => .error f
    | .ok s => .ok (s, MPI_SUCCESS)

/-- `provided` is what `*provided` holds before the call. -/
def tampiInit (required provided : Int) (runtime : Bool) : Except EnvFailure (Environment × Int) :=
  match s.initializeLibrary B required provided false runtime with
  | .error f => .error f
  | .ok (s, provided) => .ok ({ s with reported := some provided }, MPI_SUCCESS)

def tampiFinalize : Except EnvFailure (Environment × Int) :=
  match s.finalizeLibrary B false with
  | .error f => .error f
  | .ok s => .ok (s, MPI_SUCCESS)

def tampiPropertySet (thread : Nat) (property value : Int) : Environment × Int :=
  let (s, err) := s.setProperty thread property value
  (s, if err ≠ 0 then B.errArg else MPI_SUCCESS)

def tampiPropertyGet (thread : Nat) (property : Int) : Option Int := s.getProperty thread property

end Environment

/-- A call of the API, with the answers of the native functions and of the runtime. -/
inductive EnvCall
  | mpiInit (err level : Int) (runtime : Bool)
  | mpiInitThread (required err level : Int) (runtime : Bool)
  | mpiFinalize (err : Int)
  | tampiInit (required provided : Int) (runtime : Bool)
  | tampiFinalize
  | propertySet (thread : Nat) (property value : Int)
  deriving DecidableEq, Repr

/-- The level a native initialization provides. -/
def EnvCall.provides : EnvCall → Option Int
  | .mpiInit err level _ | .mpiInitThread _ err level _ =>
    if err = MPI_SUCCESS then some level else none
  | _ => none

def EnvCall.isTampiInit : EnvCall → Bool
  | .tampiInit .. => true
  | _ => false

namespace Environment
variable (B : Build) (s : Environment)

/-- The environment and the returned code after a call. -/
def call : EnvCall → Except EnvFailure (Environment × Int)
  | .mpiInit err level runtime => s.mpiInit B err level runtime
  | .mpiInitThread required err level runtime => s.mpiInitThread B required err level runtime
  | .mpiFinalize err => s.mpiFinalize B err
  | .tampiInit required provided runtime => s.tampiInit B required provided runtime
  | .tampiFinalize => s.tampiFinalize B
  | .propertySet thread property value => .ok (s.tampiPropertySet B thread property value)

/-- One call along a run that reaches no failure. The native MPI can be initialized once. -/
def step (l : EnvCall) : Option Environment :=
  if l.provides.isSome && s.native.isSome then none
  else
    match s.call B l with
    | .error _ => none
    | .ok (s, _) => some s

def system : Transition.System Environment EnvCall where
  init s := s = init B
  step s l s' := s.step B l = some s'

end Environment

end Tampi
