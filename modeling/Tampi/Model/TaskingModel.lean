import Tampi.Model.Environment
import Tampi.Model.Polling

/-! # The functions of the tasking runtime
(`TaskingModel.hpp`, `TaskingModel.cpp`, `Symbol.hpp`)

The library finds the functions of the tasking interface by their names when it is initialized, and
keeps them. A function the runtime may lack is not loaded then; calling it is the failed assertion of
`Symbol::operator()`. What the runtime answers while the library is initialized is an input. -/

namespace Tampi
open Function (update)

inductive AlpiFunction
  | errorString
  | infoGet
  | featureCheck
  | versionCheck
  | versionGet
  | taskSelf
  | taskBlock
  | taskUnblock
  | taskWaitforNs
  | taskEventsIncrease
  | taskEventsTest
  | taskEventsDecrease
  | taskSpawn
  | cpuCount
  | cpuLogicalId
  | cpuSystemId
  | taskSuspend
  | taskSuspendModeSet
  deriving DecidableEq, Repr

def AlpiFunction.name : AlpiFunction → String
  | .errorString => "alpi_error_string"
  | .infoGet => "alpi_info_get"
  | .featureCheck => "alpi_feature_check"
  | .versionCheck => "alpi_version_check"
  | .versionGet => "alpi_version_get"
  | .taskSelf => "alpi_task_self"
  | .taskBlock => "alpi_task_block"
  | .taskUnblock => "alpi_task_unblock"
  | .taskWaitforNs => "alpi_task_waitfor_ns"
  | .taskEventsIncrease => "alpi_task_events_increase"
  | .taskEventsTest => "alpi_task_events_test"
  | .taskEventsDecrease => "alpi_task_events_decrease"
  | .taskSpawn => "alpi_task_spawn"
  | .cpuCount => "alpi_cpu_count"
  | .cpuLogicalId => "alpi_cpu_logical_id"
  | .cpuSystemId => "alpi_cpu_system_id"
  | .taskSuspend => "alpi_task_suspend"
  | .taskSuspendModeSet => "alpi_task_suspend_mode_set"

def ALPI_VERSION_MAJOR : Int := 1
def ALPI_FEATURE_SUSPEND : Int := 8
def ALPI_SUCCESS : Int := 0
def ALPI_ERR_VERSION : Int := 1

/-- The tasking runtime the process is linked with. -/
structure Runtime where
  /-- What `dlsym` finds. -/
  exported : AlpiFunction → Bool
  /-- What `alpi_version_get` returns and writes. -/
  versionGet : Int
  provided : Int × Int
  versionCheck : Int → Int → Int
  featureCheck : Int → Int
  errorString : Int → String

inductive TaskingFailure
  | notFound (f : AlpiFunction)
  /-- `assert(_symbol != nullptr)`. -/
  | null (f : AlpiFunction)
  | failed (f : AlpiFunction) (string : String)
  | version (provided : Int × Int)
  | suspendForced
  | unknownMode (mode : String)
  deriving DecidableEq, Repr

def TaskingFailure.message : TaskingFailure → String
  | .notFound f => "Could not find symbol " ++ f.name
  | .null _ => "_symbol != nullptr"
  | .failed f string => "Failed " ++ f.name ++ ": " ++ string
  | .version provided => "Incompatible ALPI tasking interface versions:\n\tExpected: " ++
      toString ALPI_VERSION_MAJOR ++ ".0\n\tProvided: " ++ toString provided.1 ++ "." ++
      toString provided.2
  | .suspendForced => "Use of suspend polling API was forced, but the " ++
      "ALPI implementor does not support it"
  | .unknownMode mode => "Unknown polling mode requested: " ++ mode ++
      "\n\tExpected one of: suspend, blocking or auto.\n"

/-- The static members of `TaskingModel`, with the warnings emitted. -/
structure TaskingModel where
  loaded : AlpiFunction → Bool
  pollingFunction : Option PollingMode
  warnings : List String

namespace TaskingModel

def init : TaskingModel where
  loaded _ := false
  pollingFunction := none
  warnings := []

variable (R : Runtime) (s : TaskingModel)

/-- `Symbol::load`. -/
def load (f : AlpiFunction) (mandatory : Bool) : Except TaskingFailure TaskingModel :=
  if s.loaded f then .ok s
  else if R.exported f then .ok { s with loaded := update s.loaded f true }
  else if mandatory then .error (.notFound f)
  else .ok s

def loadAll : List (AlpiFunction × Bool) → TaskingModel → Except TaskingFailure TaskingModel
  | [], s => .ok s
  | (f, mandatory) :: fs, s =>
    match s.load R f mandatory with
    | .error e => .error e
    | .ok s => loadAll fs s

/-- The functions `initialize` loads, with whether they are mandatory. -/
def symbols (requireTaskBlockingAPI requireTaskEventsAPI : Bool) : List (AlpiFunction × Bool) :=
  [(.errorString, true), (.infoGet, false), (.featureCheck, false), (.versionCheck, true),
    (.versionGet, true), (.taskSelf, true)] ++
  (if requireTaskBlockingAPI then [(.taskBlock, true), (.taskUnblock, true)] else []) ++
  [(.taskWaitforNs, true)] ++
  (if requireTaskEventsAPI then
    [(.taskEventsIncrease, true), (.taskEventsTest, false), (.taskEventsDecrease, true)] else []) ++
  [(.taskSpawn, true), (.cpuCount, true), (.cpuLogicalId, true), (.cpuSystemId, true),
    (.taskSuspend, false), (.taskSuspendModeSet, false)]

/-- `ALPISymbol::callNative`, of a function that returns `err`. -/
def callNative (f : AlpiFunction) (err : Int) : Except TaskingFailure Int :=
  if s.loaded f then .ok err else .error (.null f)

def processFailure (f : AlpiFunction) (error : Int) : TaskingFailure :=
  if s.loaded .errorString then .failed f (R.errorString error) else .null .errorString

/-- `ALPISymbol::operator()`. -/
def call (f : AlpiFunction) (err : Int) : Except TaskingFailure Unit :=
  match s.callNative f err with
  | .error e => .error e
  | .ok err => if err ≠ 0 then .error (s.processFailure R f err) else .ok ()

/-- Whether the runtime supports the suspend API, as far as `initialize` may ask it. -/
def supportsSuspend : Except TaskingFailure Bool :=
  if 1 < R.provided.1 ∨ R.provided.1 = 1 ∧ 2 ≤ R.provided.2 then
    match s.callNative .featureCheck (R.featureCheck ALPI_FEATURE_SUSPEND) with
    | .error e => .error e
    | .ok err => .ok (err == ALPI_SUCCESS)
  else .ok false

/-- The end of `initialize`, with the value of `TAMPI_POLLING_MODE`. -/
def choosePolling (pollingMode : String) (useSuspendPolling : Bool) :
    Except TaskingFailure TaskingModel :=
  if pollingMode = "suspend" then
    if useSuspendPolling then .ok { s with pollingFunction := some .suspend }
    else .error .suspendForced
  else if pollingMode = "blocking" then
    .ok { s with
      pollingFunction := some .generic
      warnings := s.warnings ++
        if useSuspendPolling then ["Using blocking polling mode instead of suspend"] else [] }
  else if pollingMode = "auto" then
    .ok { s with
      pollingFunction := some (if useSuspendPolling then .suspend else .generic)
      warnings := s.warnings ++
        if useSuspendPolling then []
        else ["ALPI suspend not supported by tasking model, Using blocking polling implementation"] }
  else .error (.unknownMode pollingMode)

/-- `TaskingModel::initialize`. -/
def initializeModel (pollingMode : String) (requireTaskBlockingAPI requireTaskEventsAPI : Bool) :
    Except TaskingFailure TaskingModel :=
  if !requireTaskBlockingAPI && !requireTaskEventsAPI then .ok s
  else
    match s.loadAll R (symbols requireTaskBlockingAPI requireTaskEventsAPI) with
    | .error e => .error e
    | .ok s =>
      match s.call R .versionGet R.versionGet with
      | .error e => .error e
      | .ok () =>
        match s.callNative .versionCheck (R.versionCheck ALPI_VERSION_MAJOR 0) with
        | .error e => .error e
        | .ok err =>
          if err = ALPI_ERR_VERSION then .error (.version R.provided)
          else if err ≠ 0 then .error (s.processFailure R .versionCheck err)
          else
            match s.supportsSuspend R with
            | .error e => .error e
            | .ok useSuspendPolling => s.choosePolling pollingMode useSuspendPolling

end TaskingModel

/-- The functions of `TaskingModel` that call the runtime. -/
inductive TaskingCall
  | registerPolling
  | unregisterPolling
  | getCurrentTask
  | blockCurrentTask
  | unblockTask
  | increaseCurrentTaskEvents
  | decreaseTaskEvents
  | getNumLogicalCPUs
  | getCurrentLogicalCPU
  | genericPolling
  | suspendPolling
  deriving DecidableEq, Repr

/-- The functions of the runtime they call. -/
def TaskingCall.functions : TaskingCall → List AlpiFunction
  | .registerPolling => [.taskSpawn]
  | .unregisterPolling => [.taskWaitforNs]
  | .getCurrentTask => [.taskSelf]
  | .blockCurrentTask => [.taskBlock]
  | .unblockTask => [.taskUnblock]
  | .increaseCurrentTaskEvents => [.taskEventsIncrease]
  | .decreaseTaskEvents => [.taskEventsDecrease]
  | .getNumLogicalCPUs => [.cpuCount]
  | .getCurrentLogicalCPU => [.cpuLogicalId]
  | .genericPolling => [.taskWaitforNs]
  | .suspendPolling => [.taskSelf, .taskSuspendModeSet, .taskSuspend]

/-- The environment with the functions of the runtime it has found. -/
structure Library where
  environment : Environment
  taskingModel : TaskingModel

def EnvCall.withRuntime (runtime : Bool) : EnvCall → EnvCall
  | .mpiInit err level _ => .mpiInit err level runtime
  | .mpiInitThread required err level _ => .mpiInitThread required err level runtime
  | .tampiInit required provided _ => .tampiInit required provided runtime
  | l => l

namespace Library
variable (B : Build) (R : Runtime) (pollingMode : String) (s : Library)

def init : Library := ⟨.init B, .init⟩

/-- The call gets to `TaskingModel::initialize`: it is there that a call without a tasking runtime
stops. -/
def loads (l : EnvCall) : Bool :=
  match s.environment.call B (l.withRuntime false) with
  | .error .runtime => true
  | _ => false

/-- One call along a run that reaches no failure, in `TaskingModel::initialize` neither. -/
def step (l : EnvCall) : Option Library :=
  match s.environment.step B (l.withRuntime true) with
  | none => none
  | some e =>
    if s.loads B l then
      match s.taskingModel.initializeModel R pollingMode e.blockingMode e.nonBlockingMode with
      | .error _ => none
      | .ok t => some ⟨e, t⟩
    else some ⟨e, s.taskingModel⟩

def system : Transition.System Library EnvCall where
  init s := s = init B
  step s l s' := s.step B R pollingMode l = some s'

/-- A mode is enabled. -/
def on : Bool := s.environment.blockingMode || s.environment.nonBlockingMode

/-- The library makes the call only while a mode is enabled that needs it. -/
def makes : TaskingCall → Bool
  | .blockCurrentTask | .unblockTask => s.environment.blockingMode
  | .increaseCurrentTaskEvents | .decreaseTaskEvents => s.environment.nonBlockingMode
  | .genericPolling => s.on && s.taskingModel.pollingFunction == some .generic
  | .suspendPolling => s.on && s.taskingModel.pollingFunction == some .suspend
  | .registerPolling | .unregisterPolling | .getCurrentTask | .getNumLogicalCPUs
  | .getCurrentLogicalCPU => s.on

end Library

end Tampi
