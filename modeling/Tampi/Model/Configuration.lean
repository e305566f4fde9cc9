import Mathlib.Algebra.Group.Nat.Defs
import Mathlib.Algebra.Order.Ring.Unbundled.Rat
import Mathlib.Logic.Function.Basic
import Tampi.Model.TicketManager

/-! # Environment variables and the controllers they configure
(`util/StringSupport.hpp`, `util/EnvironmentVariable.hpp`, `TicketManagerCapacityCtrl.hpp`,
`polling/PollingPeriodCtrl.cpp`, `polling/SlowStartPollingPeriodCtrl.hpp`)

A `std::string` is a list of characters, and a stream over one is the characters that are left.
`getline` and `extract` are what the C++ library documents of `std::getline` and of the formatted
extraction of a `uint64_t` in the classic locale. `.error` is a constructor that stops in
`ErrorHandler::fail`, with the text it is given. -/

namespace Tampi
open Function (update)

/-! ## Streams -/

/-- `std::getline(stream, line, delim)`: the line and what is left. `none` is the failed read of a
stream at its end. -/
def getline (delim : Char) (s : List Char) : Option (List Char × List Char) :=
  match s with
  | [] => none
  | _ => some (s.takeWhile (· ≠ delim), (s.dropWhile (· ≠ delim)).drop 1)

/-- The lines of a loop on `std::getline`; see `getlines_eq`. -/
def getlines (delim : Char) : List Char → List (List Char)
  | [] => []
  | c :: s =>
    if c = delim then [] :: getlines delim s
    else
      match getlines delim s with
      | [] => [[c]]
      | line :: lines => (c :: line) :: lines

/-- `std::isspace` in the classic locale. -/
def isspace (c : Char) : Bool :=
  c = ' ' || c = '\t' || c = '\n' || c = '\x0b' || c = '\x0c' || c = '\r'

def UINT64_MAX : Nat := 2 ^ 64 - 1

/-- What an extraction stores, and whether it sets the fail bit. -/
structure Extraction where
  /-- `none` is an operand that is not written. -/
  value : Option UInt64
  fail : Bool
  deriving DecidableEq, Repr

/-- The digits at the front of `s`, after a sign. A minus sign negates modulo `2^64`. -/
def extractDigits (negative : Bool) (s : List Char) : Extraction :=
  let digits := s.takeWhile Char.isDigit
  let n := Nat.ofDigitChars 10 digits 0
  if digits = [] then ⟨some 0, true⟩
  else if UINT64_MAX < n then ⟨some (.ofNat UINT64_MAX), true⟩
  else ⟨some (if negative then -.ofNat n else .ofNat n), false⟩

/-- `stream >> value` for a `uint64_t` at the front of the stream `s`. -/
def extract (s : List Char) : Extraction :=
  match s.dropWhile isspace with
  | [] => ⟨none, true⟩
  | '-' :: s => extractDigits true s
  | '+' :: s => extractDigits false s
  | s => extractDigits false s

/-! ## `StringSupport` -/

def split (str : List Char) (delim : Char) : List (List Char) :=
  (getlines delim str).filter (· ≠ [])

/-- `StringSupport::parse<T>`. `none` is the return of `false`, which leaves `value` as it was. -/
class Parse (T : Type) where
  parse : List Char → Option T

export Parse (parse)

instance : Parse UInt64 where
  parse str :=
    let e := extract str
    if e.fail then none else e.value

instance : Parse (List Char) where
  parse := some

/-- The output parameters of the parser of three elements. -/
structure Elements (T₁ T₂ T₃ : Type) where
  present : Fin 3 → Bool
  value1 : T₁
  value2 : T₂
  value3 : T₃

namespace Elements
variable {T₁ T₂ T₃ T : Type} [Parse T]

/-- The block for the element `i` of the parser: `false` is its early return. -/
def parseElement (components : List (List Char)) (i : Fin 3)
    (set : Elements T₁ T₂ T₃ → T → Elements T₁ T₂ T₃) (o : Elements T₁ T₂ T₃) :
    Bool × Elements T₁ T₂ T₃ :=
  match components[i]? with
  | none => (true, o)
  | some component =>
    match parse component with
    | none => (false, { o with present := update o.present i false })
    | some value => (true, set { o with present := update o.present i true } value)

/-- The blocks for the three elements. -/
def parseComponents [Parse T₁] [Parse T₂] [Parse T₃] (components : List (List Char))
    (o : Elements T₁ T₂ T₃) : Bool × Elements T₁ T₂ T₃ :=
  match o.parseElement components 0 (fun o v => { o with value1 := v }) with
  | (false, o) => (false, o)
  | (true, o) =>
    match o.parseElement components 1 (fun o v => { o with value2 := v }) with
    | (false, o) => (false, o)
    | (true, o) => o.parseElement components 2 (fun o v => { o with value3 := v })

end Elements

/-- `StringSupport::parse` of three elements, with the outputs it finds and the ones it leaves. -/
def parseThree [Parse T₁] [Parse T₂] [Parse T₃] (str : List Char) (o : Elements T₁ T₂ T₃)
    (delim : Char) : Bool × Elements T₁ T₂ T₃ :=
  let expected := str.count delim + 1
  let components := split str delim
  if components.length ≠ expected ∨ components.length > 3 then (false, o)
  else { o with present := fun _ => false }.parseComponents components

/-- The loop of `parseIndices` that appends a range; `none` if it takes more than `fuel` tests of
its condition. -/
def pushRange : Nat → UInt64 → UInt64 → List UInt64 → Option (List UInt64)
  | 0, _, _, _ => none
  | fuel + 1, i, end', indices =>
    if i ≤ end' then pushRange fuel (i + 1) end' (indices ++ [i]) else some indices

/-- The loop of `parseIndices` over the items, with what it returns and the indices so far. -/
def parseRanges (fuel : Nat) : List (List Char) → List UInt64 → Option (Bool × List UInt64)
  | [], indices => some (true, indices)
  | range :: ranges, indices =>
    if range = [] then parseRanges fuel ranges indices
    else if '-' ∉ range then
      match parse range with
      | none => some (false, indices)
      | some begin' => parseRanges fuel ranges (indices ++ [begin'])
    else
      match split range '-' with
      | [first, second] =>
        match parse first, parse second with
        | some begin', some end' =>
          if begin' > end' then some (false, indices)
          else
            match pushRange fuel begin' end' indices with
            | none => none
            | some indices => parseRanges fuel ranges indices
        | _, _ => some (false, indices)
      | _ => some (false, indices)

def parseIndices (fuel : Nat) (list : List Char) (indices : List UInt64) :
    Option (Bool × List UInt64) :=
  let ranges := split list ','
  if ranges = [] then some (true, indices) else parseRanges fuel ranges indices

/-! ## Environment variables -/

structure EnvironmentVariable (T : Type) where
  value : T
  isPresent : Bool
  deriving DecidableEq, Repr

/-- The constructor, for what `getenv` finds. -/
def EnvironmentVariable.read [Parse T] (valueString : Option (List Char)) (defaultValue : T) :
    EnvironmentVariable T :=
  match valueString.bind parse with
  | none => ⟨defaultValue, false⟩
  | some value => ⟨value, true⟩

/-! ## `TAMPI_CAPACITY` -/

namespace CapacityCtrl

/-- The extractions into `min` and `max` are not checked: `min₀` and `max₀` are what the two
uninitialized variables hold. -/
def parseCapacities (min₀ max₀ : UInt64) (policy : List Char) : Except String (UInt64 × UInt64) :=
  match getlines ':' policy with
  | [first] =>
    let min := (extract first).value.getD min₀
    .ok (min, min)
  | [first, second] =>
    .ok ((extract first).value.getD min₀, (extract second).value.getD max₀)
  | _ => .error "TAMPI_CAPACITY has format '<min capacity>[:<max capacity>]'"

theorem base_le_limit : 128 ≤ CapacityLimit := by decide

/-- The constructor, for the texts of `TAMPI_CAPACITY` and `TAMPI_CAPACITY_TIMEOUT`. -/
def create (min₀ max₀ : UInt64) (policyText timeoutText : Option (List Char)) :
    Except String CapacityCtrl :=
  let policy : EnvironmentVariable (List Char) := .read policyText []
  let timeout : EnvironmentVariable UInt64 := .read timeoutText 0
  let timeoutMs := if timeout.isPresent then timeout.value.toNat else 10
  if policy.isPresent then
    match parseCapacities min₀ max₀ policy.value with
    | .error reason => .error reason
    | .ok (min, max) =>
      if h : min.toNat ≤ max.toNat then .ok (.ofBounds min.toNat max.toNat timeoutMs h)
      else .error "Minimum capacity cannot be greater than maximum"
  else .ok (.ofBounds 128 CapacityLimit timeoutMs base_le_limit)

end CapacityCtrl

/-! ## `TAMPI_POLLING_PERIOD` -/

/-- The `double`s of the controller are exact rationals. -/
structure SlowStartPollingPeriodCtrl where
  minPeriod : Rat
  maxPeriod : Rat
  period : Rat
  factor : Rat
  misses : Int
  deriving DecidableEq, Repr

namespace SlowStartPollingPeriodCtrl

def Tolerance : Int := 50

def Penalty : Rat := 2

def MinBase : Rat := 10

def create (periodMin periodMax : Nat) : SlowStartPollingPeriodCtrl where
  minPeriod := periodMin
  maxPeriod := periodMax
  period := periodMax
  factor := 2
  misses := 0

/-- The controller after `run`, which does not use the number of pending units. -/
def run (c : SlowStartPollingPeriodCtrl) (completedUnits _pendingUnits : Nat) :
    SlowStartPollingPeriodCtrl :=
  if completedUnits = 0 ∧ c.misses + 1 < Tolerance then { c with misses := c.misses + 1 }
  else if completedUnits = 0 then
    let period := max (min (c.period * Penalty) c.maxPeriod) MinBase
    { c with
      misses := 0
      period := period
      factor := (3 / 2 * c.maxPeriod + 1 / 2 * period) / c.maxPeriod }
  else
    { c with
      misses := 0
      period := max (c.period / c.factor) c.minPeriod }

/-- What `run` returns: the conversion of the period to `uint64_t`. -/
def returned (c : SlowStartPollingPeriodCtrl) : Nat := c.period.floor.toNat

end SlowStartPollingPeriodCtrl

structure PollingPeriodCtrl where
  minPeriod : Nat
  maxPeriod : Nat
  policy : List Char
  /-- `none` is a static period. -/
  dynamicCtrl : Option SlowStartPollingPeriodCtrl
  deriving DecidableEq, Repr

namespace PollingPeriodCtrl

def DefaultPeriodUs : UInt64 := 100

def DefaultPolicy : List Char := "slowstart".toList

/-- The constructor, for the text of `TAMPI_POLLING_PERIOD`; `present` is not initialized. -/
def create (present : Fin 3 → Bool) (text : Option (List Char)) :
    Except String PollingPeriodCtrl :=
  let envar : EnvironmentVariable (List Char) :=
    .read text (Nat.toDigits 10 DefaultPeriodUs.toNat)
  let o : Elements UInt64 UInt64 (List Char) := ⟨present, 0, 0, []⟩
  let (parsed, o) := parseThree envar.value o ':'
  if parsed = false then
    .error "Invalid format TAMPI_POLLING_PERIOD=minperiod[:maxperiod[:policy]]"
  else
    let minPeriod := if o.present 0 then o.value1 else DefaultPeriodUs
    let maxPeriod := if o.present 1 then o.value2 else minPeriod
    let policy := if o.present 2 then o.value3 else DefaultPolicy
    if minPeriod > maxPeriod then
      .error "TAMPI_POLLING_PERIOD has a minperiod greater than maxperiod"
    else if maxPeriod ≠ minPeriod then
      if policy = "slowstart".toList ∨ policy = "default".toList then
        .ok ⟨minPeriod.toNat, maxPeriod.toNat, policy,
          some (.create minPeriod.toNat maxPeriod.toNat)⟩
      else .error ("TAMPI_POLLING_PERIOD has an invalid policy '" ++ String.ofList policy ++ "'")
    else .ok ⟨minPeriod.toNat, maxPeriod.toNat, policy, none⟩

/-- The period `getPeriod` returns, and the controller after it. -/
def getPeriod (c : PollingPeriodCtrl) (completed pending : Nat) : Nat × PollingPeriodCtrl :=
  match c.dynamicCtrl with
  | none => (c.maxPeriod, c)
  | some ctrl =>
    let ctrl := ctrl.run completed pending
    (ctrl.returned, { c with dynamicCtrl := some ctrl })

end PollingPeriodCtrl

end Tampi
