/-
The wrappers the instrumented program calls (wrapper.cpp): what each
does with the call stacks, with the two sets of addresses it has seen,
and which calls of the runtime it makes.

`WrapperConfig.earlyReturns` is true of the source. Setting it to false
takes out the early returns of the loads and stores sets and nothing
else.

# The loop of a store

The counter of the loop over the elements of a store is an `int`, so a
step adds the element size and keeps the low 32 bits, sign-extended
when it is compared and added to the address. A loop that ends never
has one value twice, all below the size, so the size bounds its turns.

# Left out

`disableTexas` is false: with it no wrapper does anything. The vector
PIN hands over is an argument of its wrapper.
-/
import Mathlib.Data.Finset.Insert
import Carmot.Texas.Producer
import Carmot.Wrapper.Callstack
import Carmot.Wrapper.Save

namespace Carmot.Wrapper

open Carmot.Texas
open Carmot.Lib (Rw)

-- ============================================================= arguments

/-- An element of the vector PIN hands over (pin_interface.hpp). -/
inductive PinAddress
  | touched (address : Addr) (isWritten : Bool)
  | malloc (address : Addr) (size : UInt64)
  | free (address : Addr)
  deriving DecidableEq, Repr

/-- A call of a wrapper. -/
inductive WrapperCall
  | caratStateAlloc (id : UInt64) (address : Addr) (length : UInt64) (traceArg : Option Trace)
  | caratStateCalloc (id : UInt64) (address : Addr) (length sizeOfEntry : UInt64)
      (traceArg : Option Trace)
  | caratStateRealloc (id : UInt64) (address newAddress : Addr) (length : UInt64)
      (traceArg : Option Trace)
  | caratStateRemoveFromAllocationTable (address : Addr)
  | caratAddToEscapeTable (ptr : Addr)
  | texasAddToStateWithInfo (id : UInt64) (ptr : Addr) (sizeInBytes sizeElementInBytes : UInt64)
      (traceArg : Option Trace)
  | texasAddToStateLoad (id : UInt64) (ptr : Addr) (traceArg : Option Trace)
  | setDirectState (id : UInt64) (startPtr : Addr) (startIndVar stopIndVar : Int64)
      (elementBitwidth : UInt64) (stateToSet : StateClass) (traceArg : Option Trace)
  | texasAddMultiToStatePin (id : UInt64) (addresses : List PinAddress) (traceArg : Option Trace)
  | caratGetState (funcName : String) (lineNum : UInt64)
  | caratReportState (stateID : StateId)
  | endStateInvocation (stateID : StateId)
  | findCycleInAllocationMap (sync : Addr)

/-- The call's trace argument; `none` where it takes none. -/
def WrapperCall.traceArg? : WrapperCall → Option (Option Trace)
  | .caratStateAlloc _ _ _ traceArg | .caratStateCalloc _ _ _ _ traceArg
  | .caratStateRealloc _ _ _ _ traceArg | .texasAddToStateWithInfo _ _ _ _ traceArg
  | .texasAddToStateLoad _ _ traceArg | .setDirectState _ _ _ _ _ _ traceArg
  | .texasAddMultiToStatePin _ _ traceArg => some traceArg
  | _ => none

-- =============================================================== globals

/-- The sets `loads` and `stores`. -/
structure Seen where
  loads : Finset Addr
  stores : Finset Addr
  deriving DecidableEq

namespace Seen

/-- Nothing seen. -/
def empty : Seen := ⟨∅, ∅⟩

/-- The set of the kind. -/
def of (sn : Seen) : Rw → Finset Addr
  | .read => sn.loads
  | .write => sn.stores

/-- Add an address to the set of the kind. -/
def insert (sn : Seen) (p : Addr) : Rw → Seen
  | .read => { sn with loads := Insert.insert p sn.loads }
  | .write => { sn with stores := Insert.insert p sn.stores }

end Seen

/-- What the wrappers read and write. -/
structure Wrappers where
  callstacks : Callstacks
  seen : Seen
  producer : Producer

/-- Before the first call. -/
def Wrappers.init : Wrappers := ⟨Callstacks.init, Seen.empty, Producer.init⟩

/-- The globals `prologue` sets, the hash of the standard library, and
whether the early returns are there. -/
structure WrapperConfig where
  uint64Hash : UInt64 → UInt64
  save : SaveOptions
  options : Options
  earlyReturns : Bool

namespace WrapperConfig

variable (cfg : WrapperConfig)

-- ==================================================================== ids

/-- The id of an allocation. -/
def allocID (cs : Callstacks) (id : UInt64) (traceArg : Option Trace) : Callstacks × UInt64 :=
  if cfg.save.disableCallstack then (cs, id) else saveCallstack cfg.uint64Hash cs id traceArg

/-- The id of a use: 0 when uses are disabled. -/
def useID (cs : Callstacks) (id : UInt64) (traceArg : Option Trace) : Callstacks × UInt64 :=
  if cfg.save.disableStateUses then (cs, 0) else cfg.allocID cs id traceArg

-- =============================================================== accesses

/-- The check of the loads or stores set: `none` is the early return. -/
def checkSeen (sn : Seen) (p : Addr) (rw : Rw) : Option Seen :=
  if cfg.earlyReturns && decide (p ∈ sn.of rw) then none else some (sn.insert p rw)

end WrapperConfig

/-- An `int`, as its sign-extended 64 bits. -/
def asInt (i : UInt64) : UInt64 := i.toUInt32.toInt32.toInt64.toUInt64

/-- The values of the counter in the loop over a store's elements, from
`i` on. -/
def elementOffsets (sizeInBytes sizeElementInBytes : UInt64) : Nat → UInt64 → List UInt64
  | 0, _ => []
  | turns + 1, i =>
      if i < sizeInBytes then
        i :: elementOffsets sizeInBytes sizeElementInBytes turns (asInt (i + sizeElementInBytes))
      else []

/-- The addresses a store is recorded under. -/
def elements (ptr : Addr) (sizeInBytes sizeElementInBytes : UInt64) : List Addr :=
  (elementOffsets sizeInBytes sizeElementInBytes sizeInBytes.toNat 0).map (ptr + ·)

/-- The kind of an access PIN reports. -/
def pinRw (isWritten : Bool) : Rw := if isWritten then .write else .read

namespace WrapperConfig

variable (cfg : WrapperConfig)

/-- The loop of `texasAddMultiToStatePin`. An access outside of a ROI
returns from the whole wrapper. -/
def pinLoop (activeState : Option StateId) (uniqueID : UInt64) :
    Seen → List PinAddress → Seen × List Call
  | sn, [] => (sn, [])
  | sn, .touched address isWritten :: rest =>
      match activeState, cfg.checkSeen sn address (pinRw isWritten) with
      | none, _ => (sn, [])
      | some _, none => pinLoop activeState uniqueID sn rest
      | some _, some sn =>
          let (sn, calls) := pinLoop activeState uniqueID sn rest
          (sn, .addToState address (pinRw isWritten) uniqueID :: calls)
  | sn, .malloc address size :: rest =>
      let (sn, calls) := pinLoop activeState uniqueID sn rest
      (sn, .addToAllocationTable address size uniqueID :: calls)
  | sn, .free address :: rest =>
      let (sn, calls) := pinLoop activeState uniqueID sn rest
      (sn, .removeFromAllocationTable address :: calls)

-- =========================================================== the wrappers

/-- `caratStateAllocWrapper` and its two relatives: the stack is saved,
the table is called with its id. -/
def allocWrapper (w : Wrappers) (id : UInt64) (traceArg : Option Trace)
    (table : UInt64 → List Call) : Wrappers × List Call :=
  let (cs, uniqueID) := cfg.allocID w.callstacks id traceArg
  ({ w with callstacks := cs }, table uniqueID)

/-- `caratStateAllocWrapper`. -/
def caratStateAllocWrapper (w : Wrappers) (id : UInt64) (address : Addr) (length : UInt64)
    (traceArg : Option Trace) : Wrappers × List Call :=
  cfg.allocWrapper w id traceArg fun uniqueID => [.addToAllocationTable address length uniqueID]

/-- `caratStateCallocWrapper`: `AddCallocToAllocationTable` multiplies. -/
def caratStateCallocWrapper (w : Wrappers) (id : UInt64) (address : Addr)
    (length sizeOfEntry : UInt64) (traceArg : Option Trace) : Wrappers × List Call :=
  cfg.allocWrapper w id traceArg fun uniqueID =>
    [.addToAllocationTable address (length * sizeOfEntry) uniqueID]

/-- `caratStateReallocWrapper`: `HandleReallocInAllocationTable` removes
and adds. -/
def caratStateReallocWrapper (w : Wrappers) (id : UInt64) (address newAddress : Addr)
    (length : UInt64) (traceArg : Option Trace) : Wrappers × List Call :=
  cfg.allocWrapper w id traceArg fun uniqueID =>
    [.removeFromAllocationTable address, .addToAllocationTable newAddress length uniqueID]

/-- `texasAddToStateWithInfoWrapper` and `texasAddToStateLoad`: nothing
outside of a ROI, nothing for an address seen before. -/
def accessWrapper (w : Wrappers) (id : UInt64) (ptr : Addr) (rw : Rw) (traceArg : Option Trace)
    (addresses : List Addr) : Wrappers × List Call :=
  match w.producer.activeState, cfg.checkSeen w.seen ptr rw with
  | none, _ => (w, [])
  | some _, none => (w, [])
  | some _, some sn =>
      let (cs, uniqueID) := cfg.useID w.callstacks id traceArg
      ({ w with callstacks := cs, seen := sn },
        addresses.map fun p => .addToState p rw uniqueID)

/-- `texasAddToStateWithInfoWrapper`. -/
def texasAddToStateWithInfoWrapper (w : Wrappers) (id : UInt64) (ptr : Addr)
    (sizeInBytes sizeElementInBytes : UInt64) (traceArg : Option Trace) : Wrappers × List Call :=
  cfg.accessWrapper w id ptr .write traceArg (elements ptr sizeInBytes sizeElementInBytes)

/-- `texasAddToStateLoad`. -/
def texasAddToStateLoad (w : Wrappers) (id : UInt64) (ptr : Addr) (traceArg : Option Trace) :
    Wrappers × List Call :=
  cfg.accessWrapper w id ptr .read traceArg [ptr]

/-- `setDirectState`. -/
def setDirectState (w : Wrappers) (id : UInt64) (startPtr : Addr) (startIndVar stopIndVar : Int64)
    (elementBitwidth : UInt64) (stateToSet : StateClass) (traceArg : Option Trace) :
    Wrappers × List Call :=
  match w.producer.activeState with
  | none => (w, [])
  | some activeState =>
      let (cs, uniqueID) := cfg.useID w.callstacks id traceArg
      let lengthInBytes := ((stopIndVar - 1) - startIndVar).toUInt64 * elementBitwidth / 8
      ({ w with callstacks := cs },
        [.setStateRegion startPtr lengthInBytes activeState stateToSet uniqueID])

/-- `texasAddMultiToStatePin`: one id for the whole vector. -/
def texasAddMultiToStatePin (w : Wrappers) (id : UInt64) (addresses : List PinAddress)
    (traceArg : Option Trace) : Wrappers × List Call :=
  let (cs, uniqueID) := cfg.useID w.callstacks id traceArg
  let (sn, calls) := cfg.pinLoop w.producer.activeState uniqueID w.seen addresses
  ({ w with callstacks := cs, seen := sn }, calls)

/-- `caratReportStateWrapper`: both sets are cleared, whichever state
ends. -/
def caratReportStateWrapper (w : Wrappers) (stateID : StateId) : Wrappers × List Call :=
  ({ w with seen := Seen.empty }, [.endState stateID])

/-- `FindCycleInAllocationMapWrapper`, up to its wait. -/
def findCycleInAllocationMapWrapper (w : Wrappers) (sync : Addr) : Wrappers × List Call :=
  (w, if cfg.options.trackCycles then [.findCycleInAllocationMap sync 0xffffffffffffffff] else [])

/-- The body of the wrapper that is called. -/
def body (w : Wrappers) : WrapperCall → Wrappers × List Call
  | .caratStateAlloc id address length traceArg =>
      cfg.caratStateAllocWrapper w id address length traceArg
  | .caratStateCalloc id address length sizeOfEntry traceArg =>
      cfg.caratStateCallocWrapper w id address length sizeOfEntry traceArg
  | .caratStateRealloc id address newAddress length traceArg =>
      cfg.caratStateReallocWrapper w id address newAddress length traceArg
  | .caratStateRemoveFromAllocationTable address => (w, [.removeFromAllocationTable address])
  | .caratAddToEscapeTable ptr => (w, [.addToEscapeTable ptr])
  | .texasAddToStateWithInfo id ptr sizeInBytes sizeElementInBytes traceArg =>
      cfg.texasAddToStateWithInfoWrapper w id ptr sizeInBytes sizeElementInBytes traceArg
  | .texasAddToStateLoad id ptr traceArg => cfg.texasAddToStateLoad w id ptr traceArg
  | .setDirectState id startPtr startIndVar stopIndVar elementBitwidth stateToSet traceArg =>
      cfg.setDirectState w id startPtr startIndVar stopIndVar elementBitwidth stateToSet traceArg
  | .texasAddMultiToStatePin id addresses traceArg =>
      cfg.texasAddMultiToStatePin w id addresses traceArg
  | .caratGetState funcName lineNum => (w, [.getState funcName lineNum])
  | .caratReportState stateID => caratReportStateWrapper w stateID
  | .endStateInvocation stateID => (w, [.endStateInvocation stateID])
  | .findCycleInAllocationMap sync => cfg.findCycleInAllocationMapWrapper w sync

/-- One call: its body, and the calls of the runtime it makes. -/
def call (w : Wrappers) (c : WrapperCall) : Wrappers × List Call :=
  let (w, calls) := cfg.body w c
  ({ w with producer := (w.producer.calls cfg.options.trackCycles calls).1 }, calls)

/-- A sequence of calls. -/
def calls : Wrappers → List WrapperCall → Wrappers × List Call
  | w, [] => (w, [])
  | w, c :: cs =>
      let (w, made) := cfg.call w c
      let (w, rest) := calls w cs
      (w, made ++ rest)

end WrapperConfig

end Carmot.Wrapper
