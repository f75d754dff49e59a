/-
Saving the results (wrapper.cpp): `PrintJSONWrapper` writes the Final
sets of every state, with the call stacks behind their ids.

Two lookups can fail. `getTraceAndStaticID` aborts on an id that
`dynamicTraces` does not know; and `getAllocationToSave` dereferences
`StateCommitInfoMap[state]`, which for a state without a record is the
null pointer the index operator has just inserted.

`FindCycleInAllocationMapWrapper` returns before its call of
`saveCycles`, so every call of `getAllocationToSave` is made by
`saveStateSet`, for a state of `stateMap`. Iteration over an unordered
container is modelled in ascending order.
-/
import Mathlib.Data.Finset.Image
import Mathlib.Data.Finset.Sort
import Carmot.Texas.Pipeline
import Carmot.Texas.Producer
import Carmot.Wrapper.Callstack
import Carmot.Wrapper.ToSave

namespace Carmot.Wrapper

open Carmot.Texas

/-- How saving ends early. -/
inductive SaveError
  /-- "uniqueID not found. Abort." -/
  | idNotFound (uniqueID : UInt64)
  /-- A null record is dereferenced. -/
  | noRecord
  deriving DecidableEq, Repr

/-- The globals saving consults. -/
structure SaveOptions where
  disableCallstack : Bool
  disableStateUses : Bool
  deriving DecidableEq, Repr

/-- The elements of a set of ids, in order. -/
def inOrder (ids : Finset UInt64) : List UInt64 :=
  ((ids.image UInt64.toNat).sort (· ≤ ·)).map UInt64.ofNat

section Save

variable (o : SaveOptions) (cs : Callstacks) (rt : Runtime)

/-- `getTraceAndStaticID`. -/
def getTraceAndStaticID (uniqueID : UInt64) : Except SaveError (Option Trace × UInt64) :=
  if o.disableCallstack then .ok (none, uniqueID)
  else
    match cs.dynamicTraces uniqueID with
    | none => .error (.idNotFound uniqueID)
    | some dynamicTrace => .ok (some dynamicTrace.trace, dynamicTrace.staticID)

/-- One use of `getAllocationToSave`. -/
def getUseToSave (useID : UInt64) : Except SaveError UseToSave := do
  let (useTrace, useStaticID) ← getTraceAndStaticID o cs useID
  return ⟨useTrace, useStaticID, useID⟩

/-- `getAllocationToSave`. -/
def getAllocationToSave (alloc : AllocId) (offsets : Finset UInt64) (state : StateId) :
    Except SaveError AllocationToSave := do
  let uniqueID := (rt.allocs alloc).origin
  let (trace, staticID) ← getTraceAndStaticID o cs uniqueID
  match (rt.allocs alloc).stateCommitInfoMap state with
  | none => throw .noRecord
  | some info =>
      let currAllocationToSave : AllocationToSave :=
        { trace, staticID, uniqueID, offsets
          pointer := (rt.allocs alloc).pointer
          length := (rt.allocs alloc).length
          uses := []
          isDirectState := info.regionBasedOffsets }
      if o.disableStateUses then return currAllocationToSave
      match (rt.sets state).allocationInfo alloc with
      | none => return currAllocationToSave
      | some usesIDSet =>
          let uses ← (inOrder usesIDSet).mapM (getUseToSave o cs)
          return { currAllocationToSave with uses }

/-- `saveStateSet`: the set's allocations, by creation number. -/
def saveStateSet (stateSet : AllocationsSet) (state : StateId) :
    Except SaveError (List AllocationToSave) :=
  ((List.range rt.numAllocs).filterMap fun a => (stateSet a).map fun offsets => (a, offsets)).mapM
    fun elem => getAllocationToSave o cs rt elem.1 elem.2 state

/-- The part of `PrintJSONWrapper` for one state. -/
def saveState (state : StateId) (info : StateInfo) : Except SaveError StateToSave := do
  let save := fun c => saveStateSet o cs rt ((rt.sets state).finals c) state
  let input ← save .input
  let output ← save .output
  let io ← save .io
  let co ← save .co
  let tout ← save .to
  let cio ← save .cio
  let tio ← save .tio
  return ⟨info.functionName, info.lineNumber, ⟨input, output, io, co, tout, cio, tio⟩⟩

/-- `PrintJSONWrapper`, from `ReportStatistics` on. -/
def printJSONWrapper (env : Env) (stateMap : StateMap) : Except SaveError StatesToSave := do
  let rt := reportStatistics env stateMap.ids rt
  let states ← (stateMap.states.zipIdx).mapM fun entry => do
    let stateToSave ← saveState o cs rt entry.2 entry.1
    return (UInt64.ofNat entry.2, stateToSave)
  return ⟨states⟩

end Save

/-- The calls of `getAllocationToSave` when the results are saved: one
for every allocation in a Final set of a state. -/
def SavedIn (rt : Runtime) (stateMap : List StateId) (a : AllocId) (s : StateId) : Prop :=
  s ∈ stateMap ∧ ∃ c offsets, (rt.sets s).finals c a = some offsets

end Carmot.Wrapper
