/-
The transfer footprint `ReportState` prints (State.cpp): the sizes of
the allocations in the state's `TransferIO` and `TransferOutput`, added
up at the moment of printing.

`ReportStatistics` commits every state before it reports any, so this
module spells out the part of it that Pipeline.lean leaves silent: the
loop over `stateMap` with the line each state prints. Of that line the
id and the footprint are kept; `naiveStateSize` is set elsewhere.
-/
import Mathlib.Algebra.BigOperators.Group.Finset.Basic
import Mathlib.Algebra.Order.BigOperators.Group.Finset
import Carmot.Texas.Pipeline

namespace Carmot.Texas

-- =========================================================== the footprint

/-- The keys of `TransferIO` and of `TransferOutput`, each once. -/
def transferAllocs (rt : Runtime) (st : StateSets) : List AllocId :=
  (List.range rt.numAllocs).filter fun a =>
    (st.sets .tio a).isSome || (st.sets .to a).isSome

/-- `GetTransferStateMemoryFootprint`. -/
def getTransferStateMemoryFootprint (rt : Runtime) (st : StateSets) : UInt64 :=
  (transferAllocs rt st).foldl (fun stateSize a => stateSize + (rt.allocs a).length) 0

-- ============================================================= the printing

/-- The line a state prints: its id and its footprint. -/
structure FootprintLine where
  stateID : StateId
  stateMemoryFootprint : UInt64
  deriving DecidableEq, Repr

/-- `ReportState` in the loop of `ReportStates`: the line is printed
before the sets are cleaned. -/
def printState (printed : Runtime × List FootprintLine) (s : StateId) :
    Runtime × List FootprintLine :=
  let (rt, lines) := printed
  let line := ⟨s, getTransferStateMemoryFootprint rt (rt.sets s)⟩
  ({ rt with sets := Function.update rt.sets s (reportState (rt.sets s)) }, lines ++ [line])

/-- `ReportStates`. -/
def reportStates (stateMap : List StateId) (rt : Runtime) : Runtime × List FootprintLine :=
  stateMap.foldl printState (rt, [])

/-- `ReportStatistics` once the last batch is processed, with what it
prints. -/
def printStatistics (env : Env) (stateMap : List StateId) (rt : Runtime) :
    Runtime × List FootprintLine :=
  let rt := commitStateInfoForAllocations env.tree rt
  let rt := stateMap.foldl commitState rt
  reportStates stateMap rt

-- ======================================================== what it should say

/-- Is an offset recorded for the allocation? A key with an empty set
does not count. -/
def AllocationsSet.hasOffset (m : AllocationsSet) (a : AllocId) : Bool :=
  match m a with
  | none => false
  | some offs => decide (offs ≠ ∅)

/-- The sum of the lengths of the distinct allocations with an offset in
`FinalTransferIO` or `FinalTransferOutput`. -/
def finalTransferFootprint (rt : Runtime) (s : StateId) : Nat :=
  ∑ a ∈ Finset.range rt.numAllocs with
      ((rt.sets s).finals .tio).hasOffset a || ((rt.sets s).finals .to).hasOffset a,
    (rt.allocs a).length.toNat

/-- Every line the report prints for a state gives the footprint of the
Final sets the report leaves. -/
def FootprintRight (env : Env) (stateMap : List StateId) (rt : Runtime) (s : StateId) : Prop :=
  ∀ line ∈ (printStatistics env stateMap rt).2, line.stateID = s →
    line.stateMemoryFootprint.toNat
      = finalTransferFootprint (printStatistics env stateMap rt).1 s

end Carmot.Texas
