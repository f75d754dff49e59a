/-
How the compiler pass divides the loads and stores it instruments
(CatPass.cpp, `runOnModule`; OnlyRead.cpp, DirectState.cpp).

The loads and stores to instrument are the keys of `instToEntryMap`.
Six analyses propose candidates, one after the other; each passes over
what an earlier one took (`instsToSkip`). Two of the six have an
instrumentation of their own that is emitted; the regular
instrumentation takes what no analysis took.

The analyses themselves are NOELLE's loops, dependences and profiles:
what they decide about an instruction is a field of `RoiLoop` or
`Analyses`. The filters around them are the source's. The merging of
two `std::unordered_set`s is their union.
-/
import Mathlib.Data.Finset.Card
import Carmot.Texas.Basic

namespace Carmot.Pass

open Carmot.Texas (StateClass)

/-- The `MEMORYTOOL_DISABLE_*` options that say which analyses run; a
set one disables. -/
structure DisableOptions where
  onlyReadOpt : Bool
  directState : Bool
  loopInvariantStoreOpt : Bool
  mostlyLoopInvariantStoreOpt : Bool
  loopInductionStoreOpt : Bool
  baseAddressMostlyInvariantStoreOpt : Bool
  deriving DecidableEq, Repr

/-- The command-line options that matter to loads and stores. -/
structure PassOptions where
  enableDFAObjGranularity : Bool
  disableAllInstrumentation : Bool
  cycleFinding : Bool
  deriving DecidableEq, Repr

variable {Inst : Type}

/-- The loop a ROI is in: its instructions, block by block, and what
the analyses find about them. -/
structure RoiLoop (Inst : Type) where
  loopInstructions : List Inst
  nodup : loopInstructions.Nodup
  isInvariantLoad : Inst → Bool
  isInput : Inst → Bool
  isOutput : Inst → Bool
  isConnectedToLoopGovIndVar : Inst → Bool

/-- What is asked of a ROI: `getROILoop`, and whether its start has the
PROMOTE_ALLOCAS tag. -/
structure RoiInfo (Inst : Type) where
  roiLoop : Option (RoiLoop Inst)
  promoteAllocas : Bool

/-- What the analyses find in a module. -/
structure Analyses (Inst : Type) where
  rois : List (RoiInfo Inst)
  isLoopInvariant : Inst → Bool
  isLoopMostlyInvariant : Inst → Bool
  isLoopInduction : Inst → Bool
  isBaseAddressMostlyInvariant : Inst → Bool

-- =========================================================== only read

section Candidates

variable [DecidableEq Inst] (instsToSkip instToEntryMap : Finset Inst)

/-- Is the instruction a load or store that no earlier analysis took? -/
def isLeft (inst : Inst) : Bool := inst ∈ instToEntryMap && !decide (inst ∈ instsToSkip)

/-- `getOnlyReadLoads`. -/
def getOnlyReadLoads (l : RoiLoop Inst) : Finset Inst :=
  (l.loopInstructions.filter fun inst =>
    isLeft instsToSkip instToEntryMap inst && l.isInvariantLoad inst).toFinset

/-- One round of `getOnlyReadLoadsAll`: a ROI outside of loops is passed
over. -/
def addOnlyReadLoads (instsToInstrument : Finset Inst) (roi : RoiInfo Inst) : Finset Inst :=
  match roi.roiLoop with
  | none => instsToInstrument
  | some l => getOnlyReadLoads instsToSkip instToEntryMap l ∪ instsToInstrument

/-- `getOnlyReadLoadsAll`. -/
def getOnlyReadLoadsAll (rois : List (RoiInfo Inst)) : Finset Inst :=
  rois.foldl (addOnlyReadLoads instsToSkip instToEntryMap) ∅

-- ======================================================== direct state

/-- A `DirectStateLoadStore`, less the values its instrumentation
uses; `hasIndVar` is `startIndVar != nullptr`. -/
structure DirectStateLoadStore (Inst : Type) where
  inst : Inst
  hasIndVar : Bool
  fsaState : StateClass

/-- `getDirectStateLoadStore`. -/
def getDirectStateLoadStore (l : RoiLoop Inst) : List (DirectStateLoadStore Inst) :=
  l.loopInstructions.filterMap fun inst =>
    if isLeft instsToSkip instToEntryMap inst then
      if l.isInput inst then
        some ⟨inst, l.isConnectedToLoopGovIndVar inst, .input⟩
      else if l.isOutput inst then
        some ⟨inst, l.isConnectedToLoopGovIndVar inst, .output⟩
      else none
    else none

/-- What one round of `getDirectStateLoadStoreAll` inserts at the end:
nothing for a ROI outside of loops or without the tag. -/
def roiDirectState (roi : RoiInfo Inst) : List (DirectStateLoadStore Inst) :=
  match roi.roiLoop with
  | none => []
  | some l =>
      if roi.promoteAllocas then getDirectStateLoadStore instsToSkip instToEntryMap l else []

/-- `getDirectStateLoadStoreAll`: the ROIs' vectors, one after the
other. -/
def getDirectStateLoadStoreAll (rois : List (RoiInfo Inst)) : List (DirectStateLoadStore Inst) :=
  rois.flatMap (roiDirectState instsToSkip instToEntryMap)

/-- `getDirectStateLoadStoreInsts`. -/
def getDirectStateLoadStoreInsts (all : List (DirectStateLoadStore Inst)) : Finset Inst :=
  (all.map DirectStateLoadStore.inst).toFinset

/-- The instructions `instrumentDirectStateLoadStore` instruments, one
after the other. -/
def instrumentDirectStateLoadStore (all : List (DirectStateLoadStore Inst)) : List Inst :=
  all.filterMap fun elem =>
    if elem.fsaState = .input then some elem.inst
    else if elem.fsaState = .output ∧ elem.hasIndVar = true then some elem.inst
    else if elem.fsaState = .output ∧ elem.hasIndVar = false then some elem.inst
    else none

-- ================================================== the other analyses

/-- `getLoopInvariants`, `getLoopMostlyInvariants`, `getLoopInductions`
and `getBaseAddressMostlyInvariants`: the loads and stores that are
left and that the analysis finds. -/
def getCandidates (finds : Inst → Bool) : Finset Inst :=
  instToEntryMap.filter fun inst => !decide (inst ∈ instsToSkip) && finds inst

end Candidates

-- ========================================================= runOnModule

/-- The sets `runOnModule` has computed when it starts to modify the
bitcode. -/
structure ToInstrument (Inst : Type) where
  onlyReadToInstrument : Finset Inst
  directStateToInstrumentAll : List (DirectStateLoadStore Inst)
  instsToSkip : Finset Inst

section RunOnModule

variable [DecidableEq Inst]

/-- `runOnModule`, up to where it starts modifying the bitcode. -/
def computeSets (d : DisableOptions) (o : PassOptions) (a : Analyses Inst)
    (instToEntryMap : Finset Inst) : ToInstrument Inst :=
  let onlyRead := if d.onlyReadOpt then ∅ else getOnlyReadLoadsAll ∅ instToEntryMap a.rois
  let skip := ∅ ∪ onlyRead
  let directAll := if d.directState then [] else getDirectStateLoadStoreAll skip instToEntryMap a.rois
  let skip := skip ∪ getDirectStateLoadStoreInsts directAll
  let invariants :=
    if d.loopInvariantStoreOpt then ∅ else getCandidates skip instToEntryMap a.isLoopInvariant
  let skip := skip ∪ invariants
  let mostlyInvariants :=
    if d.mostlyLoopInvariantStoreOpt then ∅
    else getCandidates skip instToEntryMap a.isLoopMostlyInvariant
  let skip := skip ∪ mostlyInvariants
  let inductions :=
    if d.loopInductionStoreOpt then ∅
    else if o.enableDFAObjGranularity then getCandidates skip instToEntryMap a.isLoopInduction
    else ∅
  let skip := skip ∪ inductions
  let baseAddressMostlyInvariants :=
    if d.baseAddressMostlyInvariantStoreOpt then ∅
    else if o.enableDFAObjGranularity then
      getCandidates skip instToEntryMap a.isBaseAddressMostlyInvariant
    else ∅
  let skip := skip ∪ baseAddressMostlyInvariants
  ⟨onlyRead, directAll, skip⟩

/-- `instrumentLoadsStoresRegular`. -/
def instrumentLoadsStoresRegular (instToEntryMap alreadyInstrumented : Finset Inst) : Finset Inst :=
  instToEntryMap \ alreadyInstrumented

/-- The loads and stores that get an instrumentation, by its kind. -/
structure Instrumentation (Inst : Type) where
  onlyReads : Finset Inst
  directState : List Inst
  regular : Finset Inst

/-- `runOnModule`, from where it modifies the bitcode: without ROIs it
has returned already. The calls for invariants, mostly invariants,
inductions and base addresses are commented out. -/
def runOnModule (d : DisableOptions) (o : PassOptions) (a : Analyses Inst)
    (instToEntryMap : Finset Inst) : Instrumentation Inst :=
  let sets := computeSets d o a instToEntryMap
  if a.rois.isEmpty || o.disableAllInstrumentation || o.cycleFinding then ⟨∅, [], ∅⟩
  else
    { onlyReads := if d.onlyReadOpt then ∅ else sets.onlyReadToInstrument
      directState :=
        if d.directState then [] else instrumentDirectStateLoadStore sets.directStateToInstrumentAll
      regular := instrumentLoadsStoresRegular instToEntryMap sets.instsToSkip }

/-- How many instrumentations an instruction gets. -/
def Instrumentation.times (r : Instrumentation Inst) (inst : Inst) : Nat :=
  (if inst ∈ r.onlyReads then 1 else 0) + r.directState.count inst
    + if inst ∈ r.regular then 1 else 0

end RunOnModule

end Carmot.Pass
