/-
Whole runs of the runtime, batch after batch, as the single worker
executes them: `texas_init`, `serialProcessShadowBatch` on every batch
in order, and the worker's half of `ReportStatistics`.

A batch comes with the content of the slot just past its end, which
the processing loop visits as well (see Shadow.lean).
-/
import Carmot.Texas.Clean

namespace Carmot.Texas

open Carmot.Lib (SortedMap)

-- ======================================================== initialisation

/-- The highest address: the key of the entry no allocation lies
above. -/
def maxAddr : Addr := 0xffffffffffffffff

/-- The runtime after `texas_init`: the sentinel is object 0, stored
under the highest address with length 0, and no origin knows it. -/
def texasInit : Runtime where
  ptrs := fun _ => StatePtrs.empty
  oldState := none
  sets := fun _ => StateSets.empty
  allocs := Function.update (fun _ => Allocation.new 0 0 0) 0
    (Allocation.new maxAddr 0 0)
  numAllocs := 1
  originToAllocMap := fun _ => none
  allocationMap :=
    { AllocationTable.new with
      sortedAllocationTable := SortedMap.empty.insert maxAddr 0 }
  freshnessSetter := 1

-- ================================================================ batches

/-- A batch as the worker meets it: the filled entries, and the slot at
index `numEntries`. -/
structure Batch where
  entries : List ShadowEntry
  overrun : ShadowEntry

/-- `serialProcessShadowBatch`: clean, then process. -/
def serialProcessShadowBatch (env : Env) (rt : Runtime) (b : Batch) : Runtime :=
  let (rt, entries) := cleanBatch env rt b.entries
  processShadowBatch env rt entries b.overrun

/-- Every batch in order, each cleaned and processed before the next is
cleaned. -/
def runBatches (env : Env) (rt : Runtime) (bs : List Batch) : Runtime :=
  bs.foldl (serialProcessShadowBatch env) rt

theorem runBatches_append (env : Env) (rt : Runtime) (bs cs : List Batch) :
    runBatches env rt (bs ++ cs) = runBatches env (runBatches env rt bs) cs :=
  List.foldl_append

/-- Every batch passed through `cleanBatch`, in order. -/
def cleanBatches (env : Env) (rt : Runtime) (bs : List (List ShadowEntry)) : Runtime :=
  bs.foldl (fun rt b => (cleanBatch env rt b).1) rt

-- ============================================================== the report

/-- `ReportStatistics` once the last batch is processed: commit what
the allocations of the table have pending, commit every state of
`stateMap`, report every state. Printing and the cycle search leave no
trace in the modelled state. -/
def reportStatistics (env : Env) (stateMap : List StateId) (rt : Runtime) : Runtime :=
  let rt := commitStateInfoForAllocations env.tree rt
  let rt := stateMap.foldl commitState rt
  { rt with
    sets := fun s => if s ∈ stateMap then reportState (rt.sets s) else rt.sets s }

-- ======================================================= cuts do not matter

/-- Cleaning a division into batches moves the cleaner as one first
pass over the whole run does. -/
theorem cleanBatches_cleaner (env : Env) (bs : List (List ShadowEntry)) :
    ∀ rt : Runtime, (cleanBatches env rt bs).cleaner
      = (firstPass env rt.cleaner bs.flatten).1 := by
  induction bs with
  | nil => intro rt; rfl
  | cons b bs ih =>
      intro rt
      show (cleanBatches env (cleanBatch env rt b).1 bs).cleaner = _
      rw [ih, cleanBatch_cleaner, List.flatten_cons, firstPass_append]

end Carmot.Texas
