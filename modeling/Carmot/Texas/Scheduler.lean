/-
The loop of `processShadowBatches`: batches come off the work queue,
one thread cleans them, the shadows process them, each in number order.

A whole clean or a whole processing is one step here, and the steps of
the two may come in any order the loop's tests allow: a batch is cleaned
when it is the next new one, and processed when it is the next cleaned
one. Nothing keeps the cleaner from running ahead.

`singleShadowProcessShadowBatches` is `runBatches` (Pipeline.lean). Both
loops process a batch the same way here, so that they differ in the
order only.
-/
import Carmot.Texas.Pipeline

namespace Carmot.Texas

/-- What the loop keeps: the runtime, the work queue, the batches to
clean (the first has `cleaningBatchNumber`) and the cleaned ones (the
first has `servingBatchNumber`). -/
structure Scheduler where
  rt : Runtime
  texasWorkEntriesQueue : List Batch
  newShadowBatches : List Batch
  cleanedShadowBatches : List Batch

namespace Scheduler

/-- With every batch in the queue. -/
def init (bs : List Batch) : Scheduler := ⟨texasInit, bs, [], []⟩

/-- What an iteration of the loop can complete. -/
inductive Step
  | pop | clean | process
  deriving DecidableEq, Repr

/-- One step; `none` when the loop's test for it fails. -/
def step (env : Env) (sch : Scheduler) : Step → Option Scheduler
  | .pop =>
      match sch.texasWorkEntriesQueue with
      | [] => none
      | entry :: queue =>
          some { sch with
            texasWorkEntriesQueue := queue
            newShadowBatches := sch.newShadowBatches ++ [entry] }
  | .clean =>
      match sch.newShadowBatches with
      | [] => none
      | batchToClean :: rest =>
          let (rt, entries) := cleanBatch env sch.rt batchToClean.entries
          some { sch with
            rt := rt
            newShadowBatches := rest
            cleanedShadowBatches :=
              sch.cleanedShadowBatches ++ [{ batchToClean with entries := entries }] }
  | .process =>
      match sch.cleanedShadowBatches with
      | [] => none
      | batchToProcess :: rest =>
          some { sch with
            rt := processShadowBatch env sch.rt batchToProcess.entries batchToProcess.overrun
            cleanedShadowBatches := rest }

/-- Some steps, each of which the loop allows. -/
def run (env : Env) (sch : Scheduler) (steps : List Step) : Option Scheduler :=
  steps.foldlM (step env) sch

/-- The test before the loop returns: every batch has been processed. -/
def Finished (sch : Scheduler) : Prop :=
  sch.texasWorkEntriesQueue = [] ∧ sch.newShadowBatches = [] ∧ sch.cleanedShadowBatches = []

end Scheduler

end Carmot.Texas
