/-
The two threads of the runtime and what they share (texas.cpp): the
producer fills slots of the current buffer and hands full or flushed
buffers over, the worker of `singleShadowProcessShadowBatches` cleans
and processes them and gives the buffers back.

# Memory

A buffer is a pointer. `NUM_BATCHES` of them are allocated by
`texas_init` and travel between the two queues; their contents stay in
one memory, which both threads write. Nothing is ever cleared, so a
slot keeps what its last use left there, in its cleaned form. The
memory just past a buffer belongs to no one: its content when a batch
is processed is a parameter of the run.

# Interleaving

A step of the producer is one slot filled, one batch handed over, or
one buffer taken back; a step of the worker is one batch popped and
cleaned, one slot visited, or one buffer returned. A schedule is any
list of turns, and the turn of a thread that must wait changes nothing:
`tryPop` spins and `waitPop` blocks. The queues are first in, first
out.

With `disableOptimizations` there is no second thread: a batch goes to
`serialProcessShadowBatch` directly, so the producer has no turn until
it is processed.

# Left out

The handshake of `FindCycleInAllocationMap` with the worker only makes
the producer wait; runs without the waiting include those with it.
-/
import Carmot.Texas.Pipeline
import Carmot.Texas.Producer

namespace Carmot.Texas

-- ======================================================= what is shared

/-- A `shadowEntry*` obtained from `malloc`. -/
abbrev BufferId := Nat

/-- `NUM_BATCHES`. -/
def numBatches : Nat := 4

/-- A `shadowBatch` of status `NEW_BATCH`. -/
structure ShadowBatch where
  shadowEntries : BufferId
  numEntries : Nat
  batchNumber : Nat
  deriving DecidableEq, Repr

/-- What `texasWorkEntriesQueue` carries. -/
inductive Work
  | newBatch (b : ShadowBatch)
  | killBatch
  deriving DecidableEq, Repr

/-- A slot, by the batch it is used for and its index. -/
structure SlotRef where
  batch : Nat
  index : Nat
  deriving DecidableEq, Repr

/-- Where the worker stands: in its loop, inside
`serialProcessShadowBatch` with the index it visits next, or returned. -/
inductive Worker
  | idle
  | processing (b : ShadowBatch) (i : Nat)
  | stopped
  deriving DecidableEq, Repr

/-- How far the program is: still calling, or in `ReportStatistics`
with the last batch handed over and, later, the kill batch pushed. -/
inductive Phase
  | calling | reported | killed
  deriving DecidableEq, Repr

/-- What a run is given. -/
structure Config where
  env : Env
  /-- `SHADOW_WINDOW`. -/
  window : Nat
  /-- The memory past the buffer when the batch of this number is
  processed. -/
  past : Nat → ShadowEntry

/-- Is there a worker thread? -/
def Config.serial (cfg : Config) : Bool := cfg.env.options.disableOptimizations

/-- Both threads, the queues and the buffers. `filled` and `visited`
are the slots `getFreeSlot` handed out and the ones
`processShadowBatch` executed, the latter with their content. -/
structure Threads where
  events : List Event
  phase : Phase
  slotStart : Nat
  /-- `none` while `batchFull` waits for a buffer. -/
  texasWorkEntries : Option BufferId
  curBatchNumber : Nat
  texasWorkEntriesQueue : List Work
  texasReadyBatchEntriesQueue : List BufferId
  memory : BufferId → Nat → ShadowEntry
  worker : Worker
  rt : Runtime
  filled : List SlotRef
  visited : List (SlotRef × ShadowEntry)

namespace Threads

/-- After `texas_init`, with the buffers as `malloc` left them. The
producer holds the first buffer. -/
def init (memory : BufferId → Nat → ShadowEntry) (events : List Event) : Threads where
  events := events
  phase := .calling
  slotStart := 0
  texasWorkEntries := some 0
  curBatchNumber := 0
  texasWorkEntriesQueue := []
  texasReadyBatchEntriesQueue := List.range' 1 (numBatches - 1)
  memory := memory
  worker := .idle
  rt := texasInit
  filled := []
  visited := []

-- =========================================================== the worker

/-- The entries of a batch. -/
def entries (m : Threads) (b : ShadowBatch) : List ShadowEntry :=
  (List.range b.numEntries).map (m.memory b.shadowEntries)

/-- Slot `i` as the processing loop reads it, past the buffer when the
batch fills it. -/
def slot (cfg : Config) (m : Threads) (b : ShadowBatch) (i : Nat) : ShadowEntry :=
  if i < cfg.window then m.memory b.shadowEntries i else cfg.past b.batchNumber

/-- `serialProcessShadowBatch` up to the processing loop: the batch is
cleaned in place. -/
def startBatch (cfg : Config) (m : Threads) (b : ShadowBatch) : Threads :=
  let (rt, cleaned) := cleanBatch cfg.env m.rt (m.entries b)
  { m with
    rt := rt
    memory := Function.update m.memory b.shadowEntries fun i =>
      cleaned[i]?.getD (m.memory b.shadowEntries i)
    worker := .processing b 0 }

/-- One turn of the worker. -/
def workerStep (cfg : Config) (m : Threads) : Option Threads :=
  match m.worker with
  | .idle =>
      match m.texasWorkEntriesQueue with
      | [] => none
      | .killBatch :: rest => some { m with texasWorkEntriesQueue := rest, worker := .stopped }
      | .newBatch b :: rest => some ({ m with texasWorkEntriesQueue := rest }.startBatch cfg b)
  | .processing b i =>
      -- the loop bound is `rightBound`, inclusive
      if i ≤ b.numEntries then
        let e := m.slot cfg b i
        some { m with
          rt := processEntry cfg.env m.rt e
          visited := m.visited ++ [(⟨b.batchNumber, i⟩, e)]
          worker := .processing b (i + 1) }
      else
        some { m with
          texasReadyBatchEntriesQueue := m.texasReadyBatchEntriesQueue ++ [b.shadowEntries]
          worker := .idle }
  | .stopped => none

-- ========================================================= the producer

/-- Hand a new batch of `numEntries` slots over. -/
def handOver (cfg : Config) (m : Threads) (buffer : BufferId) (numEntries : Nat) : Threads :=
  let b : ShadowBatch := ⟨buffer, numEntries, m.curBatchNumber⟩
  let m := { m with curBatchNumber := m.curBatchNumber + 1 }
  if cfg.serial then m.startBatch cfg b
  else { m with texasWorkEntriesQueue := m.texasWorkEntriesQueue ++ [.newBatch b] }

/-- `batchFull`, up to the wait for a buffer. -/
def batchFull (cfg : Config) (m : Threads) (buffer : BufferId) (capacityFill : Bool) : Threads :=
  let m := m.handOver cfg buffer (if capacityFill then cfg.window else m.slotStart)
  { m with slotStart := 0, texasWorkEntries := none }

/-- The slot `getFreeSlot` returns, and the stores of the call. -/
def fillSlot (m : Threads) (buffer : BufferId) (w : SlotWrite) : Threads :=
  { m with
    memory := Function.update m.memory buffer
      (Function.update (m.memory buffer) m.slotStart (w.fill (m.memory buffer m.slotStart)))
    slotStart := m.slotStart + 1
    filled := m.filled ++ [⟨m.curBatchNumber, m.slotStart⟩] }

/-- One turn of the producer. -/
def producerStep (cfg : Config) (m : Threads) : Option Threads :=
  if cfg.serial ∧ m.worker ≠ .idle then none
  else
    match m.texasWorkEntries with
    | none =>
        match m.texasReadyBatchEntriesQueue with
        | [] => none
        | buffer :: rest =>
            some { m with texasWorkEntries := some buffer, texasReadyBatchEntriesQueue := rest }
    | some buffer =>
        match m.phase, m.events with
        | .calling, .write w :: evs =>
            if m.slotStart ≥ cfg.window then some (m.batchFull cfg buffer true)
            else some ({ m with events := evs }.fillSlot buffer w)
        | .calling, .flush :: evs => some ({ m with events := evs }.batchFull cfg buffer false)
        | .calling, [] => some { m.handOver cfg buffer m.slotStart with phase := .reported }
        | .reported, _ =>
            if cfg.serial then none
            else some { m with
              phase := .killed
              texasWorkEntriesQueue := m.texasWorkEntriesQueue ++ [.killBatch] }
        | .killed, _ => none

/-- The point of `ReportStatistics` where the last batch is processed
and, with two threads, the worker is joined. -/
def Finished (cfg : Config) (m : Threads) : Prop :=
  (cfg.serial = true ∧ m.phase = .reported ∧ m.worker = .idle)
    ∨ (cfg.serial = false ∧ m.phase = .killed ∧ m.worker = .stopped)

instance (cfg : Config) (m : Threads) : Decidable (m.Finished cfg) :=
  inferInstanceAs (Decidable (_ ∨ _))

end Threads

-- ============================================================= schedules

/-- Whose turn it is. -/
inductive Turn
  | producer | worker
  deriving DecidableEq, Repr

/-- The move of a thread, if it can move. -/
def Threads.step (cfg : Config) (m : Threads) : Turn → Option Threads
  | .producer => m.producerStep cfg
  | .worker => m.workerStep cfg

/-- One turn; a thread that cannot move waits. -/
def Threads.turn (cfg : Config) (m : Threads) (t : Turn) : Threads := (m.step cfg t).getD m

/-- Any interleaving. -/
def Threads.run (cfg : Config) (m : Threads) (schedule : List Turn) : Threads :=
  schedule.foldl (Threads.turn cfg) m

-- ============================================================= divisions

/-- The batches a window divides the events into, by what the slots are
filled with: `cur` is in the buffer already. -/
def divide (window : Nat) : List SlotWrite → List Event → List (List SlotWrite)
  | cur, [] => [cur]
  | cur, .write w :: evs =>
      if cur.length ≥ window then cur :: divide window [w] evs
      else divide window (cur ++ [w]) evs
  | cur, .flush :: evs => cur :: divide window [] evs

end Carmot.Texas
