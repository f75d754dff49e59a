/-
`shadowRun` and `Shadow::processShadowBatch` with all NUM_SHADOWS
shadows: each takes a sub-range of the cleaned batch and a table of its
own, and the tables and the work that found no block travel leftwards
to shadow 0, whose table is the global one.

# Turns

A shadow's thread runs in two halves: the loop over its sub-range, and,
once its right neighbour is done, the merge of that neighbour's table
and overflow work into its own. Here a half is one step, and the steps
come in any order the `done` flags allow. The threads of a batch are
started together, so nothing orders the loops among themselves.

# Slots

Work is passed on by pointer, so an overflow queue holds slots of the
buffer, by index. The buffer is part of the state: the walks along the
parents overwrite the state of the entry they are on. What stands in
the slots past the last entry is whatever the buffer held before.

`performed` is not in the source. It notes every slot a shadow was
through with, those it passed on excepted.
-/
import Carmot.Texas.Pipeline

namespace Carmot.Texas

-- ============================================================ sub-ranges

/-- `leftBound`, as `shadowRun` sets it. -/
def leftBound (numShadows numEntries tid : Nat) : Nat :=
  let subBatchSize := numEntries / numShadows
  if subBatchSize = 0 then 0 else tid * subBatchSize

/-- `rightBound`: the last index the loop visits. -/
def rightBound (numShadows numEntries tid : Nat) : Nat :=
  let subBatchSize := numEntries / numShadows
  let extraWork := numEntries % numShadows
  if subBatchSize = 0 then
    if tid = 0 then extraWork else 0
  else
    let bound := (tid + 1) * subBatchSize - 1
    if tid + 1 = numShadows then bound + extraWork else bound

/-- The slots a shadow's loop visits. -/
def subRange (numShadows numEntries tid : Nat) : List Nat :=
  let left := leftBound numShadows numEntries tid
  List.range' left (rightBound numShadows numEntries tid + 1 - left)

-- ============================================================= one entry

/-- The two operations no shadow but the leftmost may process. -/
def Operation.leftmostOnly : Operation → Bool
  | .stateCommit | .detectCycle => true
  | _ => false

/-- The address whose block the processing of an entry looks up. -/
def lookedUp (env : Env) (e : ShadowEntry) : Option Addr :=
  match e.operation with
  | .allocFree | .stateAddRead | .stateAddWrite | .stateAdd _ | .stateRegionSet => some e.ptr
  | .escapeAdd => if e.ptr = 0 ∨ env.mem e.ptr = 0 then none else some (env.mem e.ptr)
  | _ => none

/-- Does the lookup of an entry fail in this table? -/
def misses (env : Env) (allocs : AllocId → Allocation) (t : AllocationTable)
    (e : ShadowEntry) : Bool :=
  match lookedUp env e with
  | none => false
  | some p => (findAllocation allocs t p).isNone

/-- An entry after its walk along the parents: the walk overwrites the
entry's state and ends at the outermost one. Under cycle tracking a raw
access does not walk. -/
def leftAtRoot (env : Env) (e : ShadowEntry) : ShadowEntry :=
  let walked :=
    match (env.tree.chain? e.sizeState.getStatePtr).getLast? with
    | none => e
    | some root => { e with sizeState := .statePtr root }
  match e.operation with
  | .stateAddRead | .stateAddWrite => if env.options.trackCycles then e else walked
  | .stateAdd _ => walked
  | .stateRegionSet =>
      { e with affiliatedState := (env.tree.chain? e.affiliatedState).getLast? }
  | _ => e

-- =========================================================== the shadows

/-- Where a shadow is in `processShadowBatch`. -/
inductive ShadowPhase
  | start | looped | done
  deriving DecidableEq, Repr

/-- The shadows at work on one batch. The global table, shadow 0's, is
the one in the runtime; the queues and the phases go by thread id. -/
structure Shadows where
  rt : Runtime
  shadowEntries : Nat → ShadowEntry
  localAllocationTable : Nat → AllocationTable
  overflowWork : Nat → List Nat
  phase : Nat → ShadowPhase
  performed : List Nat

namespace Shadows

/-- Before the threads start: the local tables are as constructed, with
the mask for 8 bytes (the merges leave them cleared). -/
def init (rt : Runtime) (entries : List ShadowEntry) (past : Nat → ShadowEntry) : Shadows where
  rt := rt
  shadowEntries := fun i => entries[i]?.getD (past i)
  localAllocationTable := fun _ => AllocationTable.ofMasks [8]
  overflowWork := fun _ => []
  phase := fun _ => .start
  performed := []

/-- The table a shadow works on. -/
def table (sh : Shadows) (tid : Nat) : AllocationTable :=
  if tid = 0 then sh.rt.allocationMap else sh.localAllocationTable tid

def setTable (sh : Shadows) (tid : Nat) (t : AllocationTable) : Shadows :=
  if tid = 0 then { sh with rt := { sh.rt with allocationMap := t } }
  else { sh with localAllocationTable := Function.update sh.localAllocationTable tid t }

/-- `overflowWork->push_back`. -/
def pushBack (sh : Shadows) (tid slot : Nat) : Shadows :=
  { sh with
    overflowWork := Function.update sh.overflowWork tid (sh.overflowWork tid ++ [slot]) }

/-- The switch on a shadow's own table, without the passing on. -/
def perform (env : Env) (tid : Nat) (sh : Shadows) (slot : Nat) : Shadows :=
  let e := sh.shadowEntries slot
  let rt := processEntry env { sh.rt with allocationMap := sh.table tid } e
  let e := if misses env sh.rt.allocs (sh.table tid) e then e else leftAtRoot env e
  { setTable { sh with rt := { rt with allocationMap := sh.rt.allocationMap } } tid
      rt.allocationMap with
    shadowEntries := Function.update sh.shadowEntries slot e
    performed := sh.performed ++ [slot] }

/-- One slot of either loop: a commit or a cycle search goes onto the
LEFT neighbour's queue, work whose block is not found onto the shadow's
own, and shadow 0, which has no left neighbour, passes nothing on. -/
def processSlot (env : Env) (tid : Nat) (sh : Shadows) (slot : Nat) : Shadows :=
  let e := sh.shadowEntries slot
  if tid = 0 then sh.perform env tid slot
  else if e.operation.leftmostOnly then sh.pushBack (tid - 1) slot
  else if misses env sh.rt.allocs (sh.table tid) e then sh.pushBack tid slot
  else sh.perform env tid slot

/-- The first half of `processShadowBatch`. -/
def processPart (env : Env) (tid : Nat) (slots : List Nat) (sh : Shadows) : Shadows :=
  let sh := { sh with overflowWork := Function.update sh.overflowWork tid [] }
  slots.foldl (processSlot env tid) sh

/-- `Clear`: the masks stay. -/
def clear (t : AllocationTable) : AllocationTable :=
  { t with
    sortedAllocationTable := .empty
    hashAllocationTable := .empty }

/-- The second half: the right neighbour's table, then its queue. -/
def mergeRight (env : Env) (tid : Nat) (sh : Shadows) : Shadows :=
  let merged := mergeTable (sh.table tid) (sh.table (tid + 1)) true
  let sh := (sh.setTable tid merged).setTable (tid + 1) (clear (sh.table (tid + 1)))
  (sh.overflowWork (tid + 1)).foldl (processSlot env tid) sh

-- ============================================================= the turns

/-- The half a thread runs next. -/
inductive Turn
  | loop (tid : Nat)
  | merge (tid : Nat)
  deriving DecidableEq, Repr

/-- One turn; `none` when it is not the thread's turn. The rightmost
shadow is done after its loop. -/
def step (env : Env) (numShadows numEntries : Nat) (sh : Shadows) : Turn → Option Shadows
  | .loop tid =>
      if tid < numShadows ∧ sh.phase tid = .start then
        some { sh.processPart env tid (subRange numShadows numEntries tid) with
          phase := Function.update sh.phase tid
            (if tid + 1 = numShadows then .done else .looped) }
      else none
  | .merge tid =>
      if sh.phase tid = .looped ∧ sh.phase (tid + 1) = .done then
        some { sh.mergeRight env tid with phase := Function.update sh.phase tid .done }
      else none

/-- Some turns, each of which the flags allow. -/
def run (env : Env) (numShadows numEntries : Nat) (sh : Shadows) (turns : List Turn) :
    Option Shadows :=
  turns.foldlM (step env numShadows numEntries) sh

end Shadows

-- ============================================== what the turns should give

/-- The runtime but for the masks of the global table, which a merge
joins with those of the shadows' own. -/
def Runtime.unmasked (rt : Runtime) : Runtime :=
  { rt with allocationMap := { rt.allocationMap with masks := [] } }

/-- A slot that was through exactly once, after every slot before it. -/
def InTurn (performed : List Nat) (slot : Nat) : Prop :=
  ∃ before after, performed = before ++ slot :: after ∧ slot ∉ before ∧ slot ∉ after
    ∧ ∀ i < slot, i ∈ before

/-- Every entry is in exactly one sub-range, and nothing else is. -/
def Partitions (numShadows numEntries : Nat) : Prop :=
  (∀ i < numEntries, ∃! tid, tid < numShadows ∧ i ∈ subRange numShadows numEntries tid)
    ∧ ∀ tid < numShadows, ∀ i ∈ subRange numShadows numEntries tid, i < numEntries

/-- The shadows end where one shadow that processes the entries in
order ends. -/
structure Shadows.Agrees (env : Env) (rt : Runtime) (entries : List ShadowEntry)
    (sh : Shadows) : Prop where
  runtime : sh.rt.unmasked = (processEntries env rt entries).unmasked
  commits : ∀ e slot, entries[slot]? = some e → e.operation.leftmostOnly = true →
    InTurn sh.performed slot

/-- A global table between two batches. It is constructed without masks
and gets the one for 8 bytes, and the blocks stored under it, from the
shadows it is merged with. -/
structure AllocationTable.BetweenBatches (t : AllocationTable) : Prop where
  maskLengths_nil : t.maskLengths = []
  masked : t.hashAllocationTable = .empty ∨ maskForLength 8 ∈ t.masks

/-- On every starting runtime and whatever the slots past the batch
hold: the sub-ranges partition the batch, the threads can finish, and
in whatever order they do they agree with the one shadow. -/
def ShadowsAgree (env : Env) (numShadows : Nat) (entries : List ShadowEntry) : Prop :=
  Partitions numShadows entries.length ∧
    ∀ rt past, rt.allocationMap.BetweenBatches →
      (∃ turns sh, Shadows.run env numShadows entries.length (.init rt entries past) turns = some sh
        ∧ sh.phase 0 = .done)
      ∧ ∀ turns sh,
          Shadows.run env numShadows entries.length (.init rt entries past) turns = some sh →
          sh.phase 0 = .done → sh.Agrees env rt entries

end Carmot.Texas
