/-
The worker's half of the runtime: committing what allocations have
pending (Allocation.cpp, AllocationTable.cpp) and executing the entries
of a cleaned batch (Shadow.cpp), by the one shadow that
`serialProcessShadowBatch` creates. That shadow has no left neighbour,
so an entry whose address is not found is dropped, never passed on.

# The parent recursion

`processAddToState` and `processStateRegionSet` call themselves on the
parent state until there is none. The model recurses along the chain of
the entry's state instead, which is the same walk (`StateTree.chain`),
and keeps the early returns where the source has them: a failed lookup
and, under cycle tracking, an entry that is still a raw access both end
the walk.

# The loop bound

`processShadowBatch` visits every index up to AND INCLUDING
`rightBound`, and the serial caller sets `rightBound` to `numEntries`.
The slot at that index is handed to the model as `overrun`: it is
whatever the buffer, or the memory after it, holds there.
-/
import Carmot.Texas.AllocationTable

namespace Carmot.Texas

/-- Everything the worker reads and writes. -/
structure Runtime where
  /-- The pointer maps of each state. -/
  ptrs : StateId → StatePtrs
  oldState : Option StateId
  /-- The set half of each state. -/
  sets : StateId → StateSets
  /-- The allocation objects, by creation number. -/
  allocs : AllocId → Allocation
  numAllocs : Nat
  originToAllocMap : UInt64 → Option AllocId
  allocationMap : AllocationTable
  freshnessSetter : UInt64

/-- What the worker only reads: options, parent links, and the
program's memory as escape entries see it. -/
structure Env where
  options : Options
  tree : StateTree
  mem : Addr → UInt64

/-- The default options on the given states, in a zeroed memory. -/
def Env.ofTree (tree : StateTree) : Env where
  options := Options.default
  tree := tree
  mem := fun _ => 0

/-- The lookup in the runtime's own table. -/
def Runtime.find (rt : Runtime) (p : Addr) : Option AllocId :=
  findAllocation rt.allocs rt.allocationMap p

/-- Replace one allocation object. -/
def Runtime.setAlloc (rt : Runtime) (a : AllocId) (alloc : Allocation) : Runtime :=
  { rt with allocs := Function.update rt.allocs a alloc }

-- =========================================================== committing

/-- One state's share of `commitStateInfo`: the uses and the offsets
pending for allocation `a` join the state's own. A key of the offset
map that is none of the seven set codes has no set in the switch. -/
def StateSets.absorb (st : StateSets) (a : AllocId) (info : StateCommitInfo) :
    StateSets :=
  { st with
    allocationInfo := addOffsets st.allocationInfo a info.useInfo
    sets := fun c =>
      match info.stateSetToOffsetMap (.stateAdd c) with
      | none => st.sets c
      | some offs => addOffsets (st.sets c) a offs }

/-- A committed record is emptied and stays in place. -/
def StateCommitInfo.cleared (info : StateCommitInfo) : StateCommitInfo :=
  { info with
    useInfo := ∅
    stateSetToOffsetMap := fun op => (info.stateSetToOffsetMap op).map fun _ => ∅ }

/-- The records `commitStateInfo` keeps: it first erases those of every
state that is both on the chain of the object's affiliated state and on
the chain of the state to skip. -/
def keptInfo (tree : StateTree) (alloc : Allocation) (skipState : Option StateId) :
    StateId → Option StateCommitInfo := fun s =>
  if s ∈ tree.chain? alloc.affiliatedState ∧ s ∈ tree.chain? skipState then none
  else alloc.stateCommitInfoMap s

/-- `Allocation::commitStateInfo`. -/
def commitStateInfo (tree : StateTree) (skipState : Option StateId)
    (rt : Runtime) (a : AllocId) : Runtime :=
  let kept := keptInfo tree (rt.allocs a) skipState
  { rt with
    sets := fun s =>
      match kept s with
      | none => rt.sets s
      | some info => (rt.sets s).absorb a info
    allocs := Function.update rt.allocs a
      { rt.allocs a with
        stateCommitInfoMap := fun s => (kept s).map StateCommitInfo.cleared } }

section CommitSets

variable {tree : StateTree} {skipState : Option StateId} {rt : Runtime} {a : AllocId} {s : StateId}

theorem sets_commitStateInfo_of_none (h : keptInfo tree (rt.allocs a) skipState s = none) :
    (commitStateInfo tree skipState rt a).sets s = rt.sets s := by
  simp [commitStateInfo, h]

theorem sets_commitStateInfo_of_some {info : StateCommitInfo}
    (h : keptInfo tree (rt.allocs a) skipState s = some info) :
    (commitStateInfo tree skipState rt a).sets s = (rt.sets s).absorb a info := by
  simp [commitStateInfo, h]

end CommitSets

/-- `CommitStateInfoForAllocations`: every object of the table, once per
key it is stored under. -/
def commitStateInfoForAllocations (tree : StateTree) (rt : Runtime) : Runtime :=
  rt.allocationMap.objects.foldl (commitStateInfo tree none) rt

/-- `State::CommitState`: the temporary sets into the Final ones, and
the pointer maps emptied. -/
def commitState (rt : Runtime) (s : StateId) : Runtime :=
  { rt with
    sets := Function.update rt.sets s (commitSets (rt.sets s))
    ptrs := Function.update rt.ptrs s StatePtrs.empty }

-- ==================================================== allocation entries

/-- The states whose allocation lists an `ALLOC_ADD` extends: the
entry's state and its ancestors. -/
def noteAllocated (tree : StateTree) (aff : Option StateId) (a : AllocId)
    (rt : Runtime) : Runtime :=
  { rt with
    sets := fun s =>
      if s ∈ tree.chain? aff then
        { rt.sets s with
          allocsAllocatedInState := insert a (rt.sets s).allocsAllocatedInState }
      else rt.sets s }

/-- The object an `ALLOC_ADD` uses: the one its origin already has, with
pointer and length overwritten, or a new one. -/
def originObject (rt : Runtime) (e : ShadowEntry) : Runtime × AllocId :=
  match rt.originToAllocMap e.information with
  | none =>
      let a := rt.numAllocs
      ({ rt with
          allocs := Function.update rt.allocs a
            (Allocation.new e.ptr e.sizeState.getSize e.information)
          numAllocs := rt.numAllocs + 1
          originToAllocMap :=
            Function.update rt.originToAllocMap e.information (some a) }, a)
  | some a =>
      (rt.setAlloc a
        { rt.allocs a with pointer := e.ptr, length := e.sizeState.getSize }, a)

/-- `processAddAlloc`. -/
def processAddAlloc (env : Env) (rt : Runtime) (e : ShadowEntry) : Runtime :=
  let (rt, a) := originObject rt e
  let rt := { rt with
    allocationMap := insertAllocation rt.allocs rt.allocationMap e.ptr a }
  let rt := rt.setAlloc a { rt.allocs a with affiliatedState := e.affiliatedState }
  noteAllocated env.tree e.affiliatedState a rt

/-- `processFreeAllocation`: commit the object the address is found in,
then erase the address as a key. -/
def processFreeAllocation (env : Env) (rt : Runtime) (e : ShadowEntry) : Runtime :=
  match rt.find e.ptr with
  | none => rt
  | some a =>
      let rt := commitStateInfo env.tree e.affiliatedState rt a
      { rt with allocationMap := deleteAllocation rt.allocationMap e.ptr }

/-- `processAddEscape`: note the slot on the allocation its current
content points into. -/
def processAddEscape (env : Env) (rt : Runtime) (e : ShadowEntry) : Runtime :=
  if e.ptr = 0 ∨ env.mem e.ptr = 0 then rt
  else
    match rt.find (env.mem e.ptr) with
    | none => rt
    | some a =>
        rt.setAlloc a
          { rt.allocs a with
            allocToEscapeMap := insert e.ptr (rt.allocs a).allocToEscapeMap }

-- ========================================================= access entries

/-- Add an offset under a set code, creating the set when absent. -/
def StateCommitInfo.addOffset (info : StateCommitInfo) (op : Operation)
    (off : UInt64) : StateCommitInfo :=
  { info with
    stateSetToOffsetMap := Function.update info.stateSetToOffsetMap op
      (some (insert off ((info.stateSetToOffsetMap op).getD ∅))) }

/-- Replace one state's record on an allocation. -/
def Runtime.setInfo (rt : Runtime) (a : AllocId) (s : StateId)
    (info : StateCommitInfo) : Runtime :=
  rt.setAlloc a
    { rt.allocs a with
      stateCommitInfoMap :=
        Function.update (rt.allocs a).stateCommitInfoMap s (some info) }

/-- One state's recording of an access: the use id when there is one,
and the byte offset under the entry's operation code. -/
def recordAccess (e : ShadowEntry) (a : AllocId) (s : StateId) (rt : Runtime) :
    Runtime :=
  let info := ((rt.allocs a).stateCommitInfoMap s).getD StateCommitInfo.empty
  let info := if e.information ≠ 0 then
      { info with useInfo := insert e.information info.useInfo }
    else info
  rt.setInfo a s (info.addOffset e.operation (e.ptr - (rt.allocs a).pointer))

/-- The freshness stamp cycle tracking puts on a touched allocation. -/
def stampFreshness (a : AllocId) (rt : Runtime) : Runtime :=
  { rt.setAlloc a { rt.allocs a with freshness := rt.freshnessSetter } with
    freshnessSetter := rt.freshnessSetter + 1 }

/-- `processAddToState` along a chain of states. -/
def processAddToState (env : Env) (e : ShadowEntry) :
    Runtime → List StateId → Runtime
  | rt, [] => rt
  | rt, s :: parents =>
      match rt.find e.ptr with
      | none => rt
      | some a =>
          let rt := if env.options.trackCycles then stampFreshness a rt else rt
          if env.options.trackCycles && e.operation.isAccess then rt
          else processAddToState env e (recordAccess e a s rt) parents

/-- One state's recording of a region: the use id, and the two end
offsets under the code the entry sets. -/
def recordRegion (e : ShadowEntry) (a : AllocId) (s : StateId) (rt : Runtime) :
    Runtime :=
  let info := ((rt.allocs a).stateCommitInfoMap s).getD StateCommitInfo.empty
  let info := { info with useInfo := insert e.information info.useInfo }
  let beginningOffset := getOffset (rt.allocs a).pointer e.ptr
  let endOffset := beginningOffset + e.sizeState.getSize
  let info := { info with regionBasedOffsets := true }
  rt.setInfo a s
    ((info.addOffset (.stateAdd e.stateToSet) beginningOffset).addOffset
      (.stateAdd e.stateToSet) endOffset)

/-- `processStateRegionSet` along a chain of states. -/
def processStateRegionSet (e : ShadowEntry) : Runtime → List StateId → Runtime
  | rt, [] => rt
  | rt, s :: parents =>
      match rt.find e.ptr with
      | none => rt
      | some a => processStateRegionSet e (recordRegion e a s rt) parents

-- ============================================================== the loop

/-- The switch of `processShadowBatch`. A `DETECT_CYCLE` builds the
connection graph and touches nothing modelled here; the codes the
switch does not list fall through it. -/
def processEntry (env : Env) (rt : Runtime) (e : ShadowEntry) : Runtime :=
  match e.operation with
  | .allocAdd => processAddAlloc env rt e
  | .allocFree => processFreeAllocation env rt e
  | .escapeAdd => processAddEscape env rt e
  | .stateAddRead | .stateAddWrite | .stateAdd _ =>
      processAddToState env e rt (env.tree.chain? e.sizeState.getStatePtr)
  | .stateCommit =>
      match e.sizeState.getStatePtr with
      | none => commitStateInfoForAllocations env.tree rt
      | some s => commitState (commitStateInfoForAllocations env.tree rt) s
  | .stateRegionSet =>
      processStateRegionSet e rt (env.tree.chain? e.affiliatedState)
  | _ => rt

section ProcessEntry

variable {env : Env} {e : ShadowEntry} (rt : Runtime)

theorem processEntry_allocAdd (h : e.operation = .allocAdd) :
    processEntry env rt e = processAddAlloc env rt e := by
  simp only [processEntry, h]

theorem processEntry_allocFree (h : e.operation = .allocFree) :
    processEntry env rt e = processFreeAllocation env rt e := by
  simp only [processEntry, h]

theorem processEntry_escapeAdd (h : e.operation = .escapeAdd) :
    processEntry env rt e = processAddEscape env rt e := by
  simp only [processEntry, h]

theorem processEntry_access (h : e.operation.isAccess = true ∨ ∃ c, e.operation = .stateAdd c) :
    processEntry env rt e
      = processAddToState env e rt (env.tree.chain? e.sizeState.getStatePtr) := by
  rcases Operation.access_kinds h with h | h | ⟨c, h⟩
  · simp only [processEntry, h]
  · simp only [processEntry, h]
  · simp only [processEntry, h]

theorem processEntry_regionSet (h : e.operation = .stateRegionSet) :
    processEntry env rt e = processStateRegionSet e rt (env.tree.chain? e.affiliatedState) := by
  simp only [processEntry, h]

end ProcessEntry

/-- Execute entries in order. -/
def processEntries (env : Env) (rt : Runtime) (es : List ShadowEntry) : Runtime :=
  es.foldl (processEntry env) rt

/-- `processShadowBatch` as the serial caller bounds it: the batch's
entries, then the slot at index `numEntries`. -/
def processShadowBatch (env : Env) (rt : Runtime) (entries : List ShadowEntry)
    (overrun : ShadowEntry) : Runtime :=
  processEntries env rt (entries ++ [overrun])

end Carmot.Texas
