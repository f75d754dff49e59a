/-
The program's half of the runtime (texas.cpp): the calls the
instrumented program makes, the interned ROI states, and what each call
stores in the slot `getFreeSlot` hands it.

A call takes at most one slot. `SlotWrite` names the fields it stores,
and `SlotWrite.fill` stores them over whatever the slot held before:
the buffers are recycled, so the other fields are stale.

# States

`stateMap` is keyed by consecutive ids, so it is the list of the states
in order of creation. A state is interned by function name and line;
its parent is the state that was active when it was created and never
changes, so every parent link goes to a smaller id. `StateMap` carries
that as a field, and `StateMap.tree` is the tree the worker walks.

# Left out

`inRT` is false whenever the program itself calls the runtime, so
`ENTER_RT` and `EXIT_RT` do nothing here. The naive state size, the
children set and the temporal graph of a state are read by reports
only.
-/
import Carmot.Texas.Basic

namespace Carmot.Texas

open Carmot.Lib (Rw getElem?_concat_eq_some)

-- ============================================================ slot writes

/-- What a call stores in its slot. -/
inductive SlotWrite
  | allocAdd (address : Addr) (length origin : UInt64) (state : Option StateId)
  | allocFree (address : Addr) (state : Option StateId)
  | escapeAdd (addressEscaping : Addr)
  | access (rw : Rw) (allocPtr : Addr) (id : UInt64)
  | stateBegin (s : StateId)
  | stateEnd (s : StateId)
  | stateCommit (s : StateId)
  | regionSet (startPtr : Addr) (lengthInBytes : UInt64) (state : Option StateId)
      (stateToSet : StateClass) (id : UInt64)
  | detectCycle (sync : Addr) (size : UInt64)
  | redundant
  deriving DecidableEq, Repr

/-- The operation code of an access (`STATE_ADD_READ + rw`). -/
def accessOperation : Rw → Operation
  | .read => .stateAddRead
  | .write => .stateAddWrite

/-- The slot after the call: the fields it stores, the rest stale. -/
def SlotWrite.fill (slot : ShadowEntry) : SlotWrite → ShadowEntry
  | .allocAdd address length origin state =>
      { slot with
        operation := .allocAdd
        ptr := address
        sizeState := .size length
        information := origin
        affiliatedState := state }
  | .allocFree address state =>
      { slot with operation := .allocFree, ptr := address, affiliatedState := state }
  | .escapeAdd addressEscaping =>
      { slot with operation := .escapeAdd, ptr := addressEscaping }
  | .access rw allocPtr id =>
      { slot with operation := accessOperation rw, ptr := allocPtr, information := id }
  | .stateBegin s => { slot with operation := .stateBegin, sizeState := .statePtr s }
  | .stateEnd s => { slot with operation := .stateEnd, sizeState := .statePtr s }
  | .stateCommit s => { slot with operation := .stateCommit, sizeState := .statePtr s }
  | .regionSet startPtr lengthInBytes state stateToSet id =>
      { slot with
        information := id
        operation := .stateRegionSet
        ptr := startPtr
        affiliatedState := state
        sizeState := .size lengthInBytes
        stateToSet := stateToSet }
  | .detectCycle sync size =>
      { slot with ptr := sync, operation := .detectCycle, sizeState := .size size }
  | .redundant =>
      { slot with information := 0, operation := .redundant, ptr := 0, sizeState := .size 0 }

/-- The slot a call leaves in a zeroed buffer. -/
def SlotWrite.entry (w : SlotWrite) : ShadowEntry := w.fill ShadowEntry.redundant

-- ============================================================= the states

/-- What a state keeps of the `GetState` call that created it. -/
structure StateInfo where
  functionName : String
  lineNumber : UInt64
  parent : Option StateId
  deriving DecidableEq, Repr

/-- `stateMap`: the states by id, each created under an older one. -/
structure StateMap where
  states : List StateInfo
  parent_lt : ∀ (s t : StateId) (info : StateInfo),
    states[s]? = some info → info.parent = some t → t < s

namespace StateMap

/-- No ROI was entered yet. -/
def empty : StateMap where
  states := []
  parent_lt s t info h _ := by simp at h

/-- The parent of a state, `none` for a root. -/
def parent (m : StateMap) (s : StateId) : Option StateId :=
  m.states[s]?.bind StateInfo.parent

/-- The search of `GetState`: at most one state has the name and the
line, so the order of the iteration does not matter. -/
def find (m : StateMap) (funcName : String) (lineNum : UInt64) : Option StateId :=
  m.states.findIdx? fun info =>
    decide (info.functionName = funcName ∧ info.lineNumber = lineNum)

/-- `new State(..)`, entered into the map under the next id. -/
def create (m : StateMap) (funcName : String) (lineNum : UInt64)
    (parentState : Option StateId)
    (hlt : ∀ t, parentState = some t → t < m.states.length) : StateMap where
  states := m.states ++ [⟨funcName, lineNum, parentState⟩]
  parent_lt s t info hs hp := by
    rcases getElem?_concat_eq_some.mp hs with hs | ⟨rfl, rfl⟩
    · exact m.parent_lt s t info hs hp
    · exact hlt t hp

/-- The parent links as the worker walks them. -/
def tree (m : StateMap) : StateTree where
  parent := m.parent
  parent_lt s t h := by
    unfold parent at h
    cases hs : m.states[s]? with
    | none => rw [hs] at h; cases h
    | some info =>
        rw [hs] at h
        exact m.parent_lt s t info hs h

/-- The ids `ReportStatistics` iterates over. -/
def ids (m : StateMap) : List StateId := List.range m.states.length

end StateMap

-- =========================================================== the producer

/-- The producer's globals: the states, and the active one. -/
structure Producer where
  stateMap : StateMap
  activeState : Option StateId
  active_lt : ∀ s, activeState = some s → s < stateMap.states.length

namespace Producer

/-- Before the first call. -/
def init : Producer where
  stateMap := StateMap.empty
  activeState := none
  active_lt s h := by cases h

/-- The state `GetState` activates, and the states with it: the interned
one, or a new one under the active state. -/
def getState (p : Producer) (funcName : String) (lineNum : UInt64) : Producer × StateId :=
  match h : p.stateMap.find funcName lineNum with
  | some s =>
      ({ stateMap := p.stateMap
         activeState := some s
         active_lt := fun t ht => by
          injection ht with ht
          rw [← ht]
          exact (List.findIdx?_eq_some_iff_getElem.mp h).1 }, s)
  | none =>
      ({ stateMap := p.stateMap.create funcName lineNum p.activeState p.active_lt
         activeState := some p.stateMap.states.length
         active_lt := fun t ht => by
          injection ht with ht
          rw [← ht]
          show p.stateMap.states.length
            < (p.stateMap.states ++ [StateInfo.mk funcName lineNum p.activeState]).length
          rw [List.length_append]
          exact Nat.lt_succ_self _ }, p.stateMap.states.length)

/-- Pop the active state: `EndState` goes to its parent, whatever id it
was given. -/
def popState (p : Producer) (s : StateId) (h : p.activeState = some s) : Producer where
  stateMap := p.stateMap
  activeState := p.stateMap.parent s
  active_lt t ht := Nat.lt_trans (p.stateMap.tree.parent_lt s t ht) (p.active_lt s h)

/-- `EndState`: the state it closes, none when no state is active. The
id only decides whether "Ending improper state" is logged. -/
def endState (p : Producer) (_stateID : StateId) : Producer × Option StateId :=
  match h : p.activeState with
  | none => (p, none)
  | some s => (p.popState s h, some s)

end Producer

-- ================================================================== calls

/-- The calls of the instrumented program. -/
inductive Call
  | addToAllocationTable (address : Addr) (length origin : UInt64)
  | removeFromAllocationTable (address : Addr)
  | addToAllocationTableIn (address : Addr) (length origin : UInt64) (state : Option StateId)
  | removeFromAllocationTableIn (address : Addr) (state : Option StateId)
  | addToEscapeTable (addressEscaping : Addr)
  | findCycleInAllocationMap (sync : Addr) (stateID : UInt64)
  | getState (funcName : String) (lineNum : UInt64)
  | endState (stateID : StateId)
  | endStateInvocation (stateID : StateId)
  | addToState (allocPtr : Addr) (rw : Rw) (id : UInt64)
  | setStateRegion (startPtr : Addr) (lengthInBytes : UInt64) (stateID : StateId)
      (stateToSet : StateClass) (id : UInt64)
  | addRedundantOp
  deriving DecidableEq, Repr

/-- What the producer does with the batch buffers, in order. -/
inductive Event
  /-- `getFreeSlot`, then the stores of the call. -/
  | write (w : SlotWrite)
  /-- `batchFull(false)`. -/
  | flush
  deriving DecidableEq, Repr

/-- One call: the globals after it, and what it does with the
buffers. -/
def Producer.call (trackCycles : Bool) (p : Producer) : Call → Producer × List Event
  | .addToAllocationTable address length origin =>
      (p, [.write (.allocAdd address length origin p.activeState)])
  | .removeFromAllocationTable address => (p, [.write (.allocFree address p.activeState)])
  | .addToAllocationTableIn address length origin state =>
      (p, [.write (.allocAdd address length origin state)])
  | .removeFromAllocationTableIn address state => (p, [.write (.allocFree address state)])
  | .addToEscapeTable addressEscaping =>
      (p, if trackCycles then [.write (.escapeAdd addressEscaping)] else [])
  | .findCycleInAllocationMap sync stateID =>
      (p, [.write (.detectCycle sync stateID), .flush])
  | .getState funcName lineNum =>
      let (p, s) := p.getState funcName lineNum
      (p, [.write (.stateBegin s)])
  | .endState stateID =>
      match p.endState stateID with
      | (p, none) => (p, [])
      | (p, some s) => (p, [.write (.stateEnd s)])
  | .endStateInvocation stateID =>
      -- an id `stateMap` does not have is answered with -1
      (p, if stateID < p.stateMap.states.length then
          [.write (.stateCommit stateID), .flush] else [])
  | .addToState allocPtr rw id =>
      (p, match p.activeState with
        | none => []
        | some _ => [.write (.access rw allocPtr id)])
  | .setStateRegion startPtr lengthInBytes stateID stateToSet id =>
      (p, [.write (.regionSet startPtr lengthInBytes
        (if stateID < p.stateMap.states.length then some stateID else none)
        stateToSet id)])
  | .addRedundantOp => (p, [.write .redundant])

/-- A sequence of calls. -/
def Producer.calls (trackCycles : Bool) : Producer → List Call → Producer × List Event
  | p, [] => (p, [])
  | p, c :: cs =>
      let (p, evs) := p.call trackCycles c
      let (p, rest) := calls trackCycles p cs
      (p, evs ++ rest)

end Carmot.Texas
