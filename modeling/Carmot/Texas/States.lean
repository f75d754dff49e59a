/-
The ROI states as objects in memory (State.cpp, texas.cpp), and the
walks along their parent pointers as the source makes them (Shadow.cpp,
Allocation.cpp).

The other modules name a `State*` by its `stateID` and keep the states
in a list by id, with parents at smaller ids. Here a `State*` is an
address, an id is the `uint64_t` that `GetState` takes from
`currentStateID`, and nothing relates the key of a state in `stateMap`,
its id and its parent but what the calls do.

# New objects

`new State(..)` returns an address where no state lies, or throws. The
address is an argument of the call; `none` is a call that cannot have
returned, because `new` never gives this address or because a pointer
it follows is no state.

# The order of stateMap

`std::unordered_map` is iterated in an order that may change whenever it
changes, so the order is a parameter.

# Walks

The recursions and loops along parents are bounded, and are `none` where
the source would go on. They take the parent links as they are, circles
included.

# Left out

The children set, the temporal graph and the naive size of a state, and
the slots the two calls take.
-/
import Mathlib.Algebra.Group.Nat.Defs
import Carmot.Lib.Links
import Carmot.Texas.Shadow

namespace Carmot.Texas

open Carmot.Lib (SortedMap walk)

/-- A `State*`, by its address. -/
abbrev StatePtr := Nat

/-- The fields of a `State` that tell it apart and link it. -/
structure StateObject where
  functionName : String
  lineNumber : UInt64
  stateID : UInt64
  parent : Option StatePtr
  deriving DecidableEq, Repr

/-- The objects, and the globals of texas.cpp. -/
structure States where
  heap : StatePtr → Option StateObject
  stateMap : SortedMap UInt64 StatePtr
  currentStateID : UInt64
  activeState : Option StatePtr

namespace States

/-- Before the first call. -/
def init : States where
  heap := fun _ => none
  stateMap := SortedMap.empty
  currentStateID := 0
  activeState := none

/-- The pointer is stored in `stateMap`. -/
def InMap (st : States) (p : StatePtr) : Prop := ∃ key, st.stateMap.find? key = some p

/-- `p->parent`. -/
def parent (st : States) (p : StatePtr) : Option StatePtr := (st.heap p).bind StateObject.parent

/-- The test of the search in `GetState`. -/
def named (st : States) (funcName : String) (lineNum : UInt64) (p : StatePtr) : Bool :=
  match st.heap p with
  | none => false
  | some state => decide (state.functionName = funcName) && decide (state.lineNumber = lineNum)

/-- An address that `new` can return. -/
def Unused (st : States) (p : StatePtr) : Prop := 0 < p ∧ p < 2 ^ 64 ∧ st.heap p = none

instance (st : States) (p : StatePtr) : Decidable (st.Unused p) :=
  inferInstanceAs (Decidable (_ ∧ _ ∧ _))

/-- `new State(..)` at the address, entered into `stateMap`. -/
def create (st : States) (funcName : String) (lineNum : UInt64) (newState : StatePtr) : States where
  heap := Function.update st.heap newState
    (some ⟨funcName, lineNum, st.currentStateID, st.activeState⟩)
  stateMap := st.stateMap.insertOrAssign st.currentStateID newState
  currentStateID := st.currentStateID + 1
  activeState := some newState

/-- `GetState`, with the id it returns. -/
def getState (order : List (UInt64 × StatePtr) → List (UInt64 × StatePtr)) (st : States)
    (funcName : String) (lineNum : UInt64) (newState : StatePtr) : Option (States × UInt64) :=
  match (order st.stateMap.entries).find? fun a => st.named funcName lineNum a.2 with
  | some a => (st.heap a.2).map fun state => ({ st with activeState := some a.2 }, state.stateID)
  | none =>
      if st.Unused newState then
        some (st.create funcName lineNum newState, st.currentStateID)
      else none

/-- `EndState`, with what it returns: the id it is given only decides
whether a message is logged. -/
def endState (st : States) (_stateID : UInt64) : Option (States × UInt64) :=
  match st.activeState with
  | none => some (st, 1)
  | some p => (st.heap p).map fun state => ({ st with activeState := state.parent }, 0)

end States

/-- The two calls, `GetState` with the address `new` returns if it is
used. -/
inductive StateCall
  | getState (funcName : String) (lineNum : UInt64) (newState : StatePtr)
  | endState (stateID : UInt64)
  deriving DecidableEq, Repr

/-- One call. -/
def States.step (order : List (UInt64 × StatePtr) → List (UInt64 × StatePtr)) (st : States) :
    StateCall → Option States
  | .getState funcName lineNum newState =>
      (st.getState order funcName lineNum newState).map Prod.fst
  | .endState stateID => (st.endState stateID).map Prod.fst

/-- Calls in order. -/
def States.run (order : List (UInt64 × StatePtr) → List (UInt64 × StatePtr)) :
    States → List StateCall → Option States
  | st, [] => some st
  | st, call :: calls => (st.step order call).bind fun st' => st'.run order calls

-- ================================================================= the walks

section Walks

variable (parent : StatePtr → Option StatePtr)

/-- `processAddToState` as it calls itself on the parent, at most
`depth` calls deep. -/
def processAddToStateCalls (options : Options) (e : ShadowEntry) :
    Nat → Runtime → StatePtr → Option Runtime
  | 0, _, _ => none
  | depth + 1, rt, statePtr =>
      match rt.find e.ptr with
      | none => some rt
      | some a =>
          let rt := if options.trackCycles then stampFreshness a rt else rt
          if options.trackCycles && e.operation.isAccess then some rt
          else
            let rt := recordAccess e a statePtr rt
            match parent statePtr with
            | none => some rt
            | some parentState => processAddToStateCalls options e depth rt parentState

/-- `processStateRegionSet` likewise. -/
def processStateRegionSetCalls (e : ShadowEntry) : Nat → Runtime → StatePtr → Option Runtime
  | 0, _, _ => none
  | depth + 1, rt, affiliatedState =>
      match rt.find e.ptr with
      | none => some rt
      | some a =>
          let rt := recordRegion e a affiliatedState rt
          match parent affiliatedState with
          | none => some rt
          | some parentState => processStateRegionSetCalls e depth rt parentState

/-- `par->AllocsAllocatedInState.insert(newEntry)`. -/
def insertAllocated (a : AllocId) (rt : Runtime) (par : StatePtr) : Runtime :=
  { rt with
    sets := Function.update rt.sets par
      { rt.sets par with
        allocsAllocatedInState := insert a (rt.sets par).allocsAllocatedInState } }

/-- The loop of `processAddAlloc` over the parents. -/
def processAddAllocLoop (a : AllocId) : Nat → Runtime → Option StatePtr → Option Runtime
  | _, rt, none => some rt
  | 0, _, some _ => none
  | turns + 1, rt, some par => processAddAllocLoop a turns (insertAllocated a rt par) (parent par)

/-- `processAddAlloc` with its loop. -/
def processAddAllocWalk (turns : Nat) (rt : Runtime) (e : ShadowEntry) : Option Runtime :=
  let (rt, a) := originObject rt e
  let rt := { rt with
    allocationMap := insertAllocation rt.allocs rt.allocationMap e.ptr a }
  let rt := rt.setAlloc a { rt.allocs a with affiliatedState := e.affiliatedState }
  match e.affiliatedState with
  | none => some rt
  | some s => processAddAllocLoop parent a turns (insertAllocated a rt s) (parent s)

/-- The nested loops of `commitStateInfo` that erase records. -/
def eraseCommon (skipStateVec affilStateVec : List StatePtr)
    (infos : StatePtr → Option StateCommitInfo) : StatePtr → Option StateCommitInfo :=
  affilStateVec.foldl (fun infos s1 =>
    skipStateVec.foldl (fun infos s2 => if s1 = s2 then Function.update infos s2 none else infos)
      infos) infos

/-- The rest of `commitStateInfo`, on the records that are left. -/
def commitRecords (kept : StatePtr → Option StateCommitInfo) (rt : Runtime) (a : AllocId) :
    Runtime :=
  { rt with
    sets := fun s =>
      match kept s with
      | none => rt.sets s
      | some info => (rt.sets s).absorb a info
    allocs := Function.update rt.allocs a
      { rt.allocs a with
        stateCommitInfoMap := fun s => (kept s).map StateCommitInfo.cleared } }

/-- `commitStateInfo` with the loops that build its two vectors. -/
def commitStateInfoWalk (turns : Nat) (skipState : Option StatePtr) (rt : Runtime) (a : AllocId) :
    Option Runtime := do
  let skipStateVec ← walk parent turns skipState
  let affilStateVec ← walk parent turns (rt.allocs a).affiliatedState
  some (commitRecords (eraseCommon skipStateVec affilStateVec (rt.allocs a).stateCommitInfoMap) rt a)

end Walks

end Carmot.Texas
