/-
The vocabulary of the texas runtime: the operation codes of
HelperFunctions.hpp, the shadow entries the producer and the worker
exchange (Shadow.hpp), the run-time options, and the parent links of
the ROI states.

# Pointers

`State*` and `Allocation*` values are modelled by the index of the
object: a state by its `stateID` (stateMap is keyed by it and states
are never deleted), an allocation by its creation number. `void*` and
`uint64_t` are `UInt64`, so every address computation wraps exactly
where the C++ one does.

# What an entry keeps

A slot is a record whose fields the producer overwrites one by one;
fields an operation does not set keep whatever the slot held before.
The `sizeState` member is a C union, so it holds a size or a state
pointer and never both.
-/
import Mathlib.Logic.Function.Basic
import Carmot.Lib.History

namespace Carmot.Texas

open Carmot.Lib (Rw)

/-- A machine address (`void*`). -/
abbrev Addr := UInt64

/-- A `State*`, by its `stateID`. -/
abbrev StateId := Nat

/-- An `Allocation*`, by its creation number. -/
abbrev AllocId := Nat

-- ==================================================== operation codes

/-- The seven set codes `STATE_ADD_INPUT` .. `STATE_ADD_TO`: the class
an address has for a state, and the set it is recorded in. -/
inductive StateClass
  | input | io | cio | tio | output | co | to
  deriving DecidableEq, Repr

/-- The `operations` enumeration; the seven set codes are one
constructor. -/
inductive Operation
  | freeSlot | allocating | allocAdd | allocFree | escapeAdd
  | stateAddRead | stateAddWrite
  | stateAdd (c : StateClass)
  | stateBegin | stateEnd | stateRegionSet | threadKill | redundant
  | stateCommit | detectCycle
  deriving DecidableEq, Repr

/-- What the two operations an instrumented load or store pushes do to
memory. -/
def Operation.access? : Operation → Option Rw
  | .stateAddRead => some .read
  | .stateAddWrite => some .write
  | _ => none

/-- Is this a raw access, not yet given a set code? -/
def Operation.isAccess (op : Operation) : Bool := op.access?.isSome

theorem Operation.isAccess_iff {op : Operation} :
    op.isAccess = true ↔ op = .stateAddRead ∨ op = .stateAddWrite := by
  cases op <;> simp [Operation.isAccess, Operation.access?]

/-- An access, raw or with a set code. -/
theorem Operation.access_kinds {op : Operation} (h : op.isAccess = true ∨ ∃ c, op = .stateAdd c) :
    op = .stateAddRead ∨ op = .stateAddWrite ∨ ∃ c, op = .stateAdd c := by
  rw [Operation.isAccess_iff] at h
  exact or_assoc.mp h

-- ============================================================ entries

/-- The `sizeState` union of a shadow entry. -/
inductive SizeState
  | size (n : UInt64)
  | statePtr (s : StateId)
  deriving DecidableEq, Repr

/-- Read the union as a size. -/
def SizeState.getSize : SizeState → UInt64
  | .size n => n
  | .statePtr _ => 0

/-- Read the union as a state pointer; `none` where it holds a size,
which no code path may dereference. -/
def SizeState.getStatePtr : SizeState → Option StateId
  | .size _ => none
  | .statePtr s => some s

/-- One slot of a batch buffer (`shadowEntry`). -/
structure ShadowEntry where
  operation : Operation
  ptr : Addr
  sizeState : SizeState
  stateToSet : StateClass
  affiliatedState : Option StateId
  information : UInt64
  deriving DecidableEq, Repr

/-- An entry the processing loop passes over. -/
def ShadowEntry.redundant : ShadowEntry where
  operation := .redundant
  ptr := 0
  sizeState := .size 0
  stateToSet := .input
  affiliatedState := none
  information := 0

-- ============================================================ options

/-- The run-time options cleaning and processing consult. -/
structure Options where
  trackTransfer : Bool
  trackCloneable : Bool
  trackInput : Bool
  trackOutput : Bool
  trackCycles : Bool
  disableOptimizations : Bool
  deriving DecidableEq, Repr

/-- The settings of the globals before `prologue` runs. -/
def Options.default : Options where
  trackTransfer := true
  trackCloneable := true
  trackInput := true
  trackOutput := true
  trackCycles := true
  disableOptimizations := false

-- ======================================================= parent links

/-- The parent links of the states. `State::State` fixes a state's
parent to a state created before it, so every link goes to a smaller
id and a walk along parents ends. -/
structure StateTree where
  parent : StateId → Option StateId
  parent_lt : ∀ s t, parent s = some t → t < s

namespace StateTree

/-- The links when no ROI is entered inside another. -/
def flat : StateTree where
  parent _ := none
  parent_lt _ _ h := by cases h

variable (tree : StateTree)

/-- A walk along parents, at most `n` states long. -/
def chainFuel : Nat → StateId → List StateId
  | 0, _ => []
  | n + 1, s =>
      s :: match tree.parent s with
        | none => []
        | some t => chainFuel n t

/-- A state and all its ancestors, innermost first: the states the
parent recursions and the `while(par != nullptr)` loops visit. -/
def chain (s : StateId) : List StateId := tree.chainFuel (s + 1) s

/-- Links shrink ids, so any fuel above the id gives the same walk. -/
theorem chainFuel_eq {n m : Nat} :
    ∀ {s : StateId}, s < n → s < m → tree.chainFuel n s = tree.chainFuel m s := by
  induction n generalizing m with
  | zero => intro s hn; exact absurd hn (Nat.not_lt_zero s)
  | succ n ih =>
      intro s hn hm
      cases m with
      | zero => exact absurd hm (Nat.not_lt_zero s)
      | succ m =>
          simp only [chainFuel]
          cases hp : tree.parent s with
          | none => rfl
          | some t =>
              have hlt := tree.parent_lt s t hp
              show s :: tree.chainFuel n t = s :: tree.chainFuel m t
              rw [ih (Nat.lt_of_lt_of_le hlt (Nat.le_of_lt_succ hn))
                (Nat.lt_of_lt_of_le hlt (Nat.le_of_lt_succ hm))]

/-- The chain of an optional state pointer: empty for `nullptr`. -/
def chain? : Option StateId → List StateId
  | none => []
  | some s => tree.chain s

/-- The walk is the state followed by its parent's walk. -/
theorem chain_eq (s : StateId) : tree.chain s = s :: tree.chain? (tree.parent s) := by
  unfold chain
  rw [chainFuel]
  cases hp : tree.parent s with
  | none => rfl
  | some t =>
      have hlt := tree.parent_lt s t hp
      show s :: tree.chainFuel s t = s :: tree.chainFuel (t + 1) t
      rw [chainFuel_eq tree hlt (Nat.lt_succ_self t)]

/-- Every state is on its own chain. -/
theorem self_mem_chain (s : StateId) : s ∈ tree.chain s := by
  rw [chain_eq]
  exact List.mem_cons_self ..

/-- Ancestors have no larger id. -/
theorem le_of_mem_chain {s t : StateId} (h : t ∈ tree.chain s) : t ≤ s := by
  induction s using Nat.strongRecOn with
  | _ s ih =>
      rw [chain_eq] at h
      rcases List.mem_cons.mp h with h | h
      · exact Nat.le_of_eq h
      · cases hp : tree.parent s with
        | none => rw [hp] at h; cases h
        | some u =>
            have hlt := tree.parent_lt s u hp
            rw [hp] at h
            exact Nat.le_trans (ih u hlt h) (Nat.le_of_lt hlt)

/-- A state is not among its own ancestors. -/
theorem not_mem_chain_parent (s : StateId) : s ∉ tree.chain? (tree.parent s) := by
  intro h
  cases hp : tree.parent s with
  | none => rw [hp] at h; cases h
  | some u =>
      rw [hp] at h
      exact Nat.lt_irrefl s
        (Nat.lt_of_le_of_lt (tree.le_of_mem_chain h) (tree.parent_lt s u hp))

end StateTree

end Carmot.Texas
