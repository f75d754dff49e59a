/-
When a failed allocation call leaves the table as it was.

The wrappers hand on what the call returned, so a failed call is an
allocation at address 0, or at the sentinel's key, and a failed
reallocation also frees the old address. `Harmless` says for each call
and each table when that happens to change nothing; it is exact
(`unchanged_failed_iff`).
-/
import Carmot.Texas.Proofs.Unchanged
import Carmot.Wrapper.FailedCalls

namespace Carmot.Wrapper

open Carmot.Texas

namespace FailedCall

/-- The condition under which the call leaves the table and its objects
alone, on the table before it. -/
def Harmless (cfg : WrapperConfig) (w : Wrappers) (tree : StateTree) (rt : Runtime) :
    FailedCall → Prop
  | .malloc id size traceArg =>
      AddKeeps rt 0 size (cfg.allocID w.callstacks id traceArg).2 w.producer.activeState
  | .calloc id numElems size traceArg =>
      AddKeeps rt 0 (numElems * size) (cfg.allocID w.callstacks id traceArg).2
        w.producer.activeState
  | .realloc id ptr size traceArg =>
      ReallocKeeps tree rt ptr 0 size (cfg.allocID w.callstacks id traceArg).2
        w.producer.activeState
  | .mmap id length traceArg =>
      AddKeeps rt maxAddr length (cfg.allocID w.callstacks id traceArg).2 w.producer.activeState
  | .mremap id oldAddress newSize traceArg =>
      ReallocKeeps tree rt oldAddress maxAddr newSize (cfg.allocID w.callstacks id traceArg).2
        w.producer.activeState
  | .freeNull => rt.allocationMap.sortedAllocationTable.find? 0 = none

section Tables

variable {env : Env} {rt : Runtime} (hinv : AllocatedInv env.tree rt) (slot slot' : ShadowEntry)

include hinv

theorem unchanged_allocAdd (address : Addr) (length origin : UInt64) (state : Option StateId) :
    Unchanged rt (processEntries env rt [(SlotWrite.allocAdd address length origin state).fill slot])
      ↔ AddKeeps rt address length origin state :=
  unchanged_addAlloc_iff hinv

theorem unchanged_free_add (address newAddress : Addr) (length origin : UInt64)
    (state : Option StateId) :
    Unchanged rt (processEntries env rt
        [(SlotWrite.allocFree address state).fill slot,
          (SlotWrite.allocAdd newAddress length origin state).fill slot'])
      ↔ ReallocKeeps env.tree rt address newAddress length origin state :=
  unchanged_realloc_iff hinv rfl

/-- `free(nullptr)` changes the table exactly when 0 is a key of it. -/
theorem unchanged_free_null (state : Option StateId) :
    Unchanged rt (processEntries env rt [(SlotWrite.allocFree 0 state).fill slot]) ↔
      rt.allocationMap.sortedAllocationTable.find? 0 = none := by
  have htab := hinv.toTableInv
  have hfree : Unchanged rt (processEntries env rt [(SlotWrite.allocFree 0 state).fill slot]) ↔
      rt.allocationMap.sortedAllocationTable.find? 0 = none
        ∧ ∀ b, rt.find 0 = some b → CommitKeeps env.tree rt state b :=
    unchanged_freeAlloc_iff htab
  rw [hfree]
  constructor
  · exact And.left
  · intro hkey
    refine ⟨hkey, fun b hb => ?_⟩
    rw [find_zero_eq_none htab hkey] at hb
    cases hb

end Tables

end FailedCall

/-- For every reachable table and every call that fails: processing what
the wrappers push for it leaves the table, its objects and what is
recorded for them as they were exactly when the call is harmless. -/
theorem unchanged_failed_iff (cfg : WrapperConfig) (w : Wrappers) (env : Env) (bs : List Batch)
    (stale : Nat → ShadowEntry) (c : FailedCall) :
    let rt := runBatches env texasInit bs
    Unchanged rt (processEntries env rt (c.entries cfg w stale)) ↔
      c.Harmless cfg w env.tree rt := by
  intro rt
  have hinv : AllocatedInv env.tree rt := allocatedInv_runBatches bs (allocatedInv_init env.tree)
  cases c with
  | malloc id size traceArg => exact FailedCall.unchanged_allocAdd hinv ..
  | calloc id numElems size traceArg => exact FailedCall.unchanged_allocAdd hinv ..
  | realloc id ptr size traceArg => exact FailedCall.unchanged_free_add hinv ..
  | mmap id length traceArg => exact FailedCall.unchanged_allocAdd hinv ..
  | mremap id oldAddress newSize traceArg => exact FailedCall.unchanged_free_add hinv ..
  | freeNull => exact FailedCall.unchanged_free_null hinv ..

/-- A block of 8 bytes at 100, and a `realloc` of it that fails: the
block is gone, and 16 bytes at address 0 are live. -/
theorem not_unchanged_failed_realloc :
    let cfg : WrapperConfig :=
      { uint64Hash := fun x => x
        save := { disableCallstack := true, disableStateUses := false }
        options := Options.default
        earlyReturns := true }
    let env := Env.ofTree .flat
    let rt := runBatches env texasInit
      [⟨[(SlotWrite.allocAdd 100 8 1 none).entry], .redundant⟩]
    let rt' := processEntries env rt
      ((FailedCall.realloc 2 100 16 none).entries cfg Wrappers.init fun _ => .redundant)
    rt.find 104 = some 1 ∧ rt'.find 104 = none ∧ rt'.find 0 = some 2
      ∧ (rt'.allocs 2).length = 16 ∧ ¬ Unchanged rt rt' := by
  intro cfg env rt rt'
  refine ⟨by decide, by decide, by decide, by decide, ?_⟩
  intro h
  exact absurd (h.sorted 100) (by decide)

end Carmot.Wrapper
