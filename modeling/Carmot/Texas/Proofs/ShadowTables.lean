/-
What one entry does to the table it is processed on, and what it does
not read of it.

An entry inserts its own address, erases it, or leaves the table alone
(`table_processEntry`); the masks and their lengths never change. While
nothing is hashed, no lookup depends on the masks, so a runtime whose
table got a further mask takes the same steps (`processEntry_withMasks`):
this is why the mask a merge adds to the global table is not seen.

The tables of the shadows other than 0 are empty when a batch starts,
and stay empty while their shadow allocates nothing; on an empty table
every lookup fails.
-/
import Carmot.Texas.Shadows
import Carmot.Texas.Proofs.Conservation

namespace Carmot.Texas

open Carmot.Lib (SortedMap)

-- ========================================================== the inversion

section OneEntry

variable {env : Env} {e : ShadowEntry}

theorem table_originObject (rt : Runtime) (e : ShadowEntry) :
    (originObject rt e).1.allocationMap = rt.allocationMap := by
  unfold originObject
  split
  · rfl
  · rfl

/-- An `ALLOC_ADD` inserts an object of the entry's length. -/
theorem table_processAddAlloc (env : Env) (rt : Runtime) (e : ShadowEntry) :
    ∃ allocs a, (allocs a).length = e.sizeState.getSize
      ∧ (processAddAlloc env rt e).allocationMap
        = insertAllocation allocs rt.allocationMap e.ptr a := by
  refine ⟨(originObject rt e).1.allocs, (originObject rt e).2, ?_, ?_⟩
  · unfold originObject
    split
    · simp [Allocation.new]
    · simp [Runtime.setAlloc]
  · show insertAllocation (originObject rt e).1.allocs (originObject rt e).1.allocationMap e.ptr
      (originObject rt e).2 = _
    rw [table_originObject]

/-- All an entry can do to the table. -/
theorem table_processEntry (env : Env) (rt : Runtime) (e : ShadowEntry) :
    (processEntry env rt e).allocationMap = rt.allocationMap
      ∨ (e.operation = .allocAdd ∧ ∃ allocs a, (allocs a).length = e.sizeState.getSize
          ∧ (processEntry env rt e).allocationMap
            = insertAllocation allocs rt.allocationMap e.ptr a)
      ∨ (e.operation = .allocFree
          ∧ (processEntry env rt e).allocationMap
            = deleteAllocation rt.allocationMap e.ptr) := by
  by_cases hadd : e.operation = .allocAdd
  · rw [processEntry_allocAdd rt hadd]
    exact Or.inr (Or.inl ⟨hadd, table_processAddAlloc env rt e⟩)
  · by_cases hfree : e.operation = .allocFree
    · rw [processEntry_allocFree rt hfree]
      unfold processFreeAllocation
      cases rt.find e.ptr with
      | none => exact Or.inl rfl
      | some a => exact Or.inr (Or.inr ⟨hfree, rfl⟩)
    · exact Or.inl (sameTable_processEntry env rt hadd hfree).table

end OneEntry

section Insertion

variable (allocs : AllocId → Allocation) (t : AllocationTable) (key : Addr) (a : AllocId)

theorem masks_insertAllocation : (insertAllocation allocs t key a).masks = t.masks
    ∧ (insertAllocation allocs t key a).maskLengths = t.maskLengths := by
  unfold insertAllocation
  split
  · exact ⟨rfl, rfl⟩
  · exact ⟨rfl, rfl⟩

theorem masks_deleteAllocation : (deleteAllocation t key).masks = t.masks
    ∧ (deleteAllocation t key).maskLengths = t.maskLengths := by
  unfold deleteAllocation
  split
  · exact ⟨rfl, rfl⟩
  · exact ⟨rfl, rfl⟩

/-- A deletion forgets no other key of the hash half. -/
theorem hash_deleteAllocation {k : Addr} (h : k ≠ key) :
    (deleteAllocation t key).hashAllocationTable.find? k = t.hashAllocationTable.find? k := by
  unfold deleteAllocation
  split
  · show (t.hashAllocationTable.erase key).find? k = _
    rw [SortedMap.find?_erase, if_neg h]
  · rfl

/-- An insertion forgets no key of the hash half. -/
theorem hash_insertAllocation {k : Addr}
    (h : (t.hashAllocationTable.find? k).isSome = true) :
    ((insertAllocation allocs t key a).hashAllocationTable.find? k).isSome = true := by
  unfold insertAllocation
  split
  · show ((t.hashAllocationTable.insert key a).find? k).isSome = true
    rw [SortedMap.find?_insert]
    split
    · rfl
    · exact h
  · exact h

/-- An object whose length has a mask is hashed. -/
theorem hash_insertAllocation_self (h : (allocs a).length ∈ t.maskLengths) :
    ((insertAllocation allocs t key a).hashAllocationTable.find? key).isSome = true := by
  unfold insertAllocation
  rw [if_pos h]
  show ((t.hashAllocationTable.insert key a).find? key).isSome = true
  rw [SortedMap.find?_insert, if_pos rfl]
  rfl

end Insertion

/-- The masks of a table do not change. -/
theorem masks_processEntry (env : Env) (rt : Runtime) (e : ShadowEntry) :
    (processEntry env rt e).allocationMap.masks = rt.allocationMap.masks
      ∧ (processEntry env rt e).allocationMap.maskLengths = rt.allocationMap.maskLengths := by
  rcases table_processEntry env rt e with h | ⟨-, allocs, a, -, h⟩ | ⟨-, h⟩
  · rw [h]
    exact ⟨rfl, rfl⟩
  · rw [h]
    exact masks_insertAllocation allocs _ _ a
  · rw [h]
    exact masks_deleteAllocation _ _

-- ===================================================== the global table

namespace AllocationTable.BetweenBatches

/-- The table `texas_init` makes. -/
theorem init : texasInit.allocationMap.BetweenBatches := ⟨rfl, Or.inl rfl⟩

/-- An entry on the global table hashes nothing. -/
theorem hash_empty {rt : Runtime} (hlen : rt.allocationMap.maskLengths = [])
    (hhash : rt.allocationMap.hashAllocationTable = .empty) (env : Env) (e : ShadowEntry) :
    (processEntry env rt e).allocationMap.hashAllocationTable = .empty := by
  rcases table_processEntry env rt e with h | ⟨-, allocs, a, -, h⟩ | ⟨-, h⟩
  · rw [h, hhash]
  · rw [h]
    unfold insertAllocation
    rw [if_neg (by rw [hlen]; exact List.not_mem_nil)]
    exact hhash
  · rw [h]
    unfold deleteAllocation
    rw [hhash, SortedMap.find?_empty]

theorem hash_empty_run (env : Env) (es : List ShadowEntry) :
    ∀ {rt : Runtime}, rt.allocationMap.maskLengths = [] →
      rt.allocationMap.hashAllocationTable = .empty →
      (processEntries env rt es).allocationMap.hashAllocationTable = .empty := by
  induction es with
  | nil => intro rt _ hhash; exact hhash
  | cons e es ih =>
      intro rt hlen hhash
      exact ih ((masks_processEntry env rt e).2.trans hlen) (hash_empty hlen hhash env e)

theorem processEntry {rt : Runtime} (h : rt.allocationMap.BetweenBatches) (env : Env)
    (e : ShadowEntry) :
    (processEntry env rt e).allocationMap.BetweenBatches := by
  obtain ⟨hmasks, hlens⟩ := masks_processEntry env rt e
  refine ⟨hlens.trans h.maskLengths_nil, ?_⟩
  rcases h.masked with hhash | hmask
  · exact Or.inl (hash_empty h.maskLengths_nil hhash env e)
  · rw [hmasks]
    exact Or.inr hmask

theorem processEntries {env : Env} (es : List ShadowEntry) :
    ∀ {rt : Runtime}, rt.allocationMap.BetweenBatches →
      (processEntries env rt es).allocationMap.BetweenBatches := by
  induction es with
  | nil => intro rt h; exact h
  | cons e es ih => intro rt h; exact ih (h.processEntry env e)

end AllocationTable.BetweenBatches

-- ============================================================ the masks

/-- The runtime with other masks on its table. -/
def Runtime.withMasks (rt : Runtime) (ms : List UInt64) : Runtime :=
  { rt with allocationMap := { rt.allocationMap with masks := ms } }

section Masks

variable {ms : List UInt64}

/-- With nothing hashed, no probe finds anything. -/
theorem find_withMasks {rt : Runtime}
    (h : rt.allocationMap.hashAllocationTable = .empty) (p : Addr) :
    (rt.withMasks ms).find p = rt.find p := by
  have hprobe : ∀ masks : List UInt64,
      (masks.findSome? fun mask =>
        rt.allocationMap.hashAllocationTable.find? (maskKey p mask)) = none := by
    intro masks
    rw [List.findSome?_eq_none_iff]
    intro mask _
    rw [h, SortedMap.find?_empty]
  unfold Runtime.find findAllocation
  simp only [Runtime.withMasks, hprobe]
  rfl

theorem commitAll_withMasks (tree : StateTree) (rt : Runtime) :
    commitStateInfoForAllocations tree (rt.withMasks ms)
      = (commitStateInfoForAllocations tree rt).withMasks ms := by
  have hfold : ∀ (as : List AllocId) (rt : Runtime),
      as.foldl (commitStateInfo tree none) (rt.withMasks ms)
        = (as.foldl (commitStateInfo tree none) rt).withMasks ms := by
    intro as
    induction as with
    | nil => intro rt; rfl
    | cons a as ih => intro rt; exact ih (commitStateInfo tree none rt a)
  exact hfold rt.allocationMap.objects rt

theorem addAlloc_withMasks (env : Env) (e : ShadowEntry) {rt : Runtime}
    (hlen : rt.allocationMap.maskLengths = []) :
    processAddAlloc env (rt.withMasks ms) e = (processAddAlloc env rt e).withMasks ms := by
  have hobj : originObject (rt.withMasks ms) e
      = ((originObject rt e).1.withMasks ms, (originObject rt e).2) := by
    unfold originObject
    cases ho : (rt.withMasks ms).originToAllocMap e.information with
    | none =>
        have ho' : rt.originToAllocMap e.information = none := ho
        simp only [ho']
        rfl
    | some a =>
        have ho' : rt.originToAllocMap e.information = some a := ho
        simp only [ho']
        rfl
  have htable := table_originObject rt e
  have hins : ∀ (allocs : AllocId → Allocation) (t : AllocationTable) (key : Addr) (a : AllocId),
      t.maskLengths = [] → insertAllocation allocs { t with masks := ms } key a
        = { insertAllocation allocs t key a with masks := ms } := by
    intro allocs t key a ht
    unfold insertAllocation
    simp [ht]
  unfold processAddAlloc
  rw [hobj]
  generalize originObject rt e = r at htable
  obtain ⟨rt₁, a⟩ := r
  have hlen₁ : rt₁.allocationMap.maskLengths = [] := by
    rw [← hlen]
    exact congrArg AllocationTable.maskLengths htable
  show noteAllocated env.tree e.affiliatedState a
    (Runtime.setAlloc
      { rt₁ with
        allocationMap :=
          insertAllocation rt₁.allocs { rt₁.allocationMap with masks := ms } e.ptr a }
      a _) = _
  rw [hins rt₁.allocs rt₁.allocationMap e.ptr a hlen₁]
  rfl

theorem freeAlloc_withMasks (env : Env) (e : ShadowEntry) {rt : Runtime}
    (h : rt.allocationMap.hashAllocationTable = .empty) :
    processFreeAllocation env (rt.withMasks ms) e
      = (processFreeAllocation env rt e).withMasks ms := by
  unfold processFreeAllocation
  rw [find_withMasks h]
  cases rt.find e.ptr with
  | none => rfl
  | some a =>
      have hdel : ∀ t : AllocationTable, deleteAllocation { t with masks := ms } e.ptr
          = { deleteAllocation t e.ptr with masks := ms } := by
        intro t
        unfold deleteAllocation
        cases t.hashAllocationTable.find? e.ptr with
        | none => rfl
        | some _ => rfl
      show ({ commitStateInfo env.tree e.affiliatedState rt a with
        allocationMap := deleteAllocation { rt.allocationMap with masks := ms } e.ptr } : Runtime) = _
      rw [hdel]
      rfl

theorem addEscape_withMasks (env : Env) (e : ShadowEntry) {rt : Runtime}
    (h : rt.allocationMap.hashAllocationTable = .empty) :
    processAddEscape env (rt.withMasks ms) e = (processAddEscape env rt e).withMasks ms := by
  unfold processAddEscape
  rw [find_withMasks h]
  split
  · rfl
  · cases rt.find (env.mem e.ptr) with
    | none => rfl
    | some a => rfl

theorem addToState_withMasks (env : Env) (e : ShadowEntry) (chain : List StateId) :
    ∀ {rt : Runtime}, rt.allocationMap.hashAllocationTable = .empty →
      processAddToState env e (rt.withMasks ms) chain
        = (processAddToState env e rt chain).withMasks ms := by
  induction chain with
  | nil => intro rt _; rfl
  | cons s parents ih =>
      intro rt h
      unfold processAddToState
      rw [find_withMasks h]
      cases rt.find e.ptr with
      | none => rfl
      | some a =>
          -- the stamped runtime, if it is stamped
          have hstamp : (if env.options.trackCycles then stampFreshness a (rt.withMasks ms)
              else rt.withMasks ms)
              = (if env.options.trackCycles then stampFreshness a rt else rt).withMasks ms := by
            split
            · rfl
            · rfl
          have hhash : (if env.options.trackCycles then stampFreshness a rt
              else rt).allocationMap.hashAllocationTable = .empty := by
            split
            · exact h
            · exact h
          simp only [hstamp]
          generalize (if env.options.trackCycles then stampFreshness a rt else rt) = rt₁ at hhash ⊢
          split
          · rfl
          · exact @ih (recordAccess e a s rt₁) hhash

theorem regionSet_withMasks (e : ShadowEntry) (chain : List StateId) :
    ∀ {rt : Runtime}, rt.allocationMap.hashAllocationTable = .empty →
      processStateRegionSet e (rt.withMasks ms) chain
        = (processStateRegionSet e rt chain).withMasks ms := by
  induction chain with
  | nil => intro rt _; rfl
  | cons s parents ih =>
      intro rt h
      unfold processStateRegionSet
      rw [find_withMasks h]
      cases rt.find e.ptr with
      | none => rfl
      | some a => exact @ih (recordRegion e a s rt) h

/-- Before anything is hashed, an entry does not see the masks. -/
theorem processEntry_withMasks (env : Env) (e : ShadowEntry) {rt : Runtime}
    (hlen : rt.allocationMap.maskLengths = [])
    (h : rt.allocationMap.hashAllocationTable = .empty) :
    processEntry env (rt.withMasks ms) e = (processEntry env rt e).withMasks ms := by
  unfold processEntry
  cases e.operation with
  | allocAdd => exact addAlloc_withMasks env e hlen
  | allocFree => exact freeAlloc_withMasks env e h
  | escapeAdd => exact addEscape_withMasks env e h
  | stateAddRead => exact addToState_withMasks env e _ h
  | stateAddWrite => exact addToState_withMasks env e _ h
  | stateAdd c => exact addToState_withMasks env e _ h
  | stateCommit =>
      cases e.sizeState.getStatePtr with
      | none => exact commitAll_withMasks env.tree rt
      | some s =>
          show commitState (commitStateInfoForAllocations env.tree (rt.withMasks ms)) s = _
          rw [commitAll_withMasks]
          rfl
  | stateRegionSet => exact regionSet_withMasks e _ h
  | freeSlot => rfl
  | allocating => rfl
  | stateBegin => rfl
  | stateEnd => rfl
  | threadKill => rfl
  | redundant => rfl
  | detectCycle => rfl

theorem processEntries_withMasks (env : Env) (es : List ShadowEntry) :
    ∀ {rt : Runtime}, rt.allocationMap.maskLengths = [] →
      rt.allocationMap.hashAllocationTable = .empty →
      processEntries env (rt.withMasks ms) es = (processEntries env rt es).withMasks ms := by
  induction es with
  | nil => intro rt _ _; rfl
  | cons e es ih =>
      intro rt hlen h
      show processEntries env (processEntry env (rt.withMasks ms) e) es = _
      rw [processEntry_withMasks env e hlen h]
      exact ih ((masks_processEntry env rt e).2.trans hlen)
        (AllocationTable.BetweenBatches.hash_empty hlen h env e)

/-- The mask of the shadows' tables is new to the global one only while
that one has nothing hashed. -/
theorem unmasked_processEntries {env : Env} {rt : Runtime}
    (h : rt.allocationMap.BetweenBatches) (es : List ShadowEntry) :
    (processEntries env
        (rt.withMasks (rt.allocationMap.masks.insert (maskForLength 8))) es).unmasked
      = (processEntries env rt es).unmasked := by
  rcases h.masked with hhash | hmask
  · rw [processEntries_withMasks env es h.maskLengths_nil hhash]
    rfl
  · rw [List.insert_of_mem hmask]
    rfl

end Masks

end Carmot.Texas
