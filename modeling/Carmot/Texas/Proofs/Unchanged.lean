/-
When an `ALLOC_ADD`, an `ALLOC_FREE` or a free followed by an add leave
the table and everything recorded for its objects alone.

The three conditions are exact:

- an add keeps the table when its address is a key already, and the
  objects when that of its origin is not in the table or has the
  entry's pointer, length and state anyway (`unchanged_addAlloc_iff`);
- a free at a key always changes the table (`unchanged_freeAlloc_iff`);
- a free and an add take a key away for good, unless the add puts the
  same object back under it (`unchanged_realloc_iff`).

The lists of the allocations made in a state need an invariant of their
own: an object is in the lists of the state it is affiliated with and
of that state's ancestors (`AllocatedInv`), so adding it there again
adds nothing.
-/
import Carmot.Texas.Proofs.Invocations

namespace Carmot.Texas

open Carmot.Lib (SortedMap)

-- ============================================================= unchanged

/-- The same entries under the same keys, the sentinel's included, and
the same information for every object of the table: its own fields,
what the states hold for it, and the lists it is in. -/
structure Unchanged (rt rt' : Runtime) : Prop where
  sorted : ∀ k, rt'.allocationMap.sortedAllocationTable.find? k
    = rt.allocationMap.sortedAllocationTable.find? k
  hash : ∀ k, rt'.allocationMap.hashAllocationTable.find? k
    = rt.allocationMap.hashAllocationTable.find? k
  objects : ∀ a ∈ rt.allocationMap.objects, rt'.allocs a = rt.allocs a
  committed : ∀ a ∈ rt.allocationMap.objects, ∀ s x, Committed rt' a s x ↔ Committed rt a s x
  allocated : ∀ a ∈ rt.allocationMap.objects, ∀ s,
    a ∈ (rt'.sets s).allocsAllocatedInState ↔ a ∈ (rt.sets s).allocsAllocatedInState

theorem Unchanged.refl (rt : Runtime) : Unchanged rt rt :=
  ⟨fun _ => rfl, fun _ => rfl, fun _ _ => rfl, fun _ _ _ _ => Iff.rfl, fun _ _ _ => Iff.rfl⟩

-- ==================================================== lists of allocations

/-- An object is in the lists of its affiliated state's chain. -/
structure AllocatedInv (tree : StateTree) (rt : Runtime) : Prop extends TableInv rt where
  affiliated : ∀ a, ∀ s ∈ tree.chain? (rt.allocs a).affiliatedState,
    a ∈ (rt.sets s).allocsAllocatedInState

section Lists

variable {tree : StateTree} {rt : Runtime}

theorem allocated_absorb (st : StateSets) (a : AllocId) (info : StateCommitInfo) :
    (st.absorb a info).allocsAllocatedInState = st.allocsAllocatedInState := rfl

theorem allocated_commitStateInfo (skip : Option StateId) (rt : Runtime) (a : AllocId)
    (s : StateId) :
    ((commitStateInfo tree skip rt a).sets s).allocsAllocatedInState
      = (rt.sets s).allocsAllocatedInState := by
  cases hk : keptInfo tree (rt.allocs a) skip s with
  | none => rw [sets_commitStateInfo_of_none hk]
  | some info => rw [sets_commitStateInfo_of_some hk, allocated_absorb]

theorem allocated_commitAll (rt : Runtime) (s : StateId) :
    ((commitStateInfoForAllocations tree rt).sets s).allocsAllocatedInState
      = (rt.sets s).allocsAllocatedInState := by
  unfold commitStateInfoForAllocations
  generalize rt.allocationMap.objects = as
  induction as generalizing rt with
  | nil => rfl
  | cons a as ih => rw [List.foldl_cons, ih, allocated_commitStateInfo]

theorem allocated_commitState (rt : Runtime) (t s : StateId) :
    ((commitState rt t).sets s).allocsAllocatedInState
      = (rt.sets s).allocsAllocatedInState := by
  by_cases hs : s = t
  · subst hs
    simp only [commitState, Function.update_self]
    rfl
  · simp [commitState, hs]

/-- The lists grow by an add only: its object, in the chain of the
entry's state. -/
theorem allocated_processAddAlloc (env : Env) (rt : Runtime) (e : ShadowEntry) (b : AllocId)
    (s : StateId) :
    b ∈ ((processAddAlloc env rt e).sets s).allocsAllocatedInState ↔
      b ∈ (rt.sets s).allocsAllocatedInState
        ∨ (b = (originObject rt e).2 ∧ s ∈ env.tree.chain? e.affiliatedState) := by
  have hsets : (originObject rt e).1.sets = rt.sets := by
    unfold originObject
    cases rt.originToAllocMap e.information with
    | none => rfl
    | some a => rfl
  unfold processAddAlloc noteAllocated Runtime.setAlloc
  dsimp only
  rw [hsets]
  by_cases hs : s ∈ env.tree.chain? e.affiliatedState
  · simp [hs, or_comm]
  · simp [hs]

/-- Any other entry keeps them. -/
theorem allocated_processEntry (env : Env) {e : ShadowEntry} (hop : e.operation ≠ .allocAdd)
    (s : StateId) :
    ((processEntry env rt e).sets s).allocsAllocatedInState
      = (rt.sets s).allocsAllocatedInState := by
  unfold processEntry
  split
  next h => exact absurd h hop
  · unfold processFreeAllocation
    cases rt.find e.ptr with
    | none => rfl
    | some a => exact allocated_commitStateInfo e.affiliatedState rt a s
  · rw [(processAddEscape_effect env rt e).2.1]
  · rw [(processAddToState_effect env e _ rt).2.1]
  · rw [(processAddToState_effect env e _ rt).2.1]
  · rw [(processAddToState_effect env e _ rt).2.1]
  · cases e.sizeState.getStatePtr with
    | none => exact allocated_commitAll rt s
    | some t => exact (allocated_commitState _ t s).trans (allocated_commitAll rt s)
  · rw [(processStateRegionSet_effect e _ rt).2.1]
  · rfl

end Lists

section AllocatedRuns

variable {env : Env} {rt : Runtime}

theorem AllocatedInv.step (hinv : AllocatedInv env.tree rt) (e : ShadowEntry) :
    AllocatedInv env.tree (processEntry env rt e) := by
  refine ⟨(processEntry_spec env e hinv.toTableInv).inv, fun a s hs => ?_⟩
  by_cases hadd : e.operation = .allocAdd
  · have hspec := processAddAlloc_spec env hinv.toTableInv e
    rw [processEntry_allocAdd rt hadd] at hs ⊢
    rw [allocated_processAddAlloc]
    by_cases ha : a = (originObject rt e).2
    · rw [ha, hspec.affiliated] at hs
      exact Or.inr ⟨ha, hs⟩
    · rw [hspec.others a ha] at hs
      exact Or.inl (hinv.affiliated a s hs)
  · rw [allocated_processEntry env hadd]
    apply hinv.affiliated a s
    by_cases hfree : e.operation = .allocFree
    · rw [processEntry_allocFree rt hfree] at hs
      unfold processFreeAllocation at hs
      cases hf : rt.find e.ptr with
      | none =>
          rw [hf] at hs
          exact hs
      | some b =>
          rw [hf] at hs
          have hsame := (@sameTable_commitStateInfo env.tree rt e.affiliatedState b).affiliated a
          rw [← hsame]
          exact hs
    · rw [(sameTable_processEntry env rt hadd hfree).affiliated] at hs
      exact hs

theorem allocatedInv_run (es : List ShadowEntry) :
    ∀ {rt : Runtime}, AllocatedInv env.tree rt →
      AllocatedInv env.tree (processEntries env rt es) := by
  induction es with
  | nil => intro rt h; exact h
  | cons e es ih => intro rt h; exact ih (h.step e)

theorem allocatedInv_runBatches (bs : List Batch) :
    ∀ {rt : Runtime}, AllocatedInv env.tree rt →
      AllocatedInv env.tree (runBatches env rt bs) := by
  induction bs with
  | nil => intro rt h; exact h
  | cons b bs ih =>
      intro rt h
      have hclean : AllocatedInv env.tree (cleanBatch env rt b.entries).1 :=
        ⟨h.toTableInv.cleanBatch env b.entries, h.affiliated⟩
      exact ih (allocatedInv_run _ hclean)

theorem allocatedInv_init (tree : StateTree) : AllocatedInv tree texasInit where
  toTableInv := tableInv_init
  affiliated a s hs := by
    have hnone : (texasInit.allocs a).affiliatedState = none := by
      by_cases ha : a = 0
      · simp [texasInit, ha, Allocation.new]
      · simp [texasInit, ha, Allocation.new]
    rw [hnone] at hs
    cases hs

end AllocatedRuns

-- ============================================================ the conditions

/-- An add that keeps everything: its address is a key, and its origin's
object, if it is in the table, has these fields. -/
def AddKeeps (rt : Runtime) (address : Addr) (length origin : UInt64)
    (state : Option StateId) : Prop :=
  rt.allocationMap.sortedAllocationTable.find? address ≠ none
    ∧ ∀ a ∈ rt.allocationMap.objects, rt.originToAllocMap origin = some a →
      (rt.allocs a).pointer = address ∧ (rt.allocs a).length = length
        ∧ (rt.allocs a).affiliatedState = state

/-- A commit of the object that moves nothing and erases nothing: every
record it has is empty, and none is skipped. -/
def CommitKeeps (tree : StateTree) (rt : Runtime) (skipState : Option StateId) (a : AllocId) :
    Prop :=
  ∀ s info, (rt.allocs a).stateCommitInfoMap s = some info →
    ¬ Skips tree (rt.allocs a) skipState s ∧ info.cleared = info

/-- A free and an add that keep everything: the freed address is no key,
unless the add is at the same address and for the object stored there;
the object it is found in has nothing to commit; and the add keeps
everything. -/
def ReallocKeeps (tree : StateTree) (rt : Runtime) (address newAddress : Addr)
    (length origin : UInt64) (state : Option StateId) : Prop :=
  (∀ b, rt.allocationMap.sortedAllocationTable.find? address = some b →
      address = newAddress ∧ rt.originToAllocMap origin = some b)
    ∧ (∀ b, rt.find address = some b → CommitKeeps tree rt state b)
    ∧ AddKeeps rt newAddress length origin state

-- ===================================================================== adds

section Add

variable {env : Env} {rt : Runtime} {e : ShadowEntry}

/-- The object an add uses, when its origin has one. -/
theorem processAddAlloc_allocs {a : AllocId} (h : rt.originToAllocMap e.information = some a) :
    (processAddAlloc env rt e).allocs a
      = { rt.allocs a with
          pointer := e.ptr
          length := e.sizeState.getSize
          affiliatedState := e.affiliatedState } := by
  simp [processAddAlloc, originObject, h, Runtime.setAlloc, noteAllocated]

/-- An object is as it was exactly when the three fields were there. -/
theorem Allocation.with_eq_self (x : Allocation) (p : Addr) (l : UInt64) (st : Option StateId) :
    { x with pointer := p, length := l, affiliatedState := st } = x ↔
      x.pointer = p ∧ x.length = l ∧ x.affiliatedState = st := by
  cases x with
  | mk => simp only [Allocation.mk.injEq, and_true, true_and, eq_comm]

/-- An old object that an add uses is that of the origin. -/
theorem origin_of_old (hinv : TableInv rt) {a : AllocId} (ha : a < rt.numAllocs)
    (h : a = (originObject rt e).2) : rt.originToAllocMap e.information = some a := by
  have hspec := originObject_spec hinv e
  cases ho : rt.originToAllocMap e.information with
  | none =>
      have hnum := hspec.fresh ho
      rw [← h] at hnum
      exact absurd ha (by rw [hnum]; exact Nat.lt_irrefl _)
  | some b => rw [hspec.old b ho, h]

/-- What an add does to the objects of a table. -/
theorem processAddAlloc_objects (hinv : TableInv rt) {b : AllocId}
    (hb : b ∈ rt.allocationMap.objects) :
    (processAddAlloc env rt e).allocs b = rt.allocs b ↔
      (rt.originToAllocMap e.information = some b →
        (rt.allocs b).pointer = e.ptr ∧ (rt.allocs b).length = e.sizeState.getSize
          ∧ (rt.allocs b).affiliatedState = e.affiliatedState) := by
  by_cases ho : rt.originToAllocMap e.information = some b
  · rw [processAddAlloc_allocs ho, Allocation.with_eq_self]
    simp [ho]
  · have hne : b ≠ (originObject rt e).2 := fun h =>
      ho (origin_of_old hinv (hinv.objects_lt b hb) h)
    simp [ho, (processAddAlloc_spec env hinv e).others b hne]

/-- The keys after an add. -/
theorem find?_processAddAlloc (hinv : TableInv rt) (k : Addr) :
    (processAddAlloc env rt e).allocationMap.sortedAllocationTable.find? k
      = if k = e.ptr then
          some ((rt.allocationMap.sortedAllocationTable.find? e.ptr).getD (originObject rt e).2)
        else rt.allocationMap.sortedAllocationTable.find? k := by
  rw [(processAddAlloc_spec env hinv e).table]
  exact SortedMap.find?_insert _ _ k _

theorem unchanged_addAlloc_iff (hinv : AllocatedInv env.tree rt) :
    Unchanged rt (processAddAlloc env rt e) ↔
      AddKeeps rt e.ptr e.sizeState.getSize e.information e.affiliatedState := by
  have htab := hinv.toTableInv
  have hspec := processAddAlloc_spec env htab e
  constructor
  · intro h
    refine ⟨fun hnone => ?_, fun a ha ho => ?_⟩
    · have hkey := h.sorted e.ptr
      rw [find?_processAddAlloc htab, if_pos rfl, hnone] at hkey
      cases hkey
    · exact (processAddAlloc_objects htab ha).mp (h.objects a ha) ho
  · intro h
    obtain ⟨hkey, hfields⟩ := h
    refine ⟨fun k => ?_, fun k => ?_, fun a ha => ?_, fun a ha => hspec.committed a, fun a ha s => ?_⟩
    · rw [find?_processAddAlloc htab]
      split
      next hk =>
        obtain ⟨b, hb⟩ := Option.ne_none_iff_exists'.mp hkey
        rw [hk, hb]
        rfl
      · rfl
    · rw [hspec.table]
    · exact (processAddAlloc_objects htab ha).mpr (hfields a ha)
    · rw [allocated_processAddAlloc]
      constructor
      · intro h
        rcases h with h | ⟨h, hs⟩
        · exact h
        · -- the origin's object with the state it has already
          have hstate := (hfields a ha (origin_of_old htab (htab.objects_lt a ha) h)).2.2
          exact hinv.affiliated a s (by rw [hstate]; exact hs)
      · exact Or.inl

end Add

-- ==================================================================== frees

section Free

variable {tree : StateTree} {env : Env} {rt : Runtime} {e : ShadowEntry} {skip : Option StateId}
  {b : AllocId}

/-- The records after a commit are those before it exactly when the
commit moves and erases nothing. -/
theorem commitStateInfo_records_iff :
    ((commitStateInfo tree skip rt b).allocs b).stateCommitInfoMap
        = (rt.allocs b).stateCommitInfoMap ↔ CommitKeeps tree rt skip b := by
  simp only [commitStateInfo, Function.update_self, funext_iff]
  unfold CommitKeeps
  apply forall_congr'
  intro s
  by_cases hk : Skips tree (rt.allocs b) skip s
  · rw [keptInfo_of_skips hk]
    simp only [Option.map_none, hk, not_true_eq_false, false_and, imp_false]
    rw [eq_comm, Option.eq_none_iff_forall_ne_some]
  · rw [keptInfo_of_not_skips hk]
    cases hm : (rt.allocs b).stateCommitInfoMap s with
    | none => simp
    | some info => simp [hk]

/-- A commit that keeps the object keeps all objects. -/
theorem CommitKeeps.allocs (h : CommitKeeps tree rt skip b) :
    (commitStateInfo tree skip rt b).allocs = rt.allocs := by
  have hrecords := commitStateInfo_records_iff.mpr h
  funext c
  by_cases hc : c = b
  · subst hc
    simp only [commitStateInfo, Function.update_self] at hrecords ⊢
    rw [hrecords]
  · simp [commitStateInfo, hc]

/-- Where nothing is pending, a commit commits nothing. -/
theorem CommitKeeps.committed (h : CommitKeeps tree rt skip b) (a : AllocId) (s : StateId)
    (x : Item) : Committed (commitStateInfo tree skip rt b) a s x ↔ Committed rt a s x := by
  rw [committed_commitStateInfo]
  constructor
  · intro hc
    rcases hc with hc | ⟨-, ⟨info, hi, hx⟩, -⟩
    · exact hc
    · rw [← (h s info hi).2] at hx
      exact absurd hx (not_holds_cleared info x)
  · exact Or.inl

/-- Erasing a key that is not there. -/
theorem find?_deleteAllocation (hmask : rt.allocationMap.MaskFree) (p k : Addr) :
    (deleteAllocation rt.allocationMap p).sortedAllocationTable.find? k
      = if k = p then none else rt.allocationMap.sortedAllocationTable.find? k := by
  rw [hmask.deleteAllocation_eq]
  exact SortedMap.find?_erase _ p k

/-- A key is found. -/
theorem not_key_of_find_none (hinv : TableInv rt) {p : Addr} (hf : rt.find p = none) :
    rt.allocationMap.sortedAllocationTable.find? p = none := by
  cases hk : rt.allocationMap.sortedAllocationTable.find? p with
  | none => rfl
  | some a =>
      have hfound := hinv.maskFree.findAllocation_of_key rt.allocs hk
      unfold Runtime.find at hf
      rw [hf] at hfound
      cases hfound

theorem unchanged_freeAlloc_iff (hinv : TableInv rt) :
    Unchanged rt (processFreeAllocation env rt e) ↔
      rt.allocationMap.sortedAllocationTable.find? e.ptr = none
        ∧ ∀ b, rt.find e.ptr = some b → CommitKeeps env.tree rt e.affiliatedState b := by
  unfold processFreeAllocation
  cases hf : rt.find e.ptr with
  | none =>
      have hkey := not_key_of_find_none hinv hf
      simp only [hkey, reduceCtorEq, false_implies, implies_true, and_true, iff_true]
      exact Unchanged.refl rt
  | some b =>
      simp only [Option.some.injEq, forall_eq']
      constructor
      · intro h
        constructor
        · rw [← h.sorted e.ptr]
          show (deleteAllocation rt.allocationMap e.ptr).sortedAllocationTable.find? e.ptr = none
          rw [find?_deleteAllocation hinv.maskFree, if_pos rfl]
        · have hobj := h.objects b (hinv.mem_of_find hf)
          exact commitStateInfo_records_iff.mp (congrArg Allocation.stateCommitInfoMap hobj)
      · intro h
        obtain ⟨hkey, hkeeps⟩ := h
        refine ⟨fun k => ?_, fun k => ?_, fun a _ => ?_, fun a _ s x => ?_, fun a _ s => ?_⟩
        · show (deleteAllocation rt.allocationMap e.ptr).sortedAllocationTable.find? k = _
          rw [find?_deleteAllocation hinv.maskFree]
          split
          next hk => rw [hk, hkey]
          · rfl
        · show (deleteAllocation rt.allocationMap e.ptr).hashAllocationTable.find? k = _
          rw [hinv.maskFree.deleteAllocation_eq]
        · exact congrFun hkeeps.allocs a
        · exact hkeeps.committed a s x
        · show a ∈ ((commitStateInfo env.tree e.affiliatedState rt b).sets s).allocsAllocatedInState
            ↔ _
          rw [allocated_commitStateInfo]

/-- Address 0 is found as a key or not at all: no block lies below
it. -/
theorem find_zero_eq_none (hinv : TableInv rt)
    (h : rt.allocationMap.sortedAllocationTable.find? 0 = none) : rt.find 0 = none := by
  unfold Runtime.find findAllocation
  rw [hinv.maskFree.masks_nil, List.findSome?_nil]
  cases hlb : rt.allocationMap.sortedAllocationTable.lowerBound 0 with
  | none => simp
  | some entry =>
      obtain ⟨blockStart, a⟩ := entry
      have hne : blockStart ≠ 0 := by
        intro hz
        rw [hz] at hlb
        rw [(SortedMap.lowerBound_eq_some.mp hlb).1] at h
        cases h
      have hpred : rt.allocationMap.sortedAllocationTable.pred 0 = none := by
        rw [SortedMap.pred_eq_none]
        intro k v _
        exact UInt64.not_lt.mpr (UInt64.zero_le)
      simp [hne, hpred]

end Free

-- ================================================================= reallocs

section Realloc

variable {env : Env} {rt : Runtime} {free add : ShadowEntry} {b : AllocId}

/-- An add leaves the records of the objects there are. -/
theorem processAddAlloc_records {e : ShadowEntry} (hinv : TableInv rt) {a : AllocId}
    (ha : a < rt.numAllocs) :
    ((processAddAlloc env rt e).allocs a).stateCommitInfoMap
      = (rt.allocs a).stateCommitInfoMap := by
  by_cases ho : rt.originToAllocMap e.information = some a
  · rw [processAddAlloc_allocs ho]
  · have hne : a ≠ (originObject rt e).2 := fun h => ho (origin_of_old hinv ha h)
    rw [(processAddAlloc_spec env hinv e).others a hne]

/-- The runtime between the two entries of a realloc whose old address
is found in `b`. -/
structure Freed (env : Env) (rt : Runtime) (free : ShadowEntry) (b : AllocId) (rt' : Runtime) :
    Prop where
  inv : TableInv rt'
  num : rt'.numAllocs = rt.numAllocs
  origins : rt'.originToAllocMap = rt.originToAllocMap
  allocs : rt'.allocs = (commitStateInfo env.tree free.affiliatedState rt b).allocs
  sorted : ∀ k, rt'.allocationMap.sortedAllocationTable.find? k
    = if k = free.ptr then none else rt.allocationMap.sortedAllocationTable.find? k
  hash : rt'.allocationMap.hashAllocationTable = rt.allocationMap.hashAllocationTable
  committed : ∀ a s x, Committed rt' a s x ↔
    Committed (commitStateInfo env.tree free.affiliatedState rt b) a s x
  allocated : ∀ s, (rt'.sets s).allocsAllocatedInState = (rt.sets s).allocsAllocatedInState

theorem processFreeAllocation_freed (hinv : TableInv rt) (hf : rt.find free.ptr = some b) :
    Freed env rt free b (processFreeAllocation env rt free) := by
  have heq : processFreeAllocation env rt free
      = { commitStateInfo env.tree free.affiliatedState rt b with
          allocationMap := deleteAllocation rt.allocationMap free.ptr } := by
    unfold processFreeAllocation
    rw [hf]
    rfl
  rw [heq]
  refine ⟨hinv.freeAlloc hf, rfl, rfl, rfl, find?_deleteAllocation hinv.maskFree free.ptr, ?_,
    fun _ _ _ => Iff.rfl, allocated_commitStateInfo free.affiliatedState rt b⟩
  rw [hinv.maskFree.deleteAllocation_eq]

section Freed

variable {rt' : Runtime} (hfreed : Freed env rt free b rt')

include hfreed

/-- The objects of the table are old ones for the add, which uses one of
them only as its origin's object. -/
theorem Freed.origin_of_old (hinv : TableInv rt) {a : AllocId}
    (ha : a ∈ rt.allocationMap.objects) (h : a = (originObject rt' add).2) :
    rt.originToAllocMap add.information = some a := by
  rw [← hfreed.origins]
  apply Texas.origin_of_old hfreed.inv _ h
  rw [hfreed.num]
  exact hinv.objects_lt a ha

/-- Where nothing has changed, the freed key was put back. -/
theorem Freed.key_back (hinv : TableInv rt) (h : Unchanged rt (processAddAlloc env rt' add))
    {c : AllocId} (hc : rt.allocationMap.sortedAllocationTable.find? free.ptr = some c) :
    free.ptr = add.ptr ∧ rt.originToAllocMap add.information = some c := by
  have hkept := h.sorted free.ptr
  rw [hc, find?_processAddAlloc hfreed.inv] at hkept
  split at hkept
  next heq =>
    rw [hfreed.sorted, if_pos heq.symm] at hkept
    injection hkept with hkept
    exact ⟨heq, hfreed.origin_of_old hinv (hinv.maskFree.mem_objects.mpr ⟨_, hc⟩) hkept.symm⟩
  · rw [hfreed.sorted, if_pos rfl] at hkept
    cases hkept

/-- The keys are as before when a freed key is put back. -/
theorem Freed.find?_add
    (hkey : ∀ c, rt.allocationMap.sortedAllocationTable.find? free.ptr = some c →
      free.ptr = add.ptr ∧ rt.originToAllocMap add.information = some c)
    (hpresent : rt.allocationMap.sortedAllocationTable.find? add.ptr ≠ none) (k : Addr) :
    (processAddAlloc env rt' add).allocationMap.sortedAllocationTable.find? k
      = rt.allocationMap.sortedAllocationTable.find? k := by
  rw [find?_processAddAlloc hfreed.inv, hfreed.sorted, hfreed.sorted]
  obtain ⟨d, hd⟩ := Option.ne_none_iff_exists'.mp hpresent
  by_cases hk : k = add.ptr
  · rw [if_pos hk, hk, hd]
    by_cases heq : add.ptr = free.ptr
    · -- the key is freed and put back with the object it had
      rw [heq] at hd
      have ho := (hkey d hd).2
      rw [← hfreed.origins] at ho
      rw [if_pos heq, ← (processAddAlloc_spec env hfreed.inv add).old d ho]
      rfl
    · rw [if_neg heq]
      rfl
  · rw [if_neg hk]
    split
    next hfree =>
      -- a freed key would have to be the added one
      cases hc : rt.allocationMap.sortedAllocationTable.find? free.ptr with
      | none => rw [hfree, hc]
      | some c => exact absurd (hfree.trans (hkey c hc).1) hk
    · rfl

/-- A free and an add, when the freed address is found in an object. -/
theorem unchanged_freed_iff (hinv : AllocatedInv env.tree rt)
    (hb : b ∈ rt.allocationMap.objects) :
    Unchanged rt (processAddAlloc env rt' add) ↔
      (∀ c, rt.allocationMap.sortedAllocationTable.find? free.ptr = some c →
          free.ptr = add.ptr ∧ rt.originToAllocMap add.information = some c)
        ∧ CommitKeeps env.tree rt free.affiliatedState b
        ∧ AddKeeps rt add.ptr add.sizeState.getSize add.information add.affiliatedState := by
  have htab := hinv.toTableInv
  have hspec := processAddAlloc_spec env hfreed.inv add
  constructor
  · intro h
    refine ⟨fun c hc => hfreed.key_back htab h hc, ?_, fun hnone => ?_, fun a ha ho => ?_⟩
    · have hlt : b < rt'.numAllocs := by
        rw [hfreed.num]
        exact htab.objects_lt b hb
      apply commitStateInfo_records_iff.mp
      rw [← hfreed.allocs, ← processAddAlloc_records hfreed.inv hlt, h.objects b hb]
    · have hkey := h.sorted add.ptr
      rw [find?_processAddAlloc hfreed.inv, if_pos rfl, hnone] at hkey
      cases hkey
    · have hobj := h.objects a ha
      rw [← hfreed.origins] at ho
      rw [processAddAlloc_allocs ho] at hobj
      rw [← hobj]
      exact ⟨rfl, rfl, rfl⟩
  · intro h
    obtain ⟨hkey, hkeeps, hpresent, hfields⟩ := h
    have hallocs : rt'.allocs = rt.allocs := hfreed.allocs.trans hkeeps.allocs
    refine ⟨hfreed.find?_add hkey hpresent, fun k => ?_, fun a ha => ?_, fun a _ s x => ?_,
      fun a ha s => ?_⟩
    · rw [hspec.table, hfreed.hash]
    · by_cases ho : rt.originToAllocMap add.information = some a
      · have hfield := hfields a ha ho
        rw [← hfreed.origins] at ho
        rw [processAddAlloc_allocs ho, hallocs]
        exact (Allocation.with_eq_self ..).mpr hfield
      · rw [hspec.others a fun heq => ho (hfreed.origin_of_old htab ha heq), hallocs]
    · rw [hspec.committed, hfreed.committed]
      exact hkeeps.committed a s x
    · rw [allocated_processAddAlloc, hfreed.allocated]
      constructor
      · intro h
        rcases h with h | ⟨heq, hs⟩
        · exact h
        · have hstate := (hfields a ha (hfreed.origin_of_old htab ha heq)).2.2
          exact hinv.affiliated a s (by rw [hstate]; exact hs)
      · exact Or.inl

end Freed

/-- What `HandleReallocInAllocationTable` pushes. -/
theorem unchanged_realloc_iff (hinv : AllocatedInv env.tree rt)
    (hstate : free.affiliatedState = add.affiliatedState) :
    Unchanged rt (processAddAlloc env (processFreeAllocation env rt free) add) ↔
      ReallocKeeps env.tree rt free.ptr add.ptr add.sizeState.getSize add.information
        add.affiliatedState := by
  unfold ReallocKeeps
  cases hf : rt.find free.ptr with
  | none =>
      have hsame : processFreeAllocation env rt free = rt := by
        unfold processFreeAllocation
        rw [hf]
      have hkey : rt.allocationMap.sortedAllocationTable.find? free.ptr = none :=
        not_key_of_find_none hinv.toTableInv hf
      rw [hsame, unchanged_addAlloc_iff hinv, hkey]
      simp
  | some b =>
      rw [unchanged_freed_iff (processFreeAllocation_freed hinv.toTableInv hf) hinv
        (hinv.toTableInv.mem_of_find hf)]
      simp only [Option.some.injEq, forall_eq', hstate]

end Realloc

end Carmot.Texas
