/-
Where recorded information lives, and how committing moves it.

An item is one recorded fact about an allocation for a state: an
offset under a set code, or a use id. An item is pending while it sits
in the allocation's record for the state, and committed once it is in
the state's own temporary or Final set (for a use: in its
`allocationInfo`). Each operation of the worker has one lemma here
that says what it does to pending and committed items and nothing
else; the run-level arguments never look inside a container.

`SameTable` is the frame: everything but `ALLOC_ADD` and `ALLOC_FREE`
leaves the allocation table and the shape of the objects (pointer,
length, affiliated state) as they were, so lookups do not change.
-/
import Carmot.Texas.Pipeline

namespace Carmot.Texas

-- ================================================================== items

/-- One recorded fact. -/
inductive Item
  | offset (c : StateClass) (off : UInt64)
  | use (id : UInt64)
  deriving DecidableEq

/-- Does an allocation's record for a state hold the item? -/
def StateCommitInfo.Holds (info : StateCommitInfo) : Item → Prop
  | .offset c off => ∃ offs, info.stateSetToOffsetMap (.stateAdd c) = some offs ∧ off ∈ offs
  | .use id => id ∈ info.useInfo

/-- Does a state hold the item for allocation `a`, committed? -/
def StateSets.Holds (st : StateSets) (a : AllocId) : Item → Prop
  | .offset c off => (st.finals c).Holds a off ∨ (st.sets c).Holds a off
  | .use id => AllocationsSet.Holds st.allocationInfo a id

/-- Does a state hold the item for allocation `a` in its Final sets or
its use information? -/
def StateSets.FinalHolds (st : StateSets) (a : AllocId) : Item → Prop
  | .offset c off => (st.finals c).Holds a off
  | .use id => AllocationsSet.Holds st.allocationInfo a id

/-- The item waits on the allocation for the next commit. -/
def Pending (rt : Runtime) (a : AllocId) (s : StateId) (x : Item) : Prop :=
  ∃ info, (rt.allocs a).stateCommitInfoMap s = some info ∧ info.Holds x

/-- The item has reached the state. -/
def Committed (rt : Runtime) (a : AllocId) (s : StateId) (x : Item) : Prop :=
  (rt.sets s).Holds a x

/-- The item is in the state's Final sets or use information. -/
def Final (rt : Runtime) (a : AllocId) (s : StateId) (x : Item) : Prop :=
  (rt.sets s).FinalHolds a x

instance (rt : Runtime) (a : AllocId) (s : StateId) (x : Item) :
    Decidable (Final rt a s x) :=
  match x with
  | .offset c off => inferInstanceAs (Decidable (((rt.sets s).finals c).Holds a off))
  | .use id => inferInstanceAs (Decidable (AllocationsSet.Holds (rt.sets s).allocationInfo a id))

theorem holds_absorb (st : StateSets) (a b : AllocId) (info : StateCommitInfo)
    (x : Item) :
    (st.absorb a info).Holds b x ↔ st.Holds b x ∨ (b = a ∧ info.Holds x) := by
  cases x with
  | use id => exact holds_addOffsets st.allocationInfo a b info.useInfo id
  | offset c off =>
      simp only [StateSets.Holds, StateSets.absorb, StateCommitInfo.Holds]
      cases hm : info.stateSetToOffsetMap (.stateAdd c) with
      | none => simp
      | some offs =>
          simp only [holds_addOffsets, or_assoc, Option.some.injEq, exists_eq_left']

theorem not_holds_cleared (info : StateCommitInfo) (x : Item) :
    ¬ info.cleared.Holds x := by
  cases x with
  | use id => simp [StateCommitInfo.Holds, StateCommitInfo.cleared]
  | offset c off =>
      simp only [StateCommitInfo.Holds, StateCommitInfo.cleared]
      intro h
      obtain ⟨offs, ho, hin⟩ := h
      rw [Option.map_eq_some_iff] at ho
      obtain ⟨o, -, ho⟩ := ho
      rw [← ho] at hin
      simp at hin

theorem not_holds_empty (x : Item) : ¬ StateCommitInfo.empty.Holds x := by
  cases x with
  | use id => simp [StateCommitInfo.Holds, StateCommitInfo.empty]
  | offset c off => simp [StateCommitInfo.Holds, StateCommitInfo.empty]

theorem holds_addOffset (info : StateCommitInfo) (op : Operation) (off : UInt64)
    (x : Item) :
    (info.addOffset op off).Holds x ↔
      info.Holds x ∨ ∃ c, op = .stateAdd c ∧ x = .offset c off := by
  cases x with
  | use id => simp [StateCommitInfo.Holds, StateCommitInfo.addOffset]
  | offset c o =>
      simp only [StateCommitInfo.Holds, StateCommitInfo.addOffset]
      by_cases hop : Operation.stateAdd c = op
      · subst hop
        simp only [Function.update_self, Option.some.injEq, exists_eq_left',
          Finset.mem_insert, Operation.stateAdd.injEq, Item.offset.injEq]
        cases hm : info.stateSetToOffsetMap (.stateAdd c) with
        | none => simp
        | some offs => simp [or_comm]
      · simp only [Function.update_of_ne hop, Item.offset.injEq]
        constructor
        · exact Or.inl
        · intro h
          rcases h with h | ⟨d, hd, rfl, -⟩
          · exact h
          · exact absurd hd.symm hop

theorem holds_addUse (info : StateCommitInfo) (id : UInt64) (region : Bool)
    (x : Item) :
    (StateCommitInfo.mk (insert id info.useInfo) info.stateSetToOffsetMap region).Holds x
      ↔ info.Holds x ∨ x = .use id := by
  cases x with
  | use i => simp [StateCommitInfo.Holds, or_comm]
  | offset c o => simp [StateCommitInfo.Holds]

theorem holds_commitSets (st : StateSets) (a : AllocId) (x : Item) :
    (commitSets st).Holds a x ↔ st.Holds a x := by
  cases x with
  | use id => rfl
  | offset c off =>
      simp only [StateSets.Holds, holds_commitSets_finals,
        not_holds_commitSets_sets, or_false]

theorem finalHolds_commitSets (st : StateSets) (a : AllocId) (x : Item) :
    (commitSets st).FinalHolds a x ↔ st.Holds a x := by
  cases x with
  | use id => rfl
  | offset c off => exact holds_commitSets_finals st c a off

-- ======================================================== the table frame

/-- Same table, same shape of every object. -/
structure SameTable (rt rt' : Runtime) : Prop where
  table : rt'.allocationMap = rt.allocationMap
  numAllocs : rt'.numAllocs = rt.numAllocs
  origins : rt'.originToAllocMap = rt.originToAllocMap
  pointer : ∀ a, (rt'.allocs a).pointer = (rt.allocs a).pointer
  length : ∀ a, (rt'.allocs a).length = (rt.allocs a).length
  affiliated : ∀ a, (rt'.allocs a).affiliatedState = (rt.allocs a).affiliatedState

namespace SameTable

variable {rt rt' rt'' : Runtime}

theorem refl (rt : Runtime) : SameTable rt rt :=
  ⟨rfl, rfl, rfl, fun _ => rfl, fun _ => rfl, fun _ => rfl⟩

theorem symm (h : SameTable rt rt') : SameTable rt' rt where
  table := h.table.symm
  numAllocs := h.numAllocs.symm
  origins := h.origins.symm
  pointer := fun a => (h.pointer a).symm
  length := fun a => (h.length a).symm
  affiliated := fun a => (h.affiliated a).symm

theorem trans (h : SameTable rt rt') (h' : SameTable rt' rt'') : SameTable rt rt'' where
  table := h'.table.trans h.table
  numAllocs := h'.numAllocs.trans h.numAllocs
  origins := h'.origins.trans h.origins
  pointer := fun a => (h'.pointer a).trans (h.pointer a)
  length := fun a => (h'.length a).trans (h.length a)
  affiliated := fun a => (h'.affiliated a).trans (h.affiliated a)

/-- Lookups read the table and the lengths only. -/
theorem find (h : SameTable rt rt') (p : Addr) : rt'.find p = rt.find p := by
  unfold Runtime.find findAllocation
  simp only [h.table, h.length]

/-- Replacing an object by one of the same shape. -/
theorem setAlloc (rt : Runtime) (a : AllocId) (alloc : Allocation)
    (hp : alloc.pointer = (rt.allocs a).pointer)
    (hl : alloc.length = (rt.allocs a).length)
    (ha : alloc.affiliatedState = (rt.allocs a).affiliatedState) :
    SameTable rt (rt.setAlloc a alloc) := by
  have hb : ∀ b, ((rt.setAlloc a alloc).allocs b).pointer = (rt.allocs b).pointer
      ∧ ((rt.setAlloc a alloc).allocs b).length = (rt.allocs b).length
      ∧ ((rt.setAlloc a alloc).allocs b).affiliatedState
        = (rt.allocs b).affiliatedState := by
    intro b
    unfold Runtime.setAlloc
    by_cases h : b = a
    · subst h
      simp [hp, hl, ha]
    · simp [h]
  exact ⟨rfl, rfl, rfl, fun b => (hb b).1, fun b => (hb b).2.1, fun b => (hb b).2.2⟩

end SameTable

end Carmot.Texas
