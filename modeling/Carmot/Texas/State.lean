/-
The ROI state object (State.hpp, State.cpp), in two halves that
different stages of the runtime own.

- `StatePtrs`: the three pointer maps. Only cleaning reads or fills
  them; committing the state empties them.
- `StateSets`: the seven temporary sets, the seven Final sets and the
  use information. Only processing, committing and reporting touch
  them.

The seven sets are one family indexed by the set code, which is how
`commitStateInfo` picks them (its switch over the code); `FinalInput`
is `finals .input`, `TransferOutput` is `sets .to`, and so on. A
container of the C++ standard library or of TBB is the function from
keys to what is stored there, so a present key with an empty set
(`some ∅`) stays distinct from an absent one.
-/
import Mathlib.Data.Finset.SDiff
import Carmot.Texas.Basic

namespace Carmot.Texas

-- ==================================================== the pointer maps

/-- The pointer maps of a state: the class of every address touched in
a finished iteration, the class of those first touched in the open
one, and the addresses whose class the open iteration has settled. -/
structure StatePtrs where
  statePtrMap : Addr → Option StateClass
  statePtrIterMap : Addr → Option StateClass
  currentPtrIterUpgrades : Addr → Bool

/-- The maps of a new state, and of one that was just committed. -/
def StatePtrs.empty : StatePtrs where
  statePtrMap := fun _ => none
  statePtrIterMap := fun _ => none
  currentPtrIterUpgrades := fun _ => false

-- ============================================================ the sets

/-- Offsets per allocation (`stateAllocationsSetType`). -/
abbrev AllocationsSet := AllocId → Option (Finset UInt64)

/-- Is `off` recorded for allocation `a`? -/
def AllocationsSet.Holds (m : AllocationsSet) (a : AllocId) (off : UInt64) :
    Prop :=
  ∃ offs, m a = some offs ∧ off ∈ offs

instance (m : AllocationsSet) (a : AllocId) (off : UInt64) :
    Decidable (m.Holds a off) :=
  match h : m a with
  | none => isFalse fun ⟨_, ho, _⟩ => by rw [h] at ho; cases ho
  | some offs =>
      if hm : off ∈ offs then isTrue ⟨offs, h, hm⟩
      else isFalse fun ⟨_, ho, hin⟩ => by
        rw [h] at ho
        cases ho
        exact hm hin

/-- The set half of a state object. -/
structure StateSets where
  allocationInfo : AllocId → Option (Finset UInt64)
  allocsAllocatedInState : Finset AllocId
  /-- `Input`, `IO`, .. `TransferOutput`. -/
  sets : StateClass → AllocationsSet
  /-- `FinalInput`, `FinalIO`, .. `FinalTransferOutput`. -/
  finals : StateClass → AllocationsSet

/-- The sets of a new state. -/
def StateSets.empty : StateSets where
  allocationInfo := fun _ => none
  allocsAllocatedInState := ∅
  sets := fun _ _ => none
  finals := fun _ _ => none

/-- Add offsets to an allocation's entry, creating it when absent. -/
def addOffsets (m : AllocationsSet) (a : AllocId) (offs : Finset UInt64) :
    AllocationsSet :=
  Function.update m a (some ((m a).getD ∅ ∪ offs))

-- ========================================================== committing

/-- `CommitAndCleanSet` for the pair of sets with code `c`: the
temporary offsets join the Final ones, allocation by allocation, and
the temporary set is emptied. -/
def commitAndCleanSet (st : StateSets) (c : StateClass) : StateSets where
  allocationInfo := st.allocationInfo
  allocsAllocatedInState := st.allocsAllocatedInState
  sets := Function.update st.sets c fun _ => none
  finals := Function.update st.finals c fun a =>
    match st.sets c a, st.finals c a with
    | none, f => f
    | some t, some f => some (f ∪ t)
    | some t, none => some t

/-- The order in which `CommitState` commits the seven sets. -/
def commitOrder : List StateClass := [.input, .io, .cio, .tio, .output, .co, .to]

/-- `CommitState`, set half: every temporary set into its Final set. -/
def commitSets (st : StateSets) : StateSets := commitOrder.foldl commitAndCleanSet st

-- =========================================================== reporting

/-- `CleanState`: drop from one set the offsets another one has, and
the allocations left with none. -/
def cleanState (setToDeleteFrom setToUseOffsetsFrom : AllocationsSet) :
    AllocationsSet := fun a =>
  match setToUseOffsetsFrom a, setToDeleteFrom a with
  | some used, some offs => if offs \ used = ∅ then none else some (offs \ used)
  | _, kept => kept

/-- One `CleanState` call of `ReportState`, on the temporary sets with
the two codes. -/
def cleanSets (deleteFrom useFrom : StateClass) (st : StateSets) : StateSets :=
  { st with
    sets := Function.update st.sets deleteFrom
      (cleanState (st.sets deleteFrom) (st.sets useFrom)) }

/-- `ReportState`, less its printing: the seven `CleanState` calls, in
source order. They are handed the temporary sets. -/
def reportState (st : StateSets) : StateSets :=
  let st := cleanSets .cio .tio st
  let st := cleanSets .io .tio st
  let st := cleanSets .io .cio st
  let st := cleanSets .input .io st
  let st := cleanSets .co .to st
  let st := cleanSets .output .to st
  cleanSets .output .co st

-- ===================================================== what they hold

theorem mem_commitOrder (c : StateClass) : c ∈ commitOrder := by
  cases c with
  | _ => simp [commitOrder]

/-- One committed set: its Final set gains the temporary offsets and
the temporary set is empty; the other six pairs are untouched. -/
theorem holds_commitAndCleanSet (st : StateSets) (c d : StateClass)
    (a : AllocId) (off : UInt64) :
    (((commitAndCleanSet st c).finals d).Holds a off ↔
        (st.finals d).Holds a off ∨ (d = c ∧ (st.sets d).Holds a off))
      ∧ (((commitAndCleanSet st c).sets d).Holds a off ↔
        (d ≠ c ∧ (st.sets d).Holds a off)) := by
  by_cases hd : d = c
  · subst hd
    simp only [commitAndCleanSet, AllocationsSet.Holds, Function.update_self]
    cases hs : st.sets d a with
    | none => simp
    | some t =>
        cases hf : st.finals d a with
        | none => simp
        | some f => simp
  · simp [commitAndCleanSet, AllocationsSet.Holds, hd]

/-- Committing a list of codes in turn: each listed Final set gains its
temporary offsets, each listed temporary set is emptied. -/
theorem holds_foldl_commitAndCleanSet (cs : List StateClass) :
    ∀ (st : StateSets) (d : StateClass) (a : AllocId) (off : UInt64),
      (((cs.foldl commitAndCleanSet st).finals d).Holds a off ↔
          (st.finals d).Holds a off ∨ (d ∈ cs ∧ (st.sets d).Holds a off))
        ∧ (((cs.foldl commitAndCleanSet st).sets d).Holds a off ↔
          (d ∉ cs ∧ (st.sets d).Holds a off)) := by
  induction cs with
  | nil => intro st d a off; simp
  | cons c cs ih =>
      intro st d a off
      obtain ⟨hfin, hset⟩ := holds_commitAndCleanSet st c d a off
      obtain ⟨ihf, ihs⟩ := ih (commitAndCleanSet st c) d a off
      simp only [List.foldl_cons, List.mem_cons]
      rw [ihf, ihs, hfin, hset]
      by_cases hd : d = c
      · simp [hd]
      · simp [hd]

/-- `CommitState` moves every temporary offset into its Final set. -/
theorem holds_commitSets_finals (st : StateSets) (c : StateClass)
    (a : AllocId) (off : UInt64) :
    ((commitSets st).finals c).Holds a off ↔
      (st.finals c).Holds a off ∨ (st.sets c).Holds a off := by
  simp [commitSets, (holds_foldl_commitAndCleanSet commitOrder st c a off).1,
    mem_commitOrder]

/-- `CommitState` leaves no temporary offset behind. -/
theorem not_holds_commitSets_sets (st : StateSets) (c : StateClass)
    (a : AllocId) (off : UInt64) :
    ¬ ((commitSets st).sets c).Holds a off := by
  simp [commitSets, (holds_foldl_commitAndCleanSet commitOrder st c a off).2,
    mem_commitOrder]

@[simp] theorem commitAndCleanSet_allocationInfo (st : StateSets) (c : StateClass) :
    (commitAndCleanSet st c).allocationInfo = st.allocationInfo := rfl

@[simp] theorem cleanSets_finals (d u : StateClass) (st : StateSets) :
    (cleanSets d u st).finals = st.finals := rfl

@[simp] theorem cleanSets_allocationInfo (d u : StateClass) (st : StateSets) :
    (cleanSets d u st).allocationInfo = st.allocationInfo := rfl

/-- Committing sets does not touch the use information. -/
@[simp] theorem commitSets_allocationInfo (st : StateSets) :
    (commitSets st).allocationInfo = st.allocationInfo := by
  simp [commitSets, commitOrder]

/-- Reporting never touches a Final set: all seven calls clean
temporary sets. -/
@[simp] theorem reportState_finals (st : StateSets) :
    (reportState st).finals = st.finals := by
  simp [reportState]

@[simp] theorem reportState_allocationInfo (st : StateSets) :
    (reportState st).allocationInfo = st.allocationInfo := by
  simp [reportState]

/-- Adding offsets to one allocation's entry. -/
theorem holds_addOffsets (m : AllocationsSet) (a b : AllocId)
    (offs : Finset UInt64) (off : UInt64) :
    (addOffsets m a offs).Holds b off ↔
      m.Holds b off ∨ (b = a ∧ off ∈ offs) := by
  by_cases hb : b = a
  · subst hb
    simp only [addOffsets, AllocationsSet.Holds, Function.update_self]
    cases hm : m b with
    | none => simp
    | some o => simp
  · simp [addOffsets, AllocationsSet.Holds, hb]

end Carmot.Texas
