/-
What each operation of the worker does to pending and committed items
and to the table: one lemma per operation, with the guards of its early
returns, so that a run-level proof is a case split over entries.
-/
import Carmot.Texas.Proofs.Items

namespace Carmot.Texas

variable {tree : StateTree} {rt : Runtime}

-- ============================================================= committing

/-- The skip rule of `commitStateInfo`: state `s` is an ancestor-or-self
both of the object's affiliated state and of the state to skip. -/
def Skips (tree : StateTree) (alloc : Allocation) (skipState : Option StateId)
    (s : StateId) : Prop :=
  s ∈ tree.chain? alloc.affiliatedState ∧ s ∈ tree.chain? skipState

theorem not_skips_none (alloc : Allocation) (s : StateId) :
    ¬ Skips tree alloc none s := fun h => absurd h.2 List.not_mem_nil

theorem keptInfo_of_skips {alloc : Allocation} {skip : Option StateId} {s : StateId}
    (h : Skips tree alloc skip s) : keptInfo tree alloc skip s = none := if_pos h

theorem keptInfo_of_not_skips {alloc : Allocation} {skip : Option StateId}
    {s : StateId} (h : ¬ Skips tree alloc skip s) :
    keptInfo tree alloc skip s = alloc.stateCommitInfoMap s := if_neg h

/-- Committing one object: its records that are not skipped reach their
states. -/
theorem committed_commitStateInfo (skip : Option StateId) (a b : AllocId)
    (s : StateId) (x : Item) :
    Committed (commitStateInfo tree skip rt a) b s x ↔
      Committed rt b s x
        ∨ (b = a ∧ Pending rt a s x ∧ ¬ Skips tree (rt.allocs a) skip s) := by
  unfold Committed Pending
  by_cases hk : Skips tree (rt.allocs a) skip s
  · rw [sets_commitStateInfo_of_none (keptInfo_of_skips hk)]
    simp [hk]
  · have hkept := keptInfo_of_not_skips hk
    cases hm : (rt.allocs a).stateCommitInfoMap s with
    | none =>
        rw [hm] at hkept
        rw [sets_commitStateInfo_of_none hkept]
        simp
    | some info =>
        rw [hm] at hkept
        rw [sets_commitStateInfo_of_some hkept]
        simp only [holds_absorb, Option.some.injEq, exists_eq_left', hk,
          not_false_eq_true, and_true]

/-- Committing one object leaves nothing pending on it, and the others
alone. -/
theorem pending_commitStateInfo (skip : Option StateId) (a b : AllocId)
    (s : StateId) (x : Item) :
    Pending (commitStateInfo tree skip rt a) b s x ↔ b ≠ a ∧ Pending rt b s x := by
  unfold Pending
  by_cases hb : b = a
  · subst hb
    have hmap : ((commitStateInfo tree skip rt b).allocs b).stateCommitInfoMap s
        = (keptInfo tree (rt.allocs b) skip s).map StateCommitInfo.cleared := by
      simp [commitStateInfo]
    rw [hmap]
    simp only [ne_eq, not_true_eq_false, false_and, iff_false, not_exists, not_and]
    intro info hi
    rw [Option.map_eq_some_iff] at hi
    obtain ⟨old, -, hold⟩ := hi
    rw [← hold]
    exact not_holds_cleared old x
  · have hmap : (commitStateInfo tree skip rt a).allocs b = rt.allocs b := by
      simp [commitStateInfo, hb]
    rw [hmap]
    simp [hb]

theorem sameTable_commitStateInfo (skip : Option StateId) (a : AllocId) :
    SameTable rt (commitStateInfo tree skip rt a) := by
  have h := SameTable.setAlloc rt a
    { rt.allocs a with
      stateCommitInfoMap := fun s =>
        (keptInfo tree (rt.allocs a) skip s).map StateCommitInfo.cleared } rfl rfl rfl
  exact ⟨rfl, rfl, rfl, h.pointer, h.length, h.affiliated⟩

/-- Committing a list of objects. -/
theorem foldl_commitStateInfo (as : List AllocId) :
    ∀ rt : Runtime,
      SameTable rt (as.foldl (commitStateInfo tree none) rt)
        ∧ ∀ b s x,
          (Committed (as.foldl (commitStateInfo tree none) rt) b s x ↔
              Committed rt b s x ∨ (b ∈ as ∧ Pending rt b s x))
            ∧ (Pending (as.foldl (commitStateInfo tree none) rt) b s x ↔
              b ∉ as ∧ Pending rt b s x) := by
  induction as with
  | nil => intro rt; exact ⟨SameTable.refl rt, fun b s x => by simp⟩
  | cons a as ih =>
      intro rt
      obtain ⟨hsame, hitems⟩ := ih (commitStateInfo tree none rt a)
      refine ⟨(sameTable_commitStateInfo none a).trans hsame, fun b s x => ?_⟩
      obtain ⟨hc, hp⟩ := hitems b s x
      rw [List.foldl_cons, hc, hp, committed_commitStateInfo,
        pending_commitStateInfo, List.mem_cons]
      have hns := @not_skips_none tree (rt.allocs a) s
      by_cases hb : b = a
      · subst hb
        simp [hns]
      · simp [hb]

/-- `CommitStateInfoForAllocations`: everything pending on an object of
the table reaches its state. -/
theorem committed_commitAll (rt : Runtime) (b : AllocId) (s : StateId) (x : Item) :
    Committed (commitStateInfoForAllocations tree rt) b s x ↔
      Committed rt b s x ∨ (b ∈ rt.allocationMap.objects ∧ Pending rt b s x) :=
  ((foldl_commitStateInfo _ rt).2 b s x).1

theorem pending_commitAll (rt : Runtime) (b : AllocId) (s : StateId) (x : Item) :
    Pending (commitStateInfoForAllocations tree rt) b s x ↔
      b ∉ rt.allocationMap.objects ∧ Pending rt b s x :=
  ((foldl_commitStateInfo _ rt).2 b s x).2

theorem sameTable_commitAll (rt : Runtime) :
    SameTable rt (commitStateInfoForAllocations tree rt) :=
  (foldl_commitStateInfo _ rt).1

/-- `CommitState` moves items from temporary to Final sets, so what is
committed stays committed. -/
theorem committed_commitState (rt : Runtime) (t s : StateId) (b : AllocId) (x : Item) :
    Committed (commitState rt t) b s x ↔ Committed rt b s x := by
  unfold Committed commitState
  by_cases hs : s = t
  · subst hs
    simp [holds_commitSets]
  · simp [hs]

theorem sameTable_commitState (rt : Runtime) (t : StateId) :
    SameTable rt (commitState rt t) :=
  ⟨rfl, rfl, rfl, fun _ => rfl, fun _ => rfl, fun _ => rfl⟩

theorem pending_commitState (rt : Runtime) (t s : StateId) (b : AllocId) (x : Item) :
    Pending (commitState rt t) b s x ↔ Pending rt b s x := Iff.rfl

-- ============================================================== recording

/-- What an access entry records on object `a`. -/
def AccessItem (rt : Runtime) (e : ShadowEntry) (a : AllocId) (x : Item) : Prop :=
  (∃ c, e.operation = .stateAdd c ∧ x = .offset c (e.ptr - (rt.allocs a).pointer))
    ∨ (e.information ≠ 0 ∧ x = .use e.information)

/-- What a region entry records on object `a`. -/
def RegionItem (rt : Runtime) (e : ShadowEntry) (a : AllocId) (x : Item) : Prop :=
  x = .offset e.stateToSet (getOffset (rt.allocs a).pointer e.ptr)
    ∨ x = .offset e.stateToSet
      (getOffset (rt.allocs a).pointer e.ptr + e.sizeState.getSize)
    ∨ x = .use e.information

theorem pending_setInfo (a b : AllocId) (s t : StateId) (info : StateCommitInfo)
    (x : Item) :
    Pending (rt.setInfo a s info) b t x ↔
      if b = a ∧ t = s then info.Holds x else Pending rt b t x := by
  unfold Pending Runtime.setInfo Runtime.setAlloc
  by_cases hb : b = a
  · subst hb
    by_cases ht : t = s
    · subst ht
      simp
    · simp [ht]
  · simp [hb]

theorem sameTable_setInfo (a : AllocId) (s : StateId) (info : StateCommitInfo) :
    SameTable rt (rt.setInfo a s info) := SameTable.setAlloc rt a _ rfl rfl rfl

/-- A record that may not exist yet holds what is pending. -/
theorem holds_getD_empty (a : AllocId) (s : StateId) (x : Item) :
    (((rt.allocs a).stateCommitInfoMap s).getD StateCommitInfo.empty).Holds x ↔
      Pending rt a s x := by
  unfold Pending
  cases (rt.allocs a).stateCommitInfoMap s with
  | none => simp [not_holds_empty]
  | some info => simp

theorem pending_recordAccess (e : ShadowEntry) (a b : AllocId) (s t : StateId)
    (x : Item) :
    Pending (recordAccess e a s rt) b t x ↔
      Pending rt b t x ∨ (b = a ∧ t = s ∧ AccessItem rt e a x) := by
  unfold recordAccess
  rw [pending_setInfo]
  by_cases hbt : b = a ∧ t = s
  · obtain ⟨rfl, rfl⟩ := hbt
    rw [if_pos ⟨rfl, rfl⟩, holds_addOffset]
    by_cases hi : e.information = 0
    · simp [hi, holds_getD_empty, AccessItem]
    · simp only [hi, ne_eq, not_false_eq_true, if_true, holds_addUse,
        holds_getD_empty, AccessItem, true_and]
      rw [or_assoc, or_comm (a := x = Item.use e.information)]
  · rw [if_neg hbt]
    constructor
    · exact Or.inl
    · intro h
      rcases h with h | ⟨hb, ht, -⟩
      · exact h
      · exact absurd ⟨hb, ht⟩ hbt

theorem pending_recordRegion (e : ShadowEntry) (a b : AllocId) (s t : StateId)
    (x : Item) :
    Pending (recordRegion e a s rt) b t x ↔
      Pending rt b t x ∨ (b = a ∧ t = s ∧ RegionItem rt e a x) := by
  unfold recordRegion
  rw [pending_setInfo]
  by_cases hbt : b = a ∧ t = s
  · obtain ⟨rfl, rfl⟩ := hbt
    rw [if_pos ⟨rfl, rfl⟩]
    simp only [holds_addOffset, holds_addUse, holds_getD_empty, RegionItem,
      true_and, Operation.stateAdd.injEq, exists_eq_left']
    constructor
    · intro h
      rcases h with ((h | h) | h) | h
      · exact Or.inl h
      · exact Or.inr (Or.inr (Or.inr h))
      · exact Or.inr (Or.inl h)
      · exact Or.inr (Or.inr (Or.inl h))
    · intro h
      rcases h with h | h | h | h
      · exact Or.inl (Or.inl (Or.inl h))
      · exact Or.inl (Or.inr h)
      · exact Or.inr h
      · exact Or.inl (Or.inl (Or.inr h))
  · rw [if_neg hbt]
    constructor
    · exact Or.inl
    · intro h
      rcases h with h | ⟨hb, ht, -⟩
      · exact h
      · exact absurd ⟨hb, ht⟩ hbt

theorem sameTable_recordAccess (e : ShadowEntry) (a : AllocId) (s : StateId) :
    SameTable rt (recordAccess e a s rt) := sameTable_setInfo a s _

theorem sameTable_recordRegion (e : ShadowEntry) (a : AllocId) (s : StateId) :
    SameTable rt (recordRegion e a s rt) := sameTable_setInfo a s _

/-- The stamp moves nothing. -/
theorem sameTable_stampFreshness (a : AllocId) : SameTable rt (stampFreshness a rt) := by
  have h := SameTable.setAlloc rt a
    { rt.allocs a with freshness := rt.freshnessSetter } rfl rfl rfl
  exact ⟨rfl, rfl, rfl, h.pointer, h.length, h.affiliated⟩

theorem pending_stampFreshness (a b : AllocId) (s : StateId) (x : Item) :
    Pending (stampFreshness a rt) b s x ↔ Pending rt b s x := by
  unfold Pending stampFreshness Runtime.setAlloc
  by_cases hb : b = a
  · subst hb
    simp
  · simp [hb]

end Carmot.Texas
