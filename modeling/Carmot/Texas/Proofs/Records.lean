/-
Where a state's record on an allocation comes from and where it goes.

An allocation has a record for a state from the first entry that
records for the pair on; commits empty it but leave it there, and only
the skip rule of a free takes it away. The state has the allocation as
a key of its sets once a record with a set code was committed, and
keeps it (`processEntry_records`).

So a key without a record means: a free erased the record when the key
was there already, and nothing was recorded for the pair since
(`key_without_record`).
-/
import Carmot.Texas.Proofs.Frees
import Carmot.Texas.Proofs.Stream

namespace Carmot.Texas

open Carmot.Lib (concat_eq_append_cons)

-- =================================================================== keys

/-- The allocation is a key of one of the state's fourteen sets. -/
def StateSets.HasKey (st : StateSets) (a : AllocId) : Prop :=
  ∃ c, (st.sets c a).isSome = true ∨ (st.finals c a).isSome = true

/-- The state has the allocation as a key. -/
def HasKey (rt : Runtime) (a : AllocId) (s : StateId) : Prop := (rt.sets s).HasKey a

/-- The allocation has a record for the state. -/
def HasRecord (rt : Runtime) (a : AllocId) (s : StateId) : Prop :=
  ((rt.allocs a).stateCommitInfoMap s).isSome = true

theorem isSome_addOffsets (m : AllocationsSet) (a b : AllocId) (offs : Finset UInt64) :
    (addOffsets m a offs b).isSome = true ↔ b = a ∨ (m b).isSome = true := by
  unfold addOffsets
  by_cases hb : b = a
  · simp [hb]
  · simp [hb]

/-- Absorbing a record of `a` makes `a` a key of the sets it has codes
for. -/
theorem isSome_absorb (st : StateSets) (a b : AllocId) (info : StateCommitInfo) (c : StateClass) :
    ((st.absorb a info).sets c b).isSome = true ↔
      (st.sets c b).isSome = true
        ∨ (b = a ∧ (info.stateSetToOffsetMap (.stateAdd c)).isSome = true) := by
  unfold StateSets.absorb
  dsimp only
  cases hm : info.stateSetToOffsetMap (.stateAdd c) with
  | none => simp
  | some offs => simp [isSome_addOffsets, or_comm]

theorem hasKey_absorb (st : StateSets) (a b : AllocId) (info : StateCommitInfo) :
    (st.absorb a info).HasKey b ↔
      st.HasKey b ∨ (b = a ∧ ∃ c, (info.stateSetToOffsetMap (.stateAdd c)).isSome = true) := by
  unfold StateSets.HasKey
  simp only [isSome_absorb]
  constructor
  · intro h
    obtain ⟨c, (h | ⟨hb, h⟩) | h⟩ := h
    · exact Or.inl ⟨c, Or.inl h⟩
    · exact Or.inr ⟨hb, c, h⟩
    · exact Or.inl ⟨c, Or.inr h⟩
  · intro h
    rcases h with ⟨c, h | h⟩ | ⟨hb, c, h⟩
    · exact ⟨c, Or.inl (Or.inl h)⟩
    · exact ⟨c, Or.inr h⟩
    · exact ⟨c, Or.inl (Or.inr ⟨hb, h⟩)⟩

/-- Committing a set moves its keys and loses none. -/
theorem isSome_commitAndCleanSet (st : StateSets) (c d : StateClass) (a : AllocId) :
    (((commitAndCleanSet st c).finals d a).isSome = true ↔
        (st.finals d a).isSome = true ∨ (d = c ∧ (st.sets d a).isSome = true))
      ∧ (((commitAndCleanSet st c).sets d a).isSome = true ↔
        d ≠ c ∧ (st.sets d a).isSome = true) := by
  unfold commitAndCleanSet
  by_cases hd : d = c
  · subst hd
    cases hs : st.sets d a with
    | none => simp [hs]
    | some t => cases hf : st.finals d a <;> simp [hs, hf]
  · simp [hd]

theorem isSome_foldl_commitAndCleanSet (cs : List StateClass) :
    ∀ (st : StateSets) (d : StateClass) (a : AllocId),
      (((cs.foldl commitAndCleanSet st).finals d a).isSome = true ↔
          (st.finals d a).isSome = true ∨ (d ∈ cs ∧ (st.sets d a).isSome = true))
        ∧ (((cs.foldl commitAndCleanSet st).sets d a).isSome = true ↔
          d ∉ cs ∧ (st.sets d a).isSome = true) := by
  induction cs with
  | nil =>
      intro st d a
      simp
  | cons c cs ih =>
      intro st d a
      obtain ⟨hfin, hset⟩ := isSome_commitAndCleanSet st c d a
      obtain ⟨ihf, ihs⟩ := ih (commitAndCleanSet st c) d a
      rw [List.foldl_cons, ihf, ihs, hfin, hset, List.mem_cons]
      by_cases hd : d = c
      · simp [hd]
      · simp [hd]

/-- After `CommitState` every key is in a Final set. -/
theorem finalKey_commitSets (st : StateSets) (a : AllocId) :
    (∃ c, ((commitSets st).finals c a).isSome = true) ↔ st.HasKey a := by
  unfold commitSets StateSets.HasKey
  simp only [(isSome_foldl_commitAndCleanSet commitOrder st _ a).1, mem_commitOrder, true_and]
  exact exists_congr fun c => or_comm

theorem hasKey_commitSets (st : StateSets) (a : AllocId) :
    (commitSets st).HasKey a ↔ st.HasKey a := by
  constructor
  · intro h
    apply (finalKey_commitSets st a).mp
    obtain ⟨c, h | h⟩ := h
    · unfold commitSets at h
      have hno := ((isSome_foldl_commitAndCleanSet commitOrder st c a).2.mp h).1
      exact absurd (mem_commitOrder c) hno
    · exact ⟨c, h⟩
  · intro h
    obtain ⟨c, h⟩ := (finalKey_commitSets st a).mpr h
    exact ⟨c, Or.inr h⟩

-- ============================================================= committing

section Committing

variable {tree : StateTree} {rt : Runtime}

/-- Committing an object keeps its records, less the skipped ones. -/
theorem hasRecord_commitStateInfo (skip : Option StateId) (a b : AllocId) (s : StateId) :
    HasRecord (commitStateInfo tree skip rt a) b s ↔
      HasRecord rt b s ∧ ¬ (b = a ∧ Skips tree (rt.allocs a) skip s) := by
  unfold HasRecord
  by_cases hb : b = a
  · subst hb
    have hmap : ((commitStateInfo tree skip rt b).allocs b).stateCommitInfoMap s
        = (keptInfo tree (rt.allocs b) skip s).map StateCommitInfo.cleared := by
      simp [commitStateInfo]
    rw [hmap, Option.isSome_map]
    by_cases hk : Skips tree (rt.allocs b) skip s
    · rw [keptInfo_of_skips hk]
      simp [hk]
    · rw [keptInfo_of_not_skips hk]
      simp [hk]
  · have hmap : (commitStateInfo tree skip rt a).allocs b = rt.allocs b := by
      simp [commitStateInfo, hb]
    rw [hmap]
    simp [hb]

/-- A committed object becomes a key only of states it has a record for
that is not skipped. -/
theorem hasKey_commitStateInfo (skip : Option StateId) (a b : AllocId) (s : StateId) :
    (HasKey rt b s → HasKey (commitStateInfo tree skip rt a) b s)
      ∧ (HasKey (commitStateInfo tree skip rt a) b s →
        HasKey rt b s ∨ (HasRecord rt b s ∧ ¬ (b = a ∧ Skips tree (rt.allocs a) skip s))) := by
  unfold HasKey
  cases hk : keptInfo tree (rt.allocs a) skip s with
  | none =>
      rw [sets_commitStateInfo_of_none hk]
      exact ⟨id, Or.inl⟩
  | some info =>
      rw [sets_commitStateInfo_of_some hk, hasKey_absorb]
      refine ⟨Or.inl, fun h => ?_⟩
      rcases h with h | ⟨rfl, -⟩
      · exact Or.inl h
      · have hskip : ¬ Skips tree (rt.allocs b) skip s := by
          intro hskip
          rw [keptInfo_of_skips hskip] at hk
          cases hk
        rw [keptInfo_of_not_skips hskip] at hk
        refine Or.inr ⟨?_, fun h => hskip h.2⟩
        unfold HasRecord
        rw [hk]
        rfl

/-- Committing a list of objects without skipping. -/
theorem records_foldl_commitStateInfo (tree : StateTree) (as : List AllocId) (b : AllocId) (s : StateId) :
    ∀ rt : Runtime,
      (HasRecord (as.foldl (commitStateInfo tree none) rt) b s ↔ HasRecord rt b s)
        ∧ (HasKey rt b s → HasKey (as.foldl (commitStateInfo tree none) rt) b s)
        ∧ (HasKey (as.foldl (commitStateInfo tree none) rt) b s →
          HasKey rt b s ∨ HasRecord rt b s) := by
  induction as with
  | nil => exact fun rt => ⟨Iff.rfl, id, Or.inl⟩
  | cons a as ih =>
      intro rt
      obtain ⟨hrec, hmono, hnew⟩ := ih (commitStateInfo tree none rt a)
      have hone : HasRecord (commitStateInfo tree none rt a) b s ↔ HasRecord rt b s := by
        rw [hasRecord_commitStateInfo]
        exact and_iff_left fun h => not_skips_none _ s h.2
      obtain ⟨hkmono, hknew⟩ := @hasKey_commitStateInfo tree rt none a b s
      rw [List.foldl_cons, hrec, hone]
      refine ⟨Iff.rfl, fun h => hmono (hkmono h), fun h => ?_⟩
      rcases hnew h with h | h
      · exact (hknew h).imp id And.left
      · exact Or.inr (hone.mp h)

/-- `CommitState` keeps records and keys. -/
theorem hasKey_commitState (t : StateId) (a : AllocId) (s : StateId) :
    HasKey (commitState rt t) a s ↔ HasKey rt a s := by
  unfold HasKey commitState
  by_cases hs : s = t
  · subst hs
    simp [hasKey_commitSets]
  · simp [hs]

end Committing

-- ============================================================== one entry

/-- The entry makes sure that object `a` has a record for state `s`. -/
def MakesRecord (env : Env) (rt : Runtime) (e : ShadowEntry) (a : AllocId) (s : StateId) : Prop :=
  match e.operation with
  | .stateAdd _ | .stateAddRead | .stateAddWrite => rt.find e.ptr = some a
      ∧ s ∈ env.tree.chain? e.sizeState.getStatePtr
      ∧ (env.options.trackCycles && e.operation.isAccess) = false
  | .stateRegionSet => rt.find e.ptr = some a ∧ s ∈ env.tree.chain? e.affiliatedState
  | _ => False

/-- Objects with a record exist. -/
structure RecordInv (rt : Runtime) : Prop extends TableInv rt where
  record_lt : ∀ a s, HasRecord rt a s → a < rt.numAllocs

/-- One entry, seen through records and keys. -/
structure RecordSpec (env : Env) (rt : Runtime) (e : ShadowEntry) (rt' : Runtime) : Prop where
  num_le : rt.numAllocs ≤ rt'.numAllocs
  record : ∀ a s, HasRecord rt' a s ↔
    MakesRecord env rt e a s ∨ (HasRecord rt a s ∧ ¬ Erases env rt e a s)
  key_mono : ∀ a s, HasKey rt a s → HasKey rt' a s
  key_new : ∀ a s, HasKey rt' a s → HasKey rt a s ∨ (HasRecord rt a s ∧ ¬ Erases env rt e a s)

section OneEntry

variable {env : Env} {rt rt' : Runtime} {e : ShadowEntry}

theorem MakesRecord.find {a : AllocId} {s : StateId} (h : MakesRecord env rt e a s) :
    rt.find e.ptr = some a := by
  unfold MakesRecord at h
  split at h
  · exact h.1
  · exact h.1
  · exact h.1
  · exact h.1
  · exact h.elim

/-- An entry that is no free erases nothing. -/
theorem not_erases (hop : e.operation ≠ .allocFree) (a : AllocId) (s : StateId) :
    ¬ Erases env rt e a s := fun h => hop h.1

/-- An entry that keeps the sets and adds only the records it makes. -/
theorem RecordSpec.of_sets (hop : e.operation ≠ .allocFree) (hnum : rt.numAllocs ≤ rt'.numAllocs)
    (hkeys : ∀ a s, HasKey rt' a s ↔ HasKey rt a s)
    (hrec : ∀ a s, HasRecord rt' a s ↔ HasRecord rt a s ∨ MakesRecord env rt e a s) :
    RecordSpec env rt e rt' where
  num_le := hnum
  record a s := by
    rw [hrec]
    simp only [not_erases hop a s, not_false_eq_true, and_true]
    exact or_comm
  key_mono a s h := (hkeys a s).mpr h
  key_new a s h := Or.inl ((hkeys a s).mp h)

theorem hasRecord_setInfo (a b : AllocId) (s t : StateId) (info : StateCommitInfo) :
    HasRecord (rt.setInfo a s info) b t ↔ HasRecord rt b t ∨ (b = a ∧ t = s) := by
  unfold HasRecord Runtime.setInfo Runtime.setAlloc
  by_cases hb : b = a
  · subst hb
    by_cases ht : t = s
    · simp [ht]
    · simp [ht]
  · simp [hb]

theorem hasRecord_stampFreshness (a b : AllocId) (s : StateId) :
    HasRecord (stampFreshness a rt) b s ↔ HasRecord rt b s := by
  unfold HasRecord stampFreshness Runtime.setAlloc
  by_cases hb : b = a
  · subst hb
    simp
  · simp [hb]

/-- `processAddToState` makes a record for every state of the chain, or
none. -/
theorem hasRecord_processAddToState (chain : List StateId) (b : AllocId) (t : StateId) :
    ∀ rt : Runtime, HasRecord (processAddToState env e rt chain) b t ↔
      HasRecord rt b t ∨ (rt.find e.ptr = some b ∧ t ∈ chain
        ∧ (env.options.trackCycles && e.operation.isAccess) = false) := by
  induction chain with
  | nil => intro rt; simp [processAddToState]
  | cons s parents ih =>
      intro rt
      unfold processAddToState
      cases hf : rt.find e.ptr with
      | none => simp
      | some a =>
          dsimp only
          generalize hrt : (if env.options.trackCycles = true then stampFreshness a rt
            else rt) = rt₁
          have hsame : SameTable rt rt₁ := by
            rw [← hrt]
            split
            · exact sameTable_stampFreshness a
            · exact SameTable.refl rt
          have hrec : HasRecord rt₁ b t ↔ HasRecord rt b t := by
            rw [← hrt]
            split
            · exact hasRecord_stampFreshness a b t
            · exact Iff.rfl
          cases hraw : env.options.trackCycles && e.operation.isAccess with
          | true => simp [hrec]
          | false =>
              have hfind : (recordAccess e a s rt₁).find e.ptr = some a := by
                rw [(hsame.trans (sameTable_recordAccess e a s)).find, hf]
              have hone : HasRecord (recordAccess e a s rt₁) b t ↔
                  HasRecord rt b t ∨ (b = a ∧ t = s) := by
                rw [← hrec]
                exact hasRecord_setInfo a b s t _
              rw [if_neg (by simp), ih, hone, hfind, hraw, List.mem_cons]
              grind

/-- `processStateRegionSet` makes a record for every state of the
chain, or none. -/
theorem hasRecord_processStateRegionSet (chain : List StateId) (b : AllocId) (t : StateId) :
    ∀ rt : Runtime, HasRecord (processStateRegionSet e rt chain) b t ↔
      HasRecord rt b t ∨ (rt.find e.ptr = some b ∧ t ∈ chain) := by
  induction chain with
  | nil => intro rt; simp [processStateRegionSet]
  | cons s parents ih =>
      intro rt
      unfold processStateRegionSet
      cases hf : rt.find e.ptr with
      | none => simp
      | some a =>
          have hfind : (recordRegion e a s rt).find e.ptr = some a := by
            rw [(sameTable_recordRegion e a s).find, hf]
          have hone : HasRecord (recordRegion e a s rt) b t ↔
              HasRecord rt b t ∨ (b = a ∧ t = s) := hasRecord_setInfo a b s t _
          show HasRecord (processStateRegionSet e (recordRegion e a s rt) parents) b t ↔ _
          rw [ih, hone, hfind, List.mem_cons]
          grind

theorem hasKey_processAddAlloc (env : Env) (hinv : TableInv rt) (e : ShadowEntry) (a : AllocId)
    (s : StateId) : HasKey (processAddAlloc env rt e) a s ↔ HasKey rt a s := by
  have hobj := originObject_spec hinv e
  unfold processAddAlloc
  generalize originObject rt e = r at hobj
  obtain ⟨rt₁, b⟩ := r
  unfold HasKey noteAllocated Runtime.setAlloc
  dsimp only
  rw [hobj.sets]
  split
  · exact Iff.rfl
  · exact Iff.rfl

/-- An `ALLOC_ADD` gives no object a record: a new one has none, and an
old one keeps its own. -/
theorem hasRecord_processAddAlloc (env : Env) (hinv : RecordInv rt) (e : ShadowEntry) (a : AllocId)
    (s : StateId) : HasRecord (processAddAlloc env rt e) a s ↔ HasRecord rt a s := by
  unfold processAddAlloc originObject HasRecord noteAllocated Runtime.setAlloc
  cases ho : rt.originToAllocMap e.information with
  | none =>
      by_cases ha : a = rt.numAllocs
      · have hno : ¬ HasRecord rt a s := fun h => Nat.ne_of_lt (hinv.record_lt a s h) ha
        unfold HasRecord at hno
        subst ha
        simp [Allocation.new, hno]
      · simp [ha]
  | some b =>
      by_cases ha : a = b
      · subst ha
        simp
      · simp [ha]

theorem hasRecord_processAddEscape (env : Env) (e : ShadowEntry) (a : AllocId) (s : StateId) :
    HasRecord (processAddEscape env rt e) a s ↔ HasRecord rt a s := by
  unfold processAddEscape
  split
  · exact Iff.rfl
  · split
    · exact Iff.rfl
    next b _ =>
      unfold HasRecord Runtime.setAlloc
      by_cases ha : a = b
      · subst ha
        simp
      · simp [ha]

theorem processFreeAllocation_records (hop : e.operation = .allocFree) :
    RecordSpec env rt e (processFreeAllocation env rt e) := by
  have hnomake : ∀ a s, ¬ MakesRecord env rt e a s := by
    intro a s
    simp only [MakesRecord, hop, not_false_eq_true]
  unfold processFreeAllocation
  cases hf : rt.find e.ptr with
  | none =>
      have hnoerase : ∀ a s, ¬ Erases env rt e a s := by
        intro a s h
        obtain ⟨-, hsome, -⟩ := h
        rw [hf] at hsome
        cases hsome
      exact ⟨Nat.le_refl _, fun a s => by simp [hnomake, hnoerase], fun a s => id,
        fun a s => Or.inl⟩
  | some b =>
      have herase : ∀ a s, Erases env rt e a s ↔
          a = b ∧ Skips env.tree (rt.allocs b) e.affiliatedState s := by
        intro a s
        unfold Erases
        rw [hf]
        constructor
        · intro h
          obtain ⟨-, h, hskips⟩ := h
          injection h with h
          subst h
          exact ⟨rfl, hskips⟩
        · intro h
          obtain ⟨rfl, hskips⟩ := h
          exact ⟨hop, rfl, hskips⟩
      refine ⟨Nat.le_refl _, fun a s => ?_, fun a s => ?_, fun a s => ?_⟩
      · show HasRecord (commitStateInfo env.tree e.affiliatedState rt b) a s ↔ _
        rw [hasRecord_commitStateInfo, herase]
        simp only [hnomake, false_or]
      · exact (hasKey_commitStateInfo e.affiliatedState b a s).1
      · rw [herase]
        exact (hasKey_commitStateInfo e.affiliatedState b a s).2

theorem commitEntry_records (hop : e.operation = .stateCommit) :
    RecordSpec env rt e (processEntry env rt e) := by
  have hnomake : ∀ a s, ¬ MakesRecord env rt e a s := by
    intro a s
    simp only [MakesRecord, hop, not_false_eq_true]
  have hnoerase : ∀ a s, ¬ Erases env rt e a s := not_erases (by simp [hop])
  have hall : RecordSpec env rt e (commitStateInfoForAllocations env.tree rt) := by
    have hfold := fun a s =>
      records_foldl_commitStateInfo env.tree rt.allocationMap.objects a s rt
    refine ⟨Nat.le_of_eq (sameTable_commitAll rt).numAllocs.symm, fun a s => ?_,
      fun a s => (hfold a s).2.1, fun a s => ?_⟩
    · simp only [hnomake, hnoerase, false_or, not_false_eq_true, and_true]
      exact (hfold a s).1
    · simp only [hnoerase, not_false_eq_true, and_true]
      exact (hfold a s).2.2
  unfold processEntry
  rw [hop]
  cases e.sizeState.getStatePtr with
  | none => exact hall
  | some t =>
      refine ⟨hall.num_le, fun a s => hall.record a s, fun a s h => ?_, fun a s h => ?_⟩
      · exact (hasKey_commitState t a s).mpr (hall.key_mono a s h)
      · exact hall.key_new a s ((hasKey_commitState t a s).mp h)

/-- An access entry, raw or with a set code. -/
theorem accessEntry_records (hop : e.operation.isAccess = true ∨ ∃ c, e.operation = .stateAdd c) :
    RecordSpec env rt e (processEntry env rt e) := by
  rw [processEntry_access rt hop]
  have hkinds := Operation.access_kinds hop
  obtain ⟨hsame, hsets, -⟩ :=
    processAddToState_effect env e (env.tree.chain? e.sizeState.getStatePtr) rt
  apply RecordSpec.of_sets
  · rcases hkinds with h | h | ⟨c, h⟩
    · simp [h]
    · simp [h]
    · simp [h]
  · exact Nat.le_of_eq hsame.numAllocs.symm
  · intro a s
    unfold HasKey
    rw [hsets]
  · intro a s
    rw [hasRecord_processAddToState]
    unfold MakesRecord
    rcases hkinds with h | h | ⟨c, h⟩
    · rw [h]
    · rw [h]
    · rw [h]

/-- Every entry a batch can hold. -/
theorem processEntry_records (env : Env) (hinv : RecordInv rt) (e : ShadowEntry) :
    RecordSpec env rt e (processEntry env rt e) := by
  cases hop : e.operation with
  | allocAdd =>
      have hadd := processAddAlloc_spec env hinv.toTableInv e
      rw [processEntry_allocAdd rt hop]
      apply RecordSpec.of_sets (by simp [hop]) hadd.numAllocs_le
      · intro a s
        exact hasKey_processAddAlloc env hinv.toTableInv e a s
      · intro a s
        simp only [MakesRecord, hop, or_false]
        exact hasRecord_processAddAlloc env hinv e a s
  | allocFree =>
      rw [processEntry_allocFree rt hop]
      exact processFreeAllocation_records hop
  | escapeAdd =>
      obtain ⟨hsame, hsets, -⟩ := processAddEscape_effect env rt e
      rw [processEntry_escapeAdd rt hop]
      apply RecordSpec.of_sets (by simp [hop]) (Nat.le_of_eq hsame.numAllocs.symm)
      · intro a s
        unfold HasKey
        rw [hsets]
      · intro a s
        simp only [MakesRecord, hop, or_false]
        exact hasRecord_processAddEscape env e a s
  | stateAddRead => exact accessEntry_records (Or.inl (by rw [hop]; rfl))
  | stateAddWrite => exact accessEntry_records (Or.inl (by rw [hop]; rfl))
  | stateAdd c => exact accessEntry_records (Or.inr ⟨c, hop⟩)
  | stateCommit => exact commitEntry_records hop
  | stateRegionSet =>
      obtain ⟨hsame, hsets, -⟩ :=
        processStateRegionSet_effect e (env.tree.chain? e.affiliatedState) rt
      rw [processEntry_regionSet rt hop]
      apply RecordSpec.of_sets (by simp [hop]) (Nat.le_of_eq hsame.numAllocs.symm)
      · intro a s
        unfold HasKey
        rw [hsets]
      · intro a s
        rw [hasRecord_processStateRegionSet]
        simp only [MakesRecord, hop]
  | _ =>
      have heq : processEntry env rt e = rt := by simp only [processEntry, hop]
      rw [heq]
      apply RecordSpec.of_sets (by simp [hop]) (Nat.le_refl _)
      · exact fun a s => Iff.rfl
      · intro a s
        simp only [MakesRecord, hop, or_false]

theorem RecordInv.step (hinv : RecordInv rt) (e : ShadowEntry) :
    RecordInv (processEntry env rt e) := by
  have hspec := processEntry_records env hinv e
  refine ⟨(processEntry_spec env e hinv.toTableInv).inv, fun a s h => ?_⟩
  have hlt : a < rt.numAllocs := by
    rcases (hspec.record a s).mp h with h | h
    · exact hinv.objects_lt a (hinv.mem_of_find h.find)
    · exact hinv.record_lt a s h.1
  exact Nat.lt_of_lt_of_le hlt hspec.num_le

end OneEntry

-- ============================================================== whole runs

theorem recordInv_init : RecordInv texasInit where
  toTableInv := tableInv_init
  record_lt a s h := by
    unfold HasRecord at h
    by_cases ha : a = 0
    · simp [texasInit, ha, Allocation.new] at h
    · simp [texasInit, ha, Allocation.new] at h

theorem recordInv_run (env : Env) (es : List ShadowEntry) :
    ∀ {rt : Runtime}, RecordInv rt → RecordInv (processEntries env rt es) := by
  induction es with
  | nil => intro rt hinv; exact hinv
  | cons e es ih =>
      intro rt hinv
      exact ih (hinv.step e)

/-- A free of the run erased the state's record on the object when it
was a key of the state already, and no later entry makes a new one. -/
def ErasedForGood (env : Env) (es : List ShadowEntry) (a : AllocId) (s : StateId) : Prop :=
  ∃ pre f post, es = pre ++ f :: post
    ∧ Erases env (processEntries env texasInit pre) f a s
    ∧ HasKey (processEntries env texasInit pre) a s
    ∧ ∀ mid g rest, post = mid ++ g :: rest →
      ¬ MakesRecord env (processEntries env texasInit (pre ++ f :: mid)) g a s

theorem erasedForGood_concat {env : Env} {es : List ShadowEntry} {e : ShadowEntry} {a : AllocId}
    {s : StateId} (h : ErasedForGood env es a s)
    (hno : ¬ MakesRecord env (processEntries env texasInit es) e a s) :
    ErasedForGood env (es ++ [e]) a s := by
  obtain ⟨pre, f, post, rfl, herase, hkey, hlater⟩ := h
  refine ⟨pre, f, post ++ [e], by simp, herase, hkey, ?_⟩
  intro mid g rest heq
  rcases concat_eq_append_cons heq with ⟨rfl, rfl, -⟩ | ⟨rest', -, hpost⟩
  · exact hno
  · exact hlater mid g rest' hpost

/-- After a run an object is a key without a record exactly when the
record was erased for good. -/
theorem key_without_record (env : Env) (es : List ShadowEntry) (a : AllocId) (s : StateId) :
    (HasKey (processEntries env texasInit es) a s
        ∧ ¬ HasRecord (processEntries env texasInit es) a s) ↔ ErasedForGood env es a s := by
  induction es using List.reverseRecOn with
  | nil =>
      constructor
      · intro h
        obtain ⟨⟨c, h | h⟩, -⟩ := h
        · cases h
        · cases h
      · intro h
        obtain ⟨pre, f, post, h, -⟩ := h
        simp at h
  | append_singleton es e ih =>
      have hspec := processEntry_records env (recordInv_run env es recordInv_init) e
      rw [processEntries_concat, hspec.record]
      constructor
      · intro h
        obtain ⟨hkey, hno⟩ := h
        have hnomake : ¬ MakesRecord env (processEntries env texasInit es) e a s :=
          fun h => hno (Or.inl h)
        have hkey' : HasKey (processEntries env texasInit es) a s := by
          rcases hspec.key_new a s hkey with h | h
          · exact h
          · exact absurd (Or.inr h) hno
        by_cases hrec : HasRecord (processEntries env texasInit es) a s
        · -- the record was there, so the last entry erased it
          have herase : Erases env (processEntries env texasInit es) e a s := by
            by_contra hkept
            exact hno (Or.inr ⟨hrec, hkept⟩)
          refine ⟨es, e, [], rfl, herase, hkey', ?_⟩
          intro mid g rest h
          simp at h
        · exact erasedForGood_concat (ih.mp ⟨hkey', hrec⟩) hnomake
      · intro h
        obtain ⟨pre, f, post, heq, herase, hkey, hlater⟩ := h
        rcases concat_eq_append_cons heq with ⟨rfl, rfl, -⟩ | ⟨post, rfl, h₁⟩
        · refine ⟨hspec.key_mono a s hkey, fun h => ?_⟩
          rcases h with h | h
          · unfold MakesRecord at h
            rw [herase.1] at h
            exact h
          · exact h.2 herase
        · have hbefore := ih.mpr ⟨pre, f, post, h₁, herase, hkey, fun mid g' rest h =>
            hlater mid g' (rest ++ [e]) (by rw [h]; simp)⟩
          have hnomake := hlater post e [] rfl
          rw [← h₁] at hnomake
          refine ⟨hspec.key_mono a s hbefore.1, fun h => ?_⟩
          rcases h with h | h
          · exact hnomake h
          · exact hbefore.2 h.1

-- ============================================================== the report

/-- The allocation is in a Final set of the state. -/
def FinalKey (rt : Runtime) (a : AllocId) (s : StateId) : Prop :=
  ∃ c, ((rt.sets s).finals c a).isSome = true

theorem foldl_commitState_keys (ss : List StateId) (a : AllocId) (s : StateId) :
    ∀ rt : Runtime,
      (HasRecord (ss.foldl commitState rt) a s ↔ HasRecord rt a s)
        ∧ (FinalKey (ss.foldl commitState rt) a s ↔
          if s ∈ ss then HasKey rt a s else FinalKey rt a s) := by
  induction ss with
  | nil => intro rt; simp
  | cons t ss ih =>
      intro rt
      obtain ⟨hrec, hkey⟩ := ih (commitState rt t)
      rw [List.foldl_cons, hrec, hkey, hasKey_commitState]
      refine ⟨Iff.rfl, ?_⟩
      by_cases hs : s = t
      · subst hs
        have hfinal : FinalKey (commitState rt s) a s ↔ HasKey rt a s := by
          unfold FinalKey HasKey commitState
          simp only [Function.update_self]
          exact finalKey_commitSets _ a
        simp [hfinal]
      · have hfinal : FinalKey (commitState rt t) a s ↔ FinalKey rt a s := by
          unfold FinalKey commitState
          simp [hs]
        simp [hs, hfinal]

/-- The report takes no record away. -/
theorem hasRecord_reportStatistics (env : Env) (stateMap : List StateId) (rt : Runtime)
    (a : AllocId) (s : StateId) :
    HasRecord (reportStatistics env stateMap rt) a s ↔ HasRecord rt a s := by
  have hcommit := (foldl_commitState_keys stateMap a s
    (commitStateInfoForAllocations env.tree rt)).1
  have hall := (records_foldl_commitStateInfo env.tree rt.allocationMap.objects a s rt).1
  exact hcommit.trans hall

/-- After the report every key of a reported state is in a Final set,
and what is new there has a record. -/
theorem finalKey_reportStatistics (env : Env) {stateMap : List StateId} (rt : Runtime) (a : AllocId)
    {s : StateId} (hs : s ∈ stateMap) :
    (HasKey rt a s → FinalKey (reportStatistics env stateMap rt) a s)
      ∧ (FinalKey (reportStatistics env stateMap rt) a s → HasKey rt a s ∨ HasRecord rt a s) := by
  have hreport : FinalKey (reportStatistics env stateMap rt) a s ↔
      HasKey (commitStateInfoForAllocations env.tree rt) a s := by
    have hkey := (foldl_commitState_keys stateMap a s
      (commitStateInfoForAllocations env.tree rt)).2
    rw [if_pos hs] at hkey
    rw [← hkey]
    unfold FinalKey reportStatistics
    dsimp only
    rw [if_pos hs]
    rfl
  rw [hreport]
  exact (records_foldl_commitStateInfo env.tree rt.allocationMap.objects a s rt).2

end Carmot.Texas
