/-
When the printed transfer footprint is the footprint of the reported
sets.

The report commits every state of `stateMap` before it prints the first
line, and a commit leaves no key in a temporary set. The footprint is
read from the temporary sets, so every line says 0 bytes
(`footprint_printed`). The Final sets meanwhile hold all that the run
recorded, so the line is right for exactly the states for which nothing
was recorded as transferred on an allocation of positive length.
-/
import Carmot.Texas.Footprint
import Carmot.Texas.Proofs.Stream
import Carmot.Texas.Proofs.Records

namespace Carmot.Texas

-- ==================================================== commits leave no keys

theorem foldl_commitAndCleanSet_sets (cs : List StateClass) :
    ∀ (st : StateSets) (c : StateClass) (a : AllocId),
      c ∈ cs ∨ st.sets c a = none → (cs.foldl commitAndCleanSet st).sets c a = none := by
  induction cs with
  | nil =>
      intro st c a h
      rcases h with h | h
      · cases h
      · exact h
  | cons d cs ih =>
      intro st c a h
      apply ih
      by_cases hc : c = d
      · right
        simp [commitAndCleanSet, hc]
      · rw [List.mem_cons] at h
        rcases h with (h | h) | h
        · exact absurd h hc
        · exact Or.inl h
        · right
          simp [commitAndCleanSet, hc, h]

/-- `CommitState` leaves every temporary set without keys. -/
theorem commitSets_sets (st : StateSets) (c : StateClass) (a : AllocId) :
    (commitSets st).sets c a = none :=
  foldl_commitAndCleanSet_sets commitOrder st c a (Or.inl (mem_commitOrder c))

/-- The state's temporary sets have no keys. -/
def Emptied (rt : Runtime) (s : StateId) : Prop := ∀ c a, (rt.sets s).sets c a = none

theorem emptied_commitState {rt : Runtime} {s t : StateId} (h : s = t ∨ Emptied rt s) :
    Emptied (commitState rt t) s := by
  intro c a
  by_cases hs : s = t
  · simp [commitState, hs, commitSets_sets]
  · rcases h with h | h
    · exact absurd h hs
    · simp [commitState, hs, h c a]

theorem emptied_foldl_commitState (ss : List StateId) :
    ∀ {rt : Runtime} {s : StateId}, s ∈ ss ∨ Emptied rt s →
      Emptied (ss.foldl commitState rt) s := by
  induction ss with
  | nil =>
      intro rt s h
      rcases h with h | h
      · cases h
      · exact h
  | cons t ss ih =>
      intro rt s h
      rw [List.mem_cons] at h
      apply ih
      rcases h with (h | h) | h
      · exact Or.inr (emptied_commitState (Or.inl h))
      · exact Or.inl h
      · exact Or.inr (emptied_commitState (Or.inr h))

-- ========================================================= the printed lines

theorem footprint_of_emptied {rt : Runtime} {s : StateId} (h : Emptied rt s) :
    getTransferStateMemoryFootprint rt (rt.sets s) = 0 := by
  have hnone : transferAllocs rt (rt.sets s) = [] := by
    unfold transferAllocs
    rw [List.filter_eq_nil_iff]
    intro a _
    simp [h .tio a, h .to a]
  unfold getTransferStateMemoryFootprint
  rw [hnone]
  rfl

theorem cleanSets_sets {st : StateSets} (h : ∀ c a, st.sets c a = none) (d u : StateClass) :
    ∀ c a, (cleanSets d u st).sets c a = none := by
  intro c a
  by_cases hc : c = d
  · simp [cleanSets, hc, cleanState, h d a, h u a]
  · simp [cleanSets, hc, h c a]

/-- Reporting adds no key. -/
theorem reportState_sets {st : StateSets} (h : ∀ c a, st.sets c a = none) :
    ∀ c a, (reportState st).sets c a = none := by
  unfold reportState
  apply cleanSets_sets
  apply cleanSets_sets
  apply cleanSets_sets
  apply cleanSets_sets
  apply cleanSets_sets
  apply cleanSets_sets
  exact cleanSets_sets h _ _

theorem emptied_printState {rt : Runtime} {lines : List FootprintLine} {s : StateId}
    (h : Emptied rt s) (t : StateId) : Emptied (printState (rt, lines) t).1 s := by
  intro c a
  by_cases hs : s = t
  · subst hs
    show (Function.update rt.sets s (reportState (rt.sets s)) s).sets c a = none
    rw [Function.update_self]
    exact reportState_sets h c a
  · show (Function.update rt.sets t (reportState (rt.sets t)) s).sets c a = none
    rw [Function.update_of_ne hs]
    exact h c a

/-- What the loop of `ReportStates` does when every state it visits has
been committed: one line of 0 bytes each, and no Final set changes. -/
theorem reportStates_spec (ss : List StateId) :
    ∀ (rt : Runtime) (lines : List FootprintLine), (∀ s ∈ ss, Emptied rt s) →
      (ss.foldl printState (rt, lines)).2 = lines ++ ss.map (fun s => ⟨s, 0⟩)
        ∧ (∀ s, ((ss.foldl printState (rt, lines)).1.sets s).finals = (rt.sets s).finals)
        ∧ (ss.foldl printState (rt, lines)).1.allocs = rt.allocs
        ∧ (ss.foldl printState (rt, lines)).1.numAllocs = rt.numAllocs := by
  induction ss with
  | nil => intro rt lines _; simp
  | cons t ss ih =>
      intro rt lines h
      have hrest : ∀ s ∈ ss, Emptied (printState (rt, lines) t).1 s := fun s hs =>
        emptied_printState (h s (List.mem_cons_of_mem t hs)) t
      obtain ⟨hlines, hfinals, hallocs, hnum⟩ := ih _ (printState (rt, lines) t).2 hrest
      have hzero := footprint_of_emptied (h t (List.mem_cons_self ..))
      refine ⟨?_, fun s => ?_, hallocs, hnum⟩
      · show (ss.foldl printState (printState (rt, lines) t)).2 = _
        rw [hlines]
        simp [printState, hzero]
      · show ((ss.foldl printState (printState (rt, lines) t)).1.sets s).finals = _
        rw [hfinals]
        by_cases hs : s = t
        · simp [printState, hs]
        · simp [printState, hs]

section Report

variable (env : Env) (stateMap : List StateId) (rt : Runtime)

/-- Every line of the report says 0 bytes. -/
theorem printStatistics_lines :
    (printStatistics env stateMap rt).2 = stateMap.map fun s => ⟨s, 0⟩ := by
  have hcommitted : ∀ s ∈ stateMap,
      Emptied (stateMap.foldl commitState (commitStateInfoForAllocations env.tree rt)) s :=
    fun s hs => emptied_foldl_commitState stateMap (Or.inl hs)
  exact (reportStates_spec stateMap _ [] hcommitted).1

/-- The printing report leaves the Final sets of the silent one. -/
theorem printStatistics_finals (s : StateId) :
    ((printStatistics env stateMap rt).1.sets s).finals
      = ((reportStatistics env stateMap rt).sets s).finals := by
  have hcommitted : ∀ s ∈ stateMap,
      Emptied (stateMap.foldl commitState (commitStateInfoForAllocations env.tree rt)) s :=
    fun s hs => emptied_foldl_commitState stateMap (Or.inl hs)
  have hfinals := (reportStates_spec stateMap _ [] hcommitted).2.1 s
  unfold printStatistics reportStatistics reportStates
  dsimp only
  rw [hfinals]
  split
  · rfl
  · rfl

theorem sameTable_foldl_commitState (ss : List StateId) :
    ∀ rt : Runtime, SameTable rt (ss.foldl commitState rt) := by
  induction ss with
  | nil => exact SameTable.refl
  | cons t ss ih =>
      intro rt
      exact (sameTable_commitState rt t).trans (ih (commitState rt t))

/-- The report creates no object and changes no length. -/
theorem printStatistics_objects :
    (printStatistics env stateMap rt).1.numAllocs = rt.numAllocs
      ∧ ∀ a, ((printStatistics env stateMap rt).1.allocs a).length = (rt.allocs a).length := by
  have hcommitted : ∀ s ∈ stateMap,
      Emptied (stateMap.foldl commitState (commitStateInfoForAllocations env.tree rt)) s :=
    fun s hs => emptied_foldl_commitState stateMap (Or.inl hs)
  obtain ⟨-, -, hallocs, hnum⟩ := reportStates_spec stateMap _ [] hcommitted
  have hsame := (@sameTable_commitAll env.tree rt).trans
    (sameTable_foldl_commitState stateMap _)
  unfold printStatistics reportStates
  dsimp only
  rw [hallocs, hnum]
  exact ⟨hsame.numAllocs, hsame.length⟩

end Report

-- =================================================== what the run transferred

theorem hasOffset_iff {m : AllocationsSet} {a : AllocId} :
    m.hasOffset a = true ↔ ∃ off, m.Holds a off := by
  unfold AllocationsSet.hasOffset AllocationsSet.Holds
  cases m a with
  | none => simp
  | some offs =>
      simp only [decide_eq_true_eq, Option.some.injEq, exists_eq_left']
      rw [← Finset.nonempty_iff_ne_empty]
      exact Iff.rfl

/-- Some offset of the object was recorded as transferred for the
state. -/
def Transferred (recorded : AllocId → StateId → Item → Prop) (a : AllocId) (s : StateId) : Prop :=
  ∃ c off, (c = .tio ∨ c = .to) ∧ recorded a s (.offset c off)

/-- Objects are never uncreated. -/
theorem numAllocs_le_run (env : Env) (es : List ShadowEntry) :
    ∀ {rt : Runtime}, RecordInv rt → rt.numAllocs ≤ (processEntries env rt es).numAllocs := by
  induction es with
  | nil => intro rt _; exact Nat.le_refl _
  | cons e es ih =>
      intro rt hinv
      exact Nat.le_trans (processEntry_records env hinv e).num_le (ih (hinv.step e))

theorem Records.find {env : Env} {rt : Runtime} {e : ShadowEntry} {a : AllocId} {s : StateId}
    {x : Item} (h : Records env rt e a s x) : rt.find e.ptr = some a := by
  unfold Records at h
  split at h
  · exact h.1
  · exact h.1
  · exact h.1
  · exact h.1
  · exact h.elim

/-- Whatever was recorded was recorded on an object that exists. -/
theorem recorded_lt {env : Env} {es : List ShadowEntry} {a : AllocId} {s : StateId} {x : Item}
    (h : RecordedIn env texasInit es a s x) :
    a < (processEntries env texasInit es).numAllocs := by
  obtain ⟨pre, e, post, rfl, hrec, -⟩ := h
  have hinv := recordInv_run env pre recordInv_init
  have hlt := hinv.objects_lt a (hinv.toTableInv.mem_of_find hrec.find)
  rw [processEntries_append]
  exact Nat.lt_of_lt_of_le hlt (numAllocs_le_run env (e :: post) hinv)

-- ============================================================ the main result

/-- The Final sets weigh nothing when all their allocations are empty. -/
theorem finalTransferFootprint_eq_zero {rt : Runtime} {s : StateId} :
    finalTransferFootprint rt s = 0 ↔
      ∀ a, a < rt.numAllocs → Transferred (Final rt) a s → (rt.allocs a).length = 0 := by
  have hin : ∀ a, (((rt.sets s).finals .tio).hasOffset a
      || ((rt.sets s).finals .to).hasOffset a) = true ↔ Transferred (Final rt) a s := by
    intro a
    rw [Bool.or_eq_true, hasOffset_iff, hasOffset_iff]
    constructor
    · intro h
      rcases h with ⟨off, h⟩ | ⟨off, h⟩
      · exact ⟨.tio, off, Or.inl rfl, h⟩
      · exact ⟨.to, off, Or.inr rfl, h⟩
    · rintro ⟨c, off, rfl | rfl, h⟩
      · exact Or.inl ⟨off, h⟩
      · exact Or.inr ⟨off, h⟩
  unfold finalTransferFootprint
  rw [Finset.sum_eq_zero_iff]
  constructor
  · intro h a hlt ht
    have hzero := h a (Finset.mem_filter.mpr ⟨Finset.mem_range.mpr hlt, (hin a).mpr ht⟩)
    exact UInt64.toNat_inj.mp hzero
  · intro h a ha
    obtain ⟨hlt, ht⟩ := Finset.mem_filter.mp ha
    rw [h a (Finset.mem_range.mp hlt) ((hin a).mp ht)]
    rfl

/-- For every run of batches and every state: the footprint printed for
the state is that of its Final transfer sets exactly when all that the
run recorded as transferred for it lies on objects of length 0. -/
theorem footprintRight_iff (env : Env) (stateMap : List StateId) (bs : List Batch)
    (s : StateId) (hs : s ∈ stateMap) :
    FootprintRight env stateMap (runBatches env texasInit bs) s ↔
      ∀ a, Transferred (RecordedIn env texasInit (executed env texasInit bs)) a s →
        ((runBatches env texasInit bs).allocs a).length = 0 := by
  set rt := runBatches env texasInit bs with hrt
  obtain ⟨hnum, hlength⟩ := printStatistics_objects env stateMap rt
  -- the Final sets after the report are what the run recorded
  have hfinal : ∀ a, Transferred (Final (printStatistics env stateMap rt).1) a s ↔
      Transferred (RecordedIn env texasInit (executed env texasInit bs)) a s := by
    intro a
    unfold Transferred Final StateSets.FinalHolds
    simp only [printStatistics_finals]
    simp only [← final_runBatches env stateMap bs hs]
    exact Iff.rfl
  have hcreated : ∀ a, Transferred (RecordedIn env texasInit (executed env texasInit bs)) a s →
      a < rt.numAllocs := by
    rintro a ⟨c, off, -, hrec⟩
    have hrun := congrArg Runtime.numAllocs (runBatches_forget env bs texasInit)
    rw [forget_init] at hrun
    exact Nat.lt_of_lt_of_eq (recorded_lt hrec) hrun.symm
  have hweight : finalTransferFootprint (printStatistics env stateMap rt).1 s = 0 ↔
      ∀ a, Transferred (RecordedIn env texasInit (executed env texasInit bs)) a s →
        (rt.allocs a).length = 0 := by
    rw [finalTransferFootprint_eq_zero]
    simp only [hnum, hlength, hfinal]
    constructor
    · intro h a ht
      exact h a (hcreated a ht) ht
    · intro h a _ ht
      exact h a ht
  rw [← hweight]
  unfold FootprintRight
  rw [printStatistics_lines]
  constructor
  · intro h
    exact (h ⟨s, 0⟩ (List.mem_map.mpr ⟨s, hs, rfl⟩) rfl).symm
  · intro h line hline _
    obtain ⟨t, -, rfl⟩ := List.mem_map.mp hline
    rw [h]
    rfl

/-- A block the region only reads: the line of 0 bytes is right. -/
theorem footprintRight_readOnly :
    let env := Env.ofTree .flat
    let bs : List Batch :=
      [⟨[(SlotWrite.allocAdd 100 8 1 none).entry, (SlotWrite.stateBegin 0).entry,
          (SlotWrite.access .read 100 1).entry, (SlotWrite.stateEnd 0).entry], .redundant⟩]
    0 ∈ [0] ∧ ∀ a, Transferred (RecordedIn env texasInit (executed env texasInit bs)) a 0 →
      ((runBatches env texasInit bs).allocs a).length = 0 := by
  intro env bs
  have hmem : 0 ∈ [0] := List.mem_singleton.mpr rfl
  refine ⟨hmem, (footprintRight_iff env [0] bs 0 hmem).mp ?_⟩
  unfold FootprintRight
  decide

/-- A block of 8 bytes written by one invocation and read by the next
is transferred; its line says 0 bytes. -/
theorem not_footprintRight_transfer :
    let env := Env.ofTree .flat
    let bs : List Batch :=
      [⟨[(SlotWrite.allocAdd 100 8 1 none).entry, (SlotWrite.stateBegin 0).entry,
          (SlotWrite.access .write 100 1).entry, (SlotWrite.stateEnd 0).entry,
          (SlotWrite.stateBegin 0).entry, (SlotWrite.access .read 100 2).entry,
          (SlotWrite.stateEnd 0).entry], .redundant⟩]
    (printStatistics env [0] (runBatches env texasInit bs)).2 = [⟨0, 0⟩]
      ∧ finalTransferFootprint (printStatistics env [0] (runBatches env texasInit bs)).1 0 = 8
      ∧ ¬ FootprintRight env [0] (runBatches env texasInit bs) 0 := by
  unfold FootprintRight
  decide

end Carmot.Texas
