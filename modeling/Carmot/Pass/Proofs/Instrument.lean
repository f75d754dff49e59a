/-
How often a load or store is instrumented.

`times_runOnModule` is the whole answer, for every instruction with an
entry: once if some ROI's loop only reads it; else once for EVERY ROI
whose direct-state analysis takes it, since the vectors of the ROIs are
concatenated; else not at all if one of the four analyses whose
instrumentation is not emitted takes it; else once, regularly.
-/
import Carmot.Pass.Instrument

namespace Carmot.Pass

variable {Inst : Type} [DecidableEq Inst]

-- ============================================= what the analyses decide

/-- Some ROI is in a loop that only reads the instruction's address. -/
def isOnlyRead (d : DisableOptions) (a : Analyses Inst) (inst : Inst) : Bool :=
  !d.onlyReadOpt && a.rois.any fun roi =>
    roi.roiLoop.any fun l => l.loopInstructions.contains inst && l.isInvariantLoad inst

/-- The ROI's direct-state analysis takes the instruction. -/
def RoiInfo.setsDirectState (roi : RoiInfo Inst) (inst : Inst) : Bool :=
  roi.promoteAllocas && roi.roiLoop.any fun l =>
    l.loopInstructions.contains inst && (l.isInput inst || l.isOutput inst)

/-- The number of ROIs whose direct-state analysis takes it. -/
def directStateRois (d : DisableOptions) (a : Analyses Inst) (inst : Inst) : Nat :=
  if d.directState then 0 else a.rois.countP fun roi => roi.setsDirectState inst

/-- One of the analyses without an instrumentation takes it. -/
def isDropped (d : DisableOptions) (o : PassOptions) (a : Analyses Inst) (inst : Inst) : Bool :=
  (!d.loopInvariantStoreOpt && a.isLoopInvariant inst)
    || (!d.mostlyLoopInvariantStoreOpt && a.isLoopMostlyInvariant inst)
    || (!d.loopInductionStoreOpt && o.enableDFAObjGranularity && a.isLoopInduction inst)
    || (!d.baseAddressMostlyInvariantStoreOpt && o.enableDFAObjGranularity
      && a.isBaseAddressMostlyInvariant inst)

-- =========================================================== candidates

section Candidates

variable (skip entries : Finset Inst)

theorem mem_getOnlyReadLoadsAll {inst : Inst} (rois : List (RoiInfo Inst)) :
    inst ∈ getOnlyReadLoadsAll skip entries rois ↔
      isLeft skip entries inst = true ∧ (rois.any fun roi =>
        roi.roiLoop.any fun l => l.loopInstructions.contains inst && l.isInvariantLoad inst) := by
  have hfold : ∀ acc, inst ∈ rois.foldl (addOnlyReadLoads skip entries) acc ↔
      inst ∈ acc ∨ (isLeft skip entries inst = true ∧ (rois.any fun roi =>
        roi.roiLoop.any fun l => l.loopInstructions.contains inst && l.isInvariantLoad inst)) := by
    induction rois with
    | nil =>
        intro acc
        simp
    | cons roi rois ih =>
        intro acc
        rw [List.foldl_cons, ih, List.any_cons]
        unfold addOnlyReadLoads
        cases roi.roiLoop with
        | none => simp
        | some l =>
            simp only [getOnlyReadLoads, Finset.mem_union, List.mem_toFinset, List.mem_filter,
              Option.any_some, Bool.or_eq_true, Bool.and_eq_true, List.contains_iff_mem]
            tauto
  unfold getOnlyReadLoadsAll
  rw [hfold]
  simp

/-- A ROI's direct-state candidates, in the order of its loop. -/
theorem map_getDirectStateLoadStore (l : RoiLoop Inst) :
    (getDirectStateLoadStore skip entries l).map DirectStateLoadStore.inst
      = l.loopInstructions.filter fun inst =>
          isLeft skip entries inst && (l.isInput inst || l.isOutput inst) := by
  unfold getDirectStateLoadStore
  induction l.loopInstructions with
  | nil => rfl
  | cons inst insts ih =>
      rw [List.filterMap_cons, List.filter_cons]
      cases isLeft skip entries inst with
      | false => simpa using ih
      | true =>
          cases l.isInput inst with
          | true => simpa using ih
          | false => cases l.isOutput inst <;> simpa using ih

/-- Every element is an input or an output, so each is instrumented. -/
theorem instrumentDirectStateLoadStore_eq (rois : List (RoiInfo Inst)) :
    instrumentDirectStateLoadStore (getDirectStateLoadStoreAll skip entries rois)
      = (getDirectStateLoadStoreAll skip entries rois).map DirectStateLoadStore.inst := by
  have hstate : ∀ elem ∈ getDirectStateLoadStoreAll skip entries rois,
      elem.fsaState = .input ∨ elem.fsaState = .output := by
    intro elem helem
    obtain ⟨roi, _, helem⟩ := List.mem_flatMap.mp helem
    unfold roiDirectState at helem
    split at helem
    · cases helem
    · split at helem
      · obtain ⟨inst, _, heq⟩ := List.mem_filterMap.mp helem
        split at heq
        · split at heq
          · injection heq with heq
            exact Or.inl (by rw [← heq])
          · split at heq
            · injection heq with heq
              exact Or.inr (by rw [← heq])
            · cases heq
        · cases heq
      · cases helem
  unfold instrumentDirectStateLoadStore
  rw [← List.filterMap_eq_map]
  apply List.filterMap_congr
  intro elem helem
  rcases hstate elem helem with h | h
  · simp [h]
  · cases elem.hasIndVar <;> simp [h]

/-- A ROI that takes the instruction has it once. -/
theorem count_roiDirectState (roi : RoiInfo Inst) (inst : Inst) :
    ((roiDirectState skip entries roi).map DirectStateLoadStore.inst).count inst
      = if isLeft skip entries inst && roi.setsDirectState inst then 1 else 0 := by
  unfold roiDirectState RoiInfo.setsDirectState
  cases roi.roiLoop with
  | none => simp
  | some l =>
      cases roi.promoteAllocas with
      | false => simp
      | true =>
          simp only [if_true, map_getDirectStateLoadStore, Option.any_some, Bool.true_and]
          rw [(l.nodup.filter _).count]
          apply if_congr _ rfl rfl
          rw [List.mem_filter, Bool.and_eq_true, Bool.and_eq_true, Bool.and_eq_true,
            List.contains_iff_mem]
          exact and_left_comm

/-- An instruction that is left is in the vector once for every ROI
that takes it. -/
theorem count_directState (rois : List (RoiInfo Inst)) (inst : Inst) :
    ((getDirectStateLoadStoreAll skip entries rois).map DirectStateLoadStore.inst).count inst
      = if isLeft skip entries inst then rois.countP fun roi => roi.setsDirectState inst else 0 := by
  unfold getDirectStateLoadStoreAll
  induction rois with
  | nil => simp
  | cons roi rois ih =>
      rw [List.flatMap_cons, List.map_append, List.count_append, ih, List.countP_cons,
        count_roiDirectState]
      cases isLeft skip entries inst with
      | false => simp
      | true => simp [Nat.add_comm]

/-- One analysis more: it takes what is left and it finds, if it
runs. -/
theorem mem_union_candidates {finds : Inst → Bool} {inst : Inst} (hentry : inst ∈ entries)
    (disabled : Bool) :
    inst ∈ skip ∪ (if disabled then ∅ else getCandidates skip entries finds) ↔
      inst ∈ skip ∨ (!disabled && finds inst) = true := by
  cases disabled with
  | true => simp
  | false =>
      by_cases hskip : inst ∈ skip
      · simp [hskip]
      · simp [getCandidates, hskip, hentry]

/-- The same for an analysis that needs object granularity. -/
theorem mem_union_objCandidates {finds : Inst → Bool} {inst : Inst} (hentry : inst ∈ entries)
    (disabled obj : Bool) :
    inst ∈ skip ∪ (if disabled then ∅ else if obj then getCandidates skip entries finds else ∅) ↔
      inst ∈ skip ∨ (!disabled && obj && finds inst) = true := by
  cases obj with
  | true =>
      rw [Bool.and_true]
      exact mem_union_candidates skip entries hentry disabled
  | false => simp

end Candidates

-- ========================================================== the count

section Count

variable (d : DisableOptions) (o : PassOptions) (a : Analyses Inst) {entries : Finset Inst}
  {inst : Inst}

theorem mem_onlyRead (hentry : inst ∈ entries) :
    inst ∈ (computeSets d o a entries).onlyReadToInstrument ↔ isOnlyRead d a inst = true := by
  unfold computeSets isOnlyRead
  dsimp only
  cases d.onlyReadOpt with
  | true => simp
  | false => simp [mem_getOnlyReadLoadsAll, isLeft, hentry]

theorem count_direct (hentry : inst ∈ entries) :
    ((computeSets d o a entries).directStateToInstrumentAll.map DirectStateLoadStore.inst).count inst
      = if isOnlyRead d a inst then 0 else directStateRois d a inst := by
  have honly := mem_onlyRead d o a hentry
  unfold computeSets at honly ⊢
  dsimp only at honly ⊢
  unfold directStateRois
  cases d.directState with
  | true => simp
  | false =>
      simp only [Bool.false_eq_true, if_false, count_directState, isLeft, hentry, decide_true,
        Bool.true_and, Finset.empty_union, honly]
      cases isOnlyRead d a inst <;> simp

/-- What is left for the regular instrumentation. -/
theorem mem_instsToSkip (hentry : inst ∈ entries) :
    inst ∈ (computeSets d o a entries).instsToSkip ↔
      isOnlyRead d a inst = true ∨ 0 < directStateRois d a inst ∨ isDropped d o a inst = true := by
  have honly := mem_onlyRead d o a hentry
  have hdirect := count_direct d o a hentry
  have hinsts : ∀ all : List (DirectStateLoadStore Inst), inst ∈ getDirectStateLoadStoreInsts all ↔
      0 < (all.map DirectStateLoadStore.inst).count inst := by
    intro all
    unfold getDirectStateLoadStoreInsts
    rw [List.mem_toFinset, List.count_pos_iff]
  unfold computeSets at honly hdirect ⊢
  dsimp only at honly hdirect ⊢
  simp only [mem_union_objCandidates _ _ hentry, mem_union_candidates _ _ hentry]
  rw [Finset.mem_union, hinsts, hdirect, Finset.empty_union, honly]
  unfold isDropped
  simp only [Bool.or_eq_true, or_assoc]
  cases isOnlyRead d a inst with
  | true => simp
  | false => simp

/-- How often an instruction with an entry is instrumented. -/
theorem times_runOnModule (hroi : a.rois ≠ []) (hall : o.disableAllInstrumentation = false)
    (hcycle : o.cycleFinding = false) (hentry : inst ∈ entries) :
    (runOnModule d o a entries).times inst
      = if isOnlyRead d a inst then 1
        else if 0 < directStateRois d a inst then directStateRois d a inst
        else if isDropped d o a inst then 0
        else 1 := by
  have hempty : a.rois.isEmpty = false := by
    rw [List.isEmpty_eq_false_iff]
    exact hroi
  have honly := mem_onlyRead d o a hentry
  have hdirect := count_direct d o a hentry
  have hskip := mem_instsToSkip d o a hentry
  have hdirectOnly : (if d.directState then []
        else instrumentDirectStateLoadStore (computeSets d o a entries).directStateToInstrumentAll)
      = (computeSets d o a entries).directStateToInstrumentAll.map DirectStateLoadStore.inst := by
    unfold computeSets
    dsimp only
    cases d.directState with
    | true => rfl
    | false => exact instrumentDirectStateLoadStore_eq _ _ _
  have honlyOnly : inst ∈ (if d.onlyReadOpt then ∅
        else (computeSets d o a entries).onlyReadToInstrument) ↔ isOnlyRead d a inst = true := by
    cases hopt : d.onlyReadOpt with
    | true => simp [isOnlyRead, hopt]
    | false => simpa using honly
  unfold runOnModule Instrumentation.times
  simp only [hempty, hall, hcycle, Bool.or_self, Bool.false_eq_true, if_false]
  rw [hdirectOnly, hdirect]
  simp only [honlyOnly, instrumentLoadsStoresRegular, Finset.mem_sdiff, hentry, hskip]
  cases isOnlyRead d a inst with
  | true => simp
  | false =>
      by_cases hpos : 0 < directStateRois d a inst
      · simp [hpos]
      · have hzero : directStateRois d a inst = 0 := by omega
        cases isDropped d o a inst <;> simp [hzero]

/-- Every load and store with an entry is instrumented exactly once if
and only if each is only read, or set directly for exactly one ROI, or
neither set directly nor taken by an analysis whose instrumentation is
not emitted. -/
theorem instrumentedOnce_iff (hroi : a.rois ≠ []) (hall : o.disableAllInstrumentation = false)
    (hcycle : o.cycleFinding = false) (entries : Finset Inst) :
    (∀ inst ∈ entries, (runOnModule d o a entries).times inst = 1) ↔
      ∀ inst ∈ entries, isOnlyRead d a inst = true ∨ directStateRois d a inst = 1
        ∨ (directStateRois d a inst = 0 ∧ isDropped d o a inst = false) := by
  apply forall₂_congr
  intro inst hentry
  rw [times_runOnModule d o a hroi hall hcycle hentry]
  cases isOnlyRead d a inst with
  | true => simp
  | false =>
      by_cases hpos : 0 < directStateRois d a inst
      · have hne : directStateRois d a inst ≠ 0 := by omega
        simp [hpos, hne]
      · have hzero : directStateRois d a inst = 0 := by omega
        cases isDropped d o a inst <;> simp [hzero]

end Count

-- ============================================================ examples

/-- The options compile.sh sets: only the only-read and direct-state
analyses run. -/
def compileOptions : DisableOptions := ⟨false, false, true, true, true, true⟩

/-- A loop that reads 0, writes the array element 1 and updates 2. -/
def sumLoop : RoiLoop Nat where
  loopInstructions := [0, 1, 2]
  nodup := by decide
  isInvariantLoad inst := inst == 0
  isInput _ := false
  isOutput inst := inst == 1
  isConnectedToLoopGovIndVar inst := inst == 1

/-- The loop with `n` ROIs in its body; the address of 2 is
invariant. -/
def sumRois (n : Nat) : Analyses Nat where
  rois := List.replicate n ⟨some sumLoop, true⟩
  isLoopInvariant inst := inst == 2
  isLoopMostlyInvariant _ := false
  isLoopInduction _ := false
  isBaseAddressMostlyInvariant _ := false

theorem instrumentedOnce_iff_sum :
    (sumRois 1).rois ≠ []
      ∧ ∀ inst ∈ ({0, 1, 2} : Finset Nat),
          (runOnModule compileOptions ⟨false, false, false⟩ (sumRois 1) {0, 1, 2}).times inst = 1 := by
  have hroi : (sumRois 1).rois ≠ [] := List.cons_ne_nil _ _
  refine ⟨hroi, ?_⟩
  rw [instrumentedOnce_iff compileOptions ⟨false, false, false⟩ (sumRois 1) hroi rfl rfl]
  decide

/-- With two ROIs in the loop, the store to 1 is instrumented twice;
with the invariant analysis enabled, the update of 2 not at all. -/
theorem not_instrumentedOnce_sum :
    (runOnModule compileOptions ⟨false, false, false⟩ (sumRois 2) {0, 1, 2}).times 1 = 2
      ∧ (runOnModule ⟨false, false, false, false, false, false⟩ ⟨false, false, false⟩ (sumRois 1)
          {0, 1, 2}).times 2 = 0
      ∧ ¬ ∀ inst ∈ ({0, 1, 2} : Finset Nat),
          (runOnModule compileOptions ⟨false, false, false⟩ (sumRois 2) {0, 1, 2}).times inst = 1 := by
  decide

end Carmot.Pass
