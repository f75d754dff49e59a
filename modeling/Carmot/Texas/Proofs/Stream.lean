/-
A run of batches as one stream of executed entries.

Cleaning touches the pointer maps and `oldState`, processing never
reads them. So with both forgotten (`Runtime.forget`) a run of batches
is a plain fold of `processEntry` over the entries it executes: the
cleaned entries of each batch, and the slot past its end
(`runBatches_forget`). Items, lookups and the Final sets do not see
what is forgotten, so run-level facts about entries carry over to
batches.
-/
import Carmot.Texas.Trace
import Carmot.Texas.Proofs.FinalSets

namespace Carmot.Texas

-- ============================================================== forgetting

/-- The runtime without what only cleaning reads. -/
def Runtime.forget (rt : Runtime) : Runtime :=
  { rt with ptrs := fun _ => StatePtrs.empty, oldState := none }

section Forget

variable (env : Env) (rt : Runtime) (e : ShadowEntry)

@[simp] theorem forget_init : texasInit.forget = texasInit := rfl

@[simp] theorem forget_cleanBatch (es : List ShadowEntry) :
    (cleanBatch env rt es).1.forget = rt.forget := rfl

theorem forget_commitAll :
    (commitStateInfoForAllocations env.tree rt).forget
      = commitStateInfoForAllocations env.tree rt.forget := by
  have hfold : ∀ (as : List AllocId) (rt : Runtime),
      (as.foldl (commitStateInfo env.tree none) rt).forget
        = as.foldl (commitStateInfo env.tree none) rt.forget := by
    intro as
    induction as with
    | nil => intro rt; rfl
    | cons a as ih => intro rt; exact ih _
  exact hfold _ rt

theorem forget_commitState (s : StateId) :
    (commitState rt s).forget = commitState rt.forget s := by
  have hptrs : Function.update (fun _ : StateId => StatePtrs.empty) s StatePtrs.empty
      = fun _ => StatePtrs.empty := Function.update_eq_self s _
  unfold commitState Runtime.forget
  dsimp only
  rw [hptrs]

theorem forget_processAddAlloc :
    (processAddAlloc env rt e).forget = processAddAlloc env rt.forget e := by
  unfold processAddAlloc originObject
  show _ = (noteAllocated _ _ _ _)
  cases h : rt.originToAllocMap e.information with
  | none => simp only [Runtime.forget, h]; rfl
  | some a => simp only [Runtime.forget, h]; rfl

theorem forget_processFreeAllocation :
    (processFreeAllocation env rt e).forget = processFreeAllocation env rt.forget e := by
  unfold processFreeAllocation
  rw [show rt.forget.find e.ptr = rt.find e.ptr from rfl]
  cases rt.find e.ptr with
  | none => rfl
  | some a => rfl

theorem forget_processAddEscape :
    (processAddEscape env rt e).forget = processAddEscape env rt.forget e := by
  unfold processAddEscape
  rw [show rt.forget.find (env.mem e.ptr) = rt.find (env.mem e.ptr) from rfl]
  split
  · rfl
  · cases rt.find (env.mem e.ptr) with
    | none => rfl
    | some a => rfl

theorem forget_processAddToState (chain : List StateId) :
    ∀ rt : Runtime, (processAddToState env e rt chain).forget
      = processAddToState env e rt.forget chain := by
  induction chain with
  | nil => intro rt; rfl
  | cons s parents ih =>
      intro rt
      unfold processAddToState
      rw [show rt.forget.find e.ptr = rt.find e.ptr from rfl]
      cases rt.find e.ptr with
      | none => rfl
      | some a =>
          cases htc : env.options.trackCycles with
          | false => simp only [Bool.false_and]; exact ih _
          | true =>
              cases hacc : e.operation.isAccess with
              | true => rfl
              | false => exact ih _

theorem forget_processStateRegionSet (chain : List StateId) :
    ∀ rt : Runtime, (processStateRegionSet e rt chain).forget
      = processStateRegionSet e rt.forget chain := by
  induction chain with
  | nil => intro rt; rfl
  | cons s parents ih =>
      intro rt
      unfold processStateRegionSet
      rw [show rt.forget.find e.ptr = rt.find e.ptr from rfl]
      cases rt.find e.ptr with
      | none => rfl
      | some a => exact ih _

/-- Processing reads nothing of what is forgotten. -/
theorem forget_processEntry :
    (processEntry env rt e).forget = processEntry env rt.forget e := by
  unfold processEntry
  split
  · exact forget_processAddAlloc env rt e
  · exact forget_processFreeAllocation env rt e
  · exact forget_processAddEscape env rt e
  · exact forget_processAddToState env e _ rt
  · exact forget_processAddToState env e _ rt
  · exact forget_processAddToState env e _ rt
  · cases e.sizeState.getStatePtr with
    | none => exact forget_commitAll env rt
    | some s =>
        show (commitState (commitStateInfoForAllocations env.tree rt) s).forget = _
        rw [forget_commitState, forget_commitAll]
  · exact forget_processStateRegionSet e _ rt
  · rfl

theorem forget_processEntries (es : List ShadowEntry) :
    ∀ rt : Runtime, (processEntries env rt es).forget = processEntries env rt.forget es := by
  induction es with
  | nil => intro rt; rfl
  | cons e es ih =>
      intro rt
      show (processEntries env (processEntry env rt e) es).forget
        = processEntries env (processEntry env rt.forget e) es
      rw [ih, forget_processEntry]

end Forget

-- ============================================================= the cleaner

section Cleaner

variable (env : Env) (e : ShadowEntry)

theorem cleaner_processAddToState (chain : List StateId) :
    ∀ rt : Runtime, (processAddToState env e rt chain).cleaner = rt.cleaner := by
  induction chain with
  | nil => intro rt; rfl
  | cons s parents ih =>
      intro rt
      unfold processAddToState
      cases rt.find e.ptr with
      | none => rfl
      | some a =>
          cases htc : env.options.trackCycles with
          | false => simp only [Bool.false_and]; exact ih _
          | true =>
              cases hacc : e.operation.isAccess with
              | true => rfl
              | false => exact ih _

theorem cleaner_processStateRegionSet (chain : List StateId) :
    ∀ rt : Runtime, (processStateRegionSet e rt chain).cleaner = rt.cleaner := by
  induction chain with
  | nil => intro rt; rfl
  | cons s parents ih =>
      intro rt
      unfold processStateRegionSet
      cases rt.find e.ptr with
      | none => rfl
      | some a => exact ih _

/-- Only a commit entry touches what cleaning reads. -/
theorem cleaner_processEntry (rt : Runtime) (hop : e.operation ≠ .stateCommit) :
    (processEntry env rt e).cleaner = rt.cleaner := by
  unfold processEntry
  split
  · unfold processAddAlloc originObject
    cases rt.originToAllocMap e.information with
    | none => rfl
    | some a => rfl
  · unfold processFreeAllocation
    cases rt.find e.ptr with
    | none => rfl
    | some a => rfl
  · unfold processAddEscape
    split
    · rfl
    · cases rt.find (env.mem e.ptr) with
      | none => rfl
      | some a => rfl
  · exact cleaner_processAddToState env e _ rt
  · exact cleaner_processAddToState env e _ rt
  · exact cleaner_processAddToState env e _ rt
  next h => exact absurd h hop
  · exact cleaner_processStateRegionSet e _ rt
  · rfl

theorem cleaner_processEntries (es : List ShadowEntry) :
    ∀ rt : Runtime, (∀ e ∈ es, e.operation ≠ .stateCommit) →
      (processEntries env rt es).cleaner = rt.cleaner := by
  induction es with
  | nil => intro rt _; rfl
  | cons e es ih =>
      intro rt hno
      show (processEntries env (processEntry env rt e) es).cleaner = rt.cleaner
      rw [ih _ fun e' he' => hno e' (List.mem_cons_of_mem _ he'),
        cleaner_processEntry env e rt (hno e (List.mem_cons_self ..))]

end Cleaner

-- ============================================================== the stream

/-- The entries a run of batches executes, in order. -/
def executed (env : Env) : Runtime → List Batch → List ShadowEntry
  | _, [] => []
  | rt, b :: bs =>
      (cleanBatch env rt b.entries).2 ++ b.overrun
        :: executed env (serialProcessShadowBatch env rt b) bs

theorem processEntries_append (env : Env) (rt : Runtime) (es fs : List ShadowEntry) :
    processEntries env rt (es ++ fs) = processEntries env (processEntries env rt es) fs :=
  List.foldl_append

/-- A run of batches is a fold over what it executes. -/
theorem runBatches_forget (env : Env) (bs : List Batch) :
    ∀ rt : Runtime, (runBatches env rt bs).forget
      = processEntries env rt.forget (executed env rt bs) := by
  induction bs with
  | nil => intro rt; rfl
  | cons b bs ih =>
      intro rt
      have hone : (serialProcessShadowBatch env rt b).forget
          = processEntries env rt.forget ((cleanBatch env rt b.entries).2 ++ [b.overrun]) := by
        unfold serialProcessShadowBatch processShadowBatch
        rw [forget_processEntries, forget_cleanBatch]
      have hsplit : executed env rt (b :: bs)
          = ((cleanBatch env rt b.entries).2 ++ [b.overrun])
            ++ executed env (serialProcessShadowBatch env rt b) bs := by
        rw [List.append_assoc]
        rfl
      show (runBatches env (serialProcessShadowBatch env rt b) bs).forget = _
      rw [ih, hone, hsplit]
      exact (processEntries_append env _ _ _).symm

/-- The report of a forgotten runtime. -/
theorem final_reportStatistics_forget (env : Env) (stateMap : List StateId) (rt : Runtime)
    (a : AllocId) (s : StateId) (x : Item) :
    Final (reportStatistics env stateMap rt.forget) a s x ↔
      Final (reportStatistics env stateMap rt) a s x := by
  have hfold : ∀ (ss : List StateId) (rt : Runtime),
      (ss.foldl commitState rt).forget = ss.foldl commitState rt.forget := by
    intro ss
    induction ss with
    | nil => intro rt; rfl
    | cons t ss ih =>
        intro rt
        rw [List.foldl_cons, ih, forget_commitState]
        rfl
  unfold Final reportStatistics
  dsimp only
  rw [← forget_commitAll, ← hfold]
  exact Iff.rfl

/-- What is settled after a run of batches was recorded by an entry it
executed. -/
theorem settled_runBatches (env : Env) (bs : List Batch) (a : AllocId) (s : StateId)
    (x : Item) :
    Settled (runBatches env texasInit bs) a s x ↔
      RecordedIn env texasInit (executed env texasInit bs) a s x := by
  have hrun := runBatches_forget env bs texasInit
  rw [forget_init] at hrun
  rw [← settled_iff_recorded, ← hrun]
  exact Iff.rfl

/-- Conservation for a run of batches. -/
theorem final_runBatches (env : Env) (stateMap : List StateId) (bs : List Batch)
    {s : StateId} (hs : s ∈ stateMap) (a : AllocId) (x : Item) :
    Final (reportStatistics env stateMap (runBatches env texasInit bs)) a s x ↔
      RecordedIn env texasInit (executed env texasInit bs) a s x := by
  rw [← final_reportStatistics_forget, runBatches_forget, forget_init,
    final_reportStatistics (tableInv_run env _ tableInv_init) hs, settled_iff_recorded]

-- ============================================================= exclusivity

/-- The two families `CleanState` resolves: the classes with the input
bit and those without; within a family the level decides. -/
def StateClass.SameFamily (c d : StateClass) : Prop := c.usage.1 = d.usage.1

theorem StateClass.usage_injective {c d : StateClass} (h : c.usage = d.usage) : c = d := by
  cases c <;> cases d <;> first | rfl | cases h

/-- `c` is the highest class of its family that `recorded` holds of. -/
def Highest (recorded : StateClass → Prop) (c : StateClass) : Prop :=
  recorded c ∧ ∀ d, d.SameFamily c → recorded d → d.usage.2 ≤ c.usage.2

/-- Every Final set holds a pair only under the highest class of the
family that was recorded for it. -/
def FinalsExclusive (recorded : AllocId → StateId → Item → Prop) (stateMap : List StateId)
    (rt : Runtime) : Prop :=
  ∀ s ∈ stateMap, ∀ a off c, Final rt a s (.offset c off) ↔
    Highest (fun d => recorded a s (.offset d off)) c

/-- No pair is recorded for a state under two classes of one family. -/
def NeverReclassified (recorded : AllocId → StateId → Item → Prop)
    (stateMap : List StateId) : Prop :=
  ∀ s ∈ stateMap, ∀ a off c d, recorded a s (.offset c off) → recorded a s (.offset d off) →
    c.SameFamily d → c = d

end Carmot.Texas
