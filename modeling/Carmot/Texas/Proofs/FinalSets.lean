/-
What the Final sets hold once `ReportStatistics` has run.

The report commits everything pending and then every state, so an item
is Final exactly when it was settled: committed or still pending when
the last batch was done (`final_reportStatistics`). Together with the
run-level account of settled items this gives conservation: the Final
sets hold what was recorded and not erased by a free, nothing else.
-/
import Carmot.Texas.Producer
import Carmot.Texas.Proofs.Conservation

namespace Carmot.Texas

-- ============================================================== the report

/-- The item has reached the state, or waits on its object. -/
def Settled (rt : Runtime) (a : AllocId) (s : StateId) (x : Item) : Prop :=
  Committed rt a s x ∨ Pending rt a s x

theorem Final.committed {rt : Runtime} {a : AllocId} {s : StateId} {x : Item}
    (h : Final rt a s x) : Committed rt a s x := by
  cases x with
  | use id => exact h
  | offset c off => exact Or.inl h

/-- A committed state has all its items in the Final sets; the others
keep theirs. -/
theorem final_commitState (rt : Runtime) (t s : StateId) (a : AllocId) (x : Item) :
    Final (commitState rt t) a s x ↔
      if s = t then Committed rt a s x else Final rt a s x := by
  unfold Final Committed commitState
  by_cases hs : s = t
  · subst hs
    simp [finalHolds_commitSets]
  · simp [hs]

theorem final_foldl_commitState (ss : List StateId) :
    ∀ (rt : Runtime) (a : AllocId) (s : StateId) (x : Item),
      Final (ss.foldl commitState rt) a s x ↔
        if s ∈ ss then Committed rt a s x else Final rt a s x := by
  induction ss with
  | nil => intro rt a s x; simp
  | cons t ss ih =>
      intro rt a s x
      rw [List.foldl_cons, ih, committed_commitState, final_commitState]
      by_cases hs : s = t
      · simp [hs]
      · simp [hs]

/-- Reporting a state changes none of its Final sets. -/
theorem finalHolds_reportState (st : StateSets) (a : AllocId) (x : Item) :
    (reportState st).FinalHolds a x ↔ st.FinalHolds a x := by
  unfold StateSets.FinalHolds
  rw [reportState_finals, reportState_allocationInfo]

theorem committed_commitAll_iff_settled {tree : StateTree} {rt : Runtime}
    (hinv : TableInv rt) (a : AllocId) (s : StateId) (x : Item) :
    Committed (commitStateInfoForAllocations tree rt) a s x ↔ Settled rt a s x := by
  rw [committed_commitAll]
  constructor
  · intro h
    rcases h with h | h
    · exact Or.inl h
    · exact Or.inr h.2
  · intro h
    rcases h with h | h
    · exact Or.inl h
    · exact Or.inr ⟨hinv.pending_mem a s x h, h⟩

/-- After the report the Final sets of a state hold what was settled
for it. -/
theorem final_reportStatistics {env : Env} {stateMap : List StateId} {rt : Runtime}
    (hinv : TableInv rt) {s : StateId} (hs : s ∈ stateMap) (a : AllocId) (x : Item) :
    Final (reportStatistics env stateMap rt) a s x ↔ Settled rt a s x := by
  have hreport : Final (reportStatistics env stateMap rt) a s x ↔
      Final (stateMap.foldl commitState (commitStateInfoForAllocations env.tree rt))
        a s x := by
    unfold Final reportStatistics
    dsimp only
    rw [if_pos hs]
    exact finalHolds_reportState _ a x
  rw [hreport, final_foldl_commitState, if_pos hs,
    committed_commitAll_iff_settled hinv]

/-- Nothing is settled before the first entry. -/
theorem not_settled_init (a : AllocId) (s : StateId) (x : Item) :
    ¬ Settled texasInit a s x := by
  intro h
  rcases h with h | h
  · cases x with
    | use id =>
        obtain ⟨offs, ho, -⟩ := h
        cases ho
    | offset c off =>
        rcases h with ⟨offs, ho, -⟩ | ⟨offs, ho, -⟩
        · cases ho
        · cases ho
  · obtain ⟨info, hi, -⟩ := h
    by_cases ha : a = 0
    · simp [texasInit, ha, Allocation.new] at hi
    · simp [texasInit, ha, Allocation.new] at hi

/-- What is settled after a run from the start is what the run recorded
and no free erased. -/
theorem settled_iff_recorded (env : Env) (es : List ShadowEntry) (a : AllocId) (s : StateId) (x : Item) :
    Settled (processEntries env texasInit es) a s x ↔
      RecordedIn env texasInit es a s x := by
  have hrun := settled_run env es tableInv_init a s x
  have hinit := not_settled_init a s x
  unfold Settled at hinit ⊢
  rw [hrun]
  constructor
  · intro h
    rcases h with h | h | h
    · exact absurd (Or.inl h) hinit
    · exact absurd (Or.inr h.1) hinit
    · exact h
  · exact fun h => Or.inr (Or.inr h)

-- ============================================================ conservation

/-- Conservation. Whatever entries are processed, once the report is
done an offset is in a state's Final set of a class, or a use id in its
use information, for an object exactly when some entry recorded it for
that state and object and no free erased the record before the object
was next committed. -/
theorem final_iff_recorded (env : Env) (stateMap : List StateId)
    (es : List ShadowEntry) (s : StateId) (hs : s ∈ stateMap) (a : AllocId) (x : Item) :
    Final (reportStatistics env stateMap (processEntries env texasInit es)) a s x ↔
      RecordedIn env texasInit es a s x := by
  have hinv := tableInv_run env es tableInv_init
  rw [final_reportStatistics hinv hs, settled_iff_recorded]

/-- A block is accessed and freed: the offset outlives the free. -/
theorem final_iff_recorded_freed :
    let access : ShadowEntry :=
      { ShadowEntry.redundant with
        operation := .stateAdd .to, ptr := 104, sizeState := .statePtr 0, information := 7 }
    let es := [(SlotWrite.allocAdd 100 8 1 none).entry, access,
      (SlotWrite.allocFree 100 none).entry]
    0 ∈ [0] ∧ RecordedIn (Env.ofTree .flat) texasInit es 1 0 (.offset .to 4) := by
  intro access es
  refine ⟨List.mem_singleton.mpr rfl, ?_⟩
  exact (final_iff_recorded (Env.ofTree .flat) [0] es 0 (List.mem_singleton.mpr rfl) 1
    (.offset .to 4)).mp (by decide)

end Carmot.Texas
