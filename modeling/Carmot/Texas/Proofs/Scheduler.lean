/-
The pipelined loop against the serial one.

Cleaning and processing share the pointer maps only: cleaning a batch
reads and writes the maps of the states it touches, processing empties
those of the states it commits. So a clean step that touches no state
whose commit still waits in a cleaned batch does what it does in the
serial order, and the processing of the waiting batches does not undo
it.

`Follows` is the invariant: the serial run of what has been processed
and the serial run of what has been cleaned are both known, the first up
to the maps, the second up to the maps of the states with a waiting
commit, which are empty there.
-/
import Carmot.Texas.Scheduler
import Carmot.Texas.Proofs.CleanHistory
import Carmot.Texas.Proofs.Cleaned

namespace Carmot.Texas

-- ============================================================= touching

/-- The states that the entries of some operations carry. -/
def statesOf (p : Operation → Bool) (es : List ShadowEntry) : List StateId :=
  es.filterMap fun e => if p e.operation then e.sizeState.getStatePtr else none

theorem mem_statesOf {p : Operation → Bool} {es : List ShadowEntry} {s : StateId} :
    s ∈ statesOf p es ↔ ∃ e ∈ es, p e.operation = true ∧ e.sizeState.getStatePtr = some s := by
  unfold statesOf
  rw [List.mem_filterMap]
  refine exists_congr fun e => and_congr_right fun _ => ?_
  by_cases hp : p e.operation = true
  · simp [hp]
  · simp [hp]

/-- The states a list of entries commits. -/
def committedBy (es : List ShadowEntry) : List StateId :=
  statesOf (fun op => decide (op = .stateCommit)) es

theorem mem_committedBy_cons {e : ShadowEntry} {es : List ShadowEntry} {s : StateId} :
    s ∈ committedBy (e :: es) ↔
      (e.operation = .stateCommit ∧ e.sizeState.getStatePtr = some s) ∨ s ∈ committedBy es := by
  unfold committedBy
  rw [mem_statesOf, mem_statesOf, List.exists_mem_cons_iff, decide_eq_true_eq]

/-- The states whose maps cleaning the entries reads or writes: those of
the markers, and those the accesses are left with. -/
def cleanedMaps (env : Env) (cl : Cleaner) (es : List ShadowEntry) : List StateId :=
  statesOf (fun op => decide (op = .stateBegin ∨ op = .stateEnd)) es
    ++ statesOf Operation.isAccess (firstPass env cl es).2

theorem mem_cleanedMaps {env : Env} {cl : Cleaner} {es : List ShadowEntry} {s : StateId} :
    s ∈ cleanedMaps env cl es ↔
      (∃ e ∈ es, (e.operation = .stateBegin ∨ e.operation = .stateEnd)
          ∧ e.sizeState.getStatePtr = some s)
        ∨ ∃ e ∈ (firstPass env cl es).2, e.operation.isAccess = true
          ∧ e.sizeState.getStatePtr = some s := by
  unfold cleanedMaps
  rw [List.mem_append, mem_statesOf, mem_statesOf]
  simp only [decide_eq_true_eq]

section Maps

variable (env : Env) (s : StateId)

/-- Cleaning an entry works on each state's maps by themselves. -/
theorem cleanEntry_local (e : ShadowEntry) {cl cl' : Cleaner}
    (hb : cl.batchState = cl'.batchState) :
    (cleanEntry env cl e).2 = (cleanEntry env cl' e).2
      ∧ (cleanEntry env cl e).1.batchState = (cleanEntry env cl' e).1.batchState
      ∧ (cl.ptrs s = cl'.ptrs s →
          (cleanEntry env cl e).1.ptrs s = (cleanEntry env cl' e).1.ptrs s) := by
  have hupdate : ∀ (t : StateId) (f : StatePtrs → StatePtrs), cl.ptrs s = cl'.ptrs s →
      (cl.onState t f).ptrs s = (cl'.onState t f).ptrs s := by
    intro t f hs
    by_cases hst : s = t
    · subst hst
      rw [onState_ptrs_self, onState_ptrs_self, hs]
    · rw [onState_ptrs_of_ne cl hst, onState_ptrs_of_ne cl' hst, hs]
  unfold cleanEntry
  rw [hb]
  split
  · split
    · exact ⟨rfl, hb, id⟩
    · exact ⟨rfl, hb, hupdate _ _⟩
  · cases e.sizeState.getStatePtr with
    | none => exact ⟨rfl, hb, id⟩
    | some t => exact ⟨rfl, rfl, hupdate _ _⟩
  · cases e.sizeState.getStatePtr with
    | none => exact ⟨rfl, hb, id⟩
    | some t => exact ⟨rfl, rfl, hupdate _ _⟩
  · exact ⟨rfl, hb, id⟩

/-- The same for a list of entries. -/
theorem firstPass_local (es : List ShadowEntry) :
    ∀ {cl cl' : Cleaner}, cl.batchState = cl'.batchState →
      (firstPass env cl es).2 = (firstPass env cl' es).2
        ∧ (firstPass env cl es).1.batchState = (firstPass env cl' es).1.batchState
        ∧ (cl.ptrs s = cl'.ptrs s →
            (firstPass env cl es).1.ptrs s = (firstPass env cl' es).1.ptrs s) := by
  induction es with
  | nil => intro cl cl' hb; exact ⟨rfl, hb, id⟩
  | cons e es ih =>
      intro cl cl' hb
      obtain ⟨he, hb', hs⟩ := cleanEntry_local env s e hb
      obtain ⟨hes, hb'', hs'⟩ := ih hb'
      exact ⟨List.cons_eq_cons.mpr ⟨he, hes⟩, hb'', fun h => hs' (hs h)⟩

variable {env s}

/-- Which maps cleaning looks at depends on the open state only. -/
theorem cleanedMaps_congr {es : List ShadowEntry} {cl cl' : Cleaner}
    (hb : cl.batchState = cl'.batchState) : cleanedMaps env cl es = cleanedMaps env cl' es := by
  unfold cleanedMaps
  rw [(firstPass_local env 0 es hb).1]

/-- An entry that has nothing to do with the state leaves its maps. -/
theorem ptrs_cleanEntry_of_other {e : ShadowEntry} {cl : Cleaner}
    (hmark : e.operation = .stateBegin ∨ e.operation = .stateEnd →
      e.sizeState.getStatePtr ≠ some s)
    (hacc : (cleanEntry env cl e).2.operation.isAccess = true →
      (cleanEntry env cl e).2.sizeState.getStatePtr ≠ some s) :
    (cleanEntry env cl e).1.ptrs s = cl.ptrs s := by
  cases hop : e.operation.access? with
  | some rw =>
      cases hb : cl.batchState with
      | none =>
          unfold cleanEntry
          simp only [hop, hb]
      | some t =>
          rw [cleanEntry_access hop hb] at hacc ⊢
          have hst : s ≠ t := by
            rintro rfl
            exact hacc (isAccess_of_access hop) rfl
          exact onState_ptrs_of_ne cl hst _
  | none =>
      by_cases hm : e.operation = .stateBegin ∨ e.operation = .stateEnd
      · cases hs : e.sizeState with
        | size n =>
            unfold cleanEntry
            rcases hm with hm | hm
            · simp only [hm, Operation.access?, hs, SizeState.getStatePtr]
            · simp only [hm, Operation.access?, hs, SizeState.getStatePtr]
        | statePtr t =>
            have hst : s ≠ t := by
              rintro rfl
              exact hmark hm (by rw [hs]; rfl)
            rcases hm with hm | hm
            · rw [cleanEntry_begin hm hs]
              exact onState_ptrs_of_ne cl hst _
            · rw [cleanEntry_end hm hs]
              exact onState_ptrs_of_ne cl hst _
      · rw [cleanEntry_other hop (fun h => hm (Or.inl h)) (fun h => hm (Or.inr h))]

/-- Nor do such entries together. -/
theorem ptrs_firstPass_of_other (es : List ShadowEntry) :
    ∀ {cl : Cleaner}, s ∉ cleanedMaps env cl es → (firstPass env cl es).1.ptrs s = cl.ptrs s := by
  induction es with
  | nil => intro cl _; rfl
  | cons e es ih =>
      intro cl hno
      rw [mem_cleanedMaps] at hno
      have hhead : (cleanEntry env cl e).1.ptrs s = cl.ptrs s := by
        apply ptrs_cleanEntry_of_other
        · intro hm hs
          exact hno (Or.inl ⟨e, List.mem_cons_self .., hm, hs⟩)
        · intro ha hs
          exact hno (Or.inr ⟨_, List.mem_cons_self .., ha, hs⟩)
      have htail : s ∉ cleanedMaps env (cleanEntry env cl e).1 es := by
        rw [mem_cleanedMaps]
        rintro (⟨e', he', h⟩ | ⟨e', he', h⟩)
        · exact hno (Or.inl ⟨e', List.mem_cons_of_mem _ he', h⟩)
        · exact hno (Or.inr ⟨e', List.mem_cons_of_mem _ he', h⟩)
      exact (ih htail).trans hhead

end Maps

-- ============================================================ two halves

/-- Two runtimes whose cleaners agree where a batch's cleaning looks:
the batch is left the same, and the maps that were the same stay so. -/
theorem cleanBatch_local {env : Env} {rt rt' : Runtime} {es : List ShadowEntry}
    (hold : rt.oldState = rt'.oldState)
    (hmaps : ∀ s ∈ cleanedMaps env rt.cleaner es, rt.ptrs s = rt'.ptrs s) :
    (cleanBatch env rt es).2 = (cleanBatch env rt' es).2
      ∧ (cleanBatch env rt es).1.oldState = (cleanBatch env rt' es).1.oldState
      ∧ ∀ s, rt.ptrs s = rt'.ptrs s →
          (cleanBatch env rt es).1.ptrs s = (cleanBatch env rt' es).1.ptrs s := by
  have hlocal := fun s =>
    firstPass_local env s es (show rt.cleaner.batchState = rt'.cleaner.batchState from hold)
  have hclean : ∀ s, rt.ptrs s = rt'.ptrs s →
      (cleanBatch env rt es).1.ptrs s = (cleanBatch env rt' es).1.ptrs s :=
    fun s => (hlocal s).2.2
  refine ⟨?_, ?_, hclean⟩
  · rw [cleanBatch_entries, cleanBatch_entries]
    unfold cleanedAs
    rw [← (hlocal 0).1]
    refine List.map_congr_left fun e he => ?_
    unfold reassignEntry
    by_cases hacc : e.operation.isAccess = true
    · rw [if_pos hacc, if_pos hacc]
      cases hs : e.sizeState.getStatePtr with
      | none => rfl
      | some s =>
          have hptrs := (hlocal s).2.2 (hmaps s (mem_cleanedMaps.mpr (Or.inr ⟨e, he, hacc, hs⟩)))
          simp only [hptrs]
    · rw [if_neg hacc, if_neg hacc]
  · have hstate : ∀ r : Runtime, (cleanBatch env r es).1.oldState
        = (firstPass env r.cleaner es).1.batchState := by
      intro r
      have h := congrArg Cleaner.batchState (cleanBatch_cleaner env r es)
      exact h
    rw [hstate, hstate]
    exact (hlocal 0).2.1

/-- One entry empties the maps of the state it commits. -/
theorem processEntry_maps (env : Env) (s : StateId) (rt : Runtime) (e : ShadowEntry) :
    (processEntry env rt e).oldState = rt.oldState
      ∧ (e.operation = .stateCommit ∧ e.sizeState.getStatePtr = some s →
          (processEntry env rt e).ptrs s = StatePtrs.empty)
      ∧ (¬ (e.operation = .stateCommit ∧ e.sizeState.getStatePtr = some s) →
          (processEntry env rt e).ptrs s = rt.ptrs s) := by
  by_cases hop : e.operation = .stateCommit
  · have hcl : (processEntry env rt e).cleaner = _ := cleaner_commitEntry rt hop
    cases hs : e.sizeState.getStatePtr with
    | none =>
        rw [hs] at hcl
        have hptrs := congrArg Cleaner.ptrs hcl
        exact ⟨congrArg Cleaner.oldState hcl, fun h => absurd h.2 (by simp),
          fun _ => congrFun hptrs s⟩
    | some t =>
        rw [hs] at hcl
        have hptrs : (processEntry env rt e).ptrs = Function.update rt.ptrs t StatePtrs.empty :=
          congrArg Cleaner.ptrs hcl
        refine ⟨congrArg Cleaner.oldState hcl, fun h => ?_, fun h => ?_⟩
        · cases h.2
          rw [hptrs, Function.update_self]
        · have hst : s ≠ t := fun hst => h ⟨hop, by rw [hst]⟩
          rw [hptrs, Function.update_of_ne hst]
  · have hcl := cleaner_processEntry env e rt hop
    exact ⟨congrArg Cleaner.oldState hcl, fun h => absurd h.1 hop,
      fun _ => congrFun (congrArg Cleaner.ptrs hcl) s⟩

/-- Processing empties the maps of the states it commits and leaves the
rest to the cleaner. -/
theorem processEntries_maps (env : Env) (s : StateId) (es : List ShadowEntry) :
    ∀ rt : Runtime, (processEntries env rt es).oldState = rt.oldState
      ∧ (s ∈ committedBy es → (processEntries env rt es).ptrs s = StatePtrs.empty)
      ∧ (s ∉ committedBy es → (processEntries env rt es).ptrs s = rt.ptrs s) := by
  induction es with
  | nil => intro rt; exact ⟨rfl, fun h => absurd h List.not_mem_nil, fun _ => rfl⟩
  | cons e es ih =>
      intro rt
      obtain ⟨hold, hcommit, hno⟩ := ih (processEntry env rt e)
      obtain ⟨hold', hcommit', hno'⟩ := processEntry_maps env s rt e
      rw [mem_committedBy_cons]
      refine ⟨hold.trans hold', fun h => ?_, fun h => ?_⟩
      · by_cases htail : s ∈ committedBy es
        · exact hcommit htail
        · exact (hno htail).trans (hcommit' (h.resolve_right htail))
      · rw [not_or] at h
        exact (hno h.2).trans (hno' h.1)

/-- The two halves make the runtime. -/
theorem Runtime.eq_of_forget {rt rt' : Runtime} (hsets : rt.forget = rt'.forget)
    (hptrs : rt.ptrs = rt'.ptrs) (hold : rt.oldState = rt'.oldState) : rt = rt' := by
  cases rt
  cases rt'
  simp only [Runtime.forget, Runtime.mk.injEq, true_and] at hsets
  simp only at hptrs hold
  rw [hptrs, hold]
  simp only [hsets]

-- ========================================================= the invariant

/-- The batches as the serial loop leaves them cleaned, from the given
runtime on. -/
def cleanedFrom (env : Env) : Runtime → List Batch → List Batch
  | _, [] => []
  | rt, b :: bs =>
      { b with entries := (cleanBatch env rt b.entries).2 }
        :: cleanedFrom env (serialProcessShadowBatch env rt b) bs

theorem cleanedFrom_concat (env : Env) (b : Batch) (bs : List Batch) :
    ∀ rt : Runtime, cleanedFrom env rt (bs ++ [b])
      = cleanedFrom env rt bs
        ++ [{ b with entries := (cleanBatch env (runBatches env rt bs) b.entries).2 }] := by
  induction bs with
  | nil => intro rt; rfl
  | cons b' bs ih =>
      intro rt
      show _ :: cleanedFrom env (serialProcessShadowBatch env rt b') (bs ++ [b]) = _
      rw [ih]
      rfl

namespace Scheduler

/-- The states whose commit waits in a cleaned batch. -/
def waitingCommits (sch : Scheduler) : List StateId :=
  sch.cleanedShadowBatches.flatMap fun b => committedBy (b.entries ++ [b.overrun])

/-- The state `sch` after the batches `processed` have been processed
and `waiting` cleaned. -/
structure Follows (env : Env) (bs processed waiting : List Batch) (sch : Scheduler) : Prop where
  all : bs = processed ++ waiting ++ sch.newShadowBatches ++ sch.texasWorkEntriesQueue
  sets : sch.rt.forget = (runBatches env texasInit processed).forget
  cleaned : sch.cleanedShadowBatches = cleanedFrom env (runBatches env texasInit processed) waiting
  oldState : sch.rt.oldState = (runBatches env texasInit (processed ++ waiting)).oldState
  emptied : ∀ s ∈ sch.waitingCommits,
    (runBatches env texasInit (processed ++ waiting)).ptrs s = StatePtrs.empty
  maps : ∀ s, s ∉ sch.waitingCommits →
    sch.rt.ptrs s = (runBatches env texasInit (processed ++ waiting)).ptrs s

theorem follows_init (env : Env) (bs : List Batch) : Follows env bs [] [] (init bs) where
  all := rfl
  sets := rfl
  cleaned := rfl
  oldState := rfl
  emptied := fun _ h => absurd h List.not_mem_nil
  maps := fun _ _ => rfl

/-- Cleaning the next batch touches no state with a waiting commit. -/
def Clear (env : Env) (sch : Scheduler) : Prop :=
  ∀ b ∈ sch.newShadowBatches.head?, ∀ s ∈ sch.waitingCommits,
    s ∉ cleanedMaps env sch.rt.cleaner b.entries

instance (env : Env) (sch : Scheduler) : Decidable (sch.Clear env) :=
  inferInstanceAs (Decidable (∀ b ∈ sch.newShadowBatches.head?, ∀ s ∈ sch.waitingCommits,
    s ∉ cleanedMaps env sch.rt.cleaner b.entries))

section Steps

variable {env : Env} {bs processed waiting : List Batch} {sch sch' : Scheduler}

theorem step_pop (hstep : sch.step env .pop = some sch') :
    ∃ entry queue, sch.texasWorkEntriesQueue = entry :: queue
      ∧ sch' = { sch with
          texasWorkEntriesQueue := queue
          newShadowBatches := sch.newShadowBatches ++ [entry] } := by
  unfold step at hstep
  cases hq : sch.texasWorkEntriesQueue with
  | nil =>
      rw [hq] at hstep
      cases hstep
  | cons entry queue =>
      rw [hq] at hstep
      exact ⟨entry, queue, rfl, (Option.some.inj hstep).symm⟩

theorem step_clean (hstep : sch.step env .clean = some sch') :
    ∃ b rest, sch.newShadowBatches = b :: rest
      ∧ sch' = { sch with
          rt := (cleanBatch env sch.rt b.entries).1
          newShadowBatches := rest
          cleanedShadowBatches := sch.cleanedShadowBatches
            ++ [{ b with entries := (cleanBatch env sch.rt b.entries).2 }] } := by
  unfold step at hstep
  cases hn : sch.newShadowBatches with
  | nil =>
      rw [hn] at hstep
      cases hstep
  | cons b rest =>
      rw [hn] at hstep
      exact ⟨b, rest, rfl, (Option.some.inj hstep).symm⟩

theorem step_process (hstep : sch.step env .process = some sch') :
    ∃ b rest, sch.cleanedShadowBatches = b :: rest
      ∧ sch' = { sch with
          rt := processEntries env sch.rt (b.entries ++ [b.overrun])
          cleanedShadowBatches := rest } := by
  unfold step at hstep
  cases hc : sch.cleanedShadowBatches with
  | nil =>
      rw [hc] at hstep
      cases hstep
  | cons b rest =>
      rw [hc] at hstep
      exact ⟨b, rest, rfl, (Option.some.inj hstep).symm⟩

theorem Follows.pop (h : Follows env bs processed waiting sch)
    (hstep : sch.step env .pop = some sch') : Follows env bs processed waiting sch' := by
  obtain ⟨entry, queue, hq, rfl⟩ := step_pop hstep
  refine ⟨?_, h.sets, h.cleaned, h.oldState, h.emptied, h.maps⟩
  rw [h.all, hq]
  simp

/-- A clean step that is `Clear` cleans as the serial loop does. -/
theorem Follows.clean (h : Follows env bs processed waiting sch) (hclear : sch.Clear env)
    (hstep : sch.step env .clean = some sch') :
    ∃ b, Follows env bs processed (waiting ++ [b]) sch' := by
  obtain ⟨b, rest, hn, rfl⟩ := step_clean hstep
  refine ⟨b, ?_⟩
  -- the serial run that has just processed what is cleaned here
  generalize hrt : runBatches env texasInit (processed ++ waiting) = srt
  have hold : sch.rt.oldState = srt.oldState := hrt ▸ h.oldState
  have hunwaited : ∀ s ∈ cleanedMaps env sch.rt.cleaner b.entries, s ∉ sch.waitingCommits := by
    intro s hs hw
    exact hclear b (by rw [hn]; rfl) s hw hs
  have hmaps : ∀ s ∈ cleanedMaps env sch.rt.cleaner b.entries,
      sch.rt.ptrs s = srt.ptrs s := fun s hs => hrt ▸ h.maps s (hunwaited s hs)
  obtain ⟨hentries, hold', hlocal⟩ := cleanBatch_local hold hmaps
  have hserial : runBatches env texasInit (processed ++ (waiting ++ [b]))
      = processEntries env (cleanBatch env srt b.entries).1
          ((cleanBatch env srt b.entries).2 ++ [b.overrun]) := by
    rw [← List.append_assoc, runBatches_append, hrt]
    rfl
  have hproc := fun s => processEntries_maps env s
    ((cleanBatch env srt b.entries).2 ++ [b.overrun]) (cleanBatch env srt b.entries).1
  rw [← hserial, ← hentries] at hproc
  have hwait : waitingCommits { sch with
        rt := (cleanBatch env sch.rt b.entries).1
        newShadowBatches := rest
        cleanedShadowBatches := sch.cleanedShadowBatches
          ++ [{ b with entries := (cleanBatch env sch.rt b.entries).2 }] }
      = sch.waitingCommits
        ++ committedBy ((cleanBatch env sch.rt b.entries).2 ++ [b.overrun]) := by
    simp [waitingCommits]
  refine ⟨?_, ?_, ?_, ?_, fun s hw => ?_, fun s hw => ?_⟩
  · rw [h.all, hn]
    simp
  · exact h.sets
  · have hnext : runBatches env (runBatches env texasInit processed) waiting = srt := by
      rw [← runBatches_append, hrt]
    rw [cleanedFrom_concat, hnext, ← hentries, ← h.cleaned]
  · exact hold'.trans (hproc 0).1.symm
  · rw [hwait, List.mem_append] at hw
    by_cases hb : s ∈ committedBy ((cleanBatch env sch.rt b.entries).2 ++ [b.overrun])
    · exact (hproc s).2.1 hb
    · have hbefore := hw.resolve_right hb
      have hidle : (cleanBatch env srt b.entries).1.ptrs s = srt.ptrs s := by
        have hsame : cleanedMaps env srt.cleaner b.entries
            = cleanedMaps env sch.rt.cleaner b.entries := cleanedMaps_congr hold.symm
        refine ptrs_firstPass_of_other b.entries fun hs => ?_
        rw [hsame] at hs
        exact hunwaited s hs hbefore
      rw [(hproc s).2.2 hb, hidle, ← hrt]
      exact h.emptied s hbefore
  · rw [hwait, List.mem_append, not_or] at hw
    rw [(hproc s).2.2 hw.2]
    exact hlocal s (hrt ▸ h.maps s hw.1)

/-- A process step processes as the serial loop does. -/
theorem Follows.process (h : Follows env bs processed waiting sch)
    (hstep : sch.step env .process = some sch') :
    ∃ b rest, waiting = b :: rest ∧ Follows env bs (processed ++ [b]) rest sch' := by
  obtain ⟨cleanedBatch, cleanedRest, hc, rfl⟩ := step_process hstep
  have hcleaned := h.cleaned
  rw [hc] at hcleaned
  cases waiting with
  | nil => cases hcleaned
  | cons b rest =>
      refine ⟨b, rest, rfl, ?_⟩
      obtain ⟨rfl, rfl⟩ := List.cons.inj hcleaned
      generalize hrt : runBatches env texasInit processed = srt at hc ⊢
      have hserial : runBatches env texasInit (processed ++ [b])
          = serialProcessShadowBatch env srt b := by
        rw [runBatches_append, hrt]
        rfl
      have hproc := fun s => processEntries_maps env s
        ((cleanBatch env srt b.entries).2 ++ [b.overrun]) sch.rt
      have hwait : sch.waitingCommits
          = committedBy ((cleanBatch env srt b.entries).2 ++ [b.overrun])
            ++ (cleanedFrom env (serialProcessShadowBatch env srt b) rest).flatMap
              fun b => committedBy (b.entries ++ [b.overrun]) := by
        unfold waitingCommits
        rw [hc]
        rfl
      have hruns : processed ++ [b] ++ rest = processed ++ b :: rest := by simp
      refine ⟨?_, ?_, ?_, ?_, fun s hw => ?_, fun s hw => ?_⟩
      · rw [hruns]
        exact h.all
      · rw [hserial]
        show (processEntries env sch.rt _).forget = _
        rw [forget_processEntries, h.sets, hrt]
        exact (forget_processEntries env _ (cleanBatch env srt b.entries).1).symm
      · rw [hserial]
      · rw [hruns]
        exact (hproc 0).1.trans h.oldState
      · rw [hruns]
        refine h.emptied s ?_
        rw [hwait]
        exact List.mem_append_right _ hw
      · rw [hruns]
        by_cases hb : s ∈ committedBy ((cleanBatch env srt b.entries).2 ++ [b.overrun])
        · refine ((hproc s).2.1 hb).trans (h.emptied s ?_).symm
          rw [hwait]
          exact List.mem_append_left _ hb
        · refine ((hproc s).2.2 hb).trans (h.maps s ?_)
          rw [hwait, List.mem_append, not_or]
          exact ⟨hb, hw⟩

end Steps

-- =============================================================== the runs

/-- Every clean step of the run is `Clear`. -/
def ClearRun (env : Env) : Scheduler → List Step → Prop
  | _, [] => True
  | sch, st :: steps =>
      (st = .clean → sch.Clear env)
        ∧ ∀ sch' ∈ sch.step env st, ClearRun env sch' steps

instance decidableClearRun (env : Env) :
    (sch : Scheduler) → (steps : List Step) → Decidable (ClearRun env sch steps)
  | _, [] => isTrue trivial
  | sch, st :: steps =>
      have := fun sch' => decidableClearRun env sch' steps
      inferInstanceAs (Decidable ((st = .clean → sch.Clear env)
        ∧ ∀ sch' ∈ sch.step env st, ClearRun env sch' steps))

/-- Such a run follows the serial one all along. -/
theorem follows_run {env : Env} {bs : List Batch} (steps : List Step) :
    ∀ {sch sch' : Scheduler} {processed waiting : List Batch},
      Follows env bs processed waiting sch → ClearRun env sch steps →
      sch.run env steps = some sch' →
      ∃ processed waiting, Follows env bs processed waiting sch' := by
  induction steps with
  | nil =>
      intro sch sch' processed waiting h _ hrun
      cases hrun
      exact ⟨processed, waiting, h⟩
  | cons st steps ih =>
      intro sch sch' processed waiting h hclear hrun
      obtain ⟨mid, hmid, hrest⟩ := Option.bind_eq_some_iff.mp hrun
      have hclear' := hclear.2 mid hmid
      cases st with
      | pop => exact ih (h.pop hmid) hclear' hrest
      | clean =>
          obtain ⟨b, h'⟩ := h.clean (hclear.1 rfl) hmid
          exact ih h' hclear' hrest
      | process =>
          obtain ⟨b, rest, -, h'⟩ := h.process hmid
          exact ih h' hclear' hrest

/-- At the end there is nothing left of the difference. -/
theorem Follows.finished {env : Env} {bs processed waiting : List Batch} {sch : Scheduler}
    (h : Follows env bs processed waiting sch) (hfin : sch.Finished) :
    sch.rt = runBatches env texasInit bs := by
  obtain ⟨hqueue, hnew, hcleaned⟩ := hfin
  have hwaiting : waiting = [] := by
    cases waiting with
    | nil => rfl
    | cons b rest => exact absurd (h.cleaned.symm.trans hcleaned) (List.cons_ne_nil _ _)
  subst hwaiting
  have hall : bs = processed := by
    rw [h.all, hnew, hqueue]
    simp
  have hnone : ∀ s, s ∉ sch.waitingCommits := by
    intro s
    unfold waitingCommits
    rw [hcleaned]
    exact List.not_mem_nil
  have hold := h.oldState
  have hmaps := funext fun s => h.maps s (hnone s)
  rw [List.append_nil] at hold hmaps
  rw [hall]
  exact Runtime.eq_of_forget h.sets hmaps hold

end Scheduler

/-- A pipelined run whose clean steps touch no state with a waiting
commit ends with the sets of the serial one. -/
theorem pipelined_eq_serial {env : Env} {bs : List Batch} (steps : List Scheduler.Step)
    {sch : Scheduler} (hrun : (Scheduler.init bs).run env steps = some sch)
    (hclear : Scheduler.ClearRun env (.init bs) steps) (hfin : sch.Finished)
    (stateMap : List StateId) :
    reportStatistics env stateMap sch.rt
      = reportStatistics env stateMap (runBatches env texasInit bs) := by
  obtain ⟨processed, waiting, h⟩ :=
    Scheduler.follows_run steps (Scheduler.follows_init env bs) hclear hrun
  rw [h.finished hfin]

/-- One invocation that writes the address, and its commit. -/
def invocationBatch (s : StateId) (p : Addr) : Batch :=
  ⟨[(SlotWrite.stateBegin s).entry, (SlotWrite.access .write p 1).entry,
    (SlotWrite.stateEnd s).entry, (SlotWrite.stateCommit s).entry], .redundant⟩

/-- The same after the block has been allocated. -/
def firstBatch (s : StateId) (p : Addr) : Batch :=
  ⟨(SlotWrite.allocAdd p 8 7 none).entry :: (invocationBatch s p).entries, .redundant⟩

/-- Both batches cleaned before the first is processed. -/
def aheadSteps : List Scheduler.Step := [.pop, .pop, .clean, .clean, .process, .process]

/-- Two states: the cleaner may run ahead. -/
theorem pipelined_eq_serial_twoStates :
    let env := Env.ofTree .flat
    let bs := [firstBatch 0 0x1000, invocationBatch 1 0x1000]
    ∃ sch, (Scheduler.init bs).run env aheadSteps = some sch ∧ sch.Finished
      ∧ reportStatistics env [0, 1] sch.rt
        = reportStatistics env [0, 1] (runBatches env texasInit bs) := by
  intro env bs
  refine ⟨_, rfl, ⟨rfl, rfl, rfl⟩, ?_⟩
  exact pipelined_eq_serial aheadSteps rfl (by decide) ⟨rfl, rfl, rfl⟩ [0, 1]

/-- One state twice: the second invocation is cleaned against the maps
of the first, and its write is CO. -/
theorem pipelined_ne_serial_sameState :
    let env := Env.ofTree .flat
    let bs := [firstBatch 0 0x1000, invocationBatch 0 0x1000]
    ∃ sch, (Scheduler.init bs).run env aheadSteps = some sch ∧ sch.Finished
      ∧ Final (reportStatistics env [0] sch.rt) 1 0 (.offset .co 0)
      ∧ ¬ Final (reportStatistics env [0] (runBatches env texasInit bs)) 1 0 (.offset .co 0) := by
  intro env bs
  refine ⟨_, rfl, ⟨rfl, rfl, rfl⟩, ?_⟩
  decide

end Carmot.Texas
