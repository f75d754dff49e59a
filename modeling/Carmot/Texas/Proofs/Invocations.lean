/-
Invocation commits compose.

A commit leaves three things behind: nothing pending on any object, no
pointer map of the ROI, and the table. `freshStates` is the runtime with
the table alone. `Sim` relates a runtime to one that has forgotten the
information committed before: same table, same cleaner, same pending
items, and committed items that differ by a fixed set `F`. Every entry
and every batch keeps it (`sim_entry`, `sim_batches`), since nothing
the worker does depends on what is committed.

At the start of an invocation the runtime is `Quiet`, so it is related
to its fresh version, and an invocation ends quiet again
(`quiet_invocation`). The union law is the induction over invocations.
-/
import Carmot.Texas.Proofs.Congruence
import Carmot.Texas.Proofs.EndToEnd

namespace Carmot.Texas

open Carmot.Lib

-- ========================================================= the simulation

/-- Two runtimes that differ in the items `F` committed earlier. -/
structure Sim (F : AllocId → StateId → Item → Prop) (rt rt' : Runtime) : Prop where
  inv : TableInv rt
  inv' : TableInv rt'
  same : SameTable rt rt'
  cleaner : rt'.cleaner = rt.cleaner
  pending : ∀ a s x, Pending rt' a s x ↔ Pending rt a s x
  committed : ∀ a s x, Committed rt a s x ↔ F a s x ∨ Committed rt' a s x

theorem TableInv.cleanBatch {rt : Runtime} (h : TableInv rt) (env : Env)
    (es : List ShadowEntry) : TableInv (Carmot.Texas.cleanBatch env rt es).1 :=
  ⟨h.maskFree, h.pending_mem, h.objects_lt, h.origins_lt⟩

theorem tableInv_runBatches (env : Env) (bs : List Batch) :
    ∀ {rt : Runtime}, TableInv rt → TableInv (runBatches env rt bs) := by
  induction bs with
  | nil => intro rt h; exact h
  | cons b bs ih => intro rt h; exact ih (tableInv_run env _ (h.cleanBatch env b.entries))

section Simulation

variable {env : Env} {F : AllocId → StateId → Item → Prop} {rt rt' : Runtime}

/-- One entry keeps the simulation: what it records, commits and erases
depends on the table only. -/
theorem sim_entry (h : Sim F rt rt') (e : ShadowEntry) :
    Sim F (processEntry env rt e) (processEntry env rt' e) := by
  have h₁ := processEntry_spec env e h.inv
  have h₂ := processEntry_spec env e h.inv'
  refine ⟨h₁.inv, h₂.inv, h.same.processEntry h.inv h.inv', ?_, fun a s x => ?_, fun a s x => ?_⟩
  · by_cases hop : e.operation = .stateCommit
    · rw [cleaner_commitEntry rt hop, cleaner_commitEntry rt' hop, h.cleaner]
    · rw [cleaner_processEntry env e rt hop, cleaner_processEntry env e rt' hop, h.cleaner]
  · rw [h₁.pending, h₂.pending, h.pending, h.same.commits, h.same.records]
  · rw [h₁.committed, h₂.committed, h.pending, h.same.commits, h.same.erases, h.committed,
      or_assoc]

theorem sim_entries (es : List ShadowEntry) :
    ∀ {rt rt' : Runtime}, Sim F rt rt' →
      Sim F (processEntries env rt es) (processEntries env rt' es) := by
  induction es with
  | nil => intro rt rt' h; exact h
  | cons e es ih => intro rt rt' h; exact ih (sim_entry h e)

/-- A batch keeps it: both are cleaned alike. -/
theorem sim_batch (h : Sim F rt rt') (b : Batch) :
    Sim F (serialProcessShadowBatch env rt b) (serialProcessShadowBatch env rt' b) := by
  have hentries : (cleanBatch env rt' b.entries).2 = (cleanBatch env rt b.entries).2 := by
    unfold cleanBatch
    rw [h.cleaner]
  have hclean : Sim F (cleanBatch env rt b.entries).1 (cleanBatch env rt' b.entries).1 := by
    refine ⟨h.inv.cleanBatch env _, h.inv'.cleanBatch env _,
      ⟨h.same.table, h.same.numAllocs, h.same.origins, h.same.pointer, h.same.length,
        h.same.affiliated⟩, ?_, h.pending, h.committed⟩
    rw [cleanBatch_cleaner, cleanBatch_cleaner, h.cleaner]
  unfold serialProcessShadowBatch processShadowBatch
  dsimp only
  rw [hentries]
  exact sim_entries _ hclean

theorem sim_batches (bs : List Batch) :
    ∀ {rt rt' : Runtime}, Sim F rt rt' → Sim F (runBatches env rt bs) (runBatches env rt' bs) := by
  induction bs with
  | nil => intro rt rt' h; exact h
  | cons b bs ih => intro rt rt' h; exact ih (sim_batch h b)

end Simulation

-- ============================================================ invocations

/-- The table as it stands, with no information about any state. -/
def Runtime.freshStates (rt : Runtime) : Runtime :=
  { rt with
    ptrs := fun _ => StatePtrs.empty
    oldState := none
    sets := fun _ => StateSets.empty
    allocs := fun a => { rt.allocs a with stateCommitInfoMap := fun _ => none } }

/-- Nothing is pending and no ROI is open or remembered. -/
structure Quiet (rt : Runtime) : Prop where
  inv : TableInv rt
  pending : ∀ a s x, ¬ Pending rt a s x
  cleaner : rt.cleaner = texasInit.cleaner

/-- One invocation of the ROI `s`: complete iterations in any number of
batches, and the commit `EndStateInvocation` pushes, after which it
flushes the batch. -/
structure Invocation (tree : StateTree) (s : StateId) (bs : List Batch) : Prop where
  nested : Nested tree [] (rawEntries bs)
  closed : stackAfter [] (rawEntries bs) = []
  only : ∀ e ∈ rawEntries bs, e.operation = .stateBegin ∨ e.operation = .stateEnd →
    e.sizeState = .statePtr s
  commit_last : ∃ init b body e, bs = init ++ [b] ∧ b.entries = body ++ [e]
    ∧ e.operation = .stateCommit ∧ e.sizeState = .statePtr s
    ∧ ∀ e' ∈ rawEntries init ++ body, e'.operation ≠ .stateCommit
  overrun : ∀ b ∈ bs, b.overrun.operation = .redundant

theorem quiet_init : Quiet texasInit where
  inv := tableInv_init
  pending a s x h := not_settled_init a s x (Or.inr h)
  cleaner := rfl

/-- A quiet runtime and its fresh version behave alike. -/
theorem sim_freshStates {rt : Runtime} (h : Quiet rt) :
    Sim (Committed rt) rt rt.freshStates := by
  have hpending : ∀ a s x, ¬ Pending rt.freshStates a s x := by
    intro a s x h
    obtain ⟨info, hi, -⟩ := h
    cases hi
  have hcommitted : ∀ a s x, ¬ Committed rt.freshStates a s x := by
    intro a s x hc
    exact not_settled_init a s x (Or.inl hc)
  refine ⟨h.inv, ⟨h.inv.maskFree, fun a s x hp => absurd hp (hpending a s x),
    h.inv.objects_lt, h.inv.origins_lt⟩, ⟨rfl, rfl, rfl, fun _ => rfl, fun _ => rfl,
    fun _ => rfl⟩, ?_, fun a s x => ?_, fun a s x => ?_⟩
  · rw [h.cleaner]
    rfl
  · simp [hpending, h.pending]
  · simp [hcommitted]

/-- The first pass over a run of `s` touches no other state's maps. -/
theorem firstPass_other {env : Env} {s t : StateId} (hts : t ≠ s) (es : List ShadowEntry) :
    Nested env.tree [] es →
      (∀ e ∈ es, e.operation = .stateBegin ∨ e.operation = .stateEnd →
        e.sizeState = .statePtr s) →
      (firstPass env texasInit.cleaner es).1.ptrs t = StatePtrs.empty := by
  induction es using List.reverseRecOn with
  | nil => intro _ _; rfl
  | append_singleton es e ih =>
      intro hnest honly
      rw [nested_append] at hnest
      have honly' : ∀ e' ∈ es, e'.operation = .stateBegin ∨ e'.operation = .stateEnd →
          e'.sizeState = .statePtr s := fun e' h => honly e' (List.mem_append_left _ h)
      have hold := ih hnest.1 honly'
      have hinv := cleanInv_firstPass env _ (cleanInv_init env.tree) hnest.1
      rw [firstPass_append]
      generalize (firstPass env texasInit.cleaner es).1 = cl at hold hinv
      show (cleanEntry env cl e).1.ptrs t = StatePtrs.empty
      have hother : ∀ f, (cl.onState s f).ptrs t = StatePtrs.empty := by
        intro f
        rw [onState_ptrs_of_ne cl hts]
        exact hold
      cases hacc : e.operation.access? with
      | some rw =>
          -- the innermost ROI can only be `s`
          have hne := hnest.2.1.ne_nil (isAccess_of_access hacc)
          obtain ⟨r, rest, hstk⟩ := List.exists_cons_of_ne_nil hne
          have hrs : r = s := mem_stackAfter_single es
            (fun u hu => absurd hu List.not_mem_nil) honly'
            (by rw [hstk]; exact List.mem_cons_self ..)
          have hb : cl.batchState = some s := by
            rw [hinv.batchState_eq, hstk, hrs]
            rfl
          rw [cleanEntry_access hacc hb]
          exact hother _
      | none =>
          by_cases hbegin : e.operation = .stateBegin
          · rw [cleanEntry_begin hbegin (honly e (by simp) (Or.inl hbegin))]
            exact hother _
          · by_cases hend : e.operation = .stateEnd
            · rw [cleanEntry_end hend (honly e (by simp) (Or.inr hend))]
              exact hother _
            · rw [cleanEntry_other hacc hbegin hend]
              exact hold

/-- An invocation ends as quiet as it began. -/
theorem quiet_invocation {env : Env} {s : StateId} {rt : Runtime} {bs : List Batch}
    (hq : Quiet rt) (hinv : Invocation env.tree s bs) : Quiet (runBatches env rt bs) := by
  obtain ⟨init, b, body, e, hbs, hb, hop, hs, hno⟩ := hinv.commit_last
  have hover : ∀ b' ∈ init, b'.overrun.operation = .redundant := by
    intro b' hb'
    exact hinv.overrun b' (by rw [hbs]; exact List.mem_append_left _ hb')
  have hlast : b.overrun.operation = .redundant := hinv.overrun b (by rw [hbs]; simp)
  have hraw : rawEntries bs = rawEntries init ++ b.entries := by
    rw [hbs, rawEntries_append, rawEntries_singleton]
  have hinit := cleaner_runBatches env init rt hover
    fun e' he' => hno e' (List.mem_append_left _ he')
  rw [hq.cleaner] at hinit
  obtain ⟨fs, hfs, hrun⟩ := @commitBatch_split env (runBatches env rt init) _ _ _ hb hop
    fun e' he' => hno e' (List.mem_append_right _ he')
  have hsplit : runBatches env rt bs
      = serialProcessShadowBatch env (runBatches env rt init) b := by
    rw [hbs, runBatches_append]
    rfl
  rw [hsplit, hrun]
  have hinv₁ : TableInv (processEntries env
      (cleanBatch env (runBatches env rt init) b.entries).1 fs) :=
    tableInv_run env fs ((tableInv_runBatches env init hq.inv).cleanBatch env _)
  -- the cleaner when the commit is reached: that of the whole first pass
  have hclean : (processEntries env
      (cleanBatch env (runBatches env rt init) b.entries).1 fs).cleaner
      = (firstPass env texasInit.cleaner (rawEntries bs)).1 := by
    rw [cleaner_processEntries env fs _ hfs, cleanBatch_cleaner, hinit, hraw,
      firstPass_append]
  generalize processEntries env (cleanBatch env (runBatches env rt init) b.entries).1 fs = rt₁
    at hinv₁ hclean
  have hcommit := processEntry_spec env e hinv₁
  have hend := processEntry_spec env b.overrun hcommit.inv
  refine ⟨hend.inv, ?_, ?_⟩
  · intro a t x
    rw [hend.pending, hcommit.pending]
    have hnorec : ∀ rt, ¬ Records env rt e a t x := by
      intro rt h
      unfold Records at h
      rw [hop] at h
      exact h
    have hnorec' : ∀ rt, ¬ Records env rt b.overrun a t x := by
      intro rt h
      unfold Records at h
      rw [hlast] at h
      exact h
    intro h
    rcases h with ⟨⟨hp, hnc⟩ | h, -⟩ | h
    · -- everything pending is in the table, which the commit commits
      apply hnc
      unfold Commits
      rw [hop]
      exact hinv₁.pending_mem a t x hp
    · exact hnorec rt₁ h
    · exact hnorec' _ h
  · rw [cleaner_processEntry env b.overrun _ (by rw [hlast]; simp),
      cleaner_commitEntry rt₁ hop, hs, hclean]
    have hstack := cleanInv_firstPass env _ (cleanInv_init env.tree) hinv.nested
    have hother : ∀ t, t ≠ s → (firstPass env texasInit.cleaner (rawEntries bs)).1.ptrs t
        = StatePtrs.empty := fun t ht => firstPass_other ht _ hinv.nested hinv.only
    have hbatch : (firstPass env texasInit.cleaner (rawEntries bs)).1.batchState = none := by
      rw [hstack.batchState_eq, hinv.closed]
      rfl
    have hold := firstPass_oldState env (rawEntries bs) texasInit.cleaner rfl
    rw [hbatch] at hold
    generalize (firstPass env texasInit.cleaner (rawEntries bs)).1 = cl at hother hbatch hold
    obtain ⟨ptrs, bst, old⟩ := cl
    subst hbatch hold
    show Cleaner.mk (Function.update ptrs s StatePtrs.empty) none none
      = ⟨fun _ => StatePtrs.empty, none, none⟩
    congr
    funext t
    by_cases ht : t = s
    · rw [ht, Function.update_self]
    · rw [Function.update_of_ne ht]
      exact hother t ht

/-- So does any number of them. -/
theorem quiet_invocations {env : Env} {s : StateId} (invs : List (List Batch)) :
    ∀ {rt : Runtime}, Quiet rt → (∀ bs ∈ invs, Invocation env.tree s bs) →
      Quiet (runBatches env rt invs.flatten) := by
  induction invs with
  | nil => intro rt hq _; exact hq
  | cons bs invs ih =>
      intro rt hq hinvs
      have hfirst := quiet_invocation hq (hinvs bs (List.mem_cons_self ..))
      rw [List.flatten_cons, runBatches_append]
      exact ih hfirst fun bs' h => hinvs bs' (List.mem_cons_of_mem _ h)

-- =========================================================== the union law

/-- After any number of invocations a state has what it had before and
what each of them gives it alone. -/
theorem settled_invocations {env : Env} {s : StateId} (invs : List (List Batch)) :
    ∀ {rt : Runtime}, Quiet rt → (∀ bs ∈ invs, Invocation env.tree s bs) →
      ∀ a x, Settled (runBatches env rt invs.flatten) a s x ↔
        Committed rt a s x ∨ ∃ pre bs post, invs = pre ++ bs :: post
          ∧ Settled (runBatches env (runBatches env rt pre.flatten).freshStates bs) a s x := by
  induction invs with
  | nil =>
      intro rt hq _ a x
      show Settled rt a s x ↔ _
      unfold Settled
      simp [hq.pending]
  | cons bs invs ih =>
      intro rt hq hinvs a x
      have hfirst := hinvs bs (List.mem_cons_self ..)
      have hquiet := quiet_invocation hq hfirst
      have hsim := @sim_batches env _ bs _ _ (sim_freshStates hq)
      have halone : Committed (runBatches env rt bs) a s x ↔
          Committed rt a s x ∨ Settled (runBatches env rt.freshStates bs) a s x := by
        unfold Settled
        rw [hsim.committed, hsim.pending]
        simp [hquiet.pending]
      rw [List.flatten_cons, runBatches_append,
        ih hquiet (fun bs' h => hinvs bs' (List.mem_cons_of_mem _ h)) a x, halone, or_assoc]
      apply or_congr_right
      constructor
      · intro h
        rcases h with h | ⟨pre, bs', post, heq, h⟩
        · exact ⟨[], bs, invs, rfl, h⟩
        · refine ⟨bs :: pre, bs', post, by rw [heq]; rfl, ?_⟩
          rw [List.flatten_cons, runBatches_append]
          exact h
      · intro h
        obtain ⟨pre, bs', post, heq, h⟩ := h
        cases pre with
        | nil =>
            injection heq with h₁ h₂
            subst h₁
            exact Or.inl h
        | cons x pre =>
            injection heq with h₁ h₂
            subst h₁
            refine Or.inr ⟨pre, bs', post, h₂, ?_⟩
            rw [List.flatten_cons, runBatches_append] at h
            exact h

/-- Invocation commits compose. After `n` invocations of a ROI, with any
content and any batch cuts, its Final sets hold the union of what each
invocation, run alone from the table it finds, puts there. -/
theorem final_invocations (env : Env) (s : StateId) (invs : List (List Batch))
    (hinvs : ∀ bs ∈ invs, Invocation env.tree s bs) (a : AllocId) (x : Item) :
    Final (reportStatistics env [s] (runBatches env texasInit invs.flatten)) a s x ↔
      ∃ pre bs post, invs = pre ++ bs :: post
        ∧ Final (reportStatistics env [s]
          (runBatches env (runBatches env texasInit pre.flatten).freshStates bs)) a s x := by
  have hs : s ∈ [s] := List.mem_singleton.mpr rfl
  have halone : ∀ pre bs post, invs = pre ++ bs :: post →
      TableInv (runBatches env (runBatches env texasInit pre.flatten).freshStates bs) := by
    intro pre bs post heq
    have hq := quiet_invocations pre quiet_init
      fun bs' h => hinvs bs' (by rw [heq]; exact List.mem_append_left _ h)
    exact tableInv_runBatches env bs (sim_freshStates hq).inv'
  rw [final_reportStatistics (tableInv_runBatches env _ tableInv_init) hs,
    settled_invocations invs quiet_init hinvs]
  constructor
  · intro h
    rcases h with h | ⟨pre, bs, post, heq, h⟩
    · exact absurd (Or.inl h) (not_settled_init a s x)
    · exact ⟨pre, bs, post, heq, (final_reportStatistics (halone pre bs post heq) hs a x).mpr h⟩
  · intro h
    obtain ⟨pre, bs, post, heq, h⟩ := h
    exact Or.inr ⟨pre, bs, post, heq, (final_reportStatistics (halone pre bs post heq) hs a x).mp h⟩

/-- One invocation writes a cell, the next one reads it: the Final sets
hold the output class and the input class, and no transfer class. -/
theorem final_invocations_writeThenRead :
    let env := Env.ofTree .flat
    let writing : List Batch :=
      [⟨[(SlotWrite.allocAdd 100 8 1 none).entry, (SlotWrite.stateBegin 0).entry,
          (SlotWrite.access .write 100 1).entry, (SlotWrite.stateEnd 0).entry,
          (SlotWrite.stateCommit 0).entry], .redundant⟩]
    let reading : List Batch :=
      [⟨[(SlotWrite.stateBegin 0).entry, (SlotWrite.access .read 100 2).entry,
          (SlotWrite.stateEnd 0).entry, (SlotWrite.stateCommit 0).entry], .redundant⟩]
    (∀ bs ∈ [writing, reading], Invocation env.tree 0 bs)
      ∧ (∀ x, Final (reportStatistics env [0] (runBatches env texasInit (writing ++ reading))) 1 0 x
        ↔ ∃ pre bs post, [writing, reading] = pre ++ bs :: post
          ∧ Final (reportStatistics env [0]
            (runBatches env (runBatches env texasInit pre.flatten).freshStates bs)) 1 0 x)
      ∧ Final (reportStatistics env [0] (runBatches env texasInit (writing ++ reading))) 1 0
        (.offset .input 0) := by
  intro env writing reading
  have hinvs : ∀ bs ∈ [writing, reading], Invocation env.tree 0 bs := by
    intro bs hbs
    rcases List.mem_pair.mp hbs with rfl | rfl
    · refine ⟨?_, rfl, ?_, ⟨[], _, _, _, rfl, (List.dropLast_append_getLast (by simp)).symm,
        rfl, rfl, by decide⟩, ?_⟩
      · simp [writing, env, rawEntries, Nested, NestedStep, stackStep, SlotWrite.entry,
          SlotWrite.fill, accessOperation, SizeState.getStatePtr, Env.ofTree, StateTree.flat]
      · simp [writing, rawEntries, SlotWrite.entry, SlotWrite.fill, accessOperation]
      · simp [writing, ShadowEntry.redundant]
    · refine ⟨?_, rfl, ?_, ⟨[], _, _, _, rfl, (List.dropLast_append_getLast (by simp)).symm,
        rfl, rfl, by decide⟩, ?_⟩
      · simp [reading, env, rawEntries, Nested, NestedStep, stackStep, SlotWrite.entry,
          SlotWrite.fill, accessOperation, SizeState.getStatePtr, Env.ofTree, StateTree.flat]
      · simp [reading, rawEntries, SlotWrite.entry, SlotWrite.fill, accessOperation]
      · simp [reading, ShadowEntry.redundant]
  exact ⟨hinvs, fun x => final_invocations env 0 [writing, reading] hinvs 1 x, by decide⟩

end Carmot.Texas
