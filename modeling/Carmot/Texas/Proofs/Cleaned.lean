/-
The cleaned form of batches, whatever they hold.

An executed entry is the cleaned form of an entry of some batch or the
slot past a batch's end (`executed_split`), and cleaning keeps
everything but accesses and markers as it is (`KeepsTable`). Only a
commit touches the maps between two batches, and only those of its
state (`cleaner_runBatches`, `cleaner_commitEntry`).
-/
import Mathlib.Data.List.Forall2
import Carmot.Texas.Proofs.Stream

namespace Carmot.Texas

open Carmot.Lib

-- =========================================================== split streams

/-- An entry the first pass leaves behind comes from an entry of the
batch. -/
theorem firstPass_split {env : Env} {e' : ShadowEntry} {post' : List ShadowEntry}
    (es : List ShadowEntry) :
    ∀ {cl : Cleaner} {pre' : List ShadowEntry}, (firstPass env cl es).2 = pre' ++ e' :: post' →
      ∃ pre e post, es = pre ++ e :: post ∧ pre' = (firstPass env cl pre).2
        ∧ e' = (cleanEntry env (firstPass env cl pre).1 e).2 := by
  induction es with
  | nil =>
      intro cl pre' h
      have hnil : [] = pre' ++ e' :: post' := h
      simp at hnil
  | cons e es ih =>
      intro cl pre' h
      have hcons : (cleanEntry env cl e).2 :: (firstPass env (cleanEntry env cl e).1 es).2
          = pre' ++ e' :: post' := h
      cases pre' with
      | nil =>
          injection hcons with h₁ h₂
          exact ⟨[], e, es, rfl, rfl, h₁.symm⟩
      | cons x pre' =>
          injection hcons with h₁ h₂
          obtain ⟨pre, f, post, hes, hpre, hf⟩ := ih h₂
          refine ⟨e :: pre, f, post, by rw [hes]; rfl, ?_, hf⟩
          rw [← h₁, hpre]
          rfl

/-- The cleaned form of a stretch of a batch whose first pass ends with
the maps `ptrs`. -/
def cleanedAs (env : Env) (ptrs : StateId → StatePtrs) (cl : Cleaner)
    (es : List ShadowEntry) : List ShadowEntry :=
  (firstPass env cl es).2.map (reassignEntry env.options ptrs)

theorem cleanBatch_entries (env : Env) (rt : Runtime) (es : List ShadowEntry) :
    (cleanBatch env rt es).2
      = cleanedAs env (firstPass env rt.cleaner es).1.ptrs rt.cleaner es := rfl

theorem cleanedAs_append (env : Env) (ptrs : StateId → StatePtrs) (cl : Cleaner)
    (es fs : List ShadowEntry) :
    cleanedAs env ptrs cl (es ++ fs)
      = cleanedAs env ptrs cl es ++ cleanedAs env ptrs (firstPass env cl es).1 fs := by
  unfold cleanedAs
  rw [firstPass_append, List.map_append]

theorem cleanedAs_split {env : Env} {ptrs : StateId → StatePtrs} {cl : Cleaner}
    {es pre' post' : List ShadowEntry} {e' : ShadowEntry}
    (h : cleanedAs env ptrs cl es = pre' ++ e' :: post') :
    ∃ pre e post, es = pre ++ e :: post ∧ pre' = cleanedAs env ptrs cl pre
      ∧ e' = reassignEntry env.options ptrs (cleanEntry env (firstPass env cl pre).1 e).2 := by
  obtain ⟨l₁, l₂, heq, hl₁, hl₂⟩ := List.map_eq_append_iff.mp h
  obtain ⟨x, l₃, hl₂', hx, -⟩ := List.map_eq_cons_iff.mp hl₂
  rw [hl₂'] at heq
  obtain ⟨pre, e, post, hes, hpre, he⟩ := firstPass_split es heq
  exact ⟨pre, e, post, hes, by rw [← hl₁, hpre]; rfl, by rw [← hx, he]⟩

/-- The entries of a run of batches as the producer filled them. -/
def rawEntries (bs : List Batch) : List ShadowEntry := bs.flatMap Batch.entries

theorem rawEntries_append (bs bs' : List Batch) :
    rawEntries (bs ++ bs') = rawEntries bs ++ rawEntries bs' := List.flatMap_append ..

theorem rawEntries_singleton (b : Batch) : rawEntries [b] = b.entries := by
  simp [rawEntries]

theorem executed_append (env : Env) (bs bs' : List Batch) :
    ∀ rt : Runtime, executed env rt (bs ++ bs')
      = executed env rt bs ++ executed env (runBatches env rt bs) bs' := by
  induction bs with
  | nil => intro rt; rfl
  | cons b bs ih =>
      intro rt
      show (cleanBatch env rt b.entries).2 ++ b.overrun :: executed env _ (bs ++ bs')
        = ((cleanBatch env rt b.entries).2 ++ b.overrun :: executed env _ bs) ++ _
      rw [ih, List.append_assoc]
      rfl

/-- An executed entry is the cleaned form of an entry of some batch, or
the slot past a batch's end. -/
theorem executed_split {env : Env} {e' : ShadowEntry} {post' : List ShadowEntry}
    (bs : List Batch) :
    ∀ {rt : Runtime} {pre' : List ShadowEntry}, executed env rt bs = pre' ++ e' :: post' →
      ∃ bs₁ b bs₂, bs = bs₁ ++ b :: bs₂
        ∧ (e' = b.overrun
          ∨ ∃ pre e post, b.entries = pre ++ e :: post
            ∧ let cl := (runBatches env rt bs₁).cleaner
              let ptrs := (firstPass env cl b.entries).1.ptrs
              pre' = executed env rt bs₁ ++ cleanedAs env ptrs cl pre
                ∧ e' = reassignEntry env.options ptrs
                  (cleanEntry env (firstPass env cl pre).1 e).2) := by
  induction bs with
  | nil =>
      intro rt pre' h
      have hnil : [] = pre' ++ e' :: post' := h
      simp at hnil
  | cons b bs ih =>
      intro rt pre' h
      have hcons : (cleanBatch env rt b.entries).2 ++ b.overrun
          :: executed env (serialProcessShadowBatch env rt b) bs = pre' ++ e' :: post' := h
      rcases List.append_eq_append_iff.mp hcons with ⟨l, hpre, hrest⟩ | ⟨l, hclean, hrest⟩
      · -- at the overrun or in a later batch
        cases l with
        | nil =>
            injection hrest with h₁ h₂
            exact ⟨[], b, bs, rfl, Or.inl h₁.symm⟩
        | cons x l =>
            injection hrest with h₁ h₂
            obtain ⟨bs₁, b', bs₂, hbs, hcase⟩ := ih h₂
            refine ⟨b :: bs₁, b', bs₂, by rw [hbs]; rfl, ?_⟩
            rcases hcase with hover | ⟨pre, e, post, hb', hpre', he'⟩
            · exact Or.inl hover
            · refine Or.inr ⟨pre, e, post, hb', ?_, he'⟩
              rw [hpre, hpre', ← h₁]
              show _ = ((cleanBatch env rt b.entries).2 ++ b.overrun :: _) ++ _
              rw [List.append_assoc]
              rfl
      · cases l with
        | nil =>
            injection hrest with h₁ h₂
            exact ⟨[], b, bs, rfl, Or.inl h₁⟩
        | cons x l =>
            injection hrest with h₁ h₂
            subst h₁
            obtain ⟨pre, e, post, hb, hpre, he⟩ := cleanedAs_split hclean
            exact ⟨[], b, bs, rfl, Or.inr ⟨pre, e, post, hb, hpre, he⟩⟩

/-- Conversely, every entry of every batch is executed in its cleaned
form. -/
theorem executed_of_split {env : Env} {rt : Runtime} {bs₁ bs₂ : List Batch} {b : Batch}
    {pre post : List ShadowEntry} {e : ShadowEntry} (hb : b.entries = pre ++ e :: post) :
    let cl := (runBatches env rt bs₁).cleaner
    let ptrs := (firstPass env cl b.entries).1.ptrs
    ∃ post', executed env rt (bs₁ ++ b :: bs₂)
      = (executed env rt bs₁ ++ cleanedAs env ptrs cl pre)
        ++ reassignEntry env.options ptrs (cleanEntry env (firstPass env cl pre).1 e).2
        :: post' := by
  intro cl ptrs
  have hclean : (cleanBatch env (runBatches env rt bs₁) b.entries).2
      = cleanedAs env ptrs cl pre
        ++ cleanedAs env ptrs (firstPass env cl pre).1 (e :: post) := by
    rw [cleanBatch_entries, ← cleanedAs_append, ← hb]
  refine ⟨cleanedAs env ptrs (cleanEntry env (firstPass env cl pre).1 e).1 post
    ++ b.overrun :: executed env (serialProcessShadowBatch env (runBatches env rt bs₁) b) bs₂,
    ?_⟩
  rw [executed_append]
  show _ ++ ((cleanBatch env (runBatches env rt bs₁) b.entries).2 ++ b.overrun :: _) = _
  rw [hclean, List.append_assoc, List.append_assoc]
  rfl

-- ====================================================== what cleaning keeps

/-- A cleaned entry is the raw one, or an access left, dropped or
classified, or a marker made redundant. -/
def KeepsTable (e e' : ShadowEntry) : Prop :=
  e' = e
    ∨ (e.operation.isAccess = true
      ∧ (e'.operation.isAccess = true ∨ e'.operation = .redundant
        ∨ ∃ c, e'.operation = .stateAdd c))
    ∨ ((e.operation = .stateBegin ∨ e.operation = .stateEnd)
      ∧ e'.operation = .redundant)

theorem isAccess_of_access {op : Operation} {rw : Rw} (h : op.access? = some rw) :
    op.isAccess = true := by
  unfold Operation.isAccess
  rw [h]
  rfl

theorem not_isAccess_of_access {op : Operation} (h : op.access? = none) :
    op.isAccess = false := by
  unfold Operation.isAccess
  rw [h]
  rfl

theorem reassignEntry_of_not_access {o : Options} {ptrs : StateId → StatePtrs}
    {e : ShadowEntry} (h : e.operation.isAccess = false) : reassignEntry o ptrs e = e := by
  unfold reassignEntry
  rw [h]
  rfl

/-- The second pass leaves an access, drops it or classifies it. -/
theorem reassignEntry_of_access {o : Options} {ptrs : StateId → StatePtrs}
    {e : ShadowEntry} (h : e.operation.isAccess = true) :
    (reassignEntry o ptrs e).operation.isAccess = true
      ∨ (reassignEntry o ptrs e).operation = .redundant
      ∨ ∃ c, (reassignEntry o ptrs e).operation = .stateAdd c := by
  have hdrop : (dropAccess o e).operation.isAccess = true
      ∨ (dropAccess o e).operation = .redundant
      ∨ ∃ c, (dropAccess o e).operation = .stateAdd c := by
    unfold dropAccess
    split
    · exact Or.inl h
    · exact Or.inr (Or.inl rfl)
  unfold reassignEntry
  rw [if_pos h]
  cases e.sizeState.getStatePtr with
  | none => exact Or.inl h
  | some s =>
      dsimp only
      cases (ptrs s).statePtrMap e.ptr with
      | none => exact hdrop
      | some c =>
          dsimp only
          split
          · exact Or.inr (Or.inr ⟨c, rfl⟩)
          · exact hdrop

theorem keepsTable_cleaned (env : Env) (ptrs : StateId → StatePtrs) (cl : Cleaner)
    (e : ShadowEntry) :
    KeepsTable e (reassignEntry env.options ptrs (cleanEntry env cl e).2) := by
  have hredundant : reassignEntry env.options ptrs { e with operation := .redundant }
      = { e with operation := .redundant } := reassignEntry_of_not_access rfl
  cases hacc : e.operation.access? with
  | some rw =>
      have hraw := isAccess_of_access hacc
      refine Or.inr (Or.inl ⟨hraw, ?_⟩)
      cases hb : cl.batchState with
      | none =>
          have hclean : (cleanEntry env cl e).2
              = if env.options.trackCycles then { e with operation := .redundant } else e := by
            unfold cleanEntry
            simp only [hacc, hb]
          rw [hclean]
          split
          · rw [hredundant]
            exact Or.inr (Or.inl rfl)
          · exact reassignEntry_of_access hraw
      | some s =>
          rw [cleanEntry_access hacc hb]
          exact reassignEntry_of_access hraw
  | none =>
      have hraw := not_isAccess_of_access hacc
      have hkept : (cleanEntry env cl e).2 = e ∨
          ((e.operation = .stateBegin ∨ e.operation = .stateEnd)
            ∧ (cleanEntry env cl e).2 = { e with operation := .redundant }) := by
        unfold cleanEntry
        rw [hacc]
        split
        · cases ‹none = some _›
        next hop =>
          cases e.sizeState.getStatePtr with
          | none => exact Or.inl rfl
          | some s => exact Or.inr ⟨Or.inr hop, rfl⟩
        next hop =>
          cases e.sizeState.getStatePtr with
          | none => exact Or.inl rfl
          | some s => exact Or.inr ⟨Or.inl hop, rfl⟩
        · exact Or.inl rfl
      rcases hkept with h | ⟨hop, h⟩
      · rw [h, reassignEntry_of_not_access hraw]
        exact Or.inl rfl
      · rw [h, hredundant]
        exact Or.inr (Or.inr ⟨hop, rfl⟩)

/-- An operation cleaning neither makes nor removes. -/
structure Untouched (op : Operation) : Prop where
  not_access : op.isAccess = false
  not_begin : op ≠ .stateBegin
  not_end : op ≠ .stateEnd
  not_redundant : op ≠ .redundant
  not_add : ∀ c, op ≠ .stateAdd c

theorem untouched_allocAdd : Untouched .allocAdd :=
  ⟨rfl, by simp, by simp, by simp, by simp⟩

theorem untouched_allocFree : Untouched .allocFree :=
  ⟨rfl, by simp, by simp, by simp, by simp⟩

theorem untouched_stateCommit : Untouched .stateCommit :=
  ⟨rfl, by simp, by simp, by simp, by simp⟩

/-- Operations that an entry kept by cleaning has exactly when the raw
one does. -/
theorem KeepsTable.operation_iff {e e' : ShadowEntry} (h : KeepsTable e e') {op : Operation}
    (hop : Untouched op) : e'.operation = op ↔ e.operation = op := by
  obtain ⟨hacc, hbegin, hend, hred, hadd⟩ := hop
  rcases h with rfl | ⟨hraw, hclean⟩ | ⟨hraw, hclean⟩
  · exact Iff.rfl
  · constructor
    · intro heq
      rw [heq] at hclean
      rcases hclean with h | h | ⟨c, h⟩
      · rw [hacc] at h
        cases h
      · exact absurd h hred
      · exact absurd h (hadd c)
    · intro heq
      rw [heq, hacc] at hraw
      cases hraw
  · constructor
    · intro heq
      exact absurd (heq.symm.trans hclean) hred
    · intro heq
      rw [heq] at hraw
      rcases hraw with h | h
      · exact absurd h hbegin
      · exact absurd h hend

theorem KeepsTable.eq_of_operation {e e' : ShadowEntry} (h : KeepsTable e e') {op : Operation}
    (hop : Untouched op) (he : e.operation = op) : e' = e := by
  subst he
  rcases h with h | ⟨h, -⟩ | ⟨h | h, -⟩
  · exact h
  · rw [hop.not_access] at h
    cases h
  · exact absurd h hop.not_begin
  · exact absurd h hop.not_end

theorem keepsTable_cleanedAs (env : Env) (ptrs : StateId → StatePtrs)
    (es : List ShadowEntry) :
    ∀ cl : Cleaner, List.Forall₂ KeepsTable es (cleanedAs env ptrs cl es) := by
  induction es with
  | nil => intro cl; exact List.Forall₂.nil
  | cons e es ih =>
      intro cl
      exact List.Forall₂.cons (keepsTable_cleaned env ptrs cl e) (ih _)

theorem not_mem_cleanedAs {env : Env} {op : Operation} (hop : Untouched op)
    {ptrs : StateId → StatePtrs} {cl : Cleaner} {es : List ShadowEntry}
    (hno : ∀ e ∈ es, e.operation ≠ op) :
    ∀ e ∈ cleanedAs env ptrs cl es, e.operation ≠ op := by
  intro e he
  obtain ⟨pre', post', hsplit⟩ := List.append_of_mem he
  obtain ⟨pre, f, post, hf, -, he'⟩ := cleanedAs_split hsplit
  rw [he', ne_eq, (keepsTable_cleaned env _ _ f).operation_iff hop]
  exact hno f (by rw [hf]; simp)

/-- It does not occur in the stream when it does not occur in the
batches. -/
theorem not_mem_executed {env : Env} {op : Operation} (hop : Untouched op) (bs : List Batch) :
    ∀ {rt : Runtime}, (∀ b ∈ bs, b.overrun.operation = .redundant) →
      (∀ e ∈ rawEntries bs, e.operation ≠ op) →
      ∀ e ∈ executed env rt bs, e.operation ≠ op := by
  induction bs with
  | nil => intro rt _ _ e he; cases he
  | cons b bs ih =>
      intro rt hover hno e he
      rcases List.mem_append.mp he with he | he
      · exact not_mem_cleanedAs hop (fun e he => hno e (List.mem_append_left _ he)) e he
      · rcases List.mem_cons.mp he with rfl | he
        · rw [hover b (List.mem_cons_self ..)]
          exact fun h => hop.not_redundant h.symm
        · exact ih (fun b' hb' => hover b' (List.mem_cons_of_mem _ hb'))
            (fun e he => hno e (List.mem_append_right b.entries he)) e he

/-- Batches without commits hand the cleaner on as one first pass over
their entries does. -/
theorem cleaner_runBatches (env : Env) (bs : List Batch) :
    ∀ rt : Runtime, (∀ b ∈ bs, b.overrun.operation = .redundant) →
      (∀ e ∈ rawEntries bs, e.operation ≠ .stateCommit) →
      (runBatches env rt bs).cleaner = (firstPass env rt.cleaner (rawEntries bs)).1 := by
  induction bs with
  | nil => intro rt _ _; rfl
  | cons b bs ih =>
      intro rt hover hno
      have hone : (serialProcessShadowBatch env rt b).cleaner
          = (firstPass env rt.cleaner b.entries).1 := by
        unfold serialProcessShadowBatch processShadowBatch
        dsimp only
        rw [cleaner_processEntries, cleanBatch_cleaner]
        intro e he
        have hexec : e ∈ executed env rt [b] := he
        refine not_mem_executed untouched_stateCommit [b] ?_ ?_ e hexec
        · intro b' hb'
          rw [List.mem_singleton.mp hb']
          exact hover b (List.mem_cons_self ..)
        · intro e' he'
          rw [rawEntries_singleton] at he'
          exact hno e' (List.mem_flatMap.mpr ⟨b, List.mem_cons_self .., he'⟩)
      show (runBatches env (serialProcessShadowBatch env rt b) bs).cleaner = _
      rw [ih _ (fun b' hb' => hover b' (List.mem_cons_of_mem _ hb')), hone]
      · show _ = (firstPass env rt.cleaner (b.entries ++ rawEntries bs)).1
        rw [firstPass_append]
      · intro e he
        exact hno e (List.mem_append_right b.entries he)

-- ============================================================== commits

/-- A commit entry empties the pointer maps of its state. -/
theorem cleaner_commitEntry {env : Env} (rt : Runtime) {e : ShadowEntry}
    (hop : e.operation = .stateCommit) :
    (processEntry env rt e).cleaner
      = match e.sizeState.getStatePtr with
        | none => rt.cleaner
        | some s =>
            { rt.cleaner with ptrs := Function.update rt.cleaner.ptrs s StatePtrs.empty } := by
  have hall : ∀ (as : List AllocId) (rt : Runtime),
      (as.foldl (commitStateInfo env.tree none) rt).cleaner = rt.cleaner := by
    intro as
    induction as with
    | nil => intro rt; rfl
    | cons a as ih => intro rt; exact ih _
  have h : (commitStateInfoForAllocations env.tree rt).cleaner = rt.cleaner := hall _ rt
  unfold processEntry
  rw [hop]
  cases e.sizeState.getStatePtr with
  | none => exact h
  | some s =>
      rw [← h]
      rfl

/-- A batch that ends with a commit: the entries before it, the commit,
and the slot past the end. -/
theorem commitBatch_split {env : Env} {rt : Runtime} {b : Batch} {body : List ShadowEntry}
    {e : ShadowEntry} (hb : b.entries = body ++ [e]) (hop : e.operation = .stateCommit)
    (hno : ∀ e' ∈ body, e'.operation ≠ .stateCommit) :
    ∃ fs, (∀ e' ∈ fs, e'.operation ≠ .stateCommit)
      ∧ serialProcessShadowBatch env rt b
        = processEntry env (processEntry env
            (processEntries env (cleanBatch env rt b.entries).1 fs) e) b.overrun := by
  refine ⟨cleanedAs env (firstPass env rt.cleaner b.entries).1.ptrs rt.cleaner body,
    not_mem_cleanedAs untouched_stateCommit hno, ?_⟩
  have hlast : cleanedAs env (firstPass env rt.cleaner b.entries).1.ptrs
      (firstPass env rt.cleaner body).1 [e] = [e] := by
    have hkeep := keepsTable_cleaned env (firstPass env rt.cleaner b.entries).1.ptrs
      (firstPass env rt.cleaner body).1 e
    exact congrArg (fun x => [x]) (hkeep.eq_of_operation untouched_stateCommit hop)
  have hclean : (cleanBatch env rt b.entries).2
      = cleanedAs env (firstPass env rt.cleaner b.entries).1.ptrs rt.cleaner body ++ [e] := by
    rw [cleanBatch_entries, ← hlast, ← cleanedAs_append, ← hb]
  show processEntries env (cleanBatch env rt b.entries).1
    ((cleanBatch env rt b.entries).2 ++ [b.overrun]) = _
  rw [hclean, processEntries_append, processEntries_append]
  rfl

end Carmot.Texas
