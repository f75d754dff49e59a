/-
From the calls of a program to the sets that are printed.

Everything between is in one statement: the producer's slots, the window
that cuts them into batches, the two threads with their recycled
buffers, the cleaning of each batch, the state machine, the allocation
table, the copies to the enclosing ROIs, and the report. The batches a
run really processes hold stale fields; what they do is what the plain
batches of the same division do (`final_report`), so the account of the
Final sets by batches carries over to every window, both modes, any
contents of the buffers and any interleaving (`final_of_program`).
-/
import Carmot.Texas.Proofs.Classified
import Carmot.Texas.Proofs.Window

namespace Carmot.Texas

-- ============================================================ plain batches

/-- The entries of some writes over empty slots. -/
def plain (ws : List SlotWrite) : List ShadowEntry := ws.map SlotWrite.entry

/-- The batches of a division, over empty slots and with nothing past
their ends. -/
def plainBatches (ds : List (List SlotWrite)) : List Batch :=
  ds.map fun ws => ⟨plain ws, .redundant⟩

theorem rawEntries_plainBatches (ds : List (List SlotWrite)) :
    rawEntries (plainBatches ds) = plain ds.flatten := by
  unfold rawEntries plainBatches plain
  rw [List.flatMap_map, List.map_flatten, ← List.flatMap_def]

/-- The entries up to the end of a batch. -/
theorem rawEntries_upTo (done : List (List SlotWrite)) (ws : List SlotWrite) :
    rawEntries (plainBatches done ++ [⟨plain ws, .redundant⟩]) = plain (done ++ [ws]).flatten := by
  rw [← rawEntries_plainBatches]
  unfold plainBatches
  rw [List.map_append]
  rfl

theorem loaded_plain (ws : List SlotWrite) : Loaded ws (plain ws) := by
  induction ws with
  | nil => exact List.Forall₂.nil
  | cons w ws ih => exact List.Forall₂.cons ⟨_, rfl⟩ ih

theorem loaded_plainBatches (ds : List (List SlotWrite)) :
    List.Forall₂ (fun ws b => Loaded ws b.entries) ds (plainBatches ds) := by
  induction ds with
  | nil => exact List.Forall₂.nil
  | cons ws ds ih => exact List.Forall₂.cons (loaded_plain ws) ih

theorem overrun_plainBatches {ds : List (List SlotWrite)} {b : Batch} (hb : b ∈ plainBatches ds) :
    b.overrun.operation = .redundant := by
  obtain ⟨ws, -, rfl⟩ := List.mem_map.mp hb
  rfl

/-- Where the plain batches are cut. -/
theorem plainBatches_eq_append {ds : List (List SlotWrite)} {bs₁ bs₂ : List Batch} {b : Batch} :
    plainBatches ds = bs₁ ++ b :: bs₂ ↔
      ∃ done ws rest, ds = done ++ ws :: rest ∧ bs₁ = plainBatches done
        ∧ b = ⟨plain ws, .redundant⟩ ∧ bs₂ = plainBatches rest := by
  constructor
  · intro h
    obtain ⟨done, tail, rfl, hdone, htail⟩ := List.map_eq_append_iff.mp h
    obtain ⟨ws, rest, rfl, hb, hrest⟩ := List.map_eq_cons_iff.mp htail
    exact ⟨done, ws, rest, rfl, hdone.symm, hb.symm, hrest.symm⟩
  · intro h
    obtain ⟨done, ws, rest, rfl, rfl, rfl, rfl⟩ := h
    unfold plainBatches
    rw [List.map_append]
    rfl

-- ================================================================ programs

namespace Program

variable (pr : Program)

/-- What the calls push, slot by slot. -/
def trace : List ShadowEntry := plain (writesOf pr.events)

/-- No ROI is open when a batch ends. -/
def ClosedBetween (window : Nat) : Prop :=
  ∀ done, done <+: divide window [] pr.events → stackAfter [] (plain done.flatten) = []

theorem rawEntries_divide (window : Nat) :
    rawEntries (plainBatches (divide window [] pr.events)) = pr.trace := by
  rw [rawEntries_plainBatches, pr.flatten_divide]
  rfl

/-- The plain batches of a closed division are closed. -/
theorem closedBatches {window : Nat} (hnest : Nested pr.env.tree [] pr.trace)
    (hclosed : pr.ClosedBetween window)
    (hcommit : ∀ e ∈ pr.trace, e.operation ≠ .stateCommit) :
    ClosedBatches pr.env (plainBatches (divide window [] pr.events)) where
  nested := by
    rw [pr.rawEntries_divide]
    exact hnest
  closed := by
    intro pre hpre
    obtain ⟨rest, hrest⟩ := hpre
    obtain ⟨done, tail, hds, hdone, -⟩ := List.map_eq_append_iff.mp hrest.symm
    have hpre' : pre = plainBatches done := hdone.symm
    rw [hpre', rawEntries_plainBatches]
    exact hclosed done ⟨tail, hds.symm⟩
  overrun b hb := overrun_plainBatches hb
  no_commit := by
    intro bs₁ b bs₂ hbs e he
    apply hcommit e
    rw [← pr.rawEntries_divide window, hbs, rawEntries_append]
    exact List.mem_append_left _ he

end Program

section Runs

variable {su : Setup} {pr : Program}

/-- A run that finishes over inert slots ends, for all a report reads,
where the plain batches of its division do. -/
theorem forget_run_plain (hW : 1 ≤ su.window) (hfin : (su.run pr).Finished (su.config pr))
    (hpast : (su.run pr).InertPast) :
    (su.run pr).rt.forget
      = (runBatches pr.env texasInit (plainBatches (divide su.window [] pr.events))).forget := by
  have hin : InsideRoi pr.stateMap.tree none (divide su.window [] pr.events).flatten := by
    rw [pr.flatten_divide]
    exact pr.insideRoi
  have hinert : ∀ b ∈ plainBatches (divide su.window [] pr.events),
      b.overrun.operation.inert = true := by
    intro b hb
    rw [overrun_plainBatches hb]
    rfl
  rw [forget_run hW hfin hpast, runBatches_forget, forget_init]
  exact (executed_ideal (loaded_plainBatches _) rfl hinert (pr.commit_last su.window) hin _).symm

/-- So it prints the same sets. -/
theorem final_report (hW : 1 ≤ su.window) (hfin : (su.run pr).Finished (su.config pr))
    (hpast : (su.run pr).InertPast) (a : AllocId) (s : StateId) (x : Item) :
    Final (su.report pr) a s x ↔
      Final (reportStatistics pr.env pr.stateMap.ids
        (runBatches pr.env texasInit (plainBatches (divide su.window [] pr.events)))) a s x := by
  unfold Setup.report
  rw [← final_reportStatistics_forget, forget_run_plain hW hfin hpast,
    final_reportStatistics_forget]
  exact Iff.rfl

end Runs

end Carmot.Texas
