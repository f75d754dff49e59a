/-
Runs that differ by repeated accesses.

Within one iteration of a state a second access to the same address
changes nothing in the maps, unless it is the first write
(`taken_absorbs`), and what it records is there already as long as the
address is still found in the same block and no free erased the record
since. So a run without such accesses, called thinned here, ends with
the same offsets under the same classes (`settled_thinned`).

The two runs need not agree in the ids: a stack that is not saved moves
the numbers of those saved later. Origins only have to be told apart
alike, which is what a `Pairing` says.
-/
import Carmot.Texas.Proofs.Frees
import Carmot.Texas.Proofs.Invocations
import Carmot.Texas.Proofs.Window

namespace Carmot.Texas

open Carmot.Lib (Rw)

-- =================================================== an access made twice

/-- The maps have taken an access of this kind to the address in the
open iteration. -/
def StatePtrs.Taken (m : StatePtrs) (rw : Rw) (p : Addr) : Prop :=
  match m.statePtrMap p with
  | some .input => rw = .read
  | some _ => m.currentPtrIterUpgrades p = true
  | none => ∃ c, m.statePtrIterMap p = some c ∧ (rw = .write → c ≠ .input)

section Taken

variable {m : StatePtrs} {rw : Rw} {p : Addr}

theorem upgrade_of_upgraded (h : m.currentPtrIterUpgrades p = true) : m.upgrade p = m := by
  have hsame : Function.update m.currentPtrIterUpgrades p true = m.currentPtrIterUpgrades := by
    rw [← h]
    exact Function.update_eq_self p _
  unfold StatePtrs.upgrade
  rw [hsame]

/-- Taken a second time, an access changes nothing. -/
theorem taken_absorbs (h : m.Taken rw p) : cleanAccess rw p m = m := by
  unfold StatePtrs.Taken at h
  unfold cleanAccess
  cases hm : m.statePtrMap p with
  | none =>
      rw [hm] at h
      obtain ⟨c, hi, hc⟩ := h
      simp only [hi]
      split
      next hboth => exact absurd hboth.1 (hc hboth.2)
      · rfl
  | some c =>
      rw [hm] at h
      cases c with
      | input =>
          have hread : rw = .read := h
          rw [hread]
      | _ =>
          have hup : m.currentPtrIterUpgrades p = true := h
          cases rw with
          | read => simp [StatePtrs.upgradeTo, hup, upgrade_of_upgraded hup]
          | write => simp [StatePtrs.upgradeTo, hup, upgrade_of_upgraded hup]

/-- Taken is read off the address's own entries. -/
theorem taken_congr {m' : StatePtrs} (hm : m'.statePtrMap p = m.statePtrMap p)
    (hi : m'.statePtrIterMap p = m.statePtrIterMap p)
    (hu : m'.currentPtrIterUpgrades p = m.currentPtrIterUpgrades p) :
    m'.Taken rw p ↔ m.Taken rw p := by
  unfold StatePtrs.Taken
  rw [hm, hi, hu]

/-- After an access the address is settled for the iteration or stays
as it is. -/
theorem taken_cleanAccess_self (m : StatePtrs) (rw : Rw) (p : Addr) :
    (cleanAccess rw p m).Taken rw p := by
  unfold cleanAccess StatePtrs.Taken
  cases hm : m.statePtrMap p with
  | none =>
      cases hi : m.statePtrIterMap p with
      | none => cases rw <;> simp [StatePtrs.assignIter, hm]
      | some c =>
          dsimp only
          by_cases hboth : c = .input ∧ rw = .write
          · simp [hboth, StatePtrs.assignIter, hm]
          · rw [if_neg hboth, hm]
            exact ⟨c, hi, fun hw hc => hboth ⟨hc, hw⟩⟩
  | some c =>
      cases hu : m.currentPtrIterUpgrades p <;> cases c <;> cases rw <;>
        simp [StatePtrs.upgradeTo, StatePtrs.assign, StatePtrs.upgrade, hm, hu]

/-- Where a write is taken so is a read. -/
theorem StatePtrs.Taken.of_write {rw₀ : Rw} (h : m.Taken rw₀ p) (hrw : rw = .write → rw₀ = .write) :
    m.Taken rw p := by
  unfold StatePtrs.Taken at h ⊢
  cases hm : m.statePtrMap p with
  | none =>
      rw [hm] at h
      obtain ⟨c, hi, hc⟩ := h
      exact ⟨c, hi, fun hw => hc (hrw hw)⟩
  | some c =>
      rw [hm] at h
      cases c with
      | input =>
          have hread : rw₀ = .read := h
          cases rw with
          | read => rfl
          | write => rw [hrw rfl] at hread; cases hread
      | _ => exact h

/-- What is taken stays taken under the accesses of the iteration. -/
theorem StatePtrs.Taken.access (h : m.Taken rw p) (rw' : Rw) (q : Addr) :
    (cleanAccess rw' q m).Taken rw p := by
  by_cases hq : p = q
  · subst hq
    unfold StatePtrs.Taken at h
    unfold cleanAccess StatePtrs.Taken
    cases hm : m.statePtrMap p with
    | none =>
        rw [hm] at h
        obtain ⟨c, hi, hc⟩ := h
        simp only [hi]
        by_cases hboth : c = .input ∧ rw' = .write
        · simp [hboth, StatePtrs.assignIter, hm]
        · rw [if_neg hboth, hm]
          exact ⟨c, hi, hc⟩
    | some c =>
        rw [hm] at h
        cases c with
        | input =>
            have hread : rw = .read := h
            cases rw' with
            | read => simp [hm, hread]
            | write => simp [StatePtrs.assign, StatePtrs.upgrade]
        | _ =>
            have hup : m.currentPtrIterUpgrades p = true := h
            cases rw' <;>
              simp [StatePtrs.upgradeTo, StatePtrs.upgrade, hm, hup]
  · obtain ⟨h₁, h₂, h₃⟩ := @cleanAccess_other rw' q p m hq
    exact (taken_congr h₁ h₂ h₃).mpr h

end Taken

-- ============================================================ the streams

/-- The cleaner after some writes, none of which commits. -/
def cleanerAfter (env : Env) (ws : List SlotWrite) : Cleaner :=
  (firstPass env texasInit.cleaner (ws.map SlotWrite.entry)).1

/-- A write, cleaned in a batch whose first pass ends with `ptrs`. -/
def cleanedWrite (env : Env) (ptrs : StateId → StatePtrs) (cl : Cleaner) (w : SlotWrite) :
    ShadowEntry := reassignEntry env.options ptrs (cleanEntry env cl w.entry).2

/-- The runtime after the cleaned writes. -/
def runAs (env : Env) (ptrs : StateId → StatePtrs) (ws : List SlotWrite) : Runtime :=
  processEntries env texasInit (cleanedAs env ptrs texasInit.cleaner (ws.map SlotWrite.entry))

/-- The runtime after the writes as they were pushed: its table is that
of every run of them. -/
def rawRun (env : Env) (ws : List SlotWrite) : Runtime :=
  processEntries env texasInit (ws.map SlotWrite.entry)

section Streams

variable (env : Env) (ptrs : StateId → StatePtrs) (ws : List SlotWrite) (w : SlotWrite)

theorem cleanerAfter_concat :
    cleanerAfter env (ws ++ [w]) = (cleanEntry env (cleanerAfter env ws) w.entry).1 := by
  unfold cleanerAfter
  rw [List.map_append, firstPass_append]
  rfl

theorem runAs_concat :
    runAs env ptrs (ws ++ [w])
      = processEntry env (runAs env ptrs ws) (cleanedWrite env ptrs (cleanerAfter env ws) w) := by
  unfold runAs
  rw [List.map_append, cleanedAs_append, processEntries_append]
  rfl

theorem rawRun_concat : rawRun env (ws ++ [w]) = processEntry env (rawRun env ws) w.entry := by
  unfold rawRun
  rw [List.map_append, processEntries_append]
  rfl

theorem batchState_cleanerAfter :
    (cleanerAfter env ws).batchState = innerAfter env.tree none ws := by
  induction ws using List.reverseRecOn with
  | nil => rfl
  | append_singleton ws w ih =>
      rw [cleanerAfter_concat, cleanEntry_batchState, ih, innerAfter_append]
      rfl

theorem tableInv_runAs : TableInv (runAs env ptrs ws) := tableInv_run env _ tableInv_init

theorem tableInv_rawRun : TableInv (rawRun env ws) := tableInv_run env _ tableInv_init

/-- The table does not depend on the cleaning, which keeps adds and
frees as they are. -/
theorem sameTable_rawRun : SameTable (rawRun env ws) (runAs env ptrs ws) := by
  induction ws using List.reverseRecOn with
  | nil => exact SameTable.refl _
  | append_singleton ws w ih =>
      rw [rawRun_concat, runAs_concat]
      have hkeep : KeepsTable w.entry (cleanedWrite env ptrs (cleanerAfter env ws) w) :=
        keepsTable_cleaned env ptrs _ w.entry
      have hsame := @SameTable.processEntry env _ _ w.entry ih (tableInv_rawRun env ws)
        (tableInv_runAs env ptrs ws)
      by_cases hadd : w.entry.operation = .allocAdd
      · rw [hkeep.eq_of_operation untouched_allocAdd hadd]
        exact hsame
      · by_cases hfree : w.entry.operation = .allocFree
        · rw [hkeep.eq_of_operation untouched_allocFree hfree]
          exact hsame
        · have hadd' := mt (hkeep.operation_iff untouched_allocAdd).mp hadd
          have hfree' := mt (hkeep.operation_iff untouched_allocFree).mp hfree
          exact ((sameTable_processEntry env _ hadd hfree).symm.trans ih).trans
            (sameTable_processEntry env _ hadd' hfree')

end Streams

-- =============================================================== repeated

/-- Where the address is found in a block at the end of `since`, it was
found there before, the block has kept its start, and no free took the
records of the state or of an enclosing one on it away. -/
def Undisturbed (env : Env) (s : StateId) (p : Addr) (before since : List SlotWrite) : Prop :=
  ∀ a, (rawRun env (before ++ since)).find p = some a →
    (rawRun env before).find p = some a
      ∧ ((rawRun env (before ++ since)).allocs a).pointer = ((rawRun env before).allocs a).pointer
      ∧ ∀ mid f rest, since = mid ++ f :: rest → ∀ r ∈ env.tree.chain s,
        ¬ Erases env (rawRun env (before ++ mid)) f.entry a r

/-- An access to the address, a write if this one is, was pushed in the
open iteration of the state that is active now, and nothing disturbed
it since. -/
def Repeats (env : Env) (ws : List SlotWrite) (rw : Rw) (p : Addr) : Prop :=
  ∃ before rw₀ id since s, ws = before ++ .access rw₀ p id :: since ∧ (rw = .write → rw₀ = .write)
    ∧ innerAfter env.tree none before = some s ∧ innerAfter env.tree none ws = some s
    ∧ (∀ w ∈ since, w ≠ .stateBegin s ∧ w ≠ .stateEnd s)
    ∧ Undisturbed env s p before (.access rw₀ p id :: since)

section Repeats

variable {env : Env} {cl : Cleaner} {w : SlotWrite} {s : StateId}

/-- Within an iteration the state's maps change by accesses only. -/
theorem ptrs_cleanEntry (hbegin : w ≠ .stateBegin s) (hend : w ≠ .stateEnd s) :
    (cleanEntry env cl w.entry).1.ptrs s = cl.ptrs s
      ∨ ∃ rw q, (cleanEntry env cl w.entry).1.ptrs s = cleanAccess rw q (cl.ptrs s) := by
  cases w with
  | access rw q id =>
      cases hb : cl.batchState with
      | none =>
          refine Or.inl ?_
          unfold cleanEntry SlotWrite.entry
          simp only [access_fill, hb]
      | some t =>
          unfold SlotWrite.entry
          rw [cleanEntry_access (access_fill rw q id .redundant) hb]
          by_cases hst : s = t
          · subst hst
            exact Or.inr ⟨rw, q, onState_ptrs_self ..⟩
          · exact Or.inl (onState_ptrs_of_ne cl hst _)
  | stateBegin t =>
      have hst : s ≠ t := fun h => hbegin (by rw [h])
      rw [cleanEntry_begin rfl rfl]
      exact Or.inl (onState_ptrs_of_ne cl hst _)
  | stateEnd t =>
      have hst : s ≠ t := fun h => hend (by rw [h])
      rw [cleanEntry_end rfl rfl]
      exact Or.inl (onState_ptrs_of_ne cl hst _)
  | _ => exact Or.inl rfl

/-- An access of the open iteration has been taken. -/
theorem taken_of_repeats {ws : List SlotWrite} {rw : Rw} {p : Addr} {before since : List SlotWrite}
    {id : UInt64} (hws : ws = before ++ .access rw p id :: since)
    (hinner : innerAfter env.tree none before = some s)
    (hsame : ∀ w ∈ since, w ≠ .stateBegin s ∧ w ≠ .stateEnd s) :
    ((cleanerAfter env ws).ptrs s).Taken rw p := by
  subst hws
  induction since using List.reverseRecOn with
  | nil =>
      have hb : (cleanerAfter env before).batchState = some s := by
        rw [batchState_cleanerAfter, hinner]
      rw [cleanerAfter_concat]
      unfold SlotWrite.entry
      rw [cleanEntry_access (access_fill rw p id .redundant) hb]
      show (((cleanerAfter env before).onState s (cleanAccess rw p)).ptrs s).Taken rw p
      rw [onState_ptrs_self]
      exact taken_cleanAccess_self _ rw p
  | append_singleton since w ih =>
      have hrest := ih fun w' hw' => hsame w' (List.mem_append_left _ hw')
      obtain ⟨hbegin, hend⟩ := hsame w (by simp)
      rw [show before ++ .access rw p id :: (since ++ [w])
        = (before ++ .access rw p id :: since) ++ [w] by simp, cleanerAfter_concat]
      rcases @ptrs_cleanEntry env (cleanerAfter env (before ++ .access rw p id :: since)) w s
        hbegin hend with h | ⟨rw', q, h⟩
      · rw [h]
        exact hrest
      · rw [h]
        exact hrest.access rw' q

end Repeats

-- ================================================================ thinned

/-- One write in both runs; the ids may differ. -/
inductive SameWrite (R : UInt64 → UInt64 → Prop) : SlotWrite → SlotWrite → Prop
  | add (address : Addr) (length : UInt64) {o o' : UInt64} (state : Option StateId) (h : R o o') :
      SameWrite R (.allocAdd address length o state) (.allocAdd address length o' state)
  | free (address : Addr) (state : Option StateId) :
      SameWrite R (.allocFree address state) (.allocFree address state)
  | access (rw : Rw) (p : Addr) (id id' : UInt64) : SameWrite R (.access rw p id) (.access rw p id')
  | enter (s : StateId) : SameWrite R (.stateBegin s) (.stateBegin s)
  | leave (s : StateId) : SameWrite R (.stateEnd s) (.stateEnd s)

/-- The second run is the first without accesses that repeat what it
has. -/
inductive Thinned (env : Env) (R : UInt64 → UInt64 → Prop) :
    List SlotWrite → List SlotWrite → Prop
  | nil : Thinned env R [] []
  | keep {ws ws' : List SlotWrite} {w w' : SlotWrite} (h : Thinned env R ws ws')
      (hw : SameWrite R w w') : Thinned env R (ws ++ [w]) (ws' ++ [w'])
  | drop {ws ws' : List SlotWrite} {rw : Rw} {p : Addr} (id : UInt64) (h : Thinned env R ws ws')
      (hrep : Repeats env ws' rw p) : Thinned env R (ws ++ [.access rw p id]) ws'

section Thinned

variable {env : Env} {R : UInt64 → UInt64 → Prop} {ws ws' : List SlotWrite}

theorem Thinned.mono {R' : UInt64 → UInt64 → Prop} (hR : ∀ o o', R o o' → R' o o')
    (h : Thinned env R ws ws') : Thinned env R' ws ws' := by
  induction h with
  | nil => exact .nil
  | keep _ hw ih =>
      apply ih.keep
      cases hw with
      | add address length state h => exact .add address length state (hR _ _ h)
      | free address state => exact .free address state
      | access rw p id id' => exact .access rw p id id'
      | enter s => exact .enter s
      | leave s => exact .leave s
  | drop id _ hrep ih => exact ih.drop id hrep

/-- Several writes of both runs. -/
theorem Thinned.keeps (h : Thinned env R ws ws') {vs vs' : List SlotWrite}
    (hvs : List.Forall₂ (SameWrite R) vs vs') : Thinned env R (ws ++ vs) (ws' ++ vs') := by
  induction hvs generalizing ws ws' with
  | nil =>
      rw [List.append_nil, List.append_nil]
      exact h
  | cons hv _ ih =>
      rw [List.append_cons ws, List.append_cons ws']
      exact ih (h.keep hv)

/-- Several accesses of the first run only. -/
theorem Thinned.drops (h : Thinned env R ws ws') {rw : Rw} (id : UInt64) (ps : List Addr)
    (hrep : ∀ p ∈ ps, Repeats env ws' rw p) :
    Thinned env R (ws ++ ps.map fun p => .access rw p id) ws' := by
  induction ps generalizing ws with
  | nil =>
      rw [List.map_nil, List.append_nil]
      exact h
  | cons p ps ih =>
      rw [List.map_cons, List.append_cons]
      exact ih (h.drop id (hrep p (List.mem_cons_self ..))) fun q hq =>
        hrep q (List.mem_cons_of_mem _ hq)

/-- Neither run commits. -/
theorem Thinned.no_commit (h : Thinned env R ws ws') :
    (∀ w ∈ ws, w.commits? = none) ∧ ∀ w ∈ ws', w.commits? = none := by
  have hconcat : ∀ {vs : List SlotWrite} {v : SlotWrite}, (∀ w ∈ vs, w.commits? = none) →
      v.commits? = none → ∀ w ∈ vs ++ [v], w.commits? = none := by
    intro vs v hvs hv w hw
    rcases List.mem_append.mp hw with hw | hw
    · exact hvs w hw
    · rw [List.mem_singleton.mp hw]
      exact hv
  induction h with
  | nil => exact ⟨fun w hw => absurd hw List.not_mem_nil, fun w hw => absurd hw List.not_mem_nil⟩
  | keep _ hw ih =>
      refine ⟨hconcat ih.1 ?_, hconcat ih.2 ?_⟩
      · cases hw <;> rfl
      · cases hw <;> rfl
  | drop id _ _ ih => exact ⟨hconcat ih.1 rfl, ih.2⟩

/-- The ids are not cleaned by. -/
theorem SameWrite.cleaner {w w' : SlotWrite} (h : SameWrite R w w') (cl : Cleaner) :
    (cleanEntry env cl w.entry).1 = (cleanEntry env cl w'.entry).1 := by
  cases h with
  | access rw p id id' =>
      cases hb : cl.batchState with
      | none =>
          unfold cleanEntry SlotWrite.entry
          simp only [access_fill, hb]
      | some s =>
          unfold SlotWrite.entry
          rw [cleanEntry_access (access_fill rw p id .redundant) hb,
            cleanEntry_access (access_fill rw p id' .redundant) hb]
          rfl
  | _ => rfl

/-- Both runs take the maps through the same states. -/
theorem Thinned.cleaner (h : Thinned env R ws ws') : cleanerAfter env ws = cleanerAfter env ws' := by
  induction h with
  | nil => rfl
  | keep _ hw ih => rw [cleanerAfter_concat, cleanerAfter_concat, ih, hw.cleaner]
  | @drop ws ws' rw p id _ hrep ih =>
      obtain ⟨before, rw₀, id₀, since, s, hws, hrw, hinner, hnow, hsame, -⟩ := hrep
      have hb : (cleanerAfter env ws').batchState = some s := by
        rw [batchState_cleanerAfter, hnow]
      have htaken := (taken_of_repeats hws hinner hsame).of_write hrw
      rw [cleanerAfter_concat, ih]
      unfold SlotWrite.entry
      rw [cleanEntry_access (access_fill rw p id .redundant) hb]
      show (cleanerAfter env ws').onState s (cleanAccess rw p) = cleanerAfter env ws'
      unfold Cleaner.onState
      rw [taken_absorbs htaken, Function.update_eq_self]

end Thinned

-- ========================================================= the simulation

/-- Entries that differ in the id at most. -/
def SameEntry (R : UInt64 → UInt64 → Prop) (e e' : ShadowEntry) : Prop :=
  ∃ id, e' = { e with information := id } ∧ (e.operation = .allocAdd → R e.information id)

/-- The offset an entry records does not depend on its id. -/
theorem records_information {env : Env} (rt : Runtime) (e : ShadowEntry) (id : UInt64) (a : AllocId)
    (s : StateId) (c : StateClass) (off : UInt64) :
    Records env rt { e with information := id } a s (.offset c off) ↔
      Records env rt e a s (.offset c off) := by
  unfold Records AccessItem RegionItem
  simp

/-- A run and its thinned version: the same shape, the same offsets
committed, and what is pending in the first is settled in the second. -/
structure ThinSim (R : UInt64 → UInt64 → Prop) (rt rt' : Runtime) : Prop where
  inv : TableInv rt
  inv' : TableInv rt'
  shape : SameShape rt rt'
  origins : ∀ o o', R o o' → rt'.originToAllocMap o' = rt.originToAllocMap o
  committed : ∀ a s c off, Committed rt a s (.offset c off) ↔ Committed rt' a s (.offset c off)
  pending : ∀ a s c off, Pending rt' a s (.offset c off) → Pending rt a s (.offset c off)
  settled : ∀ a s c off, Pending rt a s (.offset c off) → Settled rt' a s (.offset c off)

section ThinSim

variable {env : Env} {R : UInt64 → UInt64 → Prop} {rt rt' : Runtime} {e e' : ShadowEntry}

theorem thinSim_init : ThinSim R texasInit texasInit where
  inv := tableInv_init
  inv' := tableInv_init
  shape := SameTable.refl _
  origins _ _ _ := rfl
  committed _ _ _ _ := Iff.rfl
  pending _ _ _ _ := id
  settled _ _ _ _ := Or.inr

/-- An entry of both runs. -/
theorem ThinSim.keep (h : ThinSim R rt rt') (hR : Pairing R) (he : SameEntry R e e') :
    ThinSim R (processEntry env rt e) (processEntry env rt' e') := by
  obtain ⟨id, rfl, hadd⟩ := he
  have h₁ := processEntry_spec env e h.inv
  have h₂ := processEntry_spec env { e with information := id } h.inv'
  have hrec : ∀ a s c off, Records env rt' { e with information := id } a s (.offset c off) ↔
      Records env rt e a s (.offset c off) := by
    intro a s c off
    rw [records_information, h.shape.records]
  have hcom : ∀ a, Commits rt' { e with information := id } a ↔ Commits rt e a :=
    fun a => h.shape.commits e a
  have hera : ∀ a s, Erases env rt' { e with information := id } a s ↔ Erases env rt e a s :=
    fun a s => h.shape.erases e a s
  refine ⟨h₁.inv, h₂.inv, h.shape.processEntry h.inv h.inv' fun hop => h.origins _ _ (hadd hop),
    ?_, ?_, ?_, ?_⟩
  · exact fun o o' ho => h.shape.origins hR h.inv h.inv' h.origins hadd ho
  · intro a s c off
    rw [h₁.committed, h₂.committed, hcom, hera, h.committed]
    have hp := h.pending a s c off
    have hs := h.settled a s c off
    unfold Settled at hs
    tauto
  · intro a s c off
    rw [h₁.pending, h₂.pending, hcom, hrec]
    have hp := h.pending a s c off
    tauto
  · intro a s c off
    unfold Settled
    rw [h₁.pending, h₂.pending, h₂.committed, hcom, hrec, hera]
    have hs := h.settled a s c off
    unfold Settled at hs
    tauto

/-- An entry of the first run only that leaves the table alone. -/
theorem ThinSim.drop (h : ThinSim R rt rt') (hadd : e.operation ≠ .allocAdd)
    (hfree : e.operation ≠ .allocFree) (hcommit : e.operation ≠ .stateCommit)
    (hsettled : ∀ a s c off, Records env rt e a s (.offset c off) →
      Settled rt' a s (.offset c off)) : ThinSim R (processEntry env rt e) rt' := by
  have h₁ := processEntry_spec env e h.inv
  have hnocom : ∀ a, ¬ Commits rt e a := not_commits hfree hcommit
  have hsame := sameTable_processEntry env rt hadd hfree
  refine ⟨h₁.inv, h.inv', h.shape.of_sameTable hsame (SameTable.refl rt'), ?_, ?_, ?_, ?_⟩
  · intro o o' ho
    rw [hsame.origins]
    exact h.origins o o' ho
  · intro a s c off
    rw [h₁.committed]
    simp only [hnocom, false_and, and_false, or_false]
    exact h.committed a s c off
  · intro a s c off hp
    rw [h₁.pending]
    exact Or.inl ⟨h.pending a s c off hp, hnocom a⟩
  · intro a s c off hp
    rw [h₁.pending] at hp
    rcases hp with hp | hp
    · exact h.settled a s c off hp.1
    · exact hsettled a s c off hp

end ThinSim

-- ============================================================== whole runs

section Runs

variable {env : Env} {ptrs : StateId → StatePtrs} {R : UInt64 → UInt64 → Prop}

/-- What is settled stays so until a free erases it, and the frees of a
run are those of the writes as they were pushed. -/
theorem settled_persists {a : AllocId} {r : StateId} {x : Item} (ws since : List SlotWrite)
    (hset : Settled (runAs env ptrs ws) a r x)
    (hkept : ∀ mid f rest, since = mid ++ f :: rest →
      ¬ Erases env (rawRun env (ws ++ mid)) f.entry a r) :
    Settled (runAs env ptrs (ws ++ since)) a r x := by
  induction since using List.reverseRecOn with
  | nil =>
      rw [List.append_nil]
      exact hset
  | append_singleton since w ih =>
      have hbefore := ih fun mid f rest heq => hkept mid f (rest ++ [w]) (by rw [heq]; simp)
      have hnot : ¬ Erases env (runAs env ptrs (ws ++ since))
          (cleanedWrite env ptrs (cleanerAfter env (ws ++ since)) w) a r := by
        intro herase
        have hkeep : KeepsTable w.entry (cleanedWrite env ptrs (cleanerAfter env (ws ++ since)) w) :=
          keepsTable_cleaned env ptrs _ w.entry
        have hfree := (hkeep.operation_iff untouched_allocFree).mp herase.1
        rw [hkeep.eq_of_operation untouched_allocFree hfree,
          (sameTable_rawRun env ptrs (ws ++ since)).erases] at herase
        exact hkept since w [] rfl herase
      rw [← List.append_assoc, runAs_concat, settled_processEntry (tableInv_runAs env ptrs _)]
      rcases hbefore with hcom | hpend
      · exact Or.inl hcom
      · exact Or.inr (Or.inl ⟨hpend, hnot⟩)

theorem isAccess_entry (rw : Rw) (p : Addr) (id : UInt64) :
    (SlotWrite.access rw p id).entry.operation.isAccess = true :=
  isAccess_of_access (access_fill rw p id .redundant)

/-- A cleaned access is still none of the operations cleaning does not
touch. -/
theorem cleanedWrite_ne {op : Operation} (hop : Untouched op) (cl : Cleaner) (rw : Rw) (p : Addr)
    (id : UInt64) : (cleanedWrite env ptrs cl (.access rw p id)).operation ≠ op := by
  have hkeep : KeepsTable (SlotWrite.access rw p id).entry
      (cleanedWrite env ptrs cl (.access rw p id)) := keepsTable_cleaned env ptrs cl _
  rw [ne_eq, hkeep.operation_iff hop]
  intro heq
  have hacc := isAccess_entry rw p id
  rw [heq, hop.not_access] at hacc
  cases hacc

/-- What a repeated access would record is settled. -/
theorem settled_of_repeats {ws before since : List SlotWrite} {rw rw₀ : Rw} {p : Addr}
    {id id₀ : UInt64} {s : StateId} (hws : before ++ .access rw₀ p id₀ :: since = ws)
    (hinner : innerAfter env.tree none before = some s)
    (hnow : innerAfter env.tree none ws = some s)
    (hund : Undisturbed env s p before (.access rw₀ p id₀ :: since))
    {a : AllocId} {r : StateId} {c : StateClass} {off : UInt64}
    (hrec : Records env (runAs env ptrs ws)
      (cleanedWrite env ptrs (cleanerAfter env ws) (.access rw p id)) a r (.offset c off)) :
    Settled (runAs env ptrs ws) a r (.offset c off) := by
  have hold := sameTable_rawRun env ptrs before
  have hnew := sameTable_rawRun env ptrs ws
  unfold Undisturbed at hund
  rw [hws] at hund
  unfold cleanedWrite at hrec
  rw [records_access_iff (isAccess_entry rw p id) (by rw [batchState_cleanerAfter, hnow])] at hrec
  obtain ⟨hfound, hchain, hclass, htracks, hoff⟩ := hrec
  -- the first access found the block where the second does
  obtain ⟨hfound₀, hptr, hkept⟩ := hund a (by rw [← hnew.find]; exact hfound)
  have hfirst : Records env (runAs env ptrs before)
      (cleanedWrite env ptrs (cleanerAfter env before) (.access rw₀ p id₀)) a r (.offset c off) := by
    unfold cleanedWrite
    rw [records_access_iff (isAccess_entry rw₀ p id₀) (by rw [batchState_cleanerAfter, hinner])]
    refine ⟨?_, hchain, hclass, htracks, ?_⟩
    · rw [hold.find]
      exact hfound₀
    · rw [hoff, hold.pointer, hnew.pointer, hptr]
      rfl
  have hset : Settled (runAs env ptrs (before ++ [.access rw₀ p id₀])) a r (.offset c off) := by
    rw [runAs_concat, settled_processEntry (tableInv_runAs env ptrs before)]
    exact Or.inr (Or.inr hfirst)
  rw [← hws, List.append_cons]
  apply settled_persists _ since hset
  intro mid f rest heq
  rw [List.append_assoc]
  exact hkept (.access rw₀ p id₀ :: mid) f rest (by rw [heq]; rfl) r hchain

/-- Cleaning does not look at the id. -/
theorem cleaned_information (cl : Cleaner) (e : ShadowEntry) (id : UInt64) :
    reassignEntry env.options ptrs (cleanEntry env cl { e with information := id }).2
      = { reassignEntry env.options ptrs (cleanEntry env cl e).2 with information := id } := by
  have hclean : (cleanEntry env cl { e with information := id }).2
      = { (cleanEntry env cl e).2 with information := id } := by
    unfold cleanEntry
    dsimp only
    repeat' split
    all_goals rfl
  rw [hclean]
  generalize (cleanEntry env cl e).2 = e'
  unfold reassignEntry dropAccess
  dsimp only
  repeat' split
  all_goals rfl

/-- A write of both runs is cleaned to the same entry, its id apart. -/
theorem SameWrite.cleaned {w w' : SlotWrite} (h : SameWrite R w w') {cl : Cleaner} :
    SameEntry R (cleanedWrite env ptrs cl w) (cleanedWrite env ptrs cl w') := by
  cases h with
  | add address length state h => exact ⟨_, rfl, fun _ => h⟩
  | access rw p id id' =>
      refine ⟨id', cleaned_information cl (SlotWrite.access rw p id).entry id', fun hop => ?_⟩
      exact absurd hop (cleanedWrite_ne untouched_allocAdd cl rw p id)
  | free address state => exact ⟨_, rfl, fun h => by cases h⟩
  | enter s => exact ⟨_, rfl, fun h => by cases h⟩
  | leave s => exact ⟨_, rfl, fun h => by cases h⟩

/-- The runs agree in the offsets at every point. -/
theorem thinSim_run {ws ws' : List SlotWrite} (h : Thinned env R ws ws') (hR : Pairing R) :
    ThinSim R (runAs env ptrs ws) (runAs env ptrs ws') := by
  induction h with
  | nil => exact thinSim_init
  | @keep ws ws' w w' hthin hw ih =>
      rw [runAs_concat, runAs_concat, hthin.cleaner]
      exact ih.keep hR hw.cleaned
  | @drop ws ws' rw p id hthin hrep ih =>
      obtain ⟨before, rw₀, id₀, since, s, hws, -, hinner, hnow, -, hund⟩ := hrep
      rw [runAs_concat, hthin.cleaner]
      apply ih.drop
      · exact cleanedWrite_ne untouched_allocAdd _ rw p id
      · exact cleanedWrite_ne untouched_allocFree _ rw p id
      · exact cleanedWrite_ne untouched_stateCommit _ rw p id
      · intro a r c off hrec
        rw [← ih.shape.records] at hrec
        exact settled_of_repeats hws.symm hinner hnow hund hrec

/-- Without its repeated accesses a run settles the same offsets. -/
theorem settled_thinned {ws ws' : List SlotWrite} (h : Thinned env R ws ws') (hR : Pairing R)
    (a : AllocId) (s : StateId) (c : StateClass) (off : UInt64) :
    Settled (runAs env ptrs ws) a s (.offset c off) ↔
      Settled (runAs env ptrs ws') a s (.offset c off) := by
  have hsim : ThinSim R (runAs env ptrs ws) (runAs env ptrs ws') := thinSim_run h hR
  constructor
  · intro hset
    rcases hset with hcom | hpend
    · exact Or.inl ((hsim.committed a s c off).mp hcom)
    · exact hsim.settled a s c off hpend
  · intro hset
    rcases hset with hcom | hpend
    · exact Or.inl ((hsim.committed a s c off).mpr hcom)
    · exact Or.inr (hsim.pending a s c off hpend)

end Runs

-- =============================================================== programs

/-- Every access has, when its batch ends, the class it has when the run
does. -/
def Program.ClassesLast (pr : Program) (window : Nat) : Prop :=
  ∀ i rw p id s, (writesOf pr.events)[i]? = some (.access rw p id) → pr.activeAt i = some s →
    pr.classAfter (pr.batchEnd window i) s p = pr.classAfter (writesOf pr.events).length s p

section Programs

variable {pr : Program}

/-- In one batch they are the same. -/
theorem Program.classesLast_of_one_batch {window : Nat}
    (h : divide window [] pr.events = [writesOf pr.events]) : pr.ClassesLast window := by
  intro i rw p id s hw _
  obtain ⟨hi, -⟩ := List.getElem?_eq_some_iff.mp hw
  have hend : pr.batchEnd window i = (writesOf pr.events).length := by
    unfold Program.batchEnd
    rw [h]
    exact if_pos hi
  rw [hend]

/-- Where nothing commits, the sweep's maps are those of the first
pass. -/
theorem Sweep.cleaner_of_no_commit {env : Env} {ws : List SlotWrite}
    (hno : ∀ w ∈ ws, w.commits? = none) :
    (Sweep.init.over env ws).cleaner = cleanerAfter env ws := by
  have hsettle : (Sweep.init.over env ws).settle = cleanerAfter env ws :=
    Sweep.settle_over ws Sweep.init hno
  have hcommitted : (Sweep.init.over env ws).committed = none := by
    cases ws using List.reverseRecOn with
    | nil => rfl
    | append_singleton ws w =>
        rw [Sweep.over_append]
        exact hno w (by simp)
  rw [← hsettle]
  unfold Sweep.settle
  rw [hcommitted]

/-- Then the run ends where the writes do, cleaned as one batch. -/
theorem forget_run_last {su : Setup} (hW : 1 ≤ su.window)
    (hfin : (su.run pr).Finished (su.config pr)) (hpast : (su.run pr).InertPast)
    (hno : ∀ w ∈ writesOf pr.events, w.commits? = none) (hclass : pr.ClassesLast su.window) :
    (su.run pr).rt.forget
      = runAs pr.env (cleanerAfter pr.env (writesOf pr.events)).ptrs (writesOf pr.events) := by
  rw [forget_run hW hfin hpast]
  unfold runAs
  congr 1
  apply List.ext_getElem?
  intro i
  rw [getElem?_cleanedAs, List.getElem?_map]
  cases hw : (writesOf pr.events)[i]? with
  | none =>
      rw [List.getElem?_eq_none_iff] at hw
      show _ = none
      rw [List.getElem?_eq_none_iff, length_idealStream, pr.flatten_divide]
      exact hw
  | some w =>
      have hideal := @getElem?_idealStream pr.env (divide su.window [] pr.events) Sweep.init
        (pr.commit_last su.window) i w (by rw [pr.flatten_divide]; exact hw)
      have hbefore : (Sweep.init.over pr.env ((writesOf pr.events).take i)).settle
          = cleanerAfter pr.env ((writesOf pr.events).take i) :=
        Sweep.settle_over _ Sweep.init fun w hw => hno w (List.mem_of_mem_take hw)
      rw [pr.flatten_divide, hbefore] at hideal
      rw [hideal, ← List.map_take]
      refine congrArg some (cleaned_congr ?_)
      intro rw p id hacc
      subst hacc
      obtain ⟨s, hs⟩ := pr.insideRoi.active hw rfl
      refine ⟨s, (batchState_cleanerAfter pr.env _).trans hs, ?_⟩
      have hlast := hclass i rw p id s hw hs
      unfold Program.classAfter at hlast
      rw [List.take_length, Sweep.cleaner_of_no_commit hno] at hlast
      exact hlast

/-- What is Final after the report of such a run. -/
theorem final_run_last {su : Setup} (hW : 1 ≤ su.window)
    (hfin : (su.run pr).Finished (su.config pr)) (hpast : (su.run pr).InertPast)
    (hno : ∀ w ∈ writesOf pr.events, w.commits? = none) (hclass : pr.ClassesLast su.window)
    {s : StateId} (hs : s ∈ pr.stateMap.ids) (a : AllocId) (x : Item) :
    Final (su.report pr) a s x ↔
      Settled (runAs pr.env (cleanerAfter pr.env (writesOf pr.events)).ptrs (writesOf pr.events))
        a s x := by
  unfold Setup.report
  rw [← final_reportStatistics_forget, forget_run_last hW hfin hpast hno hclass,
    final_reportStatistics (tableInv_runAs ..) hs]

end Programs

end Carmot.Texas
