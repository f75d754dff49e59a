/-
The track options only choose what is shown.

`prologue` turns the tracking of transfer, cloneable, input and output
state on or off. The first pass of the cleaning does not look: the maps,
and with them every class, are the same. Only the second pass drops the
accesses whose class nobody asked for, and what is dropped leaves no
trace in the table. So three runs over the same batches stay together
(`TrackSim`): one that tracks nothing, one with the options at hand, one
that tracks everything. The sets of the middle one are those of the
first, which the regions of direct state filled, and of the sets of the
last the classes asked for (`final_tracking`).
-/
import Carmot.Texas.Proofs.Congruence
import Carmot.Texas.Proofs.FinalSets
import Carmot.Texas.Proofs.Cleaned

namespace Carmot.Texas

-- ================================================================ options

/-- The four track options. -/
structure Tracked where
  trackTransfer : Bool
  trackCloneable : Bool
  trackInput : Bool
  trackOutput : Bool
  deriving DecidableEq, Repr

def Tracked.nothing : Tracked := ⟨false, false, false, false⟩

def Tracked.everything : Tracked := ⟨true, true, true, true⟩

/-- The options with these settings. -/
def Options.tracking (o : Options) (t : Tracked) : Options :=
  { o with
    trackTransfer := t.trackTransfer
    trackCloneable := t.trackCloneable
    trackInput := t.trackInput
    trackOutput := t.trackOutput }

def Env.tracking (env : Env) (t : Tracked) : Env :=
  { env with options := env.options.tracking t }

theorem tracks_everything (o : Options) (c : StateClass) :
    (o.tracking .everything).tracks c = true := by
  cases c <;> rfl

theorem tracks_nothing (o : Options) (c : StateClass) :
    (o.tracking .nothing).tracks c = false := by
  cases c <;> rfl

section Blind

variable (env : Env) (t : Tracked)

theorem processAddToState_tracking (e : ShadowEntry) (chain : List StateId) :
    ∀ rt, processAddToState (env.tracking t) e rt chain = processAddToState env e rt chain := by
  induction chain with
  | nil => intro rt; rfl
  | cons s parents ih =>
      intro rt
      unfold processAddToState
      simp only [ih]
      rfl

/-- Processing does not look at the settings. -/
theorem processEntry_tracking (rt : Runtime) (e : ShadowEntry) :
    processEntry (env.tracking t) rt e = processEntry env rt e := by
  unfold processEntry
  split
  · rfl
  · rfl
  · rfl
  · exact processAddToState_tracking env t e _ rt
  · exact processAddToState_tracking env t e _ rt
  · exact processAddToState_tracking env t e _ rt
  · rfl
  · rfl
  · rfl

theorem processEntries_tracking (es : List ShadowEntry) :
    ∀ rt, processEntries (env.tracking t) rt es = processEntries env rt es := by
  induction es with
  | nil => intro rt; rfl
  | cons e es ih =>
      intro rt
      show processEntries (env.tracking t) (processEntry (env.tracking t) rt e) es = _
      rw [ih, processEntry_tracking]
      rfl

/-- Neither does the first pass. -/
theorem firstPass_tracking (es : List ShadowEntry) :
    ∀ cl, firstPass (env.tracking t) cl es = firstPass env cl es := by
  induction es with
  | nil => intro cl; rfl
  | cons e es ih =>
      intro cl
      unfold firstPass
      simp only [ih]
      rfl

end Blind

-- ======================================================== what is dropped

/-- The entry leaves the table, the pending and the committed items
alone. -/
def Silent (env : Env) (e : ShadowEntry) : Prop :=
  e.operation = .redundant ∨ (env.options.trackCycles && e.operation.isAccess) = true

/-- The three versions of an entry: the same, or one whose class is
asked for by the last and perhaps by the middle one. -/
inductive Versions (env : Env) (asked : StateClass → Bool) :
    ShadowEntry → ShadowEntry → ShadowEntry → Prop
  | same (e : ShadowEntry) : Versions env asked e e e
  | shown {e₀ e : ShadowEntry} {c : StateClass} (hsilent : Silent env e₀)
      (hop : e.operation = .stateAdd c) (hasked : asked c = true) : Versions env asked e₀ e e
  | dropped {e₀ e : ShadowEntry} {c : StateClass} (hsilent : Silent env e₀)
      (hop : e.operation = .stateAdd c) (hasked : asked c = false) : Versions env asked e₀ e₀ e

section Silent

variable {env : Env} {e : ShadowEntry}

theorem silent_dropAccess (t : Tracked) (h : e.operation.isAccess = true) :
    Silent env (dropAccess (env.options.tracking t) e) := by
  unfold dropAccess
  show Silent env (if env.options.trackCycles then e else { e with operation := .redundant })
  cases hcycles : env.options.trackCycles with
  | true =>
      right
      show (env.options.trackCycles && e.operation.isAccess) = true
      rw [hcycles, h]
      rfl
  | false => exact Or.inl rfl

theorem Silent.operation (h : Silent env e) :
    e.operation ≠ .allocAdd ∧ e.operation ≠ .allocFree ∧ e.operation ≠ .stateCommit := by
  rcases h with h | h
  · rw [h]
    simp
  · have hacc : e.operation.isAccess = true := (Bool.and_eq_true_iff.mp h).2
    refine ⟨?_, ?_, ?_⟩
    · intro hop
      rw [hop] at hacc
      cases hacc
    · intro hop
      rw [hop] at hacc
      cases hacc
    · intro hop
      rw [hop] at hacc
      cases hacc

theorem Silent.not_records (h : Silent env e) (rt : Runtime) (a : AllocId) (s : StateId)
    (x : Item) : ¬ Records env rt e a s x := by
  intro hrec
  rcases h with h | h
  · simp only [Records, h] at hrec
  · unfold Records at hrec
    split at hrec
    · rw [h] at hrec
      cases hrec.2.2.1
    · rw [h] at hrec
      cases hrec.2.2.1
    · rw [h] at hrec
      cases hrec.2.2.1
    next hop =>
      rw [hop] at h
      have hbad := (Bool.and_eq_true_iff.mp h).2
      cases hbad
    · exact hrec

/-- The second pass of the three. -/
theorem versions_reassign (t : Tracked) (ptrs : StateId → StatePtrs) (e : ShadowEntry) :
    Versions env (env.options.tracking t).tracks
      (reassignEntry (env.options.tracking .nothing) ptrs e)
      (reassignEntry (env.options.tracking t) ptrs e)
      (reassignEntry (env.options.tracking .everything) ptrs e) := by
  unfold reassignEntry
  split
  next hacc =>
    cases e.sizeState.getStatePtr with
    | none => exact .same e
    | some s =>
        dsimp only
        cases (ptrs s).statePtrMap e.ptr with
        | none => exact .same _
        | some c =>
            dsimp only
            rw [tracks_nothing, tracks_everything, if_neg Bool.false_ne_true, if_pos rfl]
            cases hasked : (env.options.tracking t).tracks c with
            | true => exact .shown (silent_dropAccess _ hacc) rfl hasked
            | false => exact .dropped (silent_dropAccess _ hacc) rfl hasked
  · exact .same e

end Silent

-- ========================================================= the simulation

/-- The runs that track nothing, what the options say, and everything. -/
structure TrackSim (asked : StateClass → Bool) (rt₀ rt rt₁ : Runtime) : Prop where
  inv₀ : TableInv rt₀
  inv : TableInv rt
  inv₁ : TableInv rt₁
  same₀ : SameTable rt rt₀
  same₁ : SameTable rt rt₁
  cleaner₀ : rt₀.cleaner = rt.cleaner
  cleaner₁ : rt₁.cleaner = rt.cleaner
  pending : ∀ a s c off, Pending rt a s (.offset c off) ↔
    Pending rt₀ a s (.offset c off) ∨ (asked c = true ∧ Pending rt₁ a s (.offset c off))
  committed : ∀ a s c off, Committed rt a s (.offset c off) ↔
    Committed rt₀ a s (.offset c off) ∨ (asked c = true ∧ Committed rt₁ a s (.offset c off))

section TrackSim

variable {env : Env} {asked : StateClass → Bool} {rt₀ rt rt₁ : Runtime}
  {e₀ e e₁ : ShadowEntry}

/-- What a class entry records is an offset of that class. -/
theorem Records.class {a : AllocId} {s : StateId} {c d : StateClass} {off : UInt64}
    (hop : e.operation = .stateAdd d) (h : Records env rt e a s (.offset c off)) : c = d := by
  simp only [Records, hop] at h
  rcases h.2.2.2 with ⟨c', hc', hx⟩ | ⟨-, hx⟩
  · rw [hop] at hc'
    injection hc' with hc'
    injection hx with hx _
    rw [hx, ← hc']
  · cases hx

/-- Entries that leave the table and the cleaner alone, on any side. -/
theorem TrackSim.of_apart (h : TrackSim asked rt₀ rt rt₁) (he₀ : e₀.operation ≠ .allocAdd
      ∧ e₀.operation ≠ .allocFree ∧ e₀.operation ≠ .stateCommit)
    (he : e.operation ≠ .allocAdd ∧ e.operation ≠ .allocFree ∧ e.operation ≠ .stateCommit)
    (he₁ : e₁.operation ≠ .allocAdd ∧ e₁.operation ≠ .allocFree
      ∧ e₁.operation ≠ .stateCommit)
    (hrec : ∀ a s c off, Records env rt e a s (.offset c off) ↔
      Records env rt₀ e₀ a s (.offset c off)
        ∨ (asked c = true ∧ Records env rt₁ e₁ a s (.offset c off))) :
    TrackSim asked (processEntry env rt₀ e₀) (processEntry env rt e)
      (processEntry env rt₁ e₁) := by
  have h₀ := processEntry_spec env e₀ h.inv₀
  have hm := processEntry_spec env e h.inv
  have h₁ := processEntry_spec env e₁ h.inv₁
  have hsame := sameTable_processEntry env rt he.1 he.2.1
  have hsame₀ := sameTable_processEntry env rt₀ he₀.1 he₀.2.1
  have hsame₁ := sameTable_processEntry env rt₁ he₁.1 he₁.2.1
  have hc₀ : ∀ a, ¬ Commits rt₀ e₀ a := not_commits he₀.2.1 he₀.2.2
  have hc : ∀ a, ¬ Commits rt e a := not_commits he.2.1 he.2.2
  have hc₁ : ∀ a, ¬ Commits rt₁ e₁ a := not_commits he₁.2.1 he₁.2.2
  refine ⟨h₀.inv, hm.inv, h₁.inv, hsame.symm.trans (h.same₀.trans hsame₀),
    hsame.symm.trans (h.same₁.trans hsame₁), ?_, ?_, ?_, ?_⟩
  · rw [cleaner_processEntry env e₀ rt₀ he₀.2.2, cleaner_processEntry env e rt he.2.2, h.cleaner₀]
  · rw [cleaner_processEntry env e₁ rt₁ he₁.2.2, cleaner_processEntry env e rt he.2.2, h.cleaner₁]
  · intro a s c off
    rw [hm.pending, h₀.pending, h₁.pending, h.pending, hrec]
    simp only [hc₀, hc, hc₁, not_false_eq_true, and_true]
    tauto
  · intro a s c off
    rw [hm.committed, h₀.committed, h₁.committed, h.committed]
    simp only [hc₀, hc, hc₁, false_and, and_false, or_false]

/-- An entry of all three runs. -/
theorem TrackSim.same (h : TrackSim asked rt₀ rt rt₁) (e : ShadowEntry) :
    TrackSim asked (processEntry env rt₀ e) (processEntry env rt e) (processEntry env rt₁ e) := by
  have h₀ := processEntry_spec env e h.inv₀
  have hm := processEntry_spec env e h.inv
  have h₁ := processEntry_spec env e h.inv₁
  have hcleaner : ∀ {rt' : Runtime}, rt'.cleaner = rt.cleaner →
      (processEntry env rt' e).cleaner = (processEntry env rt e).cleaner := by
    intro rt' hrt
    by_cases hop : e.operation = .stateCommit
    · rw [cleaner_commitEntry rt' hop, cleaner_commitEntry rt hop, hrt]
    · rw [cleaner_processEntry env e rt' hop, cleaner_processEntry env e rt hop, hrt]
  refine ⟨h₀.inv, hm.inv, h₁.inv, h.same₀.processEntry h.inv h.inv₀,
    h.same₁.processEntry h.inv h.inv₁, hcleaner h.cleaner₀, hcleaner h.cleaner₁, ?_, ?_⟩
  · intro a s c off
    rw [hm.pending, h₀.pending, h₁.pending, h.pending, h.same₀.commits, h.same₁.commits,
      h.same₀.records, h.same₁.records]
    tauto
  · intro a s c off
    rw [hm.committed, h₀.committed, h₁.committed, h.committed, h.pending, h.same₀.commits,
      h.same₁.commits, h.same₀.erases, h.same₁.erases]
    tauto

/-- The three versions of an entry. -/
theorem TrackSim.versions (h : TrackSim asked rt₀ rt rt₁) (hv : Versions env asked e₀ e e₁) :
    TrackSim asked (processEntry env rt₀ e₀) (processEntry env rt e)
      (processEntry env rt₁ e₁) := by
  have hclass : ∀ {e : ShadowEntry} {c : StateClass}, e.operation = .stateAdd c →
      e.operation ≠ .allocAdd ∧ e.operation ≠ .allocFree ∧ e.operation ≠ .stateCommit := by
    intro e c hop
    rw [hop]
    simp
  cases hv with
  | same => exact h.same _
  | shown hsilent hop hasked =>
      apply h.of_apart hsilent.operation (hclass hop) (hclass hop)
      intro a s c off
      rw [h.same₁.records]
      have hno := hsilent.not_records rt₀ a s (.offset c off)
      constructor
      · intro hrec
        rw [← hrec.class hop] at hasked
        exact Or.inr ⟨hasked, hrec⟩
      · intro hrec
        rcases hrec with hrec | hrec
        · exact absurd hrec hno
        · exact hrec.2
  | dropped hsilent hop hasked =>
      apply h.of_apart hsilent.operation hsilent.operation (hclass hop)
      intro a s c off
      rw [h.same₁.records]
      have hno := hsilent.not_records rt₀ a s (.offset c off)
      have hno' := hsilent.not_records rt a s (.offset c off)
      constructor
      · intro hrec
        exact absurd hrec hno'
      · intro hrec
        rcases hrec with hrec | ⟨hc, hrec⟩
        · exact absurd hrec hno
        · rw [hrec.class hop, hasked] at hc
          cases hc

/-- A cleaned batch, entry by entry. -/
theorem TrackSim.entries {f₀ f f₁ : ShadowEntry → ShadowEntry}
    (hv : ∀ e, Versions env asked (f₀ e) (f e) (f₁ e)) (es : List ShadowEntry) :
    ∀ {rt₀ rt rt₁ : Runtime}, TrackSim asked rt₀ rt rt₁ →
      TrackSim asked (processEntries env rt₀ (es.map f₀)) (processEntries env rt (es.map f))
        (processEntries env rt₁ (es.map f₁)) := by
  induction es with
  | nil => intro rt₀ rt rt₁ h; exact h
  | cons e es ih => intro rt₀ rt rt₁ h; exact ih (h.versions (hv e))

/-- What a batch does under any settings. -/
theorem serialProcessShadowBatch_tracking (t : Tracked) (rt : Runtime) (b : Batch) :
    serialProcessShadowBatch (env.tracking t) rt b
      = processEntry env (processEntries env (cleanBatch env rt b.entries).1
          ((firstPass env rt.cleaner b.entries).2.map
            (reassignEntry (env.options.tracking t) (firstPass env rt.cleaner b.entries).1.ptrs)))
        b.overrun := by
  unfold serialProcessShadowBatch processShadowBatch cleanBatch
  dsimp only
  rw [processEntries_tracking, firstPass_tracking, processEntries_append]
  rfl

/-- A batch keeps the runs together. -/
theorem TrackSim.batch {t : Tracked}
    (h : TrackSim (env.options.tracking t).tracks rt₀ rt rt₁) (b : Batch) :
    TrackSim (env.options.tracking t).tracks
      (serialProcessShadowBatch (env.tracking .nothing) rt₀ b)
      (serialProcessShadowBatch (env.tracking t) rt b)
      (serialProcessShadowBatch (env.tracking .everything) rt₁ b) := by
  have hclean : TrackSim (env.options.tracking t).tracks (cleanBatch env rt₀ b.entries).1
      (cleanBatch env rt b.entries).1 (cleanBatch env rt₁ b.entries).1 := by
    have hsame : ∀ {rt' : Runtime}, SameTable rt rt' → SameTable (cleanBatch env rt b.entries).1
        (cleanBatch env rt' b.entries).1 := fun h =>
      ⟨h.table, h.numAllocs, h.origins, h.pointer, h.length, h.affiliated⟩
    have hinv : ∀ {rt' : Runtime}, TableInv rt' → TableInv (cleanBatch env rt' b.entries).1 :=
      fun h => ⟨h.maskFree, h.pending_mem, h.objects_lt, h.origins_lt⟩
    refine ⟨hinv h.inv₀, hinv h.inv, hinv h.inv₁, hsame h.same₀, hsame h.same₁, ?_, ?_,
      h.pending, h.committed⟩
    · rw [cleanBatch_cleaner, cleanBatch_cleaner, h.cleaner₀]
    · rw [cleanBatch_cleaner, cleanBatch_cleaner, h.cleaner₁]
  rw [serialProcessShadowBatch_tracking, serialProcessShadowBatch_tracking,
    serialProcessShadowBatch_tracking, h.cleaner₀, h.cleaner₁]
  exact (hclean.entries (versions_reassign t _) _).same b.overrun

theorem TrackSim.batches {t : Tracked} (bs : List Batch) :
    ∀ {rt₀ rt rt₁ : Runtime}, TrackSim (env.options.tracking t).tracks rt₀ rt rt₁ →
      TrackSim (env.options.tracking t).tracks (runBatches (env.tracking .nothing) rt₀ bs)
        (runBatches (env.tracking t) rt bs) (runBatches (env.tracking .everything) rt₁ bs) := by
  induction bs with
  | nil => intro rt₀ rt rt₁ h; exact h
  | cons b bs ih => intro rt₀ rt rt₁ h; exact ih (h.batch b)

theorem trackSim_init : TrackSim asked texasInit texasInit texasInit where
  inv₀ := tableInv_init
  inv := tableInv_init
  inv₁ := tableInv_init
  same₀ := SameTable.refl _
  same₁ := SameTable.refl _
  cleaner₀ := rfl
  cleaner₁ := rfl
  pending a s c off := by
    have hno : ¬ Pending texasInit a s (.offset c off) :=
      fun h => not_settled_init a s _ (Or.inr h)
    tauto
  committed a s c off := by
    have hno : ¬ Committed texasInit a s (.offset c off) :=
      fun h => not_settled_init a s _ (Or.inl h)
    tauto

end TrackSim

/-- The track options choose what is shown and nothing else. Over any
batches, a state's Final set of class `c` holds an offset exactly if it
does when nothing is tracked, or the options ask for `c` and it does
when everything is tracked. -/
theorem final_tracking (env : Env) (t : Tracked) (stateMap : List StateId) (bs : List Batch)
    (s : StateId) (hs : s ∈ stateMap) (a : AllocId) (c : StateClass) (off : UInt64) :
    let final := fun t' : Tracked => Final (reportStatistics (env.tracking t') stateMap
      (runBatches (env.tracking t') texasInit bs)) a s (.offset c off)
    final t ↔ final .nothing ∨ ((env.tracking t).options.tracks c = true ∧ final .everything) := by
  intro final
  have hsim := @TrackSim.batches env t bs texasInit texasInit texasInit trackSim_init
  have hfinal : ∀ {t' : Tracked}, TableInv (runBatches (env.tracking t') texasInit bs) →
      (final t' ↔ Settled (runBatches (env.tracking t') texasInit bs) a s (.offset c off)) :=
    fun hinv => final_reportStatistics hinv hs a _
  rw [hfinal hsim.inv, hfinal hsim.inv₀, hfinal hsim.inv₁]
  have hp := hsim.pending a s c off
  have hc := hsim.committed a s c off
  show Committed _ a s _ ∨ Pending _ a s _ ↔ _
  rw [hp, hc]
  unfold Settled Env.tracking
  dsimp only
  tauto

/-- A cell that is written in every iteration, with output state alone
tracked: the class is cloneable output, which output asks for. -/
theorem final_tracking_output :
    let env := Env.ofTree .flat
    let t : Tracked := ⟨false, false, false, true⟩
    let bs : List Batch :=
      [⟨[(SlotWrite.allocAdd 100 8 1 none).entry, (SlotWrite.stateBegin 0).entry,
          (SlotWrite.access .write 100 1).entry, (SlotWrite.stateEnd 0).entry,
          (SlotWrite.stateBegin 0).entry, (SlotWrite.access .write 100 2).entry,
          (SlotWrite.stateEnd 0).entry], .redundant⟩]
    let final := fun t' : Tracked => Final (reportStatistics (env.tracking t') [0]
      (runBatches (env.tracking t') texasInit bs)) 1 0 (.offset .co 0)
    final .everything
      ∧ (final t ↔ final .nothing
        ∨ ((env.tracking t).options.tracks .co = true ∧ final .everything)) := by
  intro env t bs final
  exact ⟨by decide, final_tracking env t [0] bs 0 (List.mem_singleton.mpr rfl) 1 .co 0⟩

end Carmot.Texas
