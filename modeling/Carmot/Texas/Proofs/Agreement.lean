/-
What cleaning finds at an access, for every cut into batches.

`calls_agree` puts the producer's active state beside the walk over the
markers that were pushed. Here the worker is added: `batchState` starts
a batch from `oldState`, which the three assignments of `cleanBatch`
keep equal to it in both modes, and nothing that is processed between
two batches writes it (`oldState_processEntry`). So the cuts do not
matter, nor does it matter whether they fall inside an iteration, or
leave batches empty.

An access is therefore cleaned under the state that was active when it
was pushed, and the second pass reads the state pointer the first pass
has just stored (`access_batchState`).
-/
import Carmot.Texas.Proofs.Window

namespace Carmot.Texas

open Carmot.Lib (Rw)

-- ======================================================= between batches

theorem oldState_processEntry (env : Env) (rt : Runtime) (e : ShadowEntry) :
    (processEntry env rt e).oldState = rt.oldState := by
  have hcl : (processEntry env rt e).cleaner.oldState = rt.cleaner.oldState := by
    by_cases hop : e.operation = .stateCommit
    · rw [cleaner_commitEntry rt hop]
      split
      · rfl
      · rfl
    · rw [cleaner_processEntry env e rt hop]
  exact hcl

theorem oldState_processEntries (env : Env) (es : List ShadowEntry) :
    ∀ rt : Runtime, (processEntries env rt es).oldState = rt.oldState := by
  induction es with
  | nil => intro rt; rfl
  | cons e es ih =>
      intro rt
      show (processEntries env (processEntry env rt e) es).oldState = _
      rw [ih, oldState_processEntry]

-- ============================================================ over batches

/-- The first pass keeps the innermost state of the writes. -/
theorem Loaded.batchState {ws : List SlotWrite} {es : List ShadowEntry} (h : Loaded ws es)
    (env : Env) :
    ∀ cl : Cleaner, (Carmot.Texas.firstPass env cl es).1.batchState
      = innerAfter env.tree cl.batchState ws := by
  induction h with
  | nil => intro cl; rfl
  | @cons w e ws es hw _ ih =>
      intro cl
      obtain ⟨slot, rfl⟩ := hw
      show (Carmot.Texas.firstPass env (cleanEntry env cl (w.fill slot)).1 es).1.batchState = _
      rw [ih, cleanEntry_fill, cleanEntry_batchState]
      rfl

theorem loaded_append {es fs : List ShadowEntry} :
    ∀ {ws : List SlotWrite}, Loaded ws (es ++ fs) →
      Loaded (ws.take es.length) es ∧ Loaded (ws.drop es.length) fs := by
  induction es with
  | nil => intro ws h; exact ⟨List.Forall₂.nil, h⟩
  | cons e es ih =>
      intro ws h
      cases h with
      | cons hw hrest =>
          obtain ⟨h₁, h₂⟩ := ih hrest
          exact ⟨List.Forall₂.cons hw h₁, h₂⟩

/-- So does a run of batches, in both modes. -/
theorem oldState_runBatches (env : Env) (bs : List Batch) :
    ∀ {rt : Runtime} {ws : List SlotWrite}, Loaded ws (rawEntries bs) →
      (runBatches env rt bs).oldState = innerAfter env.tree rt.oldState ws := by
  induction bs with
  | nil =>
      intro rt ws h
      cases h
      rfl
  | cons b bs ih =>
      intro rt ws h
      rw [show rawEntries (b :: bs) = b.entries ++ rawEntries bs from rfl] at h
      obtain ⟨h₁, h₂⟩ := loaded_append h
      have hclean : (cleanBatch env rt b.entries).1.oldState
          = innerAfter env.tree rt.oldState (ws.take b.entries.length) := by
        have hcl : (cleanBatch env rt b.entries).1.cleaner.batchState = _ :=
          (congrArg Cleaner.batchState (cleanBatch_cleaner env rt b.entries)).trans
            (h₁.batchState env rt.cleaner)
        exact hcl
      have hone : (serialProcessShadowBatch env rt b).oldState
          = innerAfter env.tree rt.oldState (ws.take b.entries.length) :=
        (oldState_processEntries env _ _).trans hclean
      show (runBatches env (serialProcessShadowBatch env rt b) bs).oldState = _
      rw [ih h₂, hone, ← innerAfter_append, List.take_append_drop]

-- ======================================================= the pushing call

/-- A call takes at most one slot. -/
theorem length_writesOf_call (trackCycles : Bool) (p : Producer) (c : Call) :
    (writesOf (p.call trackCycles c).2).length ≤ 1 := by
  cases c with
  | endState id =>
      rcases call_endState trackCycles p id with ⟨ha, heq⟩ | ⟨s, ha, heq⟩
      · rw [heq]
        exact Nat.zero_le _
      · rw [heq]
        exact Nat.le_refl _
  | endStateInvocation id =>
      unfold Producer.call
      dsimp only
      split
      · exact Nat.le_refl _
      · exact Nat.zero_le _
  | addToEscapeTable address =>
      unfold Producer.call
      dsimp only
      split
      · exact Nat.le_refl _
      · exact Nat.zero_le _
  | addToState ptr rw id =>
      unfold Producer.call
      dsimp only
      split
      · exact Nat.zero_le _
      · exact Nat.le_refl _
  | _ => exact Nat.le_refl _

theorem writesOf_calls_cons (trackCycles : Bool) (p : Producer) (c : Call) (cs : List Call) :
    writesOf (p.calls trackCycles (c :: cs)).2
      = writesOf (p.call trackCycles c).2
        ++ writesOf ((p.call trackCycles c).1.calls trackCycles cs).2 := writesOf_append _ _

/-- Two stretches of calls in one go. -/
theorem calls_append (trackCycles : Bool) (cs cs' : List Call) :
    ∀ p : Producer, p.calls trackCycles (cs ++ cs')
      = (((p.calls trackCycles cs).1.calls trackCycles cs').1,
        (p.calls trackCycles cs).2 ++ ((p.calls trackCycles cs).1.calls trackCycles cs').2) := by
  induction cs with
  | nil => intro p; rfl
  | cons c cs ih =>
      intro p
      simp only [List.cons_append, Producer.calls, ih, List.append_assoc]

/-- The call that made write number `i`, with the calls before it. -/
theorem calls_write_split (trackCycles : Bool) (cs : List Call) :
    ∀ {p : Producer} {i : Nat} {w : SlotWrite},
      (writesOf (p.calls trackCycles cs).2)[i]? = some w →
      ∃ cs₁ c cs₂, cs = cs₁ ++ c :: cs₂
        ∧ (writesOf (p.calls trackCycles cs₁).2).length = i
        ∧ writesOf ((p.calls trackCycles cs₁).1.call trackCycles c).2 = [w] := by
  induction cs with
  | nil => intro p i w h; cases h
  | cons c cs ih =>
      intro p i w h
      rw [writesOf_calls_cons] at h
      have hlen := length_writesOf_call trackCycles p c
      by_cases hi : i < (writesOf (p.call trackCycles c).2).length
      · rw [List.getElem?_append_left hi] at h
        have hzero : i = 0 := by omega
        subst hzero
        refine ⟨[], c, cs, rfl, rfl, ?_⟩
        show writesOf (p.call trackCycles c).2 = [w]
        cases hw : writesOf (p.call trackCycles c).2 with
        | nil => rw [hw] at h; cases h
        | cons w' ws =>
            rw [hw] at h hlen
            injection h with h
            have hws : ws = [] := by
              apply List.eq_nil_of_length_eq_zero
              have hle : ws.length + 1 ≤ 1 := hlen
              omega
            rw [h, hws]
      · have hge := Nat.le_of_not_lt hi
        rw [List.getElem?_append_right hge] at h
        obtain ⟨cs₁, c', cs₂, hcs, hpos, hw⟩ := ih h
        refine ⟨c :: cs₁, c', cs₂, by rw [hcs]; rfl, ?_, hw⟩
        rw [writesOf_calls_cons, List.length_append, hpos]
        omega

/-- An access entry was written by an `AddToState` call. -/
theorem isAccess_of_fill {w : SlotWrite} {slot : ShadowEntry}
    (h : (w.fill slot).operation.isAccess = true) : ∃ rw p id, w = .access rw p id := by
  cases w with
  | access rw p id => exact ⟨rw, p, id, rfl⟩
  | _ => cases h

-- ============================================================ the accesses

/-- When cleaning reaches an access, `batchState` is the state that was
active at the call that pushed it, and that state is what the second
pass finds in the entry: for all calls, all cuts of the pushed entries
into batches and both modes. -/
theorem access_batchState (pr : Program) (disableOptimizations : Bool)
    (bs₁ bs₂ : List Batch) (b : Batch) (pre post : List ShadowEntry) (e : ShadowEntry)
    (hcut : Loaded (writesOf pr.events) (rawEntries (bs₁ ++ b :: bs₂)))
    (hb : b.entries = pre ++ e :: post) (hacc : e.operation.isAccess = true) :
    let env := pr.env.setDisabled disableOptimizations
    let cl := (runBatches env texasInit bs₁).cleaner
    ∃ cs₁ c cs₂ s,
      pr.calls = cs₁ ++ c :: cs₂
        ∧ (writesOf (Producer.init.calls pr.options.trackCycles cs₁).2).length
          = (rawEntries bs₁ ++ pre).length
        ∧ (Producer.init.calls pr.options.trackCycles cs₁).1.activeState = some s
        ∧ (firstPass env cl pre).1.batchState = some s
        ∧ ∃ e', (firstPass env cl b.entries).2[pre.length]? = some e'
          ∧ e'.operation = e.operation ∧ e'.sizeState = .statePtr s := by
  intro env cl
  have hraw : rawEntries (bs₁ ++ b :: bs₂)
      = (rawEntries bs₁ ++ pre) ++ e :: (post ++ rawEntries bs₂) := by
    rw [rawEntries_append, show rawEntries (b :: bs₂) = b.entries ++ rawEntries bs₂ from rfl, hb,
      List.append_assoc, List.append_assoc, List.cons_append]
  rw [hraw] at hcut
  obtain ⟨hbefore, hfrom⟩ := loaded_append hcut
  -- the write that filled the slot
  obtain ⟨w, slot, hw, he⟩ : ∃ w slot,
      (writesOf pr.events)[(rawEntries bs₁ ++ pre).length]? = some w ∧ e = w.fill slot := by
    generalize hrest : (writesOf pr.events).drop (rawEntries bs₁ ++ pre).length = rest at hfrom
    cases hfrom with
    | @cons w _ ws _ hw _ =>
        obtain ⟨slot, rfl⟩ := hw
        refine ⟨w, slot, ?_, rfl⟩
        have hhead := congrArg List.head? hrest
        rw [List.head?_drop] at hhead
        exact hhead
  obtain ⟨cs₁, c, cs₂, hcs, hpos, -⟩ := calls_write_split _ _ hw
  rw [he] at hacc
  obtain ⟨rw, p, id, rfl⟩ := isAccess_of_fill hacc
  obtain ⟨s, hs⟩ := pr.insideRoi.active hw rfl
  -- the producer's active state is the innermost one of the writes before
  have hactive : (Producer.init.calls pr.options.trackCycles cs₁).1.activeState = some s := by
    have hgrow : (Producer.init.calls pr.options.trackCycles cs₁).1.Grows
        (Producer.init.calls pr.options.trackCycles pr.calls).1 := by
      rw [hcs, calls_append]
      exact grows_calls _ _ _
    have hagree := (calls_agree pr.options.trackCycles pr.stateMap.tree cs₁ Producer.init
      (hgrow.within fun _ _ => rfl)).2
    rw [← hagree, ← hs]
    have htake : writesOf (Producer.init.calls pr.options.trackCycles cs₁).2
        = (writesOf pr.events).take (rawEntries bs₁ ++ pre).length := by
      unfold Program.events
      rw [hcs, calls_append, writesOf_append, ← hpos, List.take_left]
    rw [htake]
    rfl
  have hbatch : (firstPass env cl pre).1.batchState = some s := by
    obtain ⟨h₁, h₂⟩ := loaded_append hbefore
    rw [h₂.batchState env cl]
    show innerAfter pr.stateMap.tree (runBatches env texasInit bs₁).oldState _ = _
    rw [oldState_runBatches env bs₁ h₁]
    show innerAfter pr.stateMap.tree (innerAfter pr.stateMap.tree none _) _ = _
    rw [← innerAfter_append, List.take_append_drop]
    exact hs
  refine ⟨cs₁, c, cs₂, s, hcs, hpos, hactive, hbatch, ?_⟩
  refine ⟨(cleanEntry env (firstPass env cl pre).1 e).2, ?_, ?_⟩
  · rw [hb, firstPass_append]
    have hlen := length_firstPass env pre cl
    rw [List.getElem?_append_right (by rw [hlen]), hlen, Nat.sub_self]
    rfl
  · rw [he, cleanEntry_access (access_fill rw p id slot) hbatch]
    exact ⟨rfl, rfl⟩

/-- A cut between a begin marker and its access, an empty batch, and a
slot whose last use left the pointer of another state. -/
theorem access_batchState_stale :
    let pr : Program := ⟨Options.default, fun _ => 0,
      [.getState "f" 1, .addToState 100 .write 1, .endState 0]⟩
    let env := pr.env.setDisabled true
    let begun : Batch := ⟨[(SlotWrite.stateBegin 0).entry], .redundant⟩
    let access := (SlotWrite.access .write 100 1).fill
      { ShadowEntry.redundant with sizeState := .statePtr 7 }
    let ended := (SlotWrite.stateEnd 0).entry
    let cl := (runBatches env texasInit [begun, ⟨[], .redundant⟩]).cleaner
    ∃ cs₁ c cs₂ s,
      pr.calls = cs₁ ++ c :: cs₂
        ∧ (writesOf (Producer.init.calls true cs₁).2).length = 1
        ∧ (Producer.init.calls true cs₁).1.activeState = some s
        ∧ (firstPass env cl []).1.batchState = some s
        ∧ ∃ e', (firstPass env cl [access, ended]).2[0]? = some e'
          ∧ e'.operation = access.operation ∧ e'.sizeState = .statePtr s := by
  intro pr env begun access ended cl
  have hcut : Loaded (writesOf pr.events)
      (rawEntries ([begun, ⟨[], .redundant⟩] ++ ⟨[access, ended], .redundant⟩ :: [])) :=
    .cons ⟨_, rfl⟩ (.cons ⟨_, rfl⟩ (.cons ⟨_, rfl⟩ .nil))
  exact access_batchState pr true [begun, ⟨[], .redundant⟩] [] ⟨[access, ended], .redundant⟩
    [] [ended] access hcut rfl rfl

end Carmot.Texas
