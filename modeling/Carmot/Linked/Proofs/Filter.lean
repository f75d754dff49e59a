/-
What the wrappers push, while no ROI is entered inside another.

The sets of addresses seen are cleared when a ROI is left and filled
only while one is open. With one ROI open at a time they belong to its
iteration, so an early return leaves out accesses the iteration has
already made, of the same kind to the same cells: what is pushed is what
the program does, without accesses that repeat (`tracks_calls`).
-/
import Carmot.Linked.Calls
import Carmot.Texas.Proofs.FlatRois

namespace Carmot.Linked

open Carmot.Lib
open Carmot.Texas (Addr StateId StateMap StateTree Producer Call SlotWrite FlatRun Roi writesOf
  getState_entered endState_of_active writesOf_calls_cons)
open Carmot.Wrapper

-- ============================================================== the states

/-- The second map has the states of the first. -/
structure Extends (states states' : StateMap) : Prop where
  find : ∀ g k s, states.find g k = some s → states'.find g k = some s
  parent : ∀ s < states.states.length, states'.parent s = states.parent s
  length_le : states.states.length ≤ states'.states.length

theorem Extends.refl (states : StateMap) : Extends states states :=
  ⟨fun _ _ _ h => h, fun _ _ => rfl, Nat.le_refl _⟩

theorem Extends.trans {states states' states'' : StateMap} (h : Extends states states')
    (h' : Extends states' states'') : Extends states states'' where
  find g k s hs := h'.find g k s (h.find g k s hs)
  parent s hs := (h'.parent s (Nat.lt_of_lt_of_le hs h.length_le)).trans (h.parent s hs)
  length_le := Nat.le_trans h.length_le h'.length_le

theorem extends_endState (p : Producer) (stateID : StateId) :
    (p.endState stateID).1.stateMap = p.stateMap := by
  unfold Producer.endState
  split <;> rfl

theorem extends_call (trackCycles : Bool) (p : Producer) (c : Call) :
    Extends p.stateMap (p.call trackCycles c).1.stateMap := by
  cases c with
  | getState funcName lineNum =>
      have hent := getState_entered p funcName lineNum
      exact ⟨hent.find_old, hent.parent_old, hent.length_le⟩
  | endState stateID =>
      have hmap := extends_endState p stateID
      have hcall : (p.call trackCycles (.endState stateID)).1 = (p.endState stateID).1 := by
        unfold Producer.call
        dsimp only
        split
        · next h => rw [h]
        · next h => rw [h]
      rw [hcall, hmap]
      exact Extends.refl _
  | _ => exact Extends.refl _

theorem extends_calls (trackCycles : Bool) (cs : List Call) :
    ∀ p : Producer, Extends p.stateMap (p.calls trackCycles cs).1.stateMap := by
  induction cs with
  | nil => exact fun p => Extends.refl _
  | cons c cs ih => exact fun p => (extends_call trackCycles p c).trans (ih _)

theorem extends_after (cfg : WrapperConfig) (cs : List WrapperCall) (c : WrapperCall) :
    Extends (cfg.after cs).producer.stateMap (cfg.after (cs ++ [c])).producer.stateMap := by
  rw [after_concat]
  unfold WrapperConfig.makes
  rw [producer_body]
  exact extends_calls _ _ _

-- ============================================================ repeated ones

section Repeats

variable {evs : List CellEvent} {rw rw' : Rw} {p : Addr}

/-- What the accesses of one wrapper repeat. -/
theorem repeats_accesses (addresses : List Addr) :
    ∀ {evs : List CellEvent}, RepeatsAccess evs rw ∨ (rw = rw' ∧ p ∈ addresses) →
      RepeatsAccess (evs ++ addresses.flatMap fun q => if q = p then [.access rw'] else []) rw := by
  induction addresses with
  | nil =>
      intro evs h
      rw [List.flatMap_nil, List.append_nil]
      exact h.elim id fun h => absurd h.2 List.not_mem_nil
  | cons q addresses ih =>
      intro evs h
      rw [List.flatMap_cons, ← List.append_assoc]
      apply ih
      by_cases hq : q = p
      · rw [if_pos hq]
        rcases h with h | ⟨rfl, -⟩
        · exact .inl h.access
        · exact .inl (repeatsAccess_self _ _)
      · rw [if_neg hq, List.append_nil]
        rcases h with h | ⟨hrw, hp⟩
        · exact .inl h
        · rcases List.mem_cons.mp hp with hp | hp
          · exact absurd hp.symm hq
          · exact .inr ⟨hrw, hp⟩

/-- Accesses that all repeat. -/
theorem thinned_drops {evs' : List CellEvent} (addresses : List Addr)
    (hrep : p ∈ addresses → RepeatsAccess evs' rw) :
    ∀ {evs : List CellEvent}, Lib.Thinned evs evs' →
      Lib.Thinned (evs ++ addresses.flatMap fun q => if q = p then [.access rw] else []) evs' := by
  induction addresses with
  | nil =>
      intro evs h
      rw [List.flatMap_nil, List.append_nil]
      exact h
  | cons q addresses ih =>
      intro evs h
      rw [List.flatMap_cons, ← List.append_assoc]
      apply ih fun hp => hrep (List.mem_cons_of_mem q hp)
      by_cases hq : q = p
      · rw [if_pos hq]
        exact h.drop (hrep (by rw [hq]; exact List.mem_cons_self))
      · rw [if_neg hq, List.append_nil]
        exact h

end Repeats

-- ============================================================ the invariant

/-- The active state is the one of the open ROI. -/
def IsOpen (p : Producer) : Option Roi → Prop
  | none => p.activeState = none
  | some roi => ∃ s, p.activeState = some s ∧ p.stateMap.find roi.1 roi.2 = some s

/-- What the calls say the program does. -/
def observations (cs : List WrapperCall) : List Observation := cs.flatMap observeCall

/-- After some calls: `states` has all states there will be, and `r` is
the one of the ROI. -/
structure Tracks (cfg : WrapperConfig) (states : StateMap) (roi : Roi) (r : StateId) (p : Addr)
    (cs : List WrapperCall) : Prop where
  opened : IsOpen (cfg.after cs).producer (Observation.openAfter (observations cs))
  roots : ∀ g k s, (cfg.after cs).producer.stateMap.find g k = some s →
    (cfg.after cs).producer.stateMap.parent s = none
  flat : FlatRun states.tree (cfg.after cs).producer.activeState (cfg.pushed cs)
  thinned : Lib.Thinned ((observations cs).flatMap (Observation.cellEvents roi p))
    ((cfg.pushed cs).flatMap (SlotWrite.cellEvents r p))
  outside : (cfg.after cs).producer.activeState = none → (cfg.after cs).seen = Seen.empty
  seen : ∀ rw ptr, ptr ∈ (cfg.after cs).seen.of rw →
    ∃ addresses, .access rw ptr addresses ∈ observations cs
      ∧ (p ∈ addresses → RepeatsAccess ((cfg.pushed cs).flatMap (SlotWrite.cellEvents r p)) rw)

theorem observations_concat (cs : List WrapperCall) (c : WrapperCall) :
    observations (cs ++ [c]) = observations cs ++ observeCall c := by
  unfold observations
  rw [List.flatMap_append, List.flatMap_singleton]

theorem openAfter_append (obs obs' : List Observation) :
    Observation.openAfter (obs ++ obs')
      = obs'.foldl Observation.openStep (Observation.openAfter obs) := List.foldl_append

theorem Flat.prefix {obs obs' : List Observation} (h : Flat (obs ++ obs')) : Flat obs where
  apart pre roi post heq := h.apart pre roi (post ++ obs') (by rw [heq]; simp)
  matched pre post heq := h.matched pre (post ++ obs') (by rw [heq]; simp)
  uniform rw ptr addresses addresses' hmem hmem' :=
    h.uniform rw ptr addresses addresses' (List.mem_append_left _ hmem)
      (List.mem_append_left _ hmem')
  one_invocation hmem := h.one_invocation (List.mem_append_left _ hmem)

section Step

variable {cfg : WrapperConfig} {states : StateMap} {roi : Roi} {r : StateId} {p : Addr}
  {cs : List WrapperCall} {c : WrapperCall}

theorem tracks_nil (cfg : WrapperConfig) (states : StateMap) (roi : Roi) (r : StateId) (p : Addr) :
    Tracks cfg states roi r p [] where
  opened := rfl
  roots g k s h := by cases h
  flat := .nil
  thinned := .nil
  outside _ := rfl
  seen rw ptr h := by
    cases rw <;> exact absurd h (Finset.notMem_empty ptr)

/-- A wrapper that leaves ROIs and accesses alone. -/
theorem Tracks.idle (h : Tracks cfg states roi r p cs)
    (hseen : (cfg.body (cfg.after cs) c).1.seen = (cfg.after cs).seen)
    (hproducer : (cfg.after (cs ++ [c])).producer = (cfg.after cs).producer)
    (hidle : ∀ w ∈ cfg.pushes (cfg.body (cfg.after cs) c), w.idle = true)
    (hobserve : observeCall c = []) : Tracks cfg states roi r p (cs ++ [c]) := by
  have hobs : observations (cs ++ [c]) = observations cs := by
    rw [observations_concat, hobserve, List.append_nil]
  have hafter : (cfg.after (cs ++ [c])).seen = (cfg.after cs).seen := by
    rw [after_concat]
    exact hseen
  have hflat : ∀ {ws : List SlotWrite} {active : Option StateId} (vs : List SlotWrite),
      (∀ w ∈ vs, w.idle = true) → FlatRun states.tree active ws →
      FlatRun states.tree active (ws ++ vs) ∧ (ws ++ vs).flatMap (SlotWrite.cellEvents r p)
        = ws.flatMap (SlotWrite.cellEvents r p) := by
    intro ws active vs
    induction vs generalizing ws with
    | nil =>
        intro _ h
        rw [List.append_nil]
        exact ⟨h, rfl⟩
    | cons w vs ih =>
        intro hvs h
        rw [List.append_cons]
        obtain ⟨hrun, hevents⟩ := ih (fun v hv => hvs v (List.mem_cons_of_mem w hv))
          (h.idle (hvs w List.mem_cons_self))
        refine ⟨hrun, hevents.trans ?_⟩
        rw [List.flatMap_append, List.flatMap_singleton,
          SlotWrite.cellEvents_idle (hvs w List.mem_cons_self), List.append_nil]
  obtain ⟨hrun, hevents⟩ := hflat _ hidle h.flat
  refine ⟨?_, ?_, ?_, ?_, ?_, ?_⟩
  · rw [hproducer, hobs]
    exact h.opened
  · rw [hproducer]
    exact h.roots
  · rw [hproducer, pushed_concat]
    exact hrun
  · rw [hobs, pushed_concat, hevents]
    exact h.thinned
  · rw [hproducer, hafter]
    exact h.outside
  · rw [hafter, hobs, pushed_concat, hevents]
    exact h.seen

/-- A ROI is entered. -/
theorem Tracks.enter (h : Tracks cfg states roi r p cs) {funcName : String} {lineNum : UInt64}
    (hapart : Observation.openAfter (observations cs) = none)
    (hstates :
      Extends (cfg.after (cs ++ [.caratGetState funcName lineNum])).producer.stateMap states)
    (hr : states.find roi.1 roi.2 = some r) :
    Tracks cfg states roi r p (cs ++ [.caratGetState funcName lineNum]) := by
  have hopened := h.opened
  rw [hapart] at hopened
  have hclosed : (cfg.after cs).producer.activeState = none := hopened
  have hafter : cfg.after (cs ++ [.caratGetState funcName lineNum])
      = { cfg.after cs with
          producer := ((cfg.after cs).producer.getState funcName lineNum).1 } := by
    rw [after_concat]
    rfl
  have hpushed : cfg.pushed (cs ++ [.caratGetState funcName lineNum]) = cfg.pushed cs
      ++ [.stateBegin ((cfg.after cs).producer.getState funcName lineNum).2] := by
    rw [pushed_concat]
    rfl
  have hobs : observations (cs ++ [.caratGetState funcName lineNum])
      = observations cs ++ [.enter (funcName, lineNum)] := observations_concat cs _
  have hent := getState_entered (cfg.after cs).producer funcName lineNum
  generalize (cfg.after cs).producer.getState funcName lineNum = entered at hafter hpushed hent
  obtain ⟨producer, s⟩ := entered
  rw [hafter] at hstates
  have hlt : s < producer.stateMap.states.length := Texas.StateMap.find_lt hent.find_self
  have hroots : ∀ g k t, producer.stateMap.find g k = some t →
      producer.stateMap.parent t = none := by
    intro g k t ht
    cases hold : (cfg.after cs).producer.stateMap.find g k with
    | some t' =>
        have heq := hent.find_old g k t' hold
        rw [ht] at heq
        injection heq with heq
        subst heq
        rw [hent.parent_old t (Texas.StateMap.find_lt hold)]
        exact h.roots g k t hold
    | none =>
        obtain ⟨rfl, rfl⟩ := hent.find_new g k t hold ht
        have heq := hent.find_self
        rw [ht] at heq
        injection heq with heq
        rw [heq, hent.parent_new hold]
        exact hclosed
  -- the state is the ROI's exactly if the ROI is the one entered
  have hname : (funcName, lineNum) = roi ↔ s = r := by
    have hs := hstates.find funcName lineNum s hent.find_self
    constructor
    · rintro rfl
      rw [hs] at hr
      exact Option.some_inj.mp hr
    · rintro rfl
      obtain ⟨hf, hl⟩ := Texas.StateMap.find_inj hs hr
      exact Prod.ext hf hl
  refine ⟨?_, ?_, ?_, ?_, ?_, ?_⟩
  · rw [hafter, hobs, openAfter_append]
    exact ⟨s, hent.active, hent.find_self⟩
  · rw [hafter]
    exact hroots
  · have hflat := h.flat
    rw [hclosed] at hflat
    rw [hafter, hpushed]
    dsimp only
    rw [hent.active]
    refine hflat.enter ?_
    show states.parent s = none
    rw [hstates.parent s hlt]
    exact hroots funcName lineNum s hent.find_self
  · rw [hobs, hpushed, List.flatMap_append, List.flatMap_append, List.flatMap_singleton,
      List.flatMap_singleton]
    show Lib.Thinned (_ ++ if (funcName, lineNum) = roi then [.enter] else [])
      (_ ++ if s = r then [.enter] else [])
    by_cases hs : s = r
    · rw [if_pos hs, if_pos (hname.mpr hs)]
      exact h.thinned.keep _
    · rw [if_neg hs, if_neg fun heq => hs (hname.mp heq), List.append_nil, List.append_nil]
      exact h.thinned
  · intro hnone
    rw [hafter] at hnone
    cases hent.active.symm.trans hnone
  · intro rw ptr hmem
    rw [hafter] at hmem
    dsimp only at hmem
    rw [h.outside hclosed] at hmem
    cases rw <;> exact absurd hmem (Finset.notMem_empty ptr)

/-- The open ROI is left. -/
theorem Tracks.leave (h : Tracks cfg states roi r p cs) {stateID : StateId}
    (hmatched : Observation.openAfter (observations cs) ≠ none) :
    Tracks cfg states roi r p (cs ++ [.caratReportState stateID]) := by
  have hopened := h.opened
  cases hopen : Observation.openAfter (observations cs) with
  | none => exact absurd hopen hmatched
  | some roi' =>
      rw [hopen] at hopened
      obtain ⟨s, hactive, hfind⟩ := hopened
      obtain ⟨hclosed, hmap, hpop⟩ := endState_of_active hactive stateID
      rw [h.roots _ _ _ hfind] at hpop
      have hcall : ∀ trackCycles, (cfg.after cs).producer.call trackCycles (.endState stateID)
          = (((cfg.after cs).producer.endState stateID).1, [.write (.stateEnd s)]) := by
        intro trackCycles
        unfold Producer.call
        dsimp only
        split
        · next heq =>
            rw [heq] at hclosed
            cases hclosed
        · next heq =>
            rw [heq] at hclosed
            injection hclosed with hclosed
            rw [heq, hclosed]
      have hafter : cfg.after (cs ++ [.caratReportState stateID])
          = { cfg.after cs with
              seen := Seen.empty
              producer := ((cfg.after cs).producer.endState stateID).1 } := by
        rw [after_concat]
        unfold WrapperConfig.makes
        show ({ cfg.after cs with
            seen := Seen.empty
            producer :=
              ((cfg.after cs).producer.call cfg.options.trackCycles (.endState stateID)).1 } :
              Wrappers) = _
        rw [hcall]
      have hpushed : cfg.pushed (cs ++ [.caratReportState stateID])
          = cfg.pushed cs ++ [.stateEnd s] := by
        rw [pushed_concat]
        show _ ++ writesOf ((cfg.after cs).producer.calls _ [.endState stateID]).2 = _
        rw [writesOf_calls_cons, hcall]
        rfl
      have hobs : observations (cs ++ [.caratReportState stateID]) = observations cs ++ [.leave] :=
        observations_concat cs _
      have hflat := h.flat
      rw [hactive] at hflat
      refine ⟨?_, ?_, ?_, ?_, ?_, ?_⟩
      · rw [hafter, hobs, openAfter_append]
        exact hpop
      · rw [hafter]
        dsimp only
        rw [hmap]
        exact h.roots
      · rw [hafter, hpushed]
        dsimp only
        rw [hpop]
        exact hflat.leave
      · rw [hobs, hpushed, List.flatMap_append, List.flatMap_append]
        exact h.thinned.keep .leave
      · intro _
        rw [hafter]
      · intro rw ptr hmem
        rw [hafter] at hmem
        cases rw <;> exact absurd hmem (Finset.notMem_empty ptr)

/-- A load or a store. -/
theorem Tracks.access (h : Tracks cfg states roi r p cs) {id : UInt64} {ptr : Addr} {rw : Rw}
    {traceArg : Option Trace} {addresses : List Addr}
    (hbody : cfg.body (cfg.after cs) c
      = cfg.accessWrapper (cfg.after cs) id ptr rw traceArg addresses)
    (hobserve : observeCall c = [.access rw ptr addresses])
    (huniform : ∀ addresses', .access rw ptr addresses' ∈ observations cs →
      addresses' = addresses) :
    Tracks cfg states roi r p (cs ++ [c]) := by
  have hobs : observations (cs ++ [c]) = observations cs ++ [.access rw ptr addresses] := by
    rw [observations_concat, hobserve]
  have hevents : (observations (cs ++ [c])).flatMap (Observation.cellEvents roi p)
      = (observations cs).flatMap (Observation.cellEvents roi p)
        ++ addresses.flatMap fun q => if q = p then [.access rw] else [] := by
    rw [hobs, List.flatMap_append, List.flatMap_singleton]
    rfl
  have hopen : Observation.openAfter (observations (cs ++ [c]))
      = Observation.openAfter (observations cs) := by
    rw [hobs, openAfter_append]
    rfl
  have hmore : ∀ {rw' : Rw} {ptr' : Addr} {as : List Addr},
      .access rw' ptr' as ∈ observations cs → .access rw' ptr' as ∈ observations (cs ++ [c]) := by
    intro rw' ptr' as hmem
    rw [hobs]
    exact List.mem_append_left _ hmem
  -- a wrapper that returns early leaves everything as it is
  have hreturns : cfg.accessWrapper (cfg.after cs) id ptr rw traceArg addresses
        = (cfg.after cs, []) →
      (p ∈ addresses →
        RepeatsAccess ((cfg.pushed cs).flatMap (SlotWrite.cellEvents r p)) rw) →
      Tracks cfg states roi r p (cs ++ [c]) := by
    intro heq hrep
    have hafter : cfg.after (cs ++ [c]) = cfg.after cs := by
      rw [after_concat, hbody, heq]
      rfl
    have hpushed : cfg.pushed (cs ++ [c]) = cfg.pushed cs := by
      rw [pushed_concat, hbody, heq]
      exact List.append_nil _
    refine ⟨?_, ?_, ?_, ?_, ?_, ?_⟩
    · rw [hafter, hopen]
      exact h.opened
    · rw [hafter]
      exact h.roots
    · rw [hafter, hpushed]
      exact h.flat
    · rw [hevents, hpushed]
      exact thinned_drops addresses hrep h.thinned
    · rw [hafter]
      exact h.outside
    · intro rw' ptr' hmem
      rw [hafter] at hmem
      obtain ⟨as, hobserved, hrepeats⟩ := h.seen rw' ptr' hmem
      rw [hpushed]
      exact ⟨as, hmore hobserved, hrepeats⟩
  cases hactive : (cfg.after cs).producer.activeState with
  | none =>
      refine hreturns (accessWrapper_outside hactive) fun _ it hit => ?_
      have hcurrent := (h.flat.history r p).2
      rw [hactive, hit] at hcurrent
      cases hcurrent.mp rfl
  | some s =>
      cases hseen : cfg.checkSeen (cfg.after cs).seen ptr rw with
      | none =>
          refine hreturns (accessWrapper_seen hactive hseen) ?_
          have hmem : ptr ∈ (cfg.after cs).seen.of rw := by
            unfold WrapperConfig.checkSeen at hseen
            split at hseen
            · next hcheck => simpa using (Bool.and_eq_true_iff.mp hcheck).2
            · cases hseen
          obtain ⟨as, hobserved, hrepeats⟩ := h.seen rw ptr hmem
          rw [← huniform as hobserved]
          exact hrepeats
      | some sn =>
          have hsn : sn = (cfg.after cs).seen.insert ptr rw := by
            unfold WrapperConfig.checkSeen at hseen
            split at hseen
            · cases hseen
            · exact (Option.some_inj.mp hseen).symm
          have hwrapper : cfg.accessWrapper (cfg.after cs) id ptr rw traceArg addresses = _ :=
            accessWrapper_pushes hactive hseen
          obtain ⟨hkeep, hwrites⟩ := calls_addToState cfg.options.trackCycles hactive rw
            (cfg.useID (cfg.after cs).callstacks id traceArg).2 addresses
          have hproducer : (cfg.after (cs ++ [c])).producer = (cfg.after cs).producer := by
            rw [after_concat, hbody, hwrapper]
            exact hkeep
          have hafter : (cfg.after (cs ++ [c])).seen = (cfg.after cs).seen.insert ptr rw := by
            rw [after_concat, hbody, hwrapper, ← hsn]
            rfl
          have hpushed : cfg.pushed (cs ++ [c]) = cfg.pushed cs ++ addresses.map fun q =>
              .access rw q (cfg.useID (cfg.after cs).callstacks id traceArg).2 := by
            rw [pushed_concat, hbody, hwrapper, ← hwrites]
            rfl
          have hcells : (cfg.pushed (cs ++ [c])).flatMap (SlotWrite.cellEvents r p)
              = (cfg.pushed cs).flatMap (SlotWrite.cellEvents r p)
                ++ addresses.flatMap fun q => if q = p then [.access rw] else [] := by
            rw [hpushed, List.flatMap_append, List.flatMap_map]
            rfl
          refine ⟨?_, ?_, ?_, ?_, ?_, ?_⟩
          · rw [hproducer, hopen]
            exact h.opened
          · rw [hproducer]
            exact h.roots
          · have hflat := h.flat
            rw [hactive] at hflat
            rw [hproducer, hpushed, hactive]
            exact hflat.accesses rw _ addresses
          · rw [hevents, hcells]
            exact h.thinned.keeps _
          · rw [hproducer, hactive]
            exact nofun
          · intro rw' ptr' hmem
            rw [hafter] at hmem
            rw [hcells]
            -- the address is the one of this access, or was seen before
            have hcase : (rw' = rw ∧ ptr' = ptr) ∨ ptr' ∈ (cfg.after cs).seen.of rw' := by
              cases rw <;> cases rw' <;>
                simp only [Seen.insert, Seen.of, Finset.mem_insert] at hmem ⊢
              · exact hmem.imp_left fun heq => ⟨True.intro, heq⟩
              · exact .inr hmem
              · exact .inr hmem
              · exact hmem.imp_left fun heq => ⟨True.intro, heq⟩
            rcases hcase with ⟨rfl, rfl⟩ | hold
            · refine ⟨addresses, ?_, fun hp => repeats_accesses addresses (.inr ⟨rfl, hp⟩)⟩
              rw [hobs]
              exact List.mem_append_right _ (List.mem_singleton.mpr rfl)
            · obtain ⟨as, hobserved, hrepeats⟩ := h.seen rw' ptr' hold
              exact ⟨as, hmore hobserved, fun hp => repeats_accesses addresses (.inl (hrepeats hp))⟩

end Step

/-- Whole runs: what is pushed is a flat run, and a cell sees of it what
it sees of the program, without accesses that repeat. -/
theorem tracks_calls (cfg : WrapperConfig) {states : StateMap} {roi : Roi} {r : StateId}
    (hr : states.find roi.1 roi.2 = some r) (p : Addr) (cs : List WrapperCall) :
    (∀ c ∈ cs, c.plain = true) → Flat (observations cs) →
      Extends (cfg.after cs).producer.stateMap states → Tracks cfg states roi r p cs := by
  induction cs using List.reverseRecOn with
  | nil => exact fun _ _ _ => tracks_nil cfg states roi r p
  | append_singleton cs c ih =>
      intro hplain hflat hstates
      have hobs := observations_concat cs c
      rw [hobs] at hflat
      have h := ih (fun c' hc' => hplain c' (List.mem_append_left _ hc')) hflat.prefix
        ((extends_after cfg cs c).trans hstates)
      have huniform : ∀ {rw : Rw} {ptr : Addr} {addresses : List Addr},
          observeCall c = [.access rw ptr addresses] → ∀ addresses',
          .access rw ptr addresses' ∈ observations cs → addresses' = addresses := by
        intro rw ptr addresses heq addresses' hmem
        rw [heq] at hflat
        exact hflat.uniform rw ptr _ _ (List.mem_append_left _ hmem)
          (List.mem_append_right _ (List.mem_singleton.mpr rfl))
      have hproducer : ∀ {calls : List Call},
          (cfg.body (cfg.after cs) c).2 = calls →
          ((cfg.after cs).producer.calls cfg.options.trackCycles calls).1
            = (cfg.after cs).producer →
          (cfg.after (cs ++ [c])).producer = (cfg.after cs).producer := by
        rintro _ rfl heq
        rw [after_concat]
        unfold WrapperConfig.makes
        rw [producer_body]
        exact heq
      cases c with
      | caratStateAlloc id address length traceArg =>
          exact h.idle rfl (hproducer rfl rfl)
            (fun w hw => by rw [List.mem_singleton.mp hw]; rfl) rfl
      | caratStateCalloc id address length sizeOfEntry traceArg =>
          exact h.idle rfl (hproducer rfl rfl)
            (fun w hw => by rw [List.mem_singleton.mp hw]; rfl) rfl
      | caratStateRealloc id address newAddress length traceArg =>
          refine h.idle rfl (hproducer rfl rfl) (fun w hw => ?_) rfl
          rcases List.mem_cons.mp hw with rfl | hw
          · rfl
          · rw [List.mem_singleton.mp hw]
            rfl
      | caratStateRemoveFromAllocationTable address =>
          exact h.idle rfl (hproducer rfl rfl)
            (fun w hw => by rw [List.mem_singleton.mp hw]; rfl) rfl
      | texasAddToStateWithInfo id ptr sizeInBytes sizeElementInBytes traceArg =>
          exact h.access rfl rfl (huniform rfl)
      | texasAddToStateLoad id ptr traceArg => exact h.access rfl rfl (huniform rfl)
      | caratGetState funcName lineNum =>
          exact h.enter (hflat.apart _ _ [] rfl) hstates hr
      | caratReportState stateID => exact h.leave (hflat.matched _ [] rfl)
      | _ => cases hplain _ (List.mem_append_right _ (List.mem_singleton.mpr rfl))

end Carmot.Linked
