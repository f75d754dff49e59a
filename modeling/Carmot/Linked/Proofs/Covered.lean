/-
The calls of the wrappers tell of every access a ROI sees.

Of an instruction that ran the log has the report of its access, if its
function is one to instrument (`observations_log`). Such are the
functions that begin a ROI and what they reach in the call graph. A ROI
does not outlive the frame that begins it, and the functions on the
stack are a path of the call graph, so whatever accesses memory while a
ROI is open is instrumented, and the accesses the log does not tell of
are made outside of ROIs (`lacks_of_reaches`).
-/
import Carmot.Linked.Proofs.Filter
import Carmot.Pass.Proofs.AccessesOnce
import Carmot.Pass.Proofs.LoadStoreFunctions

namespace Carmot.Linked

open Carmot.Lib
open Carmot.Pass (Code ModuleInfo Meaning CallGraph VisitorSets Callee Hooks Added Stacked
  onStack_of_reaches onceHooks)
open Carmot.Texas (Addr Roi)
open Carmot.Wrapper (WrapperCall)
open Relation (ReflTransGen)
open StateTransition

variable {Func Block Inst Value State : Type}

-- ========================================================= what the log lacks

/-- The second list is the first without accesses made outside of
ROIs. -/
inductive Lacks : List Observation → List Observation → Prop
  | nil : Lacks [] []
  | keep {obs obs' : List Observation} (h : Lacks obs obs') (ob : Observation) :
      Lacks (obs ++ [ob]) (obs' ++ [ob])
  | drop {obs obs' : List Observation} (h : Lacks obs obs')
      (hclosed : Observation.openAfter obs = none) (rw : Rw) (ptr : Addr) (addresses : List Addr) :
      Lacks (obs ++ [.access rw ptr addresses]) obs'

namespace Lacks

variable {obs obs' : List Observation}

theorem keeps (h : Lacks obs obs') (more : List Observation) :
    Lacks (obs ++ more) (obs' ++ more) := by
  induction more generalizing obs obs' with
  | nil =>
      rw [List.append_nil, List.append_nil]
      exact h
  | cons ob more ih =>
      rw [List.append_cons, List.append_cons obs']
      exact ih (h.keep ob)

theorem openAfter_eq (h : Lacks obs obs') :
    Observation.openAfter obs = Observation.openAfter obs' := by
  induction h with
  | nil => rfl
  | keep _ ob ih => rw [openAfter_append, openAfter_append, ih]
  | drop _ _ rw ptr addresses ih =>
      rw [openAfter_append]
      exact ih

theorem subset (h : Lacks obs obs') : obs' ⊆ obs := by
  induction h with
  | nil => exact List.Subset.refl _
  | keep _ ob ih =>
      intro ob' hob
      rcases List.mem_append.mp hob with hob | hob
      · exact List.mem_append_left _ (ih hob)
      · exact List.mem_append_right _ hob
  | drop _ _ rw ptr addresses ih => exact fun ob hob => List.mem_append_left _ (ih hob)

theorem flat (h : Lacks obs obs') (hflat : Flat obs) : Flat obs' := by
  induction h with
  | nil => exact hflat
  | @keep obs obs' h ob ih =>
      have hprefix := ih hflat.prefix
      have hopen := h.openAfter_eq
      refine ⟨?_, ?_, ?_, ?_⟩
      · intro pre roi post heq
        rcases concat_eq_append_cons heq with ⟨rfl, rfl, -⟩ | ⟨post', -, heq⟩
        · rw [← hopen]
          exact hflat.apart obs roi [] rfl
        · exact hprefix.apart pre roi post' heq
      · intro pre post heq
        rcases concat_eq_append_cons heq with ⟨rfl, rfl, -⟩ | ⟨post', -, heq⟩
        · rw [← hopen]
          exact hflat.matched obs [] rfl
        · exact hprefix.matched pre post' heq
      · intro rw ptr addresses addresses' hmem hmem'
        exact hflat.uniform rw ptr addresses addresses' ((h.keep ob).subset hmem)
          ((h.keep ob).subset hmem')
      · exact fun hmem => hflat.one_invocation ((h.keep ob).subset hmem)
  | drop _ _ rw ptr addresses ih => exact ih hflat.prefix

end Lacks

theorem iterations_append (evs evs' : List CellEvent) :
    Iterations.after (evs ++ evs') = evs'.foldl Iterations.step (Iterations.after evs) :=
  List.foldl_append

/-- Accesses outside of ROIs are nothing to the iterations. -/
theorem accesses_outside (rw : Rw) (p : Addr) (addresses : List Addr) :
    ∀ its : Iterations, its.current = none →
      (addresses.flatMap fun q => if q = p then [CellEvent.access rw] else []).foldl
        Iterations.step its = its := by
  induction addresses with
  | nil => exact fun _ _ => rfl
  | cons q addresses ih =>
      intro its hnone
      rw [List.flatMap_cons, List.foldl_append]
      have hone : (if q = p then [CellEvent.access rw] else []).foldl Iterations.step its
          = its := by
        split
        · obtain ⟨finished, current⟩ := its
          dsimp only at hnone
          subst hnone
          rfl
        · rfl
      rw [hone]
      exact ih its hnone

/-- There is no current iteration while no ROI is open. -/
theorem current_of_closed (roi : Roi) (p : Addr) (obs : List Observation) :
    Observation.openAfter obs = none →
      (Iterations.after (obs.flatMap (Observation.cellEvents roi p))).current = none := by
  induction obs using List.reverseRecOn with
  | nil => exact fun _ => rfl
  | append_singleton obs ob ih =>
      intro hclosed
      rw [openAfter_append] at hclosed
      rw [List.flatMap_append, List.flatMap_singleton, iterations_append]
      cases ob with
      | enter roi' => cases hclosed
      | leave => rfl
      | invocationEnds => exact ih hclosed
      | access rw ptr addresses =>
          have hnone := ih hclosed
          have hsame := accesses_outside rw p addresses _ hnone
          exact (congrArg Iterations.current hsame).trans hnone

/-- The iterations of a ROI see the same of both. -/
theorem Lacks.iterations_eq {obs obs' : List Observation} (h : Lacks obs obs') (roi : Roi)
    (p : Addr) : Iterations.after (obs.flatMap (Observation.cellEvents roi p))
      = Iterations.after (obs'.flatMap (Observation.cellEvents roi p)) := by
  induction h with
  | nil => rfl
  | keep _ ob ih =>
      rw [List.flatMap_append, List.flatMap_append, iterations_append, iterations_append, ih]
  | @drop obs obs' _ hclosed rw ptr addresses ih =>
      rw [List.flatMap_append, List.flatMap_singleton, iterations_append, ← ih]
      exact accesses_outside rw p addresses _ (current_of_closed roi p obs hclosed)

-- ======================================================== what the log tells

section Log

variable (P : Code Func Block Inst) (info : ModuleInfo Func Inst Value)
  (m : Meaning Func Block Inst Value State) (link : Linking State) (sets : VisitorSets Func Inst)

/-- What the log tells of an instruction that ran. -/
def observeReported [DecidableEq Func] [DecidableEq Inst] : Pass.Event Inst State → List Observation
  | .ran _ i s =>
      (marker info m link i s).toList.flatMap observeCall ++
        if P.functionOf i ∈ P.functions ∧ sets.visits P i = true then observeAccess info m i s
        else []
  | .call _ _ => []

/-- The pointer operand of an access is the same after it. -/
def KeepsOperands : Prop :=
  ∀ i c s, info.access i = some c →
    m.eval c.entry.pointerOperand (m.exec i s).1 = m.eval c.entry.pointerOperand s

variable {P info m link sets}

theorem observations_wrapperCalls (log : List (Pass.Event Inst State)) :
    observations (wrapperCalls info m link log)
      = log.flatMap fun ev => (eventCall info m link ev).toList.flatMap observeCall := by
  unfold observations wrapperCalls
  rw [List.filterMap_eq_flatMap_toList, List.flatMap_assoc]

/-- Of calls only the reports of accesses tell something. -/
theorem observations_reports (number : Nat) (s : State) (as : List (Added Value)) :
    observations (wrapperCalls info m link (m.reports number s as))
      = observations (wrapperCalls info m link
        (m.reports number s (as.filter (Added.isCallOf Callee.isAccess)))) := by
  rw [← Pass.reports_only, observations_wrapperCalls, observations_wrapperCalls]
  have hcalls : ∀ ev ∈ m.reports number s as, ∃ callee args, ev = .call callee args := by
    intro ev hev
    obtain ⟨a, -, hev⟩ := List.mem_flatMap.mp hev
    cases a with
    | cast v => cases hev
    | call callee args => exact ⟨callee, _, List.mem_singleton.mp hev⟩
  generalize m.reports number s as = log at hcalls
  induction log with
  | nil => rfl
  | cons ev log ih =>
      have hrest := ih fun ev' hev' => hcalls ev' (List.mem_cons_of_mem ev hev')
      obtain ⟨callee, args, rfl⟩ := hcalls ev List.mem_cons_self
      rw [List.flatMap_cons, hrest]
      by_cases hcall :
          (Pass.Event.call callee args : Pass.Event Inst State).isCallOf Callee.isAccess
      · rw [List.filter_cons_of_pos hcall, List.flatMap_cons]
      · rw [List.filter_cons_of_neg hcall]
        have hnil : (wrapperCall link.traceOf callee args).toList.flatMap observeCall = [] := by
          unfold wrapperCall
          split <;> first | rfl | exact absurd rfl hcall
        exact congrArg (· ++ _) hnil

/-- The report of an access tells of it. -/
theorem observations_access (hkeeps : KeepsOperands info m) (ids : Inst → UInt64) (number : Nat)
    (i : Inst) (s : State) (hdone : (m.exec i s).2 = .done) :
    observations (wrapperCalls info m link (m.reports number (m.exec i s).1
        ((info.access i).toList.map fun c => { c.entry with id := ids i }.call)))
      = observeAccess info m i s := by
  unfold observeAccess
  rw [hdone]
  cases hclass : info.instClass i with
  | load getPointerOperand =>
      have haccess : info.access i = some ⟨⟨i, getPointerOperand, .load, 0⟩,
          Pass.accessDebug (info.getDebugLoc i)⟩ := by
        unfold ModuleInfo.access
        rw [hclass]
      have hsame := hkeeps i _ s haccess
      rw [haccess]
      dsimp only at hsame ⊢
      rw [← hsame]
      rfl
  | store getPointerOperand valueType =>
      have haccess : info.access i = some ⟨⟨i, getPointerOperand,
          .store valueType.primitiveSizeInBytes valueType.typeSizeInBytes, 0⟩,
          Pass.accessDebug (info.getDebugLoc i)⟩ := by
        unfold ModuleInfo.access
        rw [hclass]
      have hsame := hkeeps i _ s haccess
      rw [haccess]
      dsimp only at hsame ⊢
      rw [← hsame]
      rfl
  | _ =>
      have haccess : info.access i = none := by
        unfold ModuleInfo.access
        rw [hclass]
      rw [haccess]
      rfl

variable [DecidableEq Func] [DecidableEq Inst]

/-- Of an instruction that ran the log has what it is to the ROIs, if
its function is to be instrumented or it accesses nothing. -/
theorem observations_woven {h : Hooks Inst Value} {ids : Inst → UInt64}
    (honce : h.only Callee.isAccess = onceHooks P info sets ids) (hkeeps : KeepsOperands info m)
    (ev : Pass.Event Inst State) :
    observations (wrapperCalls info m link (m.wovenEvents h ev))
      = observeReported P info m link sets ev := by
  cases ev with
  | call callee args => rfl
  | ran number i s =>
      have hbefore : (h.before i).filter (Added.isCallOf Callee.isAccess) = [] :=
        congrFun (congrArg Hooks.before honce) i
      have hafter : (h.after i).filter (Added.isCallOf Callee.isAccess)
          = (onceHooks P info sets ids).after i := congrFun (congrArg Hooks.after honce) i
      have hsplit : ∀ log log' : List (Pass.Event Inst State),
          observations (wrapperCalls info m link (log ++ log'))
            = observations (wrapperCalls info m link log)
              ++ observations (wrapperCalls info m link log') := by
        intro log log'
        unfold observations wrapperCalls
        rw [List.filterMap_append, List.flatMap_append]
      have hmarker : observations (wrapperCalls info m link [.ran number i s])
          = (marker info m link i s).toList.flatMap observeCall := by
        rw [observations_wrapperCalls, List.flatMap_singleton]
        rfl
      have hreports : observations (wrapperCalls info m link (m.reportsAfter h number i s))
          = if P.functionOf i ∈ P.functions ∧ sets.visits P i = true then observeAccess info m i s
            else [] := by
        unfold Meaning.reportsAfter
        split
        · next s' hexec =>
            rw [observations_reports, hafter]
            unfold onceHooks
            dsimp only
            have hs' : s' = (m.exec i s).1 := by rw [hexec]
            have hdone : (m.exec i s).2 = .done := by rw [hexec]
            split
            · rw [hs']
              exact observations_access hkeeps ids number i s hdone
            · rfl
        · next hother =>
            have hnil : observeAccess info m i s = [] := by
              unfold observeAccess
              split
              · next hdone _ => exact (hother _ (Prod.ext rfl hdone)).elim
              · next hdone _ => exact (hother _ (Prod.ext rfl hdone)).elim
              · rfl
            rw [hnil, ite_self]
            rfl
      show observations (wrapperCalls info m link
        (m.reports number s (h.before i) ++ ([.ran number i s] ++ m.reportsAfter h number i s))) = _
      rw [hsplit, hsplit, hmarker, hreports, observations_reports, hbefore]
      rfl

/-- What a whole log tells. -/
theorem observations_log {h : Hooks Inst Value} {ids : Inst → UInt64}
    (honce : h.only Callee.isAccess = onceHooks P info sets ids) (hkeeps : KeepsOperands info m)
    (evs : List (Pass.Event Inst State)) :
    observations (wrapperCalls info m link (evs.flatMap (m.wovenEvents h)))
      = evs.flatMap (observeReported P info m link sets) := by
  rw [observations_wrapperCalls, List.flatMap_assoc]
  apply List.flatMap_congr
  intro ev _
  rw [← observations_woven honce hkeeps ev, observations_wrapperCalls]

end Log

-- ================================================================ open ROIs

section Stay

variable (info : ModuleInfo Func Inst Value) (m : Meaning Func Block Inst Value State)
  (link : Linking State)

/-- The frame that began the ROI that is open after an event. -/
def openFrameStep (open_ : Option Nat) : Pass.Event Inst State → Option Nat
  | .ran number i s =>
      match marker info m link i s with
      | some (.caratGetState _ _) => some number
      | some (.caratReportState _) => none
      | _ => open_
  | .call _ _ => open_

/-- The frame that began the ROI that is open in the end. -/
def openFrame (evs : List (Pass.Event Inst State)) : Option Nat :=
  evs.foldl (openFrameStep info m link) none

/-- While the program runs, the frame that began the open ROI is on the
stack. -/
def RoisStay (P : Code Func Block Inst) (s : State) : Prop :=
  ∀ c : Pass.Config Inst Value State,
    Reaches (Pass.step P m P.bitcode Hooks.none) (Pass.Config.init P P.bitcode s) c →
      ∀ n, openFrame info m link c.ran = some n → c.frames ≠ [] → ∃ fr ∈ c.frames, fr.number = n

variable {info m link}

/-- What a marker is. -/
theorem marker_cases {i : Inst} {s : State} {c : WrapperCall}
    (h : marker info m link i s = some c) :
    (∃ funcName lineNum fp getOperand, c = .caratGetState funcName lineNum
        ∧ info.instClass i = .call (some fp) getOperand
        ∧ info.getName fp = "caratGetStateWrapper")
      ∨ (∃ stateID, c = .caratReportState stateID)
      ∨ ∃ stateID, c = .endStateInvocation stateID := by
  unfold marker at h
  split at h
  · next fp getOperand hclass =>
      split at h
      · next hname =>
          exact .inl ⟨_, _, fp, getOperand, (Option.some_inj.mp h).symm, hclass, hname⟩
      · split at h
        · exact .inr (.inl ⟨_, (Option.some_inj.mp h).symm⟩)
        · split at h
          · exact .inr (.inr ⟨_, (Option.some_inj.mp h).symm⟩)
          · cases h
  · cases h

/-- An instruction accesses memory or marks a ROI. -/
theorem observeAccess_cases (info : ModuleInfo Func Inst Value)
    (m : Meaning Func Block Inst Value State) (link : Linking State) (i : Inst) (s : State) :
    observeAccess info m i s = []
      ∨ marker info m link i s = none
        ∧ ∃ rw ptr addresses, observeAccess info m i s = [.access rw ptr addresses] := by
  unfold observeAccess marker
  split
  · next hclass => exact .inr ⟨by rw [hclass], _, _, _, rfl⟩
  · next hclass => exact .inr ⟨by rw [hclass], _, _, _, rfl⟩
  · exact .inl rfl

theorem openFrame_concat (evs : List (Pass.Event Inst State)) (ev : Pass.Event Inst State) :
    openFrame info m link (evs ++ [ev])
      = openFrameStep info m link (openFrame info m link evs) ev := by
  unfold openFrame
  rw [List.foldl_append]
  rfl

/-- The frame made a call of start tracking. -/
theorem began_of_openFrame {n : Nat} (evs : List (Pass.Event Inst State)) :
    openFrame info m link evs = some n →
      ∃ i s fp getOperand, .ran n i s ∈ evs ∧ info.instClass i = .call (some fp) getOperand
        ∧ info.getName fp = "caratGetStateWrapper" := by
  induction evs using List.reverseRecOn with
  | nil => exact nofun
  | append_singleton evs ev ih =>
      intro h
      rw [openFrame_concat] at h
      have hold : openFrame info m link evs = some n →
          ∃ i s fp getOperand, .ran n i s ∈ evs ++ [ev]
            ∧ info.instClass i = .call (some fp) getOperand
            ∧ info.getName fp = "caratGetStateWrapper" := by
        intro h
        obtain ⟨i, s, fp, getOperand, hmem, hi⟩ := ih h
        exact ⟨i, s, fp, getOperand, List.mem_append_left _ hmem, hi⟩
      cases ev with
      | call callee args => exact hold h
      | ran number i s =>
          unfold openFrameStep at h
          dsimp only at h
          cases hmarker : marker info m link i s with
          | none =>
              rw [hmarker] at h
              exact hold h
          | some c =>
              rw [hmarker] at h
              rcases marker_cases hmarker with
                ⟨funcName, lineNum, fp, getOperand, rfl, hclass, hname⟩ | ⟨stateID, rfl⟩
                  | ⟨stateID, rfl⟩
              · rw [← Option.some_inj.mp h]
                exact ⟨i, s, fp, getOperand, List.mem_append_right _ List.mem_cons_self, hclass,
                  hname⟩
              · cases h
              · exact hold h

/-- A ROI is open exactly if a frame began it. -/
theorem isNone_openAfter (evs : List (Pass.Event Inst State)) :
    (Observation.openAfter (evs.flatMap (observe info m link))).isNone
      = (openFrame info m link evs).isNone := by
  induction evs using List.reverseRecOn with
  | nil => rfl
  | append_singleton evs ev ih =>
      rw [openFrame_concat, List.flatMap_append, List.flatMap_singleton, openAfter_append]
      cases ev with
      | call callee args => exact ih
      | ran number i s =>
          have haccess : ∀ open_, (observeAccess info m i s).foldl Observation.openStep open_
              = open_ := by
            intro open_
            rcases observeAccess_cases info m link i s with h | ⟨-, rw, ptr, addresses, h⟩
            · rw [h]
              rfl
            · rw [h]
              rfl
          unfold openFrameStep observe
          dsimp only
          rw [List.foldl_append, haccess]
          cases hmarker : marker info m link i s with
          | none => exact ih
          | some c =>
              rcases marker_cases hmarker with
                ⟨funcName, lineNum, fp, getOperand, rfl, -⟩ | ⟨stateID, rfl⟩ | ⟨stateID, rfl⟩
              · rfl
              · rfl
              · exact ih

end Stay

-- ============================================================ what is covered

section Covered

/-- Functions that begin a ROI and what they reach are instrumented. -/
theorem mem_instrumented {F : Type} [LinearOrder F] {G : CallGraph F} {order : List F → List F}
    (horder : ∀ fs, (order fs).Perm fs) {startTrackingFunction : F} {depth : Nat}
    (hdepth : G.functions.length < depth) {fs : List F}
    (hfs : Pass.getFunctionsToInstrumentLoadStore G order startTrackingFunction depth = some fs)
    {f g : F} (hf : G.Calls f startTrackingFunction) (hpath : ReflTransGen G.Calls f g) :
    g ∈ fs := by
  obtain ⟨visited, heq, hvisits⟩ := Pass.visitChildren_visits depth hdepth
    (order (Pass.getFunctionsThatCallStartTracking G startTrackingFunction)) []
  unfold Pass.getFunctionsToInstrumentLoadStore at hfs
  simp only [heq] at hfs
  have hcaller := Pass.mem_getFunctionsThatCallStartTracking.mpr hf
  rw [← Option.some_inj.mp hfs, Pass.mem_setUnion, (horder _).mem_iff, (horder _).mem_iff]
  rcases hpath.cases_head with rfl | ⟨e, hcall, hpath⟩
  · exact .inl hcaller
  · refine .inr (hvisits.mem_iff.mpr ⟨e, List.mem_flatMap.mpr ⟨f, ?_, hcall⟩, hpath⟩)
    exact (horder _).mem_iff.mpr hcaller

variable {P : Code Func Block Inst} {m : Meaning Func Block Inst Value State}
  {info : ModuleInfo Func Inst Value} {G : CallGraph Func} {link : Linking State}

/-- What one step adds to the instructions that ran. -/
theorem ran_step (hm : m.Along P info G) {functions : Nat → Func}
    {c c' : Pass.Config Inst Value State} (h : c.OnStack P G functions)
    (hstep : Pass.step P m P.bitcode Hooks.none c = some c') :
    c'.ran = c.ran ∨ ∃ fr frs i rest, c.frames = fr :: frs ∧ fr.rest = .code i :: rest
      ∧ c'.ran = c.ran ++ [.ran fr.number i c.state] := by
  obtain ⟨frames, s, entered, log⟩ := c
  obtain ⟨hstacked, -⟩ := h
  cases frames with
  | nil => cases hstep
  | cons fr frs =>
      obtain ⟨number, callstackInst, rest⟩ := fr
      cases rest with
      | nil => cases hstep
      | cons j rest =>
          cases j with
          | added a =>
              left
              have hlog : c'.log = log ++ m.events ⟨number, callstackInst, rest⟩ s a := by
                rw [← Option.some_inj.mp hstep]
                rfl
              unfold Pass.Config.ran
              rw [hlog, List.filter_append]
              cases a with
              | cast v => exact List.append_nil _
              | call callee args => exact List.append_nil _
          | code i =>
              right
              refine ⟨⟨number, callstackInst, .code i :: rest⟩, frs, i, rest, rfl, rfl, ?_⟩
              have hi : P.functionOf i = functions number :=
                hstacked.code _ List.mem_cons_self i List.mem_cons_self
              let c₁ : Pass.Config Inst Value State :=
                ⟨⟨number, callstackInst, .code i :: rest⟩ :: frs, (m.exec i s).1, entered,
                  log ++ [.ran number i s]⟩
              obtain ⟨frames, entered', functions', heq, -, -, -⟩ :=
                Stacked.transfer (c := c₁) hm (i := i) (s := s) rfl hstacked hi
              have hc' : c₁.transfer P m P.bitcode Hooks.none (m.exec i s).2 = c' :=
                Option.some_inj.mp hstep
              rw [← hc', heq]
              unfold Pass.Config.ran
              exact List.filter_append ..

/-- The log lacks only accesses made outside of ROIs. -/
theorem lacks_of_reaches [LinearOrder Func] [DecidableEq Inst] {sets : VisitorSets Func Inst}
    {order : List Func → List Func} (horder : ∀ fs, (order fs).Perm fs)
    {startTrackingFunction : Func} {depth : Nat} (hdepth : G.functions.length < depth)
    (hsets : Pass.getFunctionsToInstrumentLoadStore G order startTrackingFunction depth
      = some sets.functionsToInstrumentLoadStore) (hskip : sets.touchesToSkip = [])
    (hstart : ∀ i fp getOperand, info.instClass i = .call (some fp) getOperand →
      info.getName fp = "caratGetStateWrapper" → G.Calls (P.functionOf i) startTrackingFunction)
    (hm : m.Along P info G) {s : State} (hstay : RoisStay info m link P s)
    {c : Pass.Config Inst Value State}
    (hc : Reaches (Pass.step P m P.bitcode Hooks.none) (Pass.Config.init P P.bitcode s) c) :
    Lacks (c.ran.flatMap (observe info m link))
      (c.ran.flatMap (observeReported P info m link sets)) := by
  induction hc with
  | refl => exact .nil
  | @tail c c' hreach hstep ih =>
      obtain ⟨functions, honstack⟩ := onStack_of_reaches hm hreach
      rcases ran_step hm honstack hstep with hran | ⟨fr, frs, i, rest, hframes, hrest, hran⟩
      · rw [hran]
        exact ih
      · have hstacked := honstack.stacked
        rw [hframes] at hstacked
        have hi : P.functionOf i = functions fr.number := by
          refine hstacked.code fr List.mem_cons_self i ?_
          rw [hrest]
          exact List.mem_cons_self
        rw [hran, List.flatMap_append, List.flatMap_append, List.flatMap_singleton,
          List.flatMap_singleton]
        unfold observe observeReported
        dsimp only
        rcases observeAccess_cases info m link i c.state with
          hnone | ⟨hmarker, rw, ptr, addresses, hone⟩
        · rw [hnone, ite_self]
          exact ih.keeps _
        · by_cases hvisit : P.functionOf i ∈ P.functions ∧ sets.visits P i = true
          · rw [if_pos hvisit]
            exact ih.keeps _
          · rw [if_neg hvisit, hmarker, hone]
            show Lacks (_ ++ [_]) (_ ++ [])
            rw [List.append_nil]
            refine ih.drop ?_ rw ptr addresses
            have hsame : (Observation.openAfter (c.ran.flatMap (observe info m link))).isNone
                = (openFrame info m link c.ran).isNone := isNone_openAfter c.ran
            cases hopen : openFrame info m link c.ran with
            | none =>
                rw [hopen] at hsame
                exact Option.isNone_iff_eq_none.mp hsame
            | some n =>
                -- the function of the access is reached from the one that began the ROI
                obtain ⟨fr', hfr', rfl⟩ := hstay c hreach n hopen (by rw [hframes]; exact nofun)
                rw [hframes] at hfr'
                obtain ⟨j, t, fp, getOperand, hj, hclass, hname⟩ := began_of_openFrame c.ran hopen
                have hbegan : G.Calls (functions fr'.number) startTrackingFunction := by
                  rw [← (honstack.ran _ j t (List.mem_of_mem_filter hj)).2]
                  exact hstart j fp getOperand hclass hname
                have hmem := mem_instrumented horder hdepth hsets hbegan (hstacked.reaches fr' hfr')
                rw [← hi] at hmem
                refine absurd ⟨?_, ?_⟩ hvisit
                · rw [hi]
                  exact hstacked.mem_functions fr List.mem_cons_self
                · unfold VisitorSets.visits
                  rw [hskip]
                  have hno : decide (i ∈ ([] : List Inst)) = false :=
                    decide_eq_false List.not_mem_nil
                  rw [hno, Bool.not_false, Bool.and_true]
                  exact decide_eq_true hmem

end Covered

end Carmot.Linked
