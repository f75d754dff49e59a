/-
What the runtime is told while the instrumented program runs.

The log is the instructions that ran with the reports around each of
them (`instrumented_log`). Of the calls of a runtime function it has
those at the instructions that ran, one by one and in order.
-/
import Carmot.Pass.Proofs.EditedHooks

namespace Carmot.Pass

open StateTransition

variable {Func Block Inst Value State : Type}

-- ==================================================================== runs

section Runs

variable (P : Code Func Block Inst) (m : Meaning Func Block Inst Value State)

/-- A log only grows. -/
theorem log_fire (as : List (Added Value)) :
    ∀ c : Config Inst Value State, c.log <+: (c.fire m as).log := by
  induction as with
  | nil => exact fun c => List.prefix_refl _
  | cons a as ih =>
      intro c
      refine List.IsPrefix.trans ?_ (ih (c.perform m a))
      unfold Config.perform
      split
      · exact List.prefix_refl _
      · exact List.prefix_append _ _

theorem log_complete (bc : Bitcode Block Inst Value) (h : Hooks Inst Value)
    (c : Config Inst Value State) : c.log <+: (c.complete P m bc h).log := by
  unfold Config.complete
  split
  · split
    · unfold Config.jump
      split <;> exact List.prefix_refl _
    · next j rest _ _ _ _ =>
        exact log_fire m (h.after j)
          { c with frames := c.frames.modifyHead fun fr => { fr with rest := rest } }
  · exact List.prefix_refl _

theorem log_transfer (bc : Bitcode Block Inst Value) (h : Hooks Inst Value)
    (c : Config Inst Value State) (o : Outcome Func Block) :
    c.log <+: (c.transfer P m bc h o).log := by
  cases o with
  | done => exact log_complete P m bc h c
  | ret => exact log_complete P m bc h c.leave
  | goto b =>
      show c.log <+: (c.jump bc b).log
      unfold Config.jump
      split <;> exact List.prefix_refl _
  | call f => exact List.prefix_refl _
  | throw => exact List.prefix_refl _
  | halt => exact List.prefix_refl _

theorem log_step (bc : Bitcode Block Inst Value) (h : Hooks Inst Value)
    {c c' : Config Inst Value State} (hstep : step P m bc h c = some c') : c.log <+: c'.log := by
  obtain ⟨frames, s, entered, log⟩ := c
  cases frames with
  | nil => cases hstep
  | cons fr frs =>
      obtain ⟨number, callstackInst, rest⟩ := fr
      cases rest with
      | nil => cases hstep
      | cons j rest =>
          cases j with
          | added a =>
              rw [← Option.some_inj.mp hstep]
              exact log_fire m [a] ⟨⟨number, callstackInst, rest⟩ :: frs, s, entered, log⟩
          | code i =>
              rw [← Option.some_inj.mp hstep]
              refine (log_fire m (h.before i) _).trans ?_
              refine List.IsPrefix.trans ?_ (log_transfer P m bc h _ _)
              exact List.prefix_append _ _

theorem log_reaches (bc : Bitcode Block Inst Value) (h : Hooks Inst Value)
    {c c' : Config Inst Value State} (hreach : Reaches (step P m bc h) c c') : c.log <+: c'.log := by
  induction hreach with
  | refl => exact List.prefix_refl _
  | tail _ hstep ih => exact ih.trans (log_step P m bc h hstep)

variable {P m}

theorem Config.reported_init (h : Hooks Inst Value) (s : State) :
    (Config.init P P.bitcode s : Config Inst Value State).Reported P m h := by
  refine ⟨rfl, ?_, fun fr hfr => absurd hfr List.not_mem_nil⟩
  intro fr hfr
  rw [← Option.some_inj.mp hfr]
  exact Or.inr ⟨P.main, P.main_mem, rfl⟩

theorem Config.Reported.reaches {h : Hooks Inst Value} {c c' : Config Inst Value State}
    (hc : c.Reported P m h) (hclean : h.Clean P) (hcalls : m.CallsWell P h)
    (hfirst : ∀ f ∈ P.functions, CapturesFirst (h.before (P.firstInsertionPt (P.entryBlock f))))
    (hreach : Reaches (Pass.step P m P.bitcode h) c c') : c'.Reported P m h := by
  induction hreach with
  | refl => exact hc
  | tail _ hstep ih => exact ih.step hclean hcalls hfirst hstep

/-- Runs with other hooks. -/
theorem reaches_alike {h h' : Hooks Inst Value} {s : State} {c : Config Inst Value State}
    (hc : Reaches (step P m P.bitcode h) (Config.init P P.bitcode s) c) :
    ∃ d : Config Inst Value State, Reaches (step P m P.bitcode h') (Config.init P P.bitcode s) d
      ∧ c.strip = d.strip := by
  induction hc with
  | refl => exact ⟨_, Relation.ReflTransGen.refl, rfl⟩
  | tail _ hstep ih =>
      obtain ⟨d, hd, heq⟩ := ih
      have halike := step_alike P m P.bitcode h h' heq
      rw [hstep] at halike
      obtain ⟨d', hd', heq'⟩ := halike
      exact ⟨d', Relation.ReflTransGen.tail hd hd', heq'⟩

variable [DecidableEq Func] [DecidableEq Block] [DecidableEq Inst]

/-- While the program runs, the log of the instrumented module is the
instructions that ran with the code around each of them, evaluated in
the state before it and the state after it, the call stack operand
being the one of the frame it ran in. Between two instructions the log
is a beginning of such a list. -/
theorem instrumented_log (P : Code Func Block Inst) (m : Meaning Func Block Inst Value State)
    (o : InsertionOptions) (V : Visited Func Inst Value)
    (hall : o.disableAllInstrumentation = false) (hV : V.Placed P) (hlib : V.Library P m)
    (s : State) :
    let bc : Bitcode Block Inst Value := P.bitcode
    let start := Config.init P bc s
    let start' := Config.init P (instrumentModule P o V bc) s
    let events := m.wovenEvents (moduleHooks P o V)
    (∀ c, Reaches (step P m bc Hooks.none) start c →
      ∃ e, Reaches (step P m (instrumentModule P o V bc) Hooks.none) start' e
        ∧ e.state = c.state ∧ e.log = c.ran.flatMap events)
      ∧ ∀ e, Reaches (step P m (instrumentModule P o V bc) Hooks.none) start' e →
        ∃ c, Reaches (step P m bc Hooks.none) start c ∧ e.log <+: c.ran.flatMap events := by
  intro bc start start' events
  have hweave : instrumentModule P o V bc = weave (moduleHooks P o V) bc :=
    instrumentModule_weave o hV
  have hstart : start' = start.weave (moduleHooks P o V) := by
    show Config.init P (instrumentModule P o V bc) s = _
    rw [hweave]
    rfl
  rw [hweave, hstart]
  have hrespects := weave_respects P m bc (moduleHooks P o V)
  have hlog : ∀ {c d : Config Inst Value State}, c.strip = d.strip →
      Reaches (step P m bc (moduleHooks P o V)) start d → d.log = c.ran.flatMap events := by
    intro c d hcd hd
    have hreported := (Config.reported_init (moduleHooks P o V) s).reaches
      (moduleHooks_clean o hV) (hlib.callsWell o) (fun f hf => moduleHooks_capturesFirst hall V hf) hd
    have hran : c.ran = d.ran := congrArg Config.log hcd
    rw [hran]
    exact hreported.log
  refine ⟨?_, ?_⟩
  · intro c hc
    obtain ⟨d, hd, hcd⟩ := @reaches_alike _ _ _ _ _ P m _ (moduleHooks P o V) _ _ hc
    obtain ⟨e, rfl, he⟩ := tr_reaches hrespects (show start.weave _ = start.weave _ from rfl) hd
    refine ⟨_, he, (congrArg Config.state hcd).symm, ?_⟩
    show d.log = _
    exact hlog hcd hd
  · intro e he
    obtain ⟨d, e', hrest, rfl, hd⟩ :=
      tr_reaches_rev hrespects (show start.weave _ = start.weave _ from rfl) he
    obtain ⟨c, hc, hdc⟩ := @reaches_alike _ _ _ _ _ P m _ Hooks.none _ _ hd
    have hgrow := log_reaches P m _ _ hrest
    change e.log <+: d.log at hgrow
    rw [hlog hdc.symm hd] at hgrow
    exact ⟨c, hc, hgrow⟩

end Runs

-- ======================================================== calls, one by one

/-- Is it a call of one of these functions? -/
def Event.isCallOf (K : Callee → Bool) : Event Inst State → Bool
  | .call callee _ => K callee
  | .ran _ _ _ => false

/-- The calls at an instruction that ran. -/
def Meaning.calledEvents (m : Meaning Func Block Inst Value State) (h : Hooks Inst Value) :
    Event Inst State → List (Event Inst State)
  | .ran number i s => m.reports number s (h.before i) ++ m.reportsAfter h number i s
  | .call _ _ => []

/-- The calls of some functions alone. -/
def Hooks.only (K : Callee → Bool) (h : Hooks Inst Value) : Hooks Inst Value :=
  ⟨fun i => (h.before i).filter (Added.isCallOf K), fun i => (h.after i).filter (Added.isCallOf K)⟩

section Calls

variable (m : Meaning Func Block Inst Value State) (K : Callee → Bool)

theorem reports_only (number : Nat) (s : State) (as : List (Added Value)) :
    (m.reports number s as).filter (Event.isCallOf K)
      = m.reports number s (as.filter (Added.isCallOf K)) := by
  unfold Meaning.reports
  rw [List.filter_flatMap]
  induction as with
  | nil => rfl
  | cons a as ih =>
      rw [List.flatMap_cons, ih]
      have hone : ∀ {callee : Callee} {args : List Arg},
          [(.call callee args : Event Inst State)].filter (Event.isCallOf K)
            = if K callee = true then [.call callee args] else [] := by
        intro callee args
        by_cases hK : K callee = true
        · rw [if_pos hK]
          exact List.filter_cons_of_pos hK
        · rw [if_neg hK]
          exact List.filter_cons_of_neg hK
      cases a with
      | cast v => rfl
      | call callee args =>
          rw [show m.events _ s (.call callee args) = [.call callee _] from rfl, hone]
          by_cases hK : K callee = true
          · rw [if_pos hK, List.filter_cons_of_pos (show Added.isCallOf K (.call callee args) = true from hK)]
            rfl
          · rw [if_neg hK, List.filter_cons_of_neg (show ¬Added.isCallOf K (.call callee args) = true from hK)]
            rfl

theorem wovenEvents_only (h : Hooks Inst Value) (ev : Event Inst State) :
    (m.wovenEvents h ev).filter (Event.isCallOf K) = m.calledEvents (h.only K) ev := by
  cases ev with
  | call callee args => rfl
  | ran number i s =>
      have hafter : (m.reportsAfter h number i s).filter (Event.isCallOf K)
          = m.reportsAfter (h.only K) number i s := by
        unfold Meaning.reportsAfter
        split
        · exact reports_only m K _ _ _
        · rfl
      show (m.reports number s (h.before i) ++ _ :: _).filter _ = _
      rw [List.filter_append, reports_only, List.filter_cons_of_neg Bool.false_ne_true, hafter]
      rfl

variable [DecidableEq Func] [DecidableEq Block] [DecidableEq Inst]

/-- The calls of some functions are those at the instructions that
ran. -/
theorem called_log (P : Code Func Block Inst) (o : InsertionOptions) (V : Visited Func Inst Value)
    (hall : o.disableAllInstrumentation = false) (hV : V.Placed P) (hlib : V.Library P m)
    {h : Hooks Inst Value} (hh : (moduleHooks P o V).only K = h) (s : State) :
    let bc : Bitcode Block Inst Value := P.bitcode
    let start := Config.init P bc s
    let start' := Config.init P (instrumentModule P o V bc) s
    (∀ c, Reaches (step P m bc Hooks.none) start c →
      ∃ e, Reaches (step P m (instrumentModule P o V bc) Hooks.none) start' e
        ∧ e.state = c.state
        ∧ e.log.filter (Event.isCallOf K) = c.ran.flatMap (m.calledEvents h))
      ∧ ∀ e, Reaches (step P m (instrumentModule P o V bc) Hooks.none) start' e →
        ∃ c, Reaches (step P m bc Hooks.none) start c
          ∧ e.log.filter (Event.isCallOf K) <+: c.ran.flatMap (m.calledEvents h) := by
  intro bc start start'
  have hfilter : ∀ evs : List (Event Inst State),
      (evs.flatMap (m.wovenEvents (moduleHooks P o V))).filter (Event.isCallOf K)
        = evs.flatMap (m.calledEvents h) := by
    intro evs
    rw [List.filter_flatMap, ← hh]
    apply List.flatMap_congr
    intro ev _
    exact wovenEvents_only m K _ ev
  obtain ⟨hforward, hback⟩ := instrumented_log P m o V hall hV hlib s
  refine ⟨?_, ?_⟩
  · intro c hc
    obtain ⟨e, he, hstate, hlog⟩ := hforward c hc
    refine ⟨e, he, hstate, ?_⟩
    rw [hlog, hfilter]
  · intro e he
    obtain ⟨c, hc, hfront⟩ := hback e he
    refine ⟨c, hc, ?_⟩
    rw [← hfilter]
    exact hfront.filter _

end Calls

end Carmot.Pass
