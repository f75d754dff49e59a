/-
What is saved leads back to the source.

At the end the ids of blocks and of uses are looked up among the call
stacks that were saved, and what is found is written out: a stack, and
the id of a report. Three things are put together here. An id that is
looked up was issued; what it was issued for is an argument of a wrapper
(`savedFrom_calls`); and a call of a wrapper in the log stands at an
instruction that ran, with the stack of its frame and an id under which
the file of debug data has the position (`woven_source`). So every stack
that is saved is of a frame the program was in, next to a position of
what it did there (`saved_ids_positions`).
-/
import Carmot.Linked.Proofs.Final

namespace Carmot.Linked

open Carmot.Pass (Code ModuleInfo Meaning VisitorOptions Visited Hooks Bitcode Callee Operand Added
  Edit Entry InsertionOptions PrologueOptions)
open Carmot.Texas (AllocId StateId Setup Sweep Producer divide idealStream)
open Carmot.Wrapper
open StateTransition

variable {Func Block Inst Value State : Type}

-- ========================================================= the stacks saved

/-- What is known of an id is in the list. -/
def SavedFrom (saved : List SaveCall) (cs : Callstacks) : Prop :=
  ∀ id dynamicTrace, cs.dynamicTraces id = some dynamicTrace →
    (dynamicTrace.staticID, dynamicTrace.trace) ∈ saved

section Saved

variable {cfg : WrapperConfig} {saved : List SaveCall}

theorem savedFrom_push {cs : Callstacks} (h : SavedFrom saved cs) {trace : Trace}
    {staticID : UInt64} (hmem : (staticID, trace) ∈ saved) (dynamicID : UInt64) :
    SavedFrom saved (incrementPushReturn cs trace staticID dynamicID).1 := by
  intro id dynamicTrace hid
  unfold incrementPushReturn at hid
  dsimp only at hid
  by_cases heq : id = cs.globalID
  · rw [heq, Function.update_self] at hid
    rw [← Option.some_inj.mp hid]
    exact hmem
  · rw [Function.update_of_ne heq] at hid
    exact h id dynamicTrace hid

theorem savedFrom_save {cs : Callstacks} (h : SavedFrom saved cs) (uint64Hash : UInt64 → UInt64)
    (staticID : UInt64) (traceArg : Option Trace) (hsub : stackOf staticID traceArg ⊆ saved) :
    SavedFrom saved (saveCallstack uint64Hash cs staticID traceArg).1 := by
  cases traceArg with
  | none => exact h
  | some trace =>
      rw [saveCallstack_eq]
      split
      · exact savedFrom_push h (hsub (List.mem_singleton.mpr rfl)) _
      · exact h

theorem savedFrom_allocID {cs : Callstacks} (h : SavedFrom saved cs) (staticID : UInt64)
    (traceArg : Option Trace) (hsub : stackOf staticID traceArg ⊆ saved) :
    SavedFrom saved (cfg.allocID cs staticID traceArg).1 := by
  unfold WrapperConfig.allocID
  split
  · exact h
  · exact savedFrom_save h cfg.uint64Hash staticID traceArg hsub

theorem savedFrom_accessWrapper {w : Wrappers} (h : SavedFrom saved w.callstacks)
    (staticID : UInt64) (ptr : Texas.Addr) (rw : Lib.Rw) (traceArg : Option Trace)
    (addresses : List Texas.Addr) (hsub : stackOf staticID traceArg ⊆ saved) :
    SavedFrom saved (cfg.accessWrapper w staticID ptr rw traceArg addresses).1.callstacks := by
  unfold WrapperConfig.accessWrapper
  split
  · exact h
  · exact h
  · show SavedFrom saved (cfg.useID w.callstacks staticID traceArg).1
    unfold WrapperConfig.useID
    split
    · exact h
    · exact savedFrom_allocID h staticID traceArg hsub

/-- The calls an instrumented program makes of the wrappers. -/
def Made (c : WrapperCall) : Prop := c.plain = true ∨ ∃ stateID, c = .endStateInvocation stateID

theorem savedFrom_body {w : Wrappers} (h : SavedFrom saved w.callstacks) {c : WrapperCall}
    (hmade : Made c) (hsub : c.saveArgs ⊆ saved) : SavedFrom saved (cfg.body w c).1.callstacks := by
  cases c with
  | caratStateAlloc id address length traceArg => exact savedFrom_allocID h id traceArg hsub
  | caratStateCalloc id address length sizeOfEntry traceArg =>
      exact savedFrom_allocID h id traceArg hsub
  | caratStateRealloc id address newAddress length traceArg =>
      exact savedFrom_allocID h id traceArg hsub
  | texasAddToStateWithInfo id ptr sizeInBytes sizeElementInBytes traceArg =>
      exact savedFrom_accessWrapper h id ptr .write traceArg _ hsub
  | texasAddToStateLoad id ptr traceArg =>
      exact savedFrom_accessWrapper h id ptr .read traceArg _ hsub
  | setDirectState _ _ _ _ _ _ _ | texasAddMultiToStatePin _ _ _ =>
      rcases hmade with hplain | ⟨_, heq⟩
      · cases hplain
      · cases heq
  | _ => exact h

/-- What is saved is arguments of the wrappers. -/
theorem savedFrom_calls (cs : List WrapperCall) :
    ∀ w : Wrappers, SavedFrom saved w.callstacks → (∀ c ∈ cs, Made c) →
      (∀ c ∈ cs, c.saveArgs ⊆ saved) → SavedFrom saved (cfg.calls w cs).1.callstacks := by
  induction cs with
  | nil => exact fun _ h _ _ => h
  | cons c cs ih =>
      intro w h hmade hsub
      have hone : SavedFrom saved (cfg.body w c).1.callstacks :=
        savedFrom_body h (hmade c List.mem_cons_self) (hsub c List.mem_cons_self)
      exact ih (cfg.call w c).1 hone (fun c' hc' => hmade c' (List.mem_cons_of_mem c hc'))
        fun c' hc' => hsub c' (List.mem_cons_of_mem c hc')

/-- No access to the highest address is all that is asked of them. -/
theorem idsKnown_of_made {cs : List WrapperCall} {c : WrapperCall} (hc : c ∈ cs) (hmade : Made c)
    (hmax : ∀ rw ptr addresses, .access rw ptr addresses ∈ observations cs →
      Texas.maxAddr ∉ addresses) (o : SaveOptions) : c.IdsKnown o := by
  have hmem : ∀ {ob : Observation}, observeCall c = [ob] → ob ∈ observations cs := by
    intro ob hob
    refine List.mem_flatMap.mpr ⟨c, hc, ?_⟩
    rw [hob]
    exact List.mem_cons_self
  cases c with
  | texasAddToStateWithInfo id ptr sizeInBytes sizeElementInBytes traceArg =>
      intro p hp heq
      rw [heq] at hp
      exact hmax .write ptr _ (hmem rfl) hp
  | texasAddToStateLoad id ptr traceArg =>
      intro heq
      exact hmax .read ptr [ptr] (hmem rfl) (List.mem_singleton.mpr heq.symm)
  | setDirectState _ _ _ _ _ _ _ | texasAddMultiToStatePin _ _ _ =>
      rcases hmade with hplain | ⟨_, heq⟩
      · cases hplain
      · cases heq
  | _ => trivial

/-- An id that is looked up was issued. -/
theorem issued_of_looksUp {mem : Texas.Addr → UInt64} {cs : List WrapperCall} {su : Setup}
    (hstack : cfg.save.disableCallstack = false) (htrace : ∀ c ∈ cs, c.traceArg? ≠ some none)
    (hknown : ∀ c ∈ cs, c.IdsKnown cfg.save) (hW : 1 ≤ su.window)
    (hfin : (su.run (cfg.program mem cs)).Finished (su.config (cfg.program mem cs)))
    (hpast : (su.run (cfg.program mem cs)).InertPast) {a : AllocId} {st : StateId} {id : UInt64}
    (hsaved : SavedIn (su.report (cfg.program mem cs)) (cfg.program mem cs).stateMap.ids a st)
    (hlook : LooksUp cfg.save (su.report (cfg.program mem cs)) a st id) :
    Issued (cfg.saved cs) id := by
  have hcalls := (known_calls hstack cs Wrappers.init recordsIssued_init htrace hknown).2
  have hwrites := Ids.writes_calls cfg.options.trackCycles _ Producer.init hcalls
  refine looksUp_of_known (Texas.forget_run hW hfin hpast) (fun e he => ?_) hsaved hlook
  obtain ⟨w, hw, ptrs, cl, rfl⟩ := mem_idealStream _ he
  rw [(cfg.program mem cs).flatten_divide] at hw
  exact (hwrites w hw).cleaned _ ptrs cl

end Saved

-- ============================================================== the reports

section Reports

variable {P : Code Func Block Inst} {V : Visited Func Inst Value}

variable [DecidableEq Func] [DecidableEq Inst] {info : ModuleInfo Func Inst Value}
  {v : VisitorOptions Func Inst Value} {file : List UInt8} {m : Meaning Func Block Inst Value State}

/-- A report stands at what it is of, with the stack of its frame. -/
theorem woven_source (hcollect : Pass.collectAndWrite P info v = some (V, file))
    (hentries : v.Ordered) (hinfo : info.Describes P) {o : InsertionOptions}
    (hpin : o.disablePin = true) {number : Nat} {i : Inst} {s : State} {callee : Callee}
    {args : List Pass.Arg}
    (hcall : .call callee args ∈ m.wovenEvents (Pass.moduleHooks P o V) (.ran number i s))
    (hid : callee.hasId = true) :
    ∃ id rest debug, args = .word id :: rest ∧ args.getLast? = some (.trace number)
      ∧ Pass.Names file id debug ∧ info.Reported P i debug := by
  have hcode : ∃ (s₁ : State) (operands : List (Operand Value)),
      (.call callee operands ∈ (Pass.moduleHooks P o V).before i
        ∨ .call callee operands ∈ (Pass.moduleHooks P o V).after i)
        ∧ args = operands.map (m.operand (Pass.Frame.captured number) s₁) := by
    rcases List.mem_append.mp hcall with hcall | hcall
    · obtain ⟨operands, hmem, hargs⟩ := Pass.mem_reports hcall
      exact ⟨s, operands, .inl hmem, hargs⟩
    · rcases List.mem_cons.mp hcall with hcall | hcall
      · cases hcall
      · unfold Meaning.reportsAfter at hcall
        split at hcall
        · next s₁ _ =>
            obtain ⟨operands, hmem, hargs⟩ := Pass.mem_reports hcall
            exact ⟨s₁, operands, .inr hmem, hargs⟩
        · cases hcall
  obtain ⟨s₁, operands, hmem, hargs⟩ := hcode
  have hedit : ∃ e ∈ Pass.moduleEdits P o V, .call callee operands ∈ e.insts := by
    rcases hmem with hmem | hmem
    · rcases Pass.mem_before_applyHooks (Pass.moduleEdits P o V) hmem with hmem | ⟨e, he, -, hcall⟩
      · exact absurd hmem List.not_mem_nil
      · exact ⟨e, he, hcall⟩
    · obtain ⟨e, he, -, hcall⟩ := Pass.mem_after_moduleHooks.mp hmem
      exact ⟨e, he, hcall⟩
  obtain ⟨e, he, hinsts⟩ := hedit
  have hlast := (Pass.idCall_moduleEdits he hinsts hid).2 hpin
  obtain ⟨id, rest, debug, rfl, hnames, hreported⟩ :=
    Pass.moduleHooks_names hcollect hentries hinfo o hid hmem
  refine ⟨id, _, debug, hargs, ?_, hnames, hreported⟩
  rw [hargs, List.getLast?_map, hlast]
  rfl

end Reports

/-- What a call of a wrapper saves. -/
theorem wrapperCall_saves {traceOf : Nat → Trace} {callee : Callee} {args : List Pass.Arg}
    {c : WrapperCall} (h : wrapperCall traceOf callee args = some c) :
    (c.traceArg? = none ∧ c.saveArgs = [])
      ∨ callee.hasId = true ∧ ∀ id rest number, args = .word id :: rest →
        args.getLast? = some (.trace number) →
          c.traceArg? = some (some (traceOf number)) ∧ c.saveArgs = [(id, traceOf number)] := by
  unfold wrapperCall at h
  split at h
  all_goals cases h
  all_goals first
    | exact .inl ⟨rfl, rfl⟩
    | refine .inr ⟨rfl, fun id rest number hargs hlast => ?_⟩
      cases hargs
      cases hlast
      exact ⟨rfl, rfl⟩

end Carmot.Linked
