/-
From a program's execution to what is reported of it.

The instrumented module runs as the program does, and its log has the
calls of the wrappers: they tell of the ROIs, and of every access made
in one. What the wrappers push leaves out accesses that repeat, and no
report depends on those. So the Final sets are about what the program
itself did (`final_of_execution`): the classes whose sets hold a cell
join to the class of what the iterations of the ROI do to it, in the
order the instructions ran.
-/
import Carmot.Linked.Proofs.Covered

namespace Carmot.Linked

open Carmot.Lib
open Carmot.Pass (Code ModuleInfo Meaning CallGraph VisitorOptions Visited Hooks Bitcode
  InsertionOptions PrologueOptions)
open Carmot.Texas (Addr StateId Setup LiveRange AllocatedRun Final Roi SlotWrite Operation
  final_of_flatRun tracks_of_all divide stackAfter plain pushed_entry accessOperation)
open Carmot.Wrapper (WrapperCall WrapperConfig producer_calls after_concat)
open StateTransition

-- ============================================================== the runtime

section Calls

variable {cfg : WrapperConfig} {mem : Addr → UInt64} {cs : List WrapperCall} {su : Setup}

theorem stateMap_after (cfg : WrapperConfig) (mem : Addr → UInt64) (cs : List WrapperCall) :
    (cfg.after cs).producer.stateMap = (cfg.program mem cs).stateMap := by
  unfold WrapperConfig.after
  rw [producer_calls]
  rfl

/-- A ROI that accessed a cell was entered. -/
theorem entered_of_touched {roi : Roi} {p : Addr} {obs : List Observation}
    (h : (roiHistory roi p obs).touched = true) : .enter roi ∈ obs := by
  by_contra hno
  have hnever : CellEvent.enter ∉ obs.flatMap (Observation.cellEvents roi p) := by
    intro hmem
    obtain ⟨ob, hob, hmem⟩ := List.mem_flatMap.mp hmem
    cases ob with
    | enter roi' =>
        by_cases heq : roi' = roi
        · rw [heq] at hob
          exact hno hob
        · unfold Observation.cellEvents at hmem
          dsimp only at hmem
          rw [if_neg heq] at hmem
          cases hmem
    | leave => cases List.mem_singleton.mp hmem
    | invocationEnds => cases hmem
    | access rw ptr addresses =>
        obtain ⟨q, -, hmem⟩ := List.mem_flatMap.mp hmem
        split at hmem
        · cases List.mem_singleton.mp hmem
        · cases hmem
  unfold roiHistory at h
  rw [Iterations.after_of_not_entered hnever] at h
  cases h

/-- A ROI that was entered has a state. -/
theorem find_of_entered {roi : Roi} (h : .enter roi ∈ observations cs) :
    ∃ r, (cfg.after cs).producer.stateMap.find roi.1 roi.2 = some r := by
  induction cs using List.reverseRecOn with
  | nil => cases h
  | append_singleton cs c ih =>
      rw [observations_concat] at h
      rcases List.mem_append.mp h with h | h
      · obtain ⟨r, hr⟩ := ih h
        exact ⟨r, (extends_after cfg cs c).find _ _ _ hr⟩
      · cases c with
        | caratGetState funcName lineNum =>
            injection List.mem_singleton.mp h with hroi
            have hent := Texas.getState_entered (cfg.after cs).producer funcName lineNum
            refine ⟨((cfg.after cs).producer.getState funcName lineNum).2, ?_⟩
            rw [hroi, after_concat]
            exact hent.find_self
        | texasAddToStateWithInfo _ _ _ _ _ => cases List.mem_singleton.mp h
        | texasAddToStateLoad _ _ _ => cases List.mem_singleton.mp h
        | caratReportState _ => cases List.mem_singleton.mp h
        | endStateInvocation _ => cases List.mem_singleton.mp h
        | _ => cases h

/-- What the runtime finds out from the calls of the wrappers. -/
theorem final_of_calls (hW : 1 ≤ su.window)
    (hfin : (su.run (cfg.program mem cs)).Finished (su.config (cfg.program mem cs)))
    (hpast : (su.run (cfg.program mem cs)).InertPast) (hplain : ∀ c ∈ cs, c.plain = true)
    (hflat : Flat (observations cs)) (hclosed : (cfg.program mem cs).ClosedBetween su.window)
    {live : List LiveRange} (halloc : AllocatedRun (cfg.program mem cs).trace live)
    (htracks : ∀ c, cfg.options.tracks c = true) {rng : LiveRange} (hrng : rng ∈ live) {p : Addr}
    (hp : rng.Contains p) {roi : Roi}
    (htouched : (roiHistory roi p (observations cs)).touched = true) :
    ∃ r a, (cfg.program mem cs).stateMap.find roi.1 roi.2 = some r
      ∧ (su.run (cfg.program mem cs)).rt.originToAllocMap rng.origin = some a
      ∧ let held := fun c => Final (su.report (cfg.program mem cs)) a r (.offset c (p - rng.base))
        (∃ c, held c)
          ∧ IsLUB {u | ∃ c, held c ∧ u = c.usage} (roiHistory roi p (observations cs)).usage := by
  obtain ⟨r, hr⟩ : ∃ r, (cfg.after cs).producer.stateMap.find roi.1 roi.2 = some r :=
    find_of_entered (entered_of_touched htouched)
  rw [stateMap_after cfg mem] at hr
  have hstates : Extends (cfg.after cs).producer.stateMap (cfg.program mem cs).stateMap := by
    rw [stateMap_after cfg mem]
    exact Extends.refl _
  have htracked := tracks_calls cfg hr p cs hplain hflat hstates
  have hmem : r ∈ (cfg.program mem cs).stateMap.ids :=
    List.mem_range.mpr (Texas.StateMap.find_lt hr)
  unfold roiHistory at htouched ⊢
  rw [htracked.thinned.touched_eq] at htouched
  rw [htracked.thinned.usage_eq]
  obtain ⟨a, ha, hheld⟩ := final_of_flatRun hW hfin hpast htracked.flat hclosed halloc htracks hmem
    hrng hp rfl htouched
  exact ⟨r, a, hr, ha, hheld⟩

end Calls

-- ============================================================== the program

variable {Func Block Inst Value State : Type}

section Program

variable {info : ModuleInfo Func Inst Value} {m : Meaning Func Block Inst Value State}
  {link : Linking State}

/-- The calls the pass inserts are plain. -/
theorem plain_wrapperCall {traceOf : Nat → Wrapper.Trace} {callee : Pass.Callee}
    {args : List Pass.Arg} {c : WrapperCall} (h : wrapperCall traceOf callee args = some c) :
    c.plain = true := by
  unfold wrapperCall at h
  split at h <;> cases h <;> rfl

/-- In one invocation all calls of the wrappers are plain. -/
theorem plain_wrapperCalls {log : List (Pass.Event Inst State)}
    (hone : .invocationEnds ∉ observations (wrapperCalls info m link log)) :
    ∀ c ∈ wrapperCalls info m link log, c.plain = true := by
  intro c hc
  obtain ⟨ev, -, hev⟩ := List.mem_filterMap.mp hc
  cases ev with
  | call callee args => exact plain_wrapperCall hev
  | ran number i s =>
      rcases marker_cases hev with ⟨funcName, lineNum, fp, getOperand, rfl, -⟩ | ⟨stateID, rfl⟩
        | ⟨stateID, rfl⟩
      · rfl
      · rfl
      · refine absurd (List.mem_flatMap.mpr ⟨_, hc, ?_⟩) hone
        exact List.mem_singleton.mpr rfl

end Program

section Steps

variable {σ : Type} {f : σ → Option σ}

/-- Some steps, or as many as there are. -/
def steps (f : σ → Option σ) (n : Nat) (a : σ) : σ := (fun a => (f a).getD a)^[n] a

theorem reaches_steps (a : σ) (n : Nat) : Reaches f a (steps f n a) := by
  induction n with
  | zero => exact .refl
  | succ n ih =>
      unfold steps at ih ⊢
      rw [Function.iterate_succ_apply']
      cases h : f ((fun a => (f a).getD a)^[n] a) with
      | none => exact ih
      | some b => exact ih.tail h

theorem steps_of_reaches {a b : σ} (h : Reaches f a b) : ∃ n, steps f n a = b := by
  induction h with
  | refl => exact ⟨0, rfl⟩
  | tail _ hstep ih =>
      obtain ⟨n, rfl⟩ := ih
      refine ⟨n + 1, ?_⟩
      unfold steps at hstep ⊢
      rw [Function.iterate_succ_apply', hstep]
      rfl

/-- A run that ends is its first steps. -/
theorem steps_le {a : σ} {n : Nat} (hend : f (steps f n a) = none) (k : Nat) :
    ∃ j ≤ n, steps f k a = steps f j a := by
  induction k with
  | zero => exact ⟨0, Nat.zero_le n, rfl⟩
  | succ k ih =>
      obtain ⟨j, hj, heq⟩ := ih
      have hsucc : ∀ k, steps f (k + 1) a = (f (steps f k a)).getD (steps f k a) := fun k =>
        Function.iterate_succ_apply' ..
      rcases Nat.lt_or_eq_of_le hj with hlt | rfl
      · exact ⟨j + 1, hlt, by rw [hsucc, hsucc, heq]⟩
      · exact ⟨j, Nat.le_refl j, by rw [hsucc, heq, hend]; rfl⟩

end Steps

/-- The functions of a module with a ROI. -/
inductive KernelFunc
  | main
  | fill
  | kernel
  | startTracking
  | stopTracking
  deriving Repr

/-- Its blocks: one for each function with a body. -/
inductive KernelBlock
  | main
  | fill
  | kernel
  deriving DecidableEq, Repr

/-- Its instructions. -/
inductive KernelInst
  | alloca
  | callFill
  | callKernel
  | ret
  | fill
  | fillRet
  | start
  | load
  | store
  | again
  | stop
  | kernelRet
  deriving DecidableEq, Repr

/-- Its values: the variable, and operands of the two markers. -/
inductive KernelValue
  | x
  | name
  | line
  | id
  | void
  deriving DecidableEq, Repr

/-- The place in the module. -/
def KernelFunc.rank : KernelFunc → Nat
  | .main => 0
  | .fill => 1
  | .kernel => 2
  | .startTracking => 3
  | .stopTracking => 4

instance : LinearOrder KernelFunc :=
  LinearOrder.lift' KernelFunc.rank fun f g h => by
    cases f <;> cases g <;> first | rfl | cases h

/-- Main has a variable filled, outside of ROIs, and calls the kernel, a
ROI that reads it, writes it and reads it again. -/
def kernelMain : Code KernelFunc KernelBlock KernelInst where
  functions := [.main, .fill, .kernel]
  main := .main
  entryBlock
    | .fill => .fill
    | .kernel => .kernel
    | _ => .main
  blocks
    | .main => [.main]
    | .fill => [.fill]
    | .kernel => [.kernel]
    | _ => []
  insts
    | .main => [.alloca, .callFill, .callKernel, .ret]
    | .fill => [.fill, .fillRet]
    | .kernel => [.start, .load, .store, .again, .stop, .kernelRet]
  getParent
    | .alloca | .callFill | .callKernel | .ret => .main
    | .fill | .fillRet => .fill
    | _ => .kernel
  getFunction
    | .main => .main
    | .fill => .fill
    | .kernel => .kernel
  flowKind
    | .ret | .fillRet | .kernelRet => .ret
    | _ => .other
  main_mem := by decide
  nodup_functions := by decide
  entryBlock_function f hf := by
    cases f <;> first | rfl | exact absurd hf (by decide)
  mem_insts b i := by
    cases b <;> cases i <;> decide
  nodup_insts b := by
    cases b <;> decide
  back
    | .main => .ret
    | .fill => .fillRet
    | .kernel => .kernelRet
  insts_back b := by
    cases b
    · exact ⟨[.alloca, .callFill, .callKernel], rfl⟩
    · exact ⟨[.fill], rfl⟩
    · exact ⟨[.start, .load, .store, .again, .stop], rfl⟩
  back_terminator b := by
    cases b <;> rfl
  heads _ := []
  firstInsertionPt
    | .main => .alloca
    | .fill => .fill
    | .kernel => .start
  insts_heads b := by
    cases b <;> exact ⟨_, rfl⟩
  heads_shape _ :=
    ⟨[], [], rfl, Nat.zero_le 1, fun _ h => absurd h List.not_mem_nil,
      fun _ h => absurd h List.not_mem_nil⟩
  firstInsertionPt_body b := by
    cases b <;> rfl
  heads_entry _ _ := rfl
  dests_entry i _ _ h := by
    cases i <;> cases h

/-- The variable is a `double`. -/
def kernelInfo : ModuleInfo KernelFunc KernelInst KernelValue where
  getName
    | .main => "main"
    | .fill => "fill"
    | .kernel => "kernel"
    | .startTracking => "caratGetStateWrapper"
    | .stopTracking => "caratReportStateWrapper"
  isIntrinsic _ := false
  instClass
    | .alloca =>
        .alloca (.scalar (.floatingPoint .double)) ⟨true, true, some [some ⟨[47], [109], [120], 3⟩]⟩
    | .callFill => .call (some .fill) fun _ => .void
    | .callKernel => .call (some .kernel) fun _ => .void
    | .start => .call (some .startTracking) fun k => if k = 0 then .name else .line
    | .stop => .call (some .stopTracking) fun _ => .id
    | .load | .again => .load .x
    | .fill | .store => .store .x (.scalar (.floatingPoint .double))
    | .ret | .fillRet | .kernelRet => .ret
  getDebugLoc
    | .alloca => none
    | _ => some ⟨[47], [109], 5, 1⟩
  value
    | .alloca => .x
    | _ => .void
  globals := []

/-- What the pass instruments: the kernel and what it calls. -/
def kernelOptions : VisitorOptions KernelFunc KernelInst KernelValue where
  sets := ⟨[.kernel, .startTracking, .stopTracking], [.main], []⟩
  isTheLibraryFunctionPure _ := false
  order entries := entries
  disableStateUsesInstrumentation := false
  uniqueCallstackFunctions := []

/-- The state counts the stores. -/
def kernelMeaning : Meaning KernelFunc KernelBlock KernelInst KernelValue Nat where
  exec
    | .callFill, s => (s, .call .fill)
    | .callKernel, s => (s, .call .kernel)
    | .fill, s | .store, s => (s + 1, .done)
    | .ret, s | .fillRet, s | .kernelRet, s => (s, .ret)
    | _, s => (s, .done)
  eval
    | .x, _ => 8192
    | .line, _ => 5
    | _, _ => 0

def kernelLink : Linking Nat where
  uint64Hash := id
  traceOf _ := Wrapper.oneFrame
  readString _ _ := "kernel"
  mem _ := 0

def kernelCalls : CallGraph KernelFunc :=
  CallGraph.ofPairs
    [(.main, .fill), (.main, .kernel), (.kernel, .startTracking), (.kernel, .stopTracking)]

def kernelPrologue : PrologueOptions := ⟨false, false, false, false, false, false, false, false⟩

theorem kernel_collects :
    (Pass.collectAndWrite kernelMain kernelInfo kernelOptions).isSome = true := rfl

/-- What the pass collects, and the file of debug data. -/
def kernelVisited : Visited KernelFunc KernelInst KernelValue × List UInt8 :=
  (Pass.collectAndWrite kernelMain kernelInfo kernelOptions).get kernel_collects

/-- The run after some steps; it has twelve. -/
def kernelAt (n : Nat) : Pass.Config KernelInst KernelValue Nat :=
  steps (Pass.step kernelMain kernelMeaning kernelMain.bitcode Hooks.none) n
    (Pass.Config.init kernelMain kernelMain.bitcode 0)

/-- The run, up to main's return. -/
def kernelEnd : Pass.Config KernelInst KernelValue Nat := kernelAt 11

theorem kernel_describes : kernelInfo.Describes kernelMain := by
  refine ⟨?_, ?_, ?_, ?_, ?_, ?_⟩
  · intro f _
    cases f <;> decide
  · intro f hf b
    cases f <;> cases b <;> first | exact absurd hf (by decide) | decide
  · intro inst called operand h
    cases inst <;> first | rfl | cases h
  · intro inst h
    cases inst <;> first | rfl | cases h
  · intro inst ty metadata h
    cases inst <;> first | rfl | cases h
  · intro inst h
    obtain ⟨fp, operand, hclass, -⟩ := h
    cases inst <;> first | rfl | cases hclass

theorem kernel_follows : kernelMeaning.Follows kernelMain kernelInfo := by
  intro inst s f h
  cases inst <;> cases h
  · exact ⟨by decide, _, _, rfl, fun fp hfp => (Option.some_inj.mp hfp).symm⟩
  · exact ⟨by decide, _, _, rfl, fun fp hfp => (Option.some_inj.mp hfp).symm⟩

theorem kernel_along : kernelMeaning.Along kernelMain kernelInfo kernelCalls := by
  refine ⟨?_, ?_, ?_, ?_⟩
  · intro i s b h
    cases i <;> cases h
  · intro i normalDest unwindDest h
    cases i <;> cases h
  · intro i s f h
    cases i <;> cases h <;> exact ⟨by decide, CallGraph.calls_ofPairs.mpr (by decide)⟩
  · intro i ty metadata h s
    cases i <;> first | rfl | cases h

theorem kernel_instrumented :
    Pass.getFunctionsToInstrumentLoadStore kernelCalls id .startTracking 8
      = some kernelOptions.sets.functionsToInstrumentLoadStore := by
  have hcallers : Pass.getFunctionsThatCallStartTracking kernelCalls .startTracking
      = [.kernel] := by decide
  have hvisited : Pass.visitChildren kernelCalls 8 [.kernel] []
      = some [.startTracking, .stopTracking] := by decide +kernel
  unfold Pass.getFunctionsToInstrumentLoadStore
  simp only [hcallers, id_eq, hvisited]
  simp +decide [Pass.setUnion, kernelOptions]

theorem kernel_stays : RoisStay kernelInfo kernelMeaning kernelLink kernelMain 0 := by
  intro c hc n hopen hframes
  obtain ⟨k, rfl⟩ := steps_of_reaches hc
  have hend : Pass.step kernelMain kernelMeaning kernelMain.bitcode Hooks.none (kernelAt 12)
      = none := by decide +kernel
  obtain ⟨j, hj, heq⟩ := steps_le hend k
  rw [heq] at hopen hframes ⊢
  have hall : ∀ j < 13, ∀ n ∈ openFrame kernelInfo kernelMeaning kernelLink (kernelAt j).ran,
      (kernelAt j).frames ≠ [] → ∃ fr ∈ (kernelAt j).frames, fr.number = n := by decide +kernel
  exact hall j (Nat.lt_succ_of_le hj) n hopen hframes

/-- Where a list is split. -/
theorem split_at {α : Type} {as pre post : List α} {a : α} (h : as = pre ++ a :: post) :
    as[pre.length]? = some a ∧ pre = as.take pre.length := by
  subst h
  simp

theorem kernel_flat :
    Flat (kernelEnd.ran.flatMap (observe kernelInfo kernelMeaning kernelLink)) := by
  have hobs : kernelEnd.ran.flatMap (observe kernelInfo kernelMeaning kernelLink)
      = [.access .write 8192 [8192], .enter ("kernel", 5), .access .read 8192 [8192],
        .access .write 8192 [8192], .access .read 8192 [8192], .leave] := by decide +kernel
  rw [hobs]
  refine ⟨?_, ?_, ?_, by decide⟩
  · intro pre roi post heq
    obtain ⟨hat, hpre⟩ := split_at heq
    generalize pre.length = n at hat hpre
    subst hpre
    rcases n with _ | _ | _ | _ | _ | _ | n <;> cases hat
    rfl
  · intro pre post heq
    obtain ⟨hat, hpre⟩ := split_at heq
    generalize pre.length = n at hat hpre
    subst hpre
    rcases n with _ | _ | _ | _ | _ | _ | n <;> cases hat
    exact nofun
  · intro rw ptr addresses addresses' hmem hmem'
    have hall : ∀ ob ∈ [Observation.access .write 8192 [8192], .enter ("kernel", 5),
        .access .read 8192 [8192], .access .write 8192 [8192], .access .read 8192 [8192], .leave],
        (match ob with
          | .access _ _ addresses => decide (addresses = [8192])
          | _ => true) = true := by decide
    exact (of_decide_eq_true (hall _ hmem)).trans (of_decide_eq_true (hall _ hmem')).symm

end Carmot.Linked
