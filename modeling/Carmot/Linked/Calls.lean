/-
The instrumented program linked with its runtime.

The functions the pass inserts calls of (Utils.hpp) are the wrappers of
wrapper.cpp, so the log of an instrumented run has the wrappers' calls
with their arguments (`wrapperCalls`). Some the program calls itself,
where its ROIs begin and end (`marker`).

What the runtime should find out is in the instructions that ran:
`observe` is what an instruction is to the ROIs, and `roiHistory` what
the iterations of a ROI have seen of a cell.

# Parameters

`Linking` has what comes from outside of the program: the hash of the
standard library, the stack captured in a frame, and the memory, as the
runtime reads it.

# Left out

PIN, whose calls are no wrapper's here: this is the build without it
(compile_disable_pin_dfa_onlyread_directstate.sh).
-/
import Carmot.Lib.Repeats
import Carmot.Pass.Execution
import Carmot.Pass.Visitor
import Carmot.Texas.Proofs.Nesting
import Carmot.Wrapper.Proofs.Filters

namespace Carmot.Linked

open Carmot.Lib
open Carmot.Texas (Addr Roi)
open Carmot.Wrapper (Trace Wrappers WrapperCall WrapperConfig elements)

/-- What is linked with the program, or found when it runs. -/
structure Linking (State : Type) where
  uint64Hash : UInt64 → UInt64
  traceOf : Nat → Trace
  readString : UInt64 → State → String
  mem : Addr → UInt64

variable {Func Block Inst Value State : Type}

-- ============================================================== the calls

/-- The trace argument of a wrapper. -/
def traceArg (traceOf : Nat → Trace) : Pass.Arg → Option Trace
  | .trace frame => some (traceOf frame)
  | .word _ | .undef => none

/-- The call of a wrapper that an inserted call is. -/
def wrapperCall (traceOf : Nat → Trace) : Pass.Callee → List Pass.Arg → Option WrapperCall
  | .texasMalloc, [.word id, .word address, .word length, trace] =>
      some (.caratStateAlloc id address length (traceArg traceOf trace))
  | .texasCalloc, [.word id, .word address, .word length, .word sizeOfEntry, trace] =>
      some (.caratStateCalloc id address length sizeOfEntry (traceArg traceOf trace))
  | .texasRealloc, [.word id, .word address, .word newAddress, .word length, trace] =>
      some (.caratStateRealloc id address newAddress length (traceArg traceOf trace))
  | .texasRemove, [.word address] => some (.caratStateRemoveFromAllocationTable address)
  | .texasAddWithInfo, [.word id, .word ptr, .word sizeInBytes, .word sizeElementInBytes, trace] =>
      some (.texasAddToStateWithInfo id ptr sizeInBytes sizeElementInBytes (traceArg traceOf trace))
  | .texasAddWithInfoLoad, [.word id, .word ptr, trace] =>
      some (.texasAddToStateLoad id ptr (traceArg traceOf trace))
  | _, _ => none

section Program

variable (info : Pass.ModuleInfo Func Inst Value) (m : Pass.Meaning Func Block Inst Value State)
  (link : Linking State)

/-- The call of a wrapper that the program makes itself: where a ROI
begins, where one ends, and at the end of an invocation. -/
def marker (i : Inst) (s : State) : Option WrapperCall :=
  match info.instClass i with
  | .call (some fp) getOperand =>
      if info.getName fp = "caratGetStateWrapper" then
        some (.caratGetState (link.readString (m.eval (getOperand 0) s) s)
          (m.eval (getOperand 1) s))
      else if info.getName fp = "caratReportStateWrapper" then
        some (.caratReportState (m.eval (getOperand 0) s).toNat)
      else if info.getName fp = "endStateInvocationWrapper" then
        some (.endStateInvocation (m.eval (getOperand 0) s).toNat)
      else none
  | _ => none

/-- The call of a wrapper in an entry of the log. -/
def eventCall : Pass.Event Inst State → Option WrapperCall
  | .ran _ i s => marker info m link i s
  | .call callee args => wrapperCall link.traceOf callee args

/-- The calls of the wrappers in a log. -/
def wrapperCalls (log : List (Pass.Event Inst State)) : List WrapperCall :=
  log.filterMap (eventCall info m link)

end Program

/-- What the prologue sets, with the constants the pass hands it. -/
def wrapperConfig (uint64Hash : UInt64 → UInt64) (o : Pass.PrologueOptions) : WrapperConfig where
  uint64Hash := uint64Hash
  save := { disableCallstack := o.disableCallstack, disableStateUses := o.disableStateUses }
  options :=
    { Texas.Options.default with
      trackInput := !o.disableInput
      trackOutput := !o.disableOutput
      trackCloneable := !o.disableCloneable
      trackTransfer := !o.disableTransfer
      trackCycles := o.cycleFinding }
  earlyReturns := true

-- ========================================================= what ROIs see

/-- What the program does, to its ROIs: an access is to the address it
is looked up under, and to the cells it is recorded for. -/
inductive Observation
  | enter (roi : Roi)
  | leave
  | invocationEnds
  | access (rw : Rw) (ptr : Addr) (addresses : List Addr)
  deriving DecidableEq, Repr

/-- What a call of a wrapper says the program does. -/
def observeCall (c : WrapperCall) : List Observation :=
  match c with
  | .caratGetState funcName lineNum => [.enter (funcName, lineNum)]
  | .caratReportState _ => [.leave]
  | .endStateInvocation _ => [.invocationEnds]
  | _ =>
      match c.touch? with
      | some (ptr, rw, addresses) => [.access rw ptr addresses]
      | none => []

/-- What a load or store is to the ROIs, once it is made. -/
def observeAccess (info : Pass.ModuleInfo Func Inst Value)
    (m : Pass.Meaning Func Block Inst Value State) (i : Inst) (s : State) : List Observation :=
  match (m.exec i s).2, info.instClass i with
  | .done, .load getPointerOperand =>
      [.access .read (m.eval getPointerOperand s) [m.eval getPointerOperand s]]
  | .done, .store getPointerOperand valueType =>
      [.access .write (m.eval getPointerOperand s) (elements (m.eval getPointerOperand s)
        valueType.primitiveSizeInBytes valueType.typeSizeInBytes)]
  | _, _ => []

/-- What an instruction that ran is to the ROIs. -/
def observe (info : Pass.ModuleInfo Func Inst Value) (m : Pass.Meaning Func Block Inst Value State)
    (link : Linking State) : Pass.Event Inst State → List Observation
  | .ran _ i s => (marker info m link i s).toList.flatMap observeCall ++ observeAccess info m i s
  | .call _ _ => []

namespace Observation

/-- What a ROI and a cell see of it. -/
def cellEvents (roi : Roi) (p : Addr) : Observation → List CellEvent
  | .enter roi' => if roi' = roi then [.enter] else []
  | .leave => [.leave]
  | .invocationEnds => []
  | .access rw _ addresses => addresses.flatMap fun q => if q = p then [.access rw] else []

/-- The ROI that is open after it. -/
def openStep (open_ : Option Roi) : Observation → Option Roi
  | .enter roi => some roi
  | .leave => none
  | .invocationEnds | .access _ _ _ => open_

/-- The ROI that is open in the end. -/
def openAfter (obs : List Observation) : Option Roi := obs.foldl openStep none

end Observation

/-- What the iterations of a ROI have seen of a cell. -/
def roiHistory (roi : Roi) (p : Addr) (obs : List Observation) : History :=
  (Iterations.after (obs.flatMap (Observation.cellEvents roi p))).history

/-- ROIs are entered and left by turns, stores to one address write the
same cells, and there is one invocation. -/
structure Flat (obs : List Observation) : Prop where
  apart : ∀ pre roi post, obs = pre ++ .enter roi :: post → Observation.openAfter pre = none
  matched : ∀ pre post, obs = pre ++ .leave :: post → Observation.openAfter pre ≠ none
  uniform : ∀ rw ptr addresses addresses', .access rw ptr addresses ∈ obs →
    .access rw ptr addresses' ∈ obs → addresses = addresses'
  one_invocation : .invocationEnds ∉ obs

end Carmot.Linked
