/-
The touch-same-object optimisation of the compiler pass
(TouchSameObject.cpp): a load (store) need not be instrumented if, on
every path that reaches it, another load (store) used the same pointer
value before.

The pass reads LLVM IR through NOELLE. A module is modelled by what is
asked of it; that a definition dominates its uses is what LLVM's
verifier checks, so a module carries it. Dominator trees and the
data-flow engine are NOELLE's: the trees are parameters, and the engine
is represented by the equations its result solves.

The three maps are keyed by instruction, so a function's part of a map
is the map itself.
-/
import Mathlib.Data.Finset.Basic
import Carmot.Lib.Flow

namespace Carmot.Pass

open Carmot.Lib (FlowGraph)

-- ============================================================== modules

/-- What `dyn_cast` makes of an instruction, with the pointer operand
of a load or store. -/
inductive InstKind (Value : Type)
  | load (pointerOperand : Value)
  | store (pointerOperand : Value)
  | other
  deriving DecidableEq, Repr

/-- The pointer operand. -/
def InstKind.pointerOperand {Value : Type} : InstKind Value → Option Value
  | load ptr => some ptr
  | store ptr => some ptr
  | other => none

/-- A module: `Func`, `Inst` and `Value` stand for `Function*`,
`Instruction*` and `Value*`. -/
structure Module (Func Inst Value : Type) where
  /-- The instructions of a function, block by block. -/
  insts : Func → List Inst
  getFunction : Inst → Func
  firstInst : Func → Inst
  successors : Inst → List Inst
  kind : Inst → InstKind Value
  /-- The pointer operand of a `GetElementPtrInst`. -/
  gepPointer : Value → Option Value
  /-- The instruction that computes a value; none for arguments,
  globals and constants. -/
  definition : Value → Option Inst
  mem_insts : ∀ f i, i ∈ insts f ↔ getFunction i = f
  getFunction_first : ∀ f, getFunction (firstInst f) = f
  getFunction_succ : ∀ i, ∀ j ∈ successors i, getFunction j = getFunction i
  definition_dominates : ∀ i ptr d, (kind i).pointerOperand = some ptr → definition ptr = some d →
    FlowGraph.StrictlyDominates ⟨firstInst (getFunction i), fun a b => b ∈ successors a⟩ d i

variable {Func Inst Value : Type}

/-- The control flow of a function, instruction by instruction. -/
def Module.graph (M : Module Func Inst Value) (f : Func) : FlowGraph Inst where
  entry := M.firstInst f
  succ a b := b ∈ M.successors a

/-- A region of interest; `start` and `stops` are `CallBase*`. -/
structure ROI (M : Module Func Inst Value) where
  start : Inst
  stops : List Inst
  start_call : M.kind start = .other
  stops_call : ∀ stop ∈ stops, M.kind stop = .other

/-- A `DominatorSummary`: the `dominates` queries of its two trees. -/
structure DominatorSummary (Inst : Type) where
  dt : Inst → Inst → Bool
  pdt : Inst → Inst → Bool

-- ============================================================= visitor

/-- Which of the two maps the visitor fills. -/
inductive Touch
  | load | store
  deriving DecidableEq, Repr

/-- The pointer operand, for instructions of one kind. -/
def InstKind.touched (k : InstKind Value) (t : Touch) : Option Value :=
  match k, t with
  | load ptr, .load => some ptr
  | store ptr, .store => some ptr
  | _, _ => none

section Visitor

variable [DecidableEq Func] (M : Module Func Inst Value)
  (dominators : Func → DominatorSummary Inst) (functionsToRunDFA : List Func) (rois : List (ROI M))

/-- `funcToRoiMap`. -/
def funcToRoiMap (f : Func) : List (ROI M) := rois.filter fun roi => M.getFunction roi.start = f

/-- `considerThisInst`: every ROI of the function is opened before the
instruction and closed after it. -/
def considerThisInst (inst : Inst) : Bool :=
  (funcToRoiMap M rois (M.getFunction inst)).all fun roi =>
    (dominators (M.getFunction inst)).dt roi.start inst
      && roi.stops.any fun stop => (dominators (M.getFunction inst)).pdt stop inst

/-- `instToObjMapLoad` and `instToObjMapStore`, as `visitLoadStoreInst`
fills them: with the base of the address computation under object
granularity, else with the address. -/
def instToObjMap (enableDFAObjGranularity : Bool) (t : Touch) (inst : Inst) : Option Value :=
  if M.getFunction inst ∈ functionsToRunDFA then
    if considerThisInst M dominators rois inst then
      ((M.kind inst).touched t).bind fun addr =>
        if enableDFAObjGranularity then M.gepPointer addr else some addr
    else none
  else none

end Visitor

-- =========================================================== data flow

variable [DecidableEq Value]

/-- A `DataFlowResult`. -/
structure DataFlowResult (Inst Value : Type) where
  gen : Inst → Finset Value
  inSet : Inst → Finset Value
  outSet : Inst → Finset Value

/-- `computeGEN`. -/
def computeGEN (objMap : Inst → Option Value) (i : Inst) : Finset Value :=
  match objMap i with
  | none => ∅
  | some obj => {obj}

/-- What the engine returns for the equations of `getFuncToDfrMap`:
`computeGEN`, no kills, empty at the first instruction, the
intersection over the predecessors elsewhere, and `computeOUT`. -/
structure DataFlowResult.Solves (dfr : DataFlowResult Inst Value) (M : Module Func Inst Value)
    (objMap : Inst → Option Value) (f : Func) : Prop where
  gen_eq : ∀ i, M.getFunction i = f → dfr.gen i = computeGEN objMap i
  in_first : dfr.inSet (M.firstInst f) = ∅
  in_succ : ∀ i, M.getFunction i = f → ∀ j ∈ M.successors i, dfr.inSet j ⊆ dfr.outSet i
  out_eq : ∀ i, M.getFunction i = f → dfr.outSet i = dfr.gen i ∪ dfr.inSet i

/-- `getInstsToSkip`. -/
def getInstsToSkip (M : Module Func Inst Value) (funcToDfr : Func → DataFlowResult Inst Value)
    (objMap : Inst → Option Value) (functionsToRunDFA : List Func) : List Inst :=
  functionsToRunDFA.flatMap fun f =>
    (M.insts f).filter fun i =>
      match objMap i with
      | none => false
      | some obj => obj ∈ (funcToDfr f).inSet i

/-- `getTouchSameObjectInsts`: the instructions to skip for loads and
those for stores, given the engine's results for both maps. -/
def getTouchSameObjectInsts [DecidableEq Func] (M : Module Func Inst Value)
    (dominators : Func → DominatorSummary Inst) (functionsToRunDFA : List Func)
    (rois : List (ROI M)) (enableDFAObjGranularity : Bool)
    (funcToDfr : Touch → Func → DataFlowResult Inst Value) : List Inst :=
  let skip := fun t =>
    getInstsToSkip M (funcToDfr t)
      (instToObjMap M dominators functionsToRunDFA rois enableDFAObjGranularity t)
      functionsToRunDFA
  skip .load ++ skip .store

end Carmot.Pass
