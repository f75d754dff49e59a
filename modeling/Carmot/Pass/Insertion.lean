/-
The code the compiler pass inserts (CatPass.cpp, the `instrument…`
functions and `runOnModule` from where it modifies the bitcode;
Utils.cpp, LoadStoreInstrumentation.cpp and
ClusterCallstackInstrumentation.cpp).

A module is its blocks. The pass inserts casts and calls of the runtime
at instructions of the program, and the program's own instructions stay
in their blocks. A cast changes no bit of what it casts, so a call
names the value that was cast.

Where an iteration order is a hash set's, the list is any list.

# Left out

The only-read and direct-state instrumentations split blocks:
`EmittedCode` has what they do, and this is the build without them
(compile_disable_onlyread_directstate.sh). Cycle finding, which erases
the deallocations, is off.
-/
import Mathlib.Logic.Function.Basic
import Carmot.Pass.CallGraph

namespace Carmot.Pass

-- ============================================================ the module

/-- What is asked of an instruction when code is inserted at it. -/
inductive FlowKind (Block : Type)
  | phi
  | ehPad
  | other
  | invoke (normalDest unwindDest : Block)
  | ret
  | terminator
  deriving DecidableEq, Repr

namespace FlowKind

variable {Block : Type}

/-- `isTerminator`. -/
def isTerminator : FlowKind Block → Bool
  | invoke _ _ | ret | terminator => true
  | phi | ehPad | other => false

/-- A `ReturnInst`. -/
def isRet : FlowKind Block → Bool
  | ret => true
  | phi | ehPad | other | invoke _ _ | terminator => false

/-- The two destinations of an invoke. -/
def dests : FlowKind Block → Option (Block × Block)
  | invoke normalDest unwindDest => some (normalDest, unwindDest)
  | phi | ehPad | other | ret | terminator => none

/-- A phi or a pad, which stay at the front of their block. -/
def isHead : FlowKind Block → Bool
  | phi | ehPad => true
  | other | invoke _ _ | ret | terminator => false

end FlowKind

/-- The functions of a module that have a body, and their code. What
LLVM's verifier checks is carried along: a block ends with a
terminator, its phis come first and a pad right after them, and an
entry block has neither and no predecessors. -/
structure Code (Func Block Inst : Type) where
  functions : List Func
  main : Func
  entryBlock : Func → Block
  /-- The blocks of a function, in order. -/
  blocks : Func → List Block
  insts : Block → List Inst
  /-- The block of an instruction. -/
  getParent : Inst → Block
  /-- The function of a block. -/
  getFunction : Block → Func
  flowKind : Inst → FlowKind Block
  main_mem : main ∈ functions
  nodup_functions : functions.Nodup
  entryBlock_function : ∀ f ∈ functions, getFunction (entryBlock f) = f
  mem_insts : ∀ b i, i ∈ insts b ↔ getParent i = b
  nodup_insts : ∀ b, (insts b).Nodup
  back : Block → Inst
  insts_back : ∀ b, ∃ body, insts b = body ++ [back b]
  back_terminator : ∀ b, (flowKind (back b)).isTerminator = true
  heads : Block → List Inst
  firstInsertionPt : Block → Inst
  insts_heads : ∀ b, ∃ body, insts b = heads b ++ firstInsertionPt b :: body
  heads_shape : ∀ b, ∃ phis pads, heads b = phis ++ pads ∧ pads.length ≤ 1
    ∧ (∀ i ∈ phis, flowKind i = .phi) ∧ ∀ i ∈ pads, flowKind i = .ehPad
  firstInsertionPt_body : ∀ b, (flowKind (firstInsertionPt b)).isHead = false
  heads_entry : ∀ f ∈ functions, heads (entryBlock f) = []
  dests_entry : ∀ i normalDest unwindDest, flowKind i = .invoke normalDest unwindDest →
    ∀ f ∈ functions, normalDest ≠ entryBlock f ∧ unwindDest ≠ entryBlock f

-- ========================================================= inserted code

/-- The runtime functions the pass inserts calls of. -/
inductive Callee
  | memorytoolCallstack
  | memorytoolCallstackUnique
  | texasMalloc
  | texasCalloc
  | texasRealloc
  | texasRemove
  | texasAddWithInfo
  | texasAddWithInfoLoad
  | pinStartTracking
  | pinStopTracking
  | pinAdd
  | memorytoolPrologue
  | memorytoolEpilogue
  deriving DecidableEq, Repr

/-- An operand: a constant, a value of the program, or what the call of
`callstackInstrumentation` in the same function returned. -/
inductive Operand (Value : Type)
  | const (c : UInt64)
  | value (v : Value)
  | callstackInst
  deriving DecidableEq, Repr

/-- An instruction the pass inserts. -/
inductive Added (Value : Type)
  | cast (v : Operand Value)
  | call (callee : Callee) (args : List (Operand Value))
  deriving DecidableEq, Repr

/-- An instruction of the module the pass works on. -/
inductive Instr (Inst Value : Type)
  | code (i : Inst)
  | added (a : Added Value)
  deriving DecidableEq, Repr

/-- The blocks, as they are. -/
abbrev Bitcode (Block Inst Value : Type) := Block → List (Instr Inst Value)

variable {Func Block Inst Value : Type}

/-- Before the pass. -/
def Code.bitcode (P : Code Func Block Inst) : Bitcode Block Inst Value :=
  fun b => (P.insts b).map Instr.code

/-- Is it one of the two calls that capture the stack? -/
def Added.isCallstack : Added Value → Bool
  | call .memorytoolCallstack _ | call .memorytoolCallstackUnique _ => true
  | _ => false

/-- Is it the instruction `i` of the program? -/
def Instr.isCode [DecidableEq Inst] (i : Inst) : Instr Inst Value → Bool
  | code j => decide (j = i)
  | added _ => false

/-- Is it a call that captures the stack? -/
def Instr.isCallstack : Instr Inst Value → Bool
  | code _ => false
  | added a => a.isCallstack

-- ============================================================= insertion

/-- Insert before or after the first instruction that `is` picks. -/
def spliceAt {α : Type} (insts : List α) (before : Bool) (is : α → Bool) : List α → List α
  | [] => []
  | j :: js =>
      if is j then if before then insts ++ j :: js else j :: (insts ++ js)
      else j :: spliceAt insts before is js

/-- `getFirstInsertionPt`, and what it is found for: insert behind the
phis and the pad after them. -/
def spliceFirst (P : Code Func Block Inst) (insts : List (Instr Inst Value)) :
    List (Instr Inst Value) → List (Instr Inst Value)
  | .code i :: js =>
      match P.flowKind i with
      | .phi => .code i :: spliceFirst P insts js
      | .ehPad => .code i :: (insts ++ js)
      | _ => insts ++ .code i :: js
  | js => insts ++ js

/-- Insert before the last instruction. -/
def spliceBack {α : Type} (insts js : List α) : List α :=
  js.dropLast ++ insts ++ js.getLast?.toList

section Insertion

variable [DecidableEq Block] [DecidableEq Inst] (P : Code Func Block Inst)

/-- Where code is inserted: at an instruction of the program, or at the
first one of main, which is the call that captures the stack. -/
inductive InsertPoint (Inst : Type)
  | inst (i : Inst)
  | firstInstOfMain
  deriving DecidableEq, Repr

/-- `insertInstructions`. -/
def insertInstructions (insts : List (Added Value)) (insertPoint : InsertPoint Inst)
    (insertBefore : Bool) (bc : Bitcode Block Inst Value) : Bitcode Block Inst Value :=
  match insertPoint with
  | .inst i =>
      Function.update bc (P.getParent i)
        (spliceAt (insts.map .added) insertBefore (Instr.isCode i) (bc (P.getParent i)))
  | .firstInstOfMain =>
      Function.update bc (P.entryBlock P.main)
        (spliceAt (insts.map .added) insertBefore Instr.isCallstack (bc (P.entryBlock P.main)))

/-- `insertInstructionsWithCheck`: before a terminator, at the normal
destination of an invoke, else after. -/
def insertInstructionsWithCheck (insts : List (Added Value)) (insertPoint : InsertPoint Inst)
    (bc : Bitcode Block Inst Value) : Bitcode Block Inst Value :=
  match insertPoint with
  | .inst i =>
      match P.flowKind i with
      | .invoke normalDest _ =>
          Function.update bc normalDest (spliceFirst P (insts.map .added) (bc normalDest))
      | kind => insertInstructions P insts (.inst i) kind.isTerminator bc
  | .firstInstOfMain => insertInstructions P insts .firstInstOfMain false bc

-- =============================================================== entries

/-- The size of an allocation: of its type, or an operand. -/
inductive AllocSize (Value : Type)
  | static (size : UInt64)
  | allocSize (v : Value)
  deriving DecidableEq, Repr

/-- The size as an operand. -/
def AllocSize.operand : AllocSize Value → Operand Value
  | static size => .const size
  | allocSize v => .value v

/-- An entry of `allocations`; a global has no instruction. -/
structure AllocEntry (Inst Value : Type) where
  inst : Option Inst
  allocPointer : Value
  size : AllocSize Value
  id : UInt64

/-- An entry of `callocs`. -/
structure CallocEntry (Inst Value : Type) where
  inst : Inst
  allocPointer : Value
  allocSize : Value
  allocNumElems : Value
  id : UInt64

/-- An entry of `reallocs`. -/
structure ReallocEntry (Inst Value : Type) where
  inst : Inst
  allocPointer : Value
  allocNewPointer : Value
  allocSize : Value
  id : UInt64

/-- An entry of `unknowns`. -/
structure UnknownEntry (Inst : Type) where
  inst : Inst
  id : UInt64

/-- The sizes of a store; a load has none. -/
inductive AccessSizes
  | load
  | store (size sizeElement : UInt64)
  deriving DecidableEq, Repr

/-- An entry of `instToEntryMap`. -/
structure AccessEntry (Inst Value : Type) where
  inst : Inst
  pointerOperand : Value
  sizes : AccessSizes
  id : UInt64

/-- What the visitor and the analyses have collected; `accesses` are
the loads and stores that are left to the regular instrumentation. -/
structure Visited (Func Inst Value : Type) where
  uniqueCallstackFunctions : List Func
  allocations : List (AllocEntry Inst Value)
  callocs : List (CallocEntry Inst Value)
  reallocs : List (ReallocEntry Inst Value)
  unknowns : List (UnknownEntry Inst)
  accesses : List (AccessEntry Inst Value)
  deallocs : List (Inst × Value)
  invokes : List Inst
  functionAllocaMap : Func → List Value

-- ============================================================== callstack

/-- The call `callstackInstrumentation` inserts into a function:
`index` is the function's in the set, and `size` the set's size. -/
def callstackCall (index : Option Nat) (size : Nat) : Added Value :=
  match index with
  | some index =>
      .call .memorytoolCallstackUnique [.const (UInt64.ofNat index), .const (UInt64.ofNat size)]
  | none => .call .memorytoolCallstack []

/-- `callstackInstrumentation`: a call before the front of every entry
block. -/
def callstackInstrumentation [DecidableEq Func] (uniqueCallstackFunctions : List Func)
    (bc : Bitcode Block Inst Value) : Bitcode Block Inst Value :=
  P.functions.foldl (fun bc f =>
    let index := (uniqueIndices uniqueCallstackFunctions 0 P.functions).lookup f
    Function.update bc (P.entryBlock f)
      (.added (callstackCall index uniqueCallstackFunctions.length) :: bc (P.entryBlock f))) bc

-- ==================================================== the instrumentations

/-- The instructions of `instrumentAllocations` for an entry. -/
def AllocEntry.insts (e : AllocEntry Inst Value) : List (Added Value) :=
  [.cast (.value e.allocPointer), .cast e.size.operand,
    .call .texasMalloc [.const e.id, .value e.allocPointer, e.size.operand, .callstackInst]]

/-- `instrumentAllocations`. -/
def instrumentAllocations (entries : List (AllocEntry Inst Value))
    (bc : Bitcode Block Inst Value) : Bitcode Block Inst Value :=
  entries.foldl (fun bc e => insertInstructionsWithCheck P e.insts
    (e.inst.elim .firstInstOfMain .inst) bc) bc

/-- The instructions of `instrumentCallocs` for an entry. -/
def CallocEntry.insts (e : CallocEntry Inst Value) : List (Added Value) :=
  [.cast (.value e.allocPointer), .cast (.value e.allocSize), .cast (.value e.allocNumElems),
    .call .texasCalloc [.const e.id, .value e.allocPointer, .value e.allocSize,
      .value e.allocNumElems, .callstackInst]]

/-- `instrumentCallocs`. -/
def instrumentCallocs (entries : List (CallocEntry Inst Value))
    (bc : Bitcode Block Inst Value) : Bitcode Block Inst Value :=
  entries.foldl (fun bc e => insertInstructionsWithCheck P e.insts (.inst e.inst) bc) bc

/-- The instructions of `instrumentReallocs` for an entry. -/
def ReallocEntry.insts (e : ReallocEntry Inst Value) : List (Added Value) :=
  [.cast (.value e.allocPointer), .cast (.value e.allocNewPointer), .cast (.value e.allocSize),
    .call .texasRealloc [.const e.id, .value e.allocPointer, .value e.allocNewPointer,
      .value e.allocSize, .callstackInst]]

/-- `instrumentReallocs`. -/
def instrumentReallocs (entries : List (ReallocEntry Inst Value))
    (bc : Bitcode Block Inst Value) : Bitcode Block Inst Value :=
  entries.foldl (fun bc e => insertInstructionsWithCheck P e.insts (.inst e.inst) bc) bc

/-- `instrumentUnkowns`: PIN's tracking is on during the call. -/
def instrumentUnkowns (entries : List (UnknownEntry Inst))
    (bc : Bitcode Block Inst Value) : Bitcode Block Inst Value :=
  entries.foldl (fun bc e => insertInstructionsWithCheck P
    [.call .pinStopTracking [], .call .pinAdd [.const e.id, .callstackInst]] (.inst e.inst)
      (insertInstructions P [.call .pinStartTracking []] (.inst e.inst) true bc)) bc

/-- `getLoadStoreInstrumentation`. -/
def AccessEntry.insts (e : AccessEntry Inst Value) : List (Added Value) :=
  match e.sizes with
  | .load =>
      [.cast (.value e.pointerOperand),
        .call .texasAddWithInfoLoad [.const e.id, .value e.pointerOperand, .callstackInst]]
  | .store size sizeElement =>
      [.cast (.value e.pointerOperand),
        .call .texasAddWithInfo [.const e.id, .value e.pointerOperand, .const size,
          .const sizeElement, .callstackInst]]

/-- `instrumentLoadsStoresRegular`, where it inserts. -/
def insertLoadsStoresRegular (entries : List (AccessEntry Inst Value))
    (bc : Bitcode Block Inst Value) : Bitcode Block Inst Value :=
  entries.foldl (fun bc e => insertInstructionsWithCheck P e.insts (.inst e.inst) bc) bc

/-- A cast and the call that removes an address. -/
def removeInsts (address : Value) : List (Added Value) :=
  [.cast (.value address), .call .texasRemove [.value address]]

/-- `instrumentDeallocs`, which does not ask what it inserts after. -/
def instrumentDeallocs (deallocs : List (Inst × Value))
    (bc : Bitcode Block Inst Value) : Bitcode Block Inst Value :=
  deallocs.foldl (fun bc d => insertInstructions P (removeInsts d.2) (.inst d.1) false bc) bc

/-- The returns the visitor has collected. -/
def Code.returns : List Inst :=
  P.functions.flatMap fun f => (P.blocks f).flatMap fun b =>
    (P.insts b).filter fun i => (P.flowKind i).isRet

/-- `instrumentReturns`: the locals of the function are removed before
it returns. -/
def instrumentReturns (functionAllocaMap : Func → List Value)
    (bc : Bitcode Block Inst Value) : Bitcode Block Inst Value :=
  P.returns.foldl (fun bc i =>
    (functionAllocaMap (P.getFunction (P.getParent i))).foldl (fun bc allocaInst =>
      insertInstructions P (removeInsts allocaInst) (.inst i) true bc) bc) bc

/-- `instrumentInvokes`: the same before the end of the unwind
destination, once for every invoke. -/
def instrumentInvokes (invokes : List Inst) (functionAllocaMap : Func → List Value)
    (bc : Bitcode Block Inst Value) : Bitcode Block Inst Value :=
  invokes.foldl (fun bc i =>
    match P.flowKind i with
    | .invoke _ unwindDest =>
        (functionAllocaMap (P.getFunction (P.getParent i))).foldl (fun bc allocaInst =>
          Function.update bc unwindDest
            (spliceBack ((removeInsts allocaInst).map .added) (bc unwindDest))) bc
    | _ => bc) bc

-- ================================================ prologue and epilogue

/-- The options `setRuntimeGlobalVariables` hands to the prologue, as
it hands them. -/
structure PrologueOptions where
  disableStateInBytes : Bool
  disableInput : Bool
  disableOutput : Bool
  disableCloneable : Bool
  disableTransfer : Bool
  cycleFinding : Bool
  disableStateUses : Bool
  disableCallstack : Bool
  deriving DecidableEq, Repr

/-- The constants: the first five are negated. -/
def PrologueOptions.args (o : PrologueOptions) : List (Operand Value) :=
  [!o.disableStateInBytes, !o.disableInput, !o.disableOutput, !o.disableCloneable,
    !o.disableTransfer, o.cycleFinding, o.disableStateUses, o.disableCallstack].map
      fun b => .const (if b then 1 else 0)

/-- `setRuntimeGlobalVariables`: the prologue before the front of
main. -/
def setRuntimeGlobalVariables (o : PrologueOptions)
    (bc : Bitcode Block Inst Value) : Bitcode Block Inst Value :=
  Function.update bc (P.entryBlock P.main)
    (.added (.call .memorytoolPrologue o.args) :: bc (P.entryBlock P.main))

/-- `getExitInstructions` of main: its returns. The test that would
take calls of `exit` asks for the caller's name, which is main's. -/
def Code.exits : List Inst :=
  (P.blocks P.main).flatMap fun b =>
    (P.insts b).filter fun i => (P.flowKind i).isRet

/-- `insertEpilogue`. -/
def insertEpilogue (bc : Bitcode Block Inst Value) : Bitcode Block Inst Value :=
  P.exits.foldl (fun bc i =>
    insertInstructions P [.call .memorytoolEpilogue []] (.inst i) true bc) bc

-- ========================================================== runOnModule

/-- What decides which instrumentations run. -/
structure InsertionOptions where
  disableAllInstrumentation : Bool
  disablePin : Bool
  prologue : PrologueOptions

/-- `runOnModule`, from where it modifies the bitcode. -/
def instrumentModule [DecidableEq Func] (o : InsertionOptions) (V : Visited Func Inst Value)
    (bc : Bitcode Block Inst Value) : Bitcode Block Inst Value :=
  let bc :=
    if o.disableAllInstrumentation then bc
    else
      let bc := callstackInstrumentation P V.uniqueCallstackFunctions bc
      let bc := instrumentAllocations P V.allocations bc
      let bc := instrumentCallocs P V.callocs bc
      let bc := instrumentReallocs P V.reallocs bc
      let bc := if o.disablePin then bc else instrumentUnkowns P V.unknowns bc
      let bc := insertLoadsStoresRegular P V.accesses bc
      let bc := instrumentDeallocs P V.deallocs bc
      let bc := instrumentReturns P V.functionAllocaMap bc
      instrumentInvokes P V.invokes V.functionAllocaMap bc
  insertEpilogue P (setRuntimeGlobalVariables P o.prologue bc)

end Insertion

end Carmot.Pass
