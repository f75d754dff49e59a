/-
The code the pass emits around one load or store (OnlyRead.cpp,
DirectState.cpp), as what it does when the program reaches it: which
globals it reads and writes, and which wrapper it calls.

Every emitted test compares the address with the one a global kept from
the last time. The global starts as the null pointer and is shared by
everything that ever reaches the instruction.

The values an instruction has at run time (its address, the bounds of
the loop's induction variable) are arguments, and so is the trace the
function's callstack holds.
-/
import Mathlib.Algebra.Group.Nat.Defs
import Carmot.Pass.Instrument
import Carmot.Wrapper.Calls

namespace Carmot.Pass

open Carmot.Texas
open Carmot.Wrapper

-- ========================================================= the accesses

/-- The element types an access can have. -/
inductive ScalarKind
  | integer | floatingPoint | pointer
  deriving DecidableEq, Repr

/-- An element type: its width, and what one element takes in memory. -/
structure ElementType where
  kind : ScalarKind
  bits : Nat
  bytes : Nat
  pos : 0 < bytes
  fits : bits ≤ 8 * bytes
  bits_lt : bits < 2 ^ 32

/-- LLVM's `getScalarSizeInBits`: 0 for a pointer. -/
def ElementType.getScalarSizeInBits (ty : ElementType) : Nat :=
  match ty.kind with
  | .pointer => 0
  | _ => ty.bits

/-- An access `getDirectStateLoadStore` selects: `b[i]` with the index
going from `start` to `stop - 1`, or an address that is not tied to the
loop-governing induction variable. -/
inductive DirectAccess
  | indexed (b : Addr) (start stop : Int64)
  | scalar (addr : Addr)

/-- The base address `getDirectStateLoadStore` hands on: the pointer
operand of the `getelementptr`, or of the access itself. -/
def DirectAccess.baseAddr : DirectAccess → Addr
  | .indexed b _ _ => b
  | .scalar addr => addr

-- ==================================================== the runtime call

/-- What `createCallToRuntime` reads of a `DirectStateLoadStore`, with
the values of its bounds; a bound is `none` when the access is not tied
to the loop-governing induction variable. -/
structure DirectStateElem where
  id : UInt64
  startIndVar : Option Int64
  stopIndVar : Option Int64
  elementBitwidth : UInt64

/-- `createCallToRuntime`: the call of `setDirectState`. A missing start
is the constant 0, a missing stop the constant 2. -/
def createCallToRuntime (elem : DirectStateElem) (addr : Addr) (fsaState : StateClass)
    (callstackInst : Option Trace) : WrapperCall :=
  .setDirectState elem.id addr (elem.startIndVar.getD 0) (elem.stopIndVar.getD 2)
    elem.elementBitwidth fsaState callstackInst

/-- The element `getDirectStateLoadStore` makes of an access. -/
def DirectAccess.elem (id : UInt64) (ty : ElementType) : DirectAccess → DirectStateElem
  | .indexed _ start stop =>
      ⟨id, some start, some stop, UInt64.ofNat ty.getScalarSizeInBits⟩
  | .scalar _ => ⟨id, none, none, UInt64.ofNat ty.getScalarSizeInBits⟩

-- ====================================================== output or co

/-- The two globals of a store that `instrumentDirectStateOorCO`
instruments. -/
structure OorCOGlobals where
  newAllocation : Addr
  executedOnce : Bool
  deriving DecidableEq, Repr

/-- Their initialisers. -/
def OorCOGlobals.init : OorCOGlobals := ⟨0, false⟩

/-- The five blocks, from `oldBlock` to `newBlock`. The block that tests
the flag branches on the comparison of the addresses once more, so the
flag's test decides nothing. -/
def executeOorCO (elem : DirectStateElem) (callstackInst : Option Trace) (g : OorCOGlobals)
    (addr : Addr) : OorCOGlobals × List WrapperCall :=
  let cmpInst := decide (addr = g.newAllocation)
  if cmpInst then
    -- executedWrapperBlock
    let _isExecutedOnce := decide (true = g.executedOnce)
    if cmpInst then
      -- wrapperBlock2
      ({ g with executedOnce := false }, [createCallToRuntime elem addr .co callstackInst])
    else (g, [])
  else
    -- wrapperBlock
    (⟨addr, true⟩, [createCallToRuntime elem addr .output callstackInst])

/-- The store executed on each address in turn. -/
def executeStores (elem : DirectStateElem) (callstackInst : Option Trace) :
    OorCOGlobals → List Addr → OorCOGlobals × List WrapperCall
  | g, [] => (g, [])
  | g, addr :: rest =>
      let (g, calls) := executeOorCO elem callstackInst g addr
      let (g, more) := executeStores elem callstackInst g rest
      (g, calls ++ more)

-- ========================================================== only read

/-- The code of `instrumentOnlyReads`: the wrapper is called when the
address is not the last one, after the global has been set. -/
def executeOnlyRead (id : UInt64) (newAllocation addr : Addr) (callstackInst : Option Trace) :
    Addr × List WrapperCall :=
  if addr = newAllocation then (newAllocation, [])
  else (addr, [.texasAddToStateLoad id addr callstackInst])

/-- What happens around one instrumented load: the program reaches it,
or calls a wrapper. -/
inductive LoadEvent
  | load (addr : Addr) (callstackInst : Option Trace)
  | call (c : WrapperCall)

/-- The load's global, and the wrappers' ones. -/
structure LoadRun where
  newAllocation : Addr
  wrappers : Wrappers

namespace LoadRun

/-- Before the first event. -/
def init : LoadRun := ⟨0, Wrappers.init⟩

variable (cfg : WrapperConfig) (id : UInt64)

/-- One event: the globals after it, and the calls of the runtime that
the load's instrumentation makes. -/
def step (r : LoadRun) : LoadEvent → LoadRun × List Call
  | .load addr callstackInst =>
      let (newAllocation, calls) := executeOnlyRead id r.newAllocation addr callstackInst
      let (wrappers, made) := cfg.calls r.wrappers calls
      (⟨newAllocation, wrappers⟩, made)
  | .call c => (⟨r.newAllocation, (cfg.call r.wrappers c).1⟩, [])

/-- The globals after a sequence of events. -/
def after (events : List LoadEvent) : LoadRun :=
  events.foldl (fun r event => (step cfg id r event).1) init

end LoadRun

end Carmot.Pass
