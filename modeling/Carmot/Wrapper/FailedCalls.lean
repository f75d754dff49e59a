/-
Allocation calls of the program that fail or do nothing, as the
instrumentation hands them on (CatPass.cpp, wrapper.cpp).

The visitor sorts the library functions into four lists: `malloc` and
`mmap` share `caratStateAllocWrapper`, `realloc` and `mremap` share
`caratStateReallocWrapper`, `calloc` has its own, and `free` ends in
`RemoveFromAllocationTable`. The wrappers are called after the call they
stand for, with its result, and none looks at the result: a failed call
arrives with the address 0, or with the highest address where the
failure is `MAP_FAILED`.
-/
import Carmot.Texas.Pipeline
import Carmot.Wrapper.Calls

namespace Carmot.Wrapper

open Carmot.Texas

/-- A call that fails, with the id of the call site and the arguments
the instrumentation passes; or `free(nullptr)`. -/
inductive FailedCall
  | malloc (id size : UInt64) (traceArg : Option Trace)
  | calloc (id numElems size : UInt64) (traceArg : Option Trace)
  | realloc (id : UInt64) (ptr : Addr) (size : UInt64) (traceArg : Option Trace)
  | mmap (id length : UInt64) (traceArg : Option Trace)
  | mremap (id : UInt64) (oldAddress : Addr) (newSize : UInt64) (traceArg : Option Trace)
  | freeNull

namespace FailedCall

/-- The wrapper call instrumented for it. -/
def wrapperCall : FailedCall → WrapperCall
  | .malloc id size traceArg => .caratStateAlloc id 0 size traceArg
  | .calloc id numElems size traceArg => .caratStateCalloc id 0 numElems size traceArg
  | .realloc id ptr size traceArg => .caratStateRealloc id ptr 0 size traceArg
  | .mmap id length traceArg => .caratStateAlloc id maxAddr length traceArg
  | .mremap id oldAddress newSize traceArg =>
      .caratStateRealloc id oldAddress maxAddr newSize traceArg
  | .freeNull => .caratStateRemoveFromAllocationTable 0

end FailedCall

/-- The slots that writes fill, each over what the slot held before. -/
def filledSlots : (Nat → ShadowEntry) → List Event → List ShadowEntry
  | _, [] => []
  | stale, .write w :: events => w.fill (stale 0) :: filledSlots (fun i => stale (i + 1)) events
  | stale, .flush :: events => filledSlots stale events

/-- The entries the wrapper pushes for the call. -/
def FailedCall.entries (cfg : WrapperConfig) (w : Wrappers) (stale : Nat → ShadowEntry)
    (c : FailedCall) : List ShadowEntry :=
  let (w, calls) := cfg.body w c.wrapperCall
  filledSlots stale (w.producer.calls cfg.options.trackCycles calls).2

end Carmot.Wrapper
