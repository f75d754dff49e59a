/-
Interning of call stacks (wrapper.cpp): `saveCallstack` gives every
pair of a static id and a stack a 64-bit id, and `dynamicTraces` maps
the id back.

The buckets are reached by two hash maps, one over the xor hash and one
over the number of frames; in a bucket the hash of the frames and
`memcmp` decide. `std::hash<uint64_t>` is a parameter: the proofs use
nothing of it but that it is injective.

A `Trace*` is the trace itself: frames, length and hash of a trace
object never change once it is made.
-/
import Mathlib.Logic.Function.Basic
import Carmot.Wrapper.Trace

namespace Carmot.Wrapper

/-- A `DynamicTrace` object. -/
structure DynamicTrace where
  trace : Trace
  staticID : UInt64
  uniqueID : UInt64

/-- The globals `traces`, `dynamicTraces` and `globalID`. -/
structure Callstacks where
  traces : UInt64 → Option (Nat → Option (List DynamicTrace))
  dynamicTraces : UInt64 → Option DynamicTrace
  globalID : UInt64

/-- Before the first call. Ids start at 1: 0 marks a use that is
ignored. -/
def Callstacks.init : Callstacks where
  traces := fun _ => none
  dynamicTraces := fun _ => none
  globalID := 1

section SaveCallstack

variable (uint64Hash : UInt64 → UInt64)

/-- `myHashPart2`. -/
def myHashPart2 (hashPart1 staticID : UInt64) : UInt64 := hashPart1 ^^^ uint64Hash staticID

/-- `incrementPushReturn`: a record under the next id, pushed into its
bucket; the index operators make the maps on the way. -/
def incrementPushReturn (cs : Callstacks) (trace : Trace) (staticID dynamicID : UInt64) :
    Callstacks × UInt64 :=
  let uniqueID := cs.globalID
  let dynamicTrace : DynamicTrace := ⟨trace, staticID, uniqueID⟩
  let byNptrs := (cs.traces dynamicID).getD fun _ => none
  let bucket := (byNptrs trace.nptrs).getD []
  ({ globalID := cs.globalID + 1
     traces := Function.update cs.traces dynamicID
       (some (Function.update byNptrs trace.nptrs (some (bucket ++ [dynamicTrace]))))
     dynamicTraces := Function.update cs.dynamicTraces uniqueID (some dynamicTrace) },
    uniqueID)

/-- Is this the record of the trace? The static id is not compared: it
is part of the hash that led to the bucket. -/
def DynamicTrace.sameTrace (elem : DynamicTrace) (trace : Trace) : Bool :=
  elem.trace.hashPart1 == trace.hashPart1
    && memcmpEqual trace.bytes elem.trace.bytes trace.nptrs

/-- `saveCallstack`; a null trace gets id 0. -/
def saveCallstack (cs : Callstacks) (staticID : UInt64) : Option Trace → Callstacks × UInt64
  | none => (cs, 0)
  | some trace =>
      let dynamicID := myHashPart2 uint64Hash trace.hashPart1 staticID
      match cs.traces dynamicID with
      | none => incrementPushReturn cs trace staticID dynamicID
      | some byNptrs =>
          match byNptrs trace.nptrs with
          | none => incrementPushReturn cs trace staticID dynamicID
          | some bucket =>
              match bucket.find? fun elem => elem.sameTrace trace with
              | none => incrementPushReturn cs trace staticID dynamicID
              | some existingTrace => (cs, existingTrace.uniqueID)

/-- A sequence of calls with traces, and the ids they return. -/
def saveCallstacks : Callstacks → List (UInt64 × Trace) → Callstacks × List UInt64
  | cs, [] => (cs, [])
  | cs, (staticID, trace) :: calls =>
      let (cs, id) := saveCallstack uint64Hash cs staticID (some trace)
      let (cs, ids) := saveCallstacks cs calls
      (cs, id :: ids)

end SaveCallstack

end Carmot.Wrapper
