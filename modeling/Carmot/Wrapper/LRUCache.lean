/-
`LRUCache` with all that `refer` keeps (wrapper.cpp): the list of
recently used objects, the iterator of each of them, and the hash map
that never forgets one.

Backtrace.lean models the cache as `getBacktrace` uses it, on traces
whose `hashPart1` is the hash of their frames, and without the
iterators. Here `refer` is handed any `Trace`, with any hash, and `ma`
is kept. What C++ leaves undefined is `none`: popping an empty list, and
erasing at an iterator whose node is gone. `ma[p]` for a `p` that is no
key would make up such an iterator, so it is `none` as well.

A trace's `nptrs` is only bounded by what `memcmp` may read of the
buffer.
-/
import Carmot.Lib.LinkedList
import Carmot.Wrapper.Backtrace

namespace Carmot.Wrapper.LRU

open Carmot.Lib (LinkedList)

-- ==================================================================== traces

/-- A `Trace` object, whatever its hash. -/
structure Trace where
  buffer : Fin traceSize → Frame
  nptrs : Nat
  accessFrequency : UInt64
  hashPart1 : UInt64
  nptrs_le : nptrs ≤ 8 * traceSize

/-- The bytes of the buffer. -/
def Trace.bytes (t : Trace) : List UInt8 := (List.ofFn t.buffer).flatMap frameBytes

/-- `traceCompare`. -/
def traceCompare (trace1 trace2 : Trace) : Bool :=
  trace1.nptrs == trace2.nptrs && memcmpEqual trace1.bytes trace2.bytes trace1.nptrs

-- ================================================================= the cache

/-- The objects made so far, and the members of `LRUCache`. -/
structure Cache where
  heap : List Trace
  hashToTraceMap : UInt64 → Option (List TracePtr)
  dq : LinkedList TracePtr
  ma : TracePtr → Option Nat

namespace Cache

def init : Cache := ⟨[], fun _ => none, LinkedList.empty, fun _ => none⟩

/-- `traceCompare(x, *p)`. -/
def compares (c : Cache) (x : Trace) (p : TracePtr) : Bool :=
  match c.heap[p]? with
  | none => false
  | some t => traceCompare x t

/-- `new Trace(x)`, pushed into the bucket of its hash. -/
def push (c : Cache) (x : Trace) : Cache × TracePtr :=
  ({ c with
      heap := c.heap ++ [x]
      hashToTraceMap := Function.update c.hashToTraceMap x.hashPart1
        (some ((c.hashToTraceMap x.hashPart1).getD [] ++ [c.heap.length])) }, c.heap.length)

/-- The object of the bucket that compares equal, or a new one. -/
def findOrPush (c : Cache) (x : Trace) : Cache × TracePtr :=
  match c.hashToTraceMap x.hashPart1 with
  | some bucket =>
      match bucket.find? (c.compares x) with
      | some traceInMap => (c, traceInMap)
      | none => c.push x
  | none => c.push x

/-- When the cache is full, the least recently used object leaves the
list and `ma`. -/
def evictIfFull (csize : Nat) (c : Cache) : Option Cache :=
  if c.dq.values.length = csize then do
    let last ← c.dq.back?
    let dq ← c.dq.popBack
    some { c with dq := dq, ma := Function.update c.ma last none }
  else some c

/-- Push an object to the front, and keep its iterator. -/
def pushFront (c : Cache) (p : TracePtr) : Cache :=
  { c with
    dq := c.dq.pushFront p
    ma := Function.update c.ma p (c.dq.pushFront p).begin? }

/-- `LRUCache::refer`. -/
def refer (csize : Nat) (c : Cache) (x : Trace) : Option (Cache × TracePtr) :=
  match c.dq.values.find? (c.compares x) with
  | none => do
      let c ← c.evictIfFull csize
      let (c, traceInCache) := c.findOrPush x
      some (c.pushFront traceInCache, traceInCache)
  | some traceInCache => do
      let traceInCacheIt ← c.ma traceInCache
      if c.dq.begin? ≠ some traceInCacheIt then do
        let dq ← c.dq.erase traceInCacheIt
        some ({ c with dq := dq }.pushFront traceInCache, traceInCache)
      else some (c, traceInCache)

/-- Calls of `refer` in order. -/
def referAll (csize : Nat) : Cache → List Trace → Option Cache
  | c, [] => some c
  | c, x :: xs => do
      let (c, _) ← c.refer csize x
      referAll csize c xs

end Cache

end Carmot.Wrapper.LRU
