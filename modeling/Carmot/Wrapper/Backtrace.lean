/-
The three builds of `getBacktrace` (wrapper.cpp). Each captures the
stack, hashes it, and returns a pointer to a `Trace` object it keeps:
`MEMORYTOOL_NOCACHE` looks the stack up in the hash map,
`MEMORYTOOL_LRUCACHE` puts a list of recently used objects in front of
it, `MEMORYTOOL_CACHE` the objects of the first calls.

Objects are never freed before the report, so a `Trace*` is the index
of the object in the order of creation. The stack `backtrace_asm` would
capture is an argument.

`dq` holds every object at most once, since an object is pushed only
when nothing in the list compares equal to it; the iterator that `ma`
keeps for an object is therefore its only place in `dq`, and erasing it
is `List.erase`.
-/
import Mathlib.Logic.Function.Basic
import Carmot.Wrapper.Trace

namespace Carmot.Wrapper

/-- A `Trace*`. -/
abbrev TracePtr := Nat

-- ========================================================== the hash map

/-- The objects made so far, and `hashToTraceMap`. -/
structure TraceStore where
  heap : List Trace
  hashToTraceMap : UInt64 → Option (List TracePtr)

def TraceStore.init : TraceStore := ⟨[], fun _ => none⟩

namespace TraceStore

/-- `traceCompare(trace, *p)`. -/
def compares (st : TraceStore) (trace : Trace) (p : TracePtr) : Bool :=
  match st.heap[p]? with
  | none => false
  | some t => traceCompare trace.toStack t.toStack

/-- `new Trace(trace)`. -/
def newTrace (st : TraceStore) (trace : Trace) : TraceStore × TracePtr :=
  ({ st with heap := st.heap ++ [trace] }, st.heap.length)

/-- A new object, pushed into the bucket of its hash. -/
def push (st : TraceStore) (trace : Trace) : TraceStore × TracePtr :=
  let (st, p) := st.newTrace trace
  ({ st with
      hashToTraceMap := Function.update st.hashToTraceMap trace.hashPart1
        (some ((st.hashToTraceMap trace.hashPart1).getD [] ++ [p])) }, p)

/-- The look-up the three builds share: the object of the bucket that
compares equal, or a new one. -/
def findOrPush (st : TraceStore) (trace : Trace) : TraceStore × TracePtr :=
  match st.hashToTraceMap trace.hashPart1 with
  | some bucket =>
      match bucket.find? (st.compares trace) with
      | some traceInMap => (st, traceInMap)
      | none => st.push trace
  | none => st.push trace

/-- `p->accessFrequency += 1`. -/
def touch (st : TraceStore) (p : TracePtr) : TraceStore :=
  { st with
    heap := st.heap.modify p fun t => { t with accessFrequency := t.accessFrequency + 1 } }

end TraceStore

-- ================================================================ NOCACHE

/-- `getBacktrace`, built with `MEMORYTOOL_NOCACHE`. -/
def getBacktraceNoCache (st : TraceStore) (captured : Stack) : TraceStore × TracePtr :=
  st.findOrPush (Trace.new captured)

-- =============================================================== LRUCACHE

/-- The store and the list of an `LRUCache`, most recent first. -/
structure LRUCache where
  store : TraceStore
  dq : List TracePtr

def LRUCache.init : LRUCache := ⟨TraceStore.init, []⟩

/-- `LRUCache::refer`. -/
def LRUCache.refer (csize : Nat) (c : LRUCache) (x : Trace) : LRUCache × TracePtr :=
  match c.dq.find? (c.store.compares x) with
  | none =>
      let dq := if c.dq.length = csize then c.dq.dropLast else c.dq
      let (store, traceInCache) := c.store.findOrPush x
      (⟨store, traceInCache :: dq⟩, traceInCache)
  | some traceInCache =>
      let dq := if c.dq.head? ≠ some traceInCache then
          traceInCache :: c.dq.erase traceInCache else c.dq
      (⟨c.store, dq⟩, traceInCache)

/-- `getBacktrace`, built with `MEMORYTOOL_LRUCACHE`. -/
def getBacktraceLRU (csize : Nat) (c : LRUCache) (captured : Stack) : LRUCache × TracePtr :=
  c.refer csize (Trace.new captured)

-- ================================================================== CACHE

/-- The store and `traceCache`. -/
structure TraceCache where
  store : TraceStore
  traceCache : List TracePtr

def TraceCache.init : TraceCache := ⟨TraceStore.init, []⟩

/-- `insertOrGetTrace`: while the cache is not full it takes every
trace, unlooked; afterwards it is searched. -/
def insertOrGetTrace (traceCacheSize : Nat) (c : TraceCache) (trace : Trace) :
    TraceCache × Option TracePtr :=
  if c.traceCache.length < traceCacheSize then
    let (store, p) := c.store.newTrace trace
    (⟨store, c.traceCache ++ [p]⟩, some p)
  else (c, c.traceCache.find? (c.store.compares trace))

/-- `swapLeastFrequentTrace` assigns to its loop variable and its
parameter, which are copies of the pointers. -/
def swapLeastFrequentTrace (c : TraceCache) (_trace : TracePtr) : TraceCache := c

/-- `getBacktrace`, built with `MEMORYTOOL_CACHE`. -/
def getBacktraceCache (traceCacheSize : Nat) (c : TraceCache) (captured : Stack) :
    TraceCache × TracePtr :=
  let trace := Trace.new captured
  match insertOrGetTrace traceCacheSize c trace with
  | (c, some traceRet) => ({ c with store := c.store.touch traceRet }, traceRet)
  | (c, none) =>
      let (store, traceRet) := c.store.findOrPush trace
      (swapLeastFrequentTrace { c with store := store.touch traceRet } traceRet, traceRet)

end Carmot.Wrapper
