/-
What the pass computes on NOELLE's program call graph: the functions
whose loads and stores are instrumented (CatPass.cpp), and the functions
that are taken to have one call stack only, with the instrumentation
and the runtime call that rely on it (ClusterCallstackInstrumentation.cpp,
wrapper.cpp).

# Sets

`std::unordered_set`s of functions are the lists of their elements in
order of insertion. A loop over one takes some order: that of the edge
sets is the order of the lists of a `CallGraph`, that of the sets made
here is a parameter `order`.

# Recursion

Both traversals are recursive. The model bounds the depth of the calls
and is `none` where the source would go deeper.
-/
import Mathlib.Data.List.Dedup
import Mathlib.Order.Lattice
import Mathlib.Order.Defs.LinearOrder

namespace Carmot.Pass

-- ========================================================== the graph

/-- A program call graph: the functions at the other ends of the edges
into and out of each, one edge for each pair of a caller and a
callee. -/
structure CallGraph (F : Type) where
  functions : List F
  outgoing : F → List F
  incoming : F → List F
  mem_functions : ∀ f g, g ∈ outgoing f → g ∈ functions
  mem_incoming : ∀ f g, f ∈ incoming g ↔ g ∈ outgoing f
  nodup_incoming : ∀ g, (incoming g).Nodup

namespace CallGraph

variable {F : Type} (G : CallGraph F)

/-- One call edge. -/
def Calls (f g : F) : Prop := g ∈ G.outgoing f

/-- The graph of a list of callers and callees, repeated or not. -/
def ofPairs [DecidableEq F] (pairs : List (F × F)) : CallGraph F where
  functions := pairs.map Prod.snd
  outgoing := fun f => ((pairs.filter fun p => p.1 = f).map Prod.snd).dedup
  incoming := fun g => ((pairs.filter fun p => p.2 = g).map Prod.fst).dedup
  mem_functions f g h := by
    obtain ⟨p, hp, hg⟩ := List.mem_map.mp (List.mem_dedup.mp h)
    exact List.mem_map.mpr ⟨p, List.mem_of_mem_filter hp, hg⟩
  mem_incoming f g := by
    simp [and_comm]
  nodup_incoming g := List.nodup_dedup _

theorem calls_ofPairs [DecidableEq F] {pairs : List (F × F)} {f g : F} :
    (ofPairs pairs).Calls f g ↔ (f, g) ∈ pairs := by
  simp [Calls, ofPairs]

end CallGraph

-- ============================================ loads and stores to instrument

section LoadStore

variable {F : Type} [DecidableEq F] (G : CallGraph F)

/-- `visitOutgoingEdges`, on the callees of the edges. -/
def visitOutgoingEdges : Nat → List F → List F → Option (List F)
  | 0, _, _ => none
  | depth + 1, outgoingEdges, visited =>
      outgoingEdges.foldlM (fun visited function =>
        if function ∈ visited then some visited
        else visitOutgoingEdges depth (G.outgoing function) (visited ++ [function])) visited

/-- `getFunctionsThatCallStartTracking`. -/
def getFunctionsThatCallStartTracking (startTrackingFunction : F) : List F :=
  (G.incoming startTrackingFunction).foldl
    (fun callers caller => if caller ∈ callers then callers else callers ++ [caller]) []

/-- The loop over the functions that call start tracking. -/
def visitChildren (depth : Nat) (children visited : List F) : Option (List F) :=
  children.foldlM (fun visited child => visitOutgoingEdges G depth (G.outgoing child) visited) visited

end LoadStore

/-- `std::set_union`, with the comparisons it makes: it relies on both
ranges being sorted only for its output to be. -/
def setUnion {F : Type} [LinearOrder F] : List F → List F → List F
  | [], ys => ys
  | x :: xs, [] => x :: xs
  | x :: xs, y :: ys =>
      if x < y then x :: setUnion xs (y :: ys)
      else if y < x then y :: setUnion (x :: xs) ys
      else x :: setUnion xs ys
termination_by xs ys => xs.length + ys.length
decreasing_by
  · rw [List.length_cons, List.length_cons]
    omega
  · rw [List.length_cons, List.length_cons]
    omega
  · rw [List.length_cons, List.length_cons]
    omega

/-- `getFunctionsToInstrumentLoadStore`. -/
def getFunctionsToInstrumentLoadStore {F : Type} [LinearOrder F] (G : CallGraph F)
    (order : List F → List F) (startTrackingFunction : F) (depth : Nat) : Option (List F) :=
  let callers := getFunctionsThatCallStartTracking G startTrackingFunction
  match visitChildren G depth (order callers) [] with
  | none => none
  | some visited => some (setUnion (order callers) (order visited))

-- ================================================== unique call stacks

section UniqueCallstacks

variable {F : Type} [DecidableEq F] (G : CallGraph F)

/-- `visitDepthFirst`: a function with more than one incoming edge ends
the visit, any other is taken, again if it was taken before. -/
def visitDepthFirst : Nat → F → List F → Option (List F)
  | 0, _, _ => none
  | depth + 1, node, uniqueCallstackFunctions =>
      if (G.incoming node).length > 1 then some uniqueCallstackFunctions
      else
        (G.outgoing node).foldlM (fun taken nextNode => visitDepthFirst depth nextNode taken)
          (if node ∈ uniqueCallstackFunctions then uniqueCallstackFunctions
            else uniqueCallstackFunctions ++ [node])

/-- `getUniqueCallstackFunctions`. -/
def getUniqueCallstackFunctions (entryNode : F) (depth : Nat) : Option (List F) :=
  visitDepthFirst G depth entryNode []

/-- The indices `callstackInstrumentation` gives to the functions of the
module that have a body and are in the set: the calls of
`getBacktraceUnique` it inserts. -/
def uniqueIndices (uniqueCallstackFunctions : List F) : Nat → List F → List (F × Nat)
  | _, [] => []
  | index, f :: functions =>
      if f ∈ uniqueCallstackFunctions then
        (f, index) :: uniqueIndices uniqueCallstackFunctions (index + 1) functions
      else uniqueIndices uniqueCallstackFunctions index functions

end UniqueCallstacks

/-- `getBacktraceUnique`, with the trace `backtrace_asm` would capture;
`uniqueTraces` is the global vector, empty before the first call.
`none` is an index out of its bounds. -/
def getBacktraceUnique {T : Type} (uniqueTraces : Option (List (Option T)))
    (index numberOfUniqueTraces : Nat) (captured : T) : Option (List (Option T) × T) :=
  let traces := uniqueTraces.getD (List.replicate numberOfUniqueTraces none)
  match traces[index]? with
  | none => none
  | some (some trace) => some (traces, trace)
  | some none => some (traces.set index (some captured), captured)

end Carmot.Pass
