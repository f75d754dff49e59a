/-
The connection graph and its cycles (AllocationTable.cpp).

`GenerateConnectionGraph` makes one vertex per entry of the table and
notes on each object the vertex that was made for it, the last one when
several entries share the object. Each slot recorded on an object is
read again: while it still holds an address of the object, it is an edge
from the object the slot lies in.

`FindCyclesInConnectionGraph` numbers the vertices by strong component
and collects the objects of every component of more than one vertex. The
numbering is that of boost's `strong_components`, an argument here. The
overload for one state differs from this one only in the states it
looks at.

Escapes and components are unordered in the source; edges are a set, and
components are taken in the order of their numbers' last vertex.
-/
import Mathlib.Data.Finset.Union
import Carmot.Lib.Components
import Carmot.Texas.Pipeline

namespace Carmot.Texas

open Carmot.Lib (largeGroups)

/-- What the program's memory holds. -/
abbrev Memory := Addr → UInt64

-- ================================================================= the graph

/-- `allocConnections`: the object of every vertex, and the edges. -/
structure ConnectionGraph where
  vertices : List AllocId
  edges : Finset (Nat × Nat)

/-- The objects of the table, entry by entry in the order of the
loops. -/
def AllocationTable.entryObjects (t : AllocationTable) : List AllocId :=
  t.sortedAllocationTable.entries.map Prod.snd ++ t.hashAllocationTable.entries.map Prod.snd

/-- `boost::add_vertex`, noted in the object's `connectionVertex`. -/
def addVertex (made : (AllocId → Nat) × List AllocId) (alloc : AllocId) :
    (AllocId → Nat) × List AllocId :=
  let (connectionVertex, vertices) := made
  (Function.update connectionVertex alloc vertices.length, vertices ++ [alloc])

/-- The two loops that add the vertices. -/
def addVertices (objects : List AllocId) : (AllocId → Nat) × List AllocId :=
  objects.foldl addVertex (fun _ => 0, [])

/-- The edges into one object. -/
def escapeEdges (rt : Runtime) (mem : Memory) (connectionVertex : AllocId → Nat)
    (alloc : AllocId) : Finset (Nat × Nat) :=
  (rt.allocs alloc).allocToEscapeMap.biUnion fun candidateEscape =>
    -- a slot that no longer points to the object is passed over
    if doesItAlias (rt.allocs alloc).pointer (rt.allocs alloc).length (mem candidateEscape) = -1
    then ∅
    else
      match rt.find candidateEscape with
      | none => ∅
      | some pointerAlloc => {(connectionVertex pointerAlloc, connectionVertex alloc)}

/-- `GenerateConnectionGraph`. -/
def generateConnectionGraph (rt : Runtime) (mem : Memory) : ConnectionGraph :=
  let objects := rt.allocationMap.entryObjects
  let (connectionVertex, vertices) := addVertices objects
  { vertices := vertices
    edges := objects.toFinset.biUnion (escapeEdges rt mem connectionVertex) }

-- ================================================================ the cycles

/-- A `SmartPointerCycle`. -/
structure SmartPointerCycle where
  cycle : List AllocId
  states : List StateId
  weakPoint : Option AllocId
  deriving DecidableEq, Repr

/-- The objects of every component of more than one vertex. -/
def ConnectionGraph.newCycles (G : ConnectionGraph) (component : Nat → Nat) :
    List (List AllocId) :=
  (largeGroups component G.vertices.length).map fun scc => scc.map fun v => G.vertices.getD v 0

/-- The object with the lowest freshness, the first of several. -/
def oldest (rt : Runtime) (cycle : List AllocId) : Option AllocId :=
  let start : Option AllocId × UInt64 := (none, 0xffffffffffffffff)
  (cycle.foldl (fun (old, oldVal) a =>
    if (rt.allocs a).freshness < oldVal then (some a, (rt.allocs a).freshness)
    else (old, oldVal)) start).1

/-- `FindCyclesInConnectionGraph`: the cycles with an allocation made in
a state, with these states. -/
def findCyclesInConnectionGraph (rt : Runtime) (stateMap : List StateId) (G : ConnectionGraph)
    (component : Nat → Nat) : List SmartPointerCycle :=
  (G.newCycles component).filterMap fun cycle =>
    let states := stateMap.filter fun s =>
      cycle.any fun a => decide (a ∈ (rt.sets s).allocsAllocatedInState)
    if states = [] then none else some ⟨cycle, states, oldest rt cycle⟩

-- ==================================================================== the run

/-- Entries executed while the program goes on: each with the memory at
that moment. -/
def processSteps (env : Env) (rt : Runtime) (steps : List (ShadowEntry × Memory)) : Runtime :=
  steps.foldl (fun rt step => processEntry { env with mem := step.2 } rt step.1) rt

end Carmot.Texas
