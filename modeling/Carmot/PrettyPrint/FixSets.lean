/-
The post-processing of saved sets (utils/prettyPrint, get-parallelfor.cpp
and get-ward.cpp): every allocation of a state moves to the one set that
joins the sets it was saved in.

`fixSet` takes three sets by reference and its callers pass one set
twice (the destination is often the second source). A reference is
therefore the set's code, and the destination is read again after the
two sources were written.
-/
import Carmot.Wrapper.ToSave

namespace Carmot.PrettyPrint

open Carmot.Texas (StateClass)
open Carmot.Wrapper

-- ================================================= removing duplicates

/-- The loop of `removeDuplicatesFromSet`, with the ids met so far. -/
def removeDuplicatesLoop (uniqueIDs : Finset UInt64) :
    List AllocationToSave → List AllocationToSave
  | [] => []
  | allocation :: rest =>
      if allocation.uniqueID ∈ uniqueIDs then removeDuplicatesLoop uniqueIDs rest
      else allocation :: removeDuplicatesLoop (insert allocation.uniqueID uniqueIDs) rest

/-- `removeDuplicatesFromSet`. -/
def removeDuplicatesFromSet (allocations : List AllocationToSave) : List AllocationToSave :=
  removeDuplicatesLoop ∅ allocations

/-- `removeDuplicates`. -/
def removeDuplicates (statesToSave : StatesToSave) : StatesToSave where
  states := statesToSave.states.map fun elem =>
    (elem.1, { elem.2 with sets := elem.2.sets.map removeDuplicatesFromSet })

-- ========================================================= fixing sets

/-- What the loops of `fixSet` leave: the two sources and the copies to
add to the destination. -/
structure Matched where
  allocations1 : List AllocationToSave
  allocations2 : List AllocationToSave
  allocationsToAdd : List AllocationToSave

/-- The loops of `fixSet`: an allocation of the first list takes the
first one of the second list with its id, and both go. -/
def matchLoop : List AllocationToSave → List AllocationToSave → Matched
  | [], allocations2 => ⟨[], allocations2, []⟩
  | allocation1 :: rest, allocations2 =>
      let sameID := fun allocation2 : AllocationToSave =>
        allocation1.uniqueID == allocation2.uniqueID
      if allocations2.any sameID then
        let m := matchLoop rest (allocations2.eraseP sameID)
        { m with allocationsToAdd := allocation1 :: m.allocationsToAdd }
      else
        let m := matchLoop rest allocations2
        { m with allocations1 := allocation1 :: m.allocations1 }

/-- The arguments of one `fixSet` call. -/
structure Pass where
  src1 : StateClass
  src2 : StateClass
  dst : StateClass

/-- `fixSet`. -/
def fixSet (sets : PerSet (List AllocationToSave)) (p : Pass) : PerSet (List AllocationToSave) :=
  let m := matchLoop (sets.get p.src1) (sets.get p.src2)
  let sets := (sets.set p.src1 m.allocations1).set p.src2 m.allocations2
  sets.set p.dst (sets.get p.dst ++ m.allocationsToAdd)

/-- The calls of `fixSets`, in order. -/
def passes : List Pass :=
  [⟨.input, .output, .io⟩, ⟨.input, .co, .cio⟩, ⟨.input, .to, .tio⟩,
   ⟨.input, .io, .io⟩, ⟨.input, .cio, .cio⟩, ⟨.input, .tio, .tio⟩,
   ⟨.output, .co, .co⟩, ⟨.output, .to, .to⟩, ⟨.output, .io, .io⟩,
   ⟨.output, .cio, .cio⟩, ⟨.output, .tio, .tio⟩,
   ⟨.io, .co, .cio⟩, ⟨.io, .to, .tio⟩, ⟨.io, .cio, .cio⟩, ⟨.io, .tio, .tio⟩,
   ⟨.co, .to, .to⟩, ⟨.co, .cio, .cio⟩, ⟨.co, .tio, .tio⟩,
   ⟨.to, .cio, .tio⟩, ⟨.to, .tio, .tio⟩,
   ⟨.cio, .tio, .tio⟩]

/-- `fixSets`. -/
def fixSets (stateToSave : StateToSave) : StateToSave :=
  { stateToSave with sets := passes.foldl fixSet stateToSave.sets }

/-- `fixSetsAll`. -/
def fixSetsAll (statesToSave : StatesToSave) : StatesToSave where
  states := statesToSave.states.map fun elem => (elem.1, fixSets elem.2)

/-- What `main` does to the sets before it prints them. -/
def main (statesToSave : StatesToSave) : StatesToSave :=
  removeDuplicates (fixSetsAll (removeDuplicates statesToSave))

-- ========================================================= sanity check

/-- `isThereIntersection`. -/
def isThereIntersection (set1 set2 : List AllocationToSave) : Bool :=
  set1.any fun a => set2.any fun b => a.uniqueID == b.uniqueID

/-- The pairs `sanityCheck` compares. -/
def checkedPairs : List (StateClass × StateClass) :=
  [(.input, .output), (.input, .io), (.input, .co), (.input, .to), (.input, .cio), (.input, .tio),
   (.output, .io), (.output, .co), (.output, .to), (.output, .cio), (.output, .tio),
   (.io, .co), (.io, .to), (.io, .cio), (.io, .tio),
   (.co, .to), (.co, .cio), (.co, .tio),
   (.to, .cio), (.to, .tio),
   (.cio, .tio)]

/-- `sanityCheck`: does it find an intersection, and abort? -/
def sanityCheck (stateToSave : StateToSave) : Bool :=
  checkedPairs.any fun p =>
    isThereIntersection (stateToSave.sets.get p.1) (stateToSave.sets.get p.2)

end Carmot.PrettyPrint
