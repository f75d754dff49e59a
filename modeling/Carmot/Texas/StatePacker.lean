/-
The state packer (state_packer.c), as far as it computes the layout:
`state_packer_new`, `state_packer_start_layout`, and the target offset
`state_packer_add_allocation` gives every allocation it is handed.

The running offset is rounded three times, for the alignment, for the
cache line and for the page, in 64-bit arithmetic. A cache line size or
a page alignment of 0 is replaced by its default when the first
allocation is added.

# Left out

Every function returns 1 on a null packer; the packer here is not null.
The pointer of the allocation is not read before the move.
-/
import Mathlib.Data.UInt

namespace Carmot.Texas

/-- The fields of `state_packer_state` the layout uses. -/
structure StatePacker where
  minAlignment : UInt64
  cacheLineSize : UInt64
  currentOffset : UInt64
  pageAlignment : UInt64
  deriving DecidableEq, Repr

/-- What `state_packer_add_allocation` is told about an allocation. -/
structure PackRequest where
  lenOfAllocation : UInt64
  alignmentOfAllocation : UInt64
  deriving DecidableEq, Repr

/-- `state_packer_new`: the fields it does not set are zeroed. -/
def StatePacker.new (minAlignment cacheLineSize : UInt64) : StatePacker where
  minAlignment := minAlignment
  cacheLineSize := cacheLineSize
  currentOffset := 0
  pageAlignment := 0

namespace StatePacker

/-- `state_packer_start_layout`. -/
def startLayout (s : StatePacker) : StatePacker := { s with currentOffset := 0 }

/-- The alignment an allocation gets: the larger of its own and the
packer's, 8 when both are 0. -/
def alignment (s : StatePacker) (r : PackRequest) : UInt64 :=
  let alignment := if r.alignmentOfAllocation > s.minAlignment then r.alignmentOfAllocation
    else s.minAlignment
  if alignment = 0 then 8 else alignment

/-- The cache line size, with its default. -/
def lineSize (s : StatePacker) : UInt64 := if s.cacheLineSize = 0 then 64 else s.cacheLineSize

/-- The page alignment, with its default. -/
def pageSize (s : StatePacker) : UInt64 := if s.pageAlignment = 0 then 4096 else s.pageAlignment

end StatePacker

-- ============================================================ roundings

/-- The rounding for the alignment: it ADDS the residue. -/
def addResidue (offset alignment : UInt64) : UInt64 := offset + offset % alignment

/-- Does the allocation start inside a line (or page) and run past its
end? -/
def straddles (offset len size : UInt64) : Bool :=
  decide (offset % size ≠ 0) && decide (len + offset % size > size)

/-- The rounding for the cache line and for the page. -/
def roundPast (offset len size : UInt64) : UInt64 :=
  if straddles offset len size then offset + (size - offset % size) else offset

namespace StatePacker

variable (s : StatePacker) (r : PackRequest)

/-- The offset after the rounding for the alignment. -/
def residueOffset : UInt64 := addResidue s.currentOffset (s.alignment r)

/-- The offset after the rounding for the cache line. -/
def lineOffset : UInt64 := roundPast (s.residueOffset r) r.lenOfAllocation s.lineSize

/-- The offset after the rounding for the page. -/
def pageOffset : UInt64 := roundPast (s.lineOffset r) r.lenOfAllocation s.pageSize

/-- `state_packer_add_allocation`: the packer after it, and `*target`. -/
def addAllocation : StatePacker × UInt64 :=
  ({ s with
      cacheLineSize := s.lineSize
      pageAlignment := s.pageSize
      currentOffset := s.pageOffset r + r.lenOfAllocation }, s.pageOffset r)

end StatePacker

/-- The allocations of a layout, in the order they are added, each with
its target. -/
def StatePacker.layout : StatePacker → List PackRequest → List (PackRequest × UInt64)
  | _, [] => []
  | s, r :: rs => (r, (s.addAllocation r).2) :: layout (s.addAllocation r).1 rs

end Carmot.Texas
