/-
Allocations and the allocation table (Allocation.hpp,
AllocationTable.cpp, HelperFunctions.cpp): the objects, the lookup of
an address, insertion and deletion.

The table maps base addresses to objects and is searched with the
length stored IN the object, not beside the key: two keys that share
an object share its length. `findAllocation` therefore takes the heap
of allocation objects as well as the table.

The hashed fast path is kept as the source has it (a masked probe for
every mask, before the ordered search). Iteration over the unordered
hash table is modelled in ascending key order; nothing that iterates
over it depends on the order.
-/
import Carmot.Lib.SortedMap
import Carmot.Texas.State

namespace Carmot.Texas

open Carmot.Lib (SortedMap decr)

-- ========================================================= the objects

/-- What an allocation has pending for one state
(`StateCommitInfo`). -/
structure StateCommitInfo where
  useInfo : Finset UInt64
  stateSetToOffsetMap : Operation → Option (Finset UInt64)
  regionBasedOffsets : Bool

/-- A record that was just created, or emptied by a commit of nothing. -/
def StateCommitInfo.empty : StateCommitInfo where
  useInfo := ∅
  stateSetToOffsetMap := fun _ => none
  regionBasedOffsets := false

/-- An allocation object. -/
structure Allocation where
  pointer : Addr
  length : UInt64
  origin : UInt64
  freshness : UInt64
  affiliatedState : Option StateId
  allocToEscapeMap : Finset Addr
  stateCommitInfoMap : StateId → Option StateCommitInfo

/-- `new Allocation(ptr, len, origin)`. -/
def Allocation.new (ptr : Addr) (len origin : UInt64) : Allocation where
  pointer := ptr
  length := len
  origin := origin
  freshness := 0
  affiliatedState := none
  allocToEscapeMap := ∅
  stateCommitInfoMap := fun _ => none

-- ======================================================== address tests

/-- `doesItAlias`: the offset of `escapeVal` in the block, or -1. -/
def doesItAlias (allocAddr : Addr) (length escapeVal : UInt64) : Int64 :=
  if escapeVal ≥ allocAddr ∧ escapeVal < allocAddr + length then
    (escapeVal - allocAddr).toInt64
  else
    -1

/-- `GetOffset`. -/
def getOffset (baseAddr offAddr : Addr) : UInt64 := offAddr - baseAddr

-- =========================================================== the table

/-- An `AllocationTable`, less its connection graph. -/
structure AllocationTable where
  sortedAllocationTable : SortedMap Addr AllocId
  hashAllocationTable : SortedMap Addr AllocId
  masks : List UInt64
  maskLengths : List UInt64

/-- The table the default constructor makes: no masks. -/
def AllocationTable.new : AllocationTable where
  sortedAllocationTable := SortedMap.empty
  hashAllocationTable := SortedMap.empty
  masks := []
  maskLengths := []

/-- The mask `AddMaskForLength` computes. The source takes the logarithm
in floating point; on a power of two, the only lengths it accepts
without complaint, that is the exact exponent. -/
def maskForLength (length : UInt64) : UInt64 :=
  let shiftInt := length.log2
  (0xffffffffffffffff >>> shiftInt) <<< shiftInt

/-- `AddMaskForLength`. The two sets are unordered in the source: the
order of these lists stands for whatever order iteration takes. -/
def addMaskForLength (t : AllocationTable) (length : UInt64) : AllocationTable :=
  { t with
    masks := t.masks.insert (maskForLength length)
    maskLengths := t.maskLengths.insert length }

/-- The table the constructor makes from a set of lengths. -/
def AllocationTable.ofMasks (lengths : List UInt64) : AllocationTable :=
  lengths.foldl addMaskForLength AllocationTable.new

/-- `MaskKey`. -/
def maskKey (ptr : Addr) (mask : UInt64) : Addr := ptr &&& mask

/-- `findAllocation`: a masked probe per mask, then the exact key, then
the block just below the key. -/
def findAllocation (allocs : AllocId → Allocation) (t : AllocationTable)
    (key : Addr) : Option AllocId :=
  match t.masks.findSome? fun mask =>
      t.hashAllocationTable.find? (maskKey key mask) with
  | some a => some a
  | none =>
      match t.sortedAllocationTable.lowerBound key with
      | none => none
      | some (blockStart, a) =>
          if blockStart = key then some a
          else
            -- no entry below the bound: the bound is `begin()`
            match t.sortedAllocationTable.pred key with
            | none => none
            | some (prevStart, b) =>
                if doesItAlias prevStart (allocs b).length key = -1 then none
                else some b

/-- `findAllocation` once more, with the iterator the source moves: its
position in the ordered table, `none` where it would be decremented at
`begin()` or dereferenced at `end()`. -/
def findAllocationIter (allocs : AllocId → Allocation) (t : AllocationTable)
    (key : Addr) : Option (Option AllocId) :=
  match t.masks.findSome? fun mask =>
      t.hashAllocationTable.find? (maskKey key mask) with
  | some a => some (some a)
  | none =>
      let prospective := t.sortedAllocationTable.lowerPos key
      if prospective = t.sortedAllocationTable.entries.length then some none
      else do
        let (blockStart, a) ← t.sortedAllocationTable.entries[prospective]?
        if blockStart = key then some (some a)
        else if prospective ≠ 0 then do
          let prospective ← decr prospective
          let (prevStart, b) ← t.sortedAllocationTable.entries[prospective]?
          if doesItAlias prevStart (allocs b).length key = -1 then some none
          else some (some b)
        else some none

/-- `InsertAllocation`: into the hash table when the object's length has
a mask, else into the ordered one; a present key is kept in both. -/
def insertAllocation (allocs : AllocId → Allocation) (t : AllocationTable)
    (key : Addr) (a : AllocId) : AllocationTable :=
  if (allocs a).length ∈ t.maskLengths then
    { t with hashAllocationTable := t.hashAllocationTable.insert key a }
  else
    { t with sortedAllocationTable := t.sortedAllocationTable.insert key a }

/-- `DeleteAllocation`: the hash table is tried first. -/
def deleteAllocation (t : AllocationTable) (key : Addr) : AllocationTable :=
  match t.hashAllocationTable.find? key with
  | some _ => { t with hashAllocationTable := t.hashAllocationTable.erase key }
  | none => { t with sortedAllocationTable := t.sortedAllocationTable.erase key }

/-- `MergeTable`: the masks are joined, their lengths are not; entries
replace present keys only when told to. -/
def mergeTable (t tableToMerge : AllocationTable) (overwrite : Bool) : AllocationTable :=
  { t with
    masks := tableToMerge.masks.foldl (fun ms mask => ms.insert mask) t.masks
    hashAllocationTable :=
      t.hashAllocationTable.merge tableToMerge.hashAllocationTable overwrite
    sortedAllocationTable :=
      t.sortedAllocationTable.merge tableToMerge.sortedAllocationTable overwrite }

/-- The objects the table refers to, in the order
`CommitStateInfoForAllocations` meets them. -/
def AllocationTable.objects (t : AllocationTable) : List AllocId :=
  t.hashAllocationTable.entries.map Prod.snd
    ++ t.sortedAllocationTable.entries.map Prod.snd

-- ==================================================== mask-free tables

/-- A table without masks, whose hash half is therefore empty. -/
structure AllocationTable.MaskFree (t : AllocationTable) : Prop where
  masks_nil : t.masks = []
  maskLengths_nil : t.maskLengths = []
  hash_empty : t.hashAllocationTable = SortedMap.empty

namespace AllocationTable.MaskFree

variable {t : AllocationTable}

theorem new : AllocationTable.new.MaskFree := ⟨rfl, rfl, rfl⟩

/-- Without masks an insertion goes to the ordered table. -/
theorem insertAllocation_eq (h : t.MaskFree) (allocs : AllocId → Allocation)
    (key : Addr) (a : AllocId) :
    insertAllocation allocs t key a
      = { t with sortedAllocationTable := t.sortedAllocationTable.insert key a } := by
  unfold insertAllocation
  rw [if_neg (by rw [h.maskLengths_nil]; exact List.not_mem_nil)]

/-- Without masks a deletion reaches the ordered table. -/
theorem deleteAllocation_eq (h : t.MaskFree) (key : Addr) :
    deleteAllocation t key
      = { t with sortedAllocationTable := t.sortedAllocationTable.erase key } := by
  unfold deleteAllocation
  rw [h.hash_empty, SortedMap.find?_empty]

theorem insertAllocation (h : t.MaskFree) (allocs : AllocId → Allocation)
    (key : Addr) (a : AllocId) : (insertAllocation allocs t key a).MaskFree := by
  rw [h.insertAllocation_eq]
  exact ⟨h.masks_nil, h.maskLengths_nil, h.hash_empty⟩

theorem deleteAllocation (h : t.MaskFree) (key : Addr) :
    (deleteAllocation t key).MaskFree := by
  rw [h.deleteAllocation_eq]
  exact ⟨h.masks_nil, h.maskLengths_nil, h.hash_empty⟩

/-- Without masks the objects are those of the ordered table. -/
theorem mem_objects (h : t.MaskFree) {a : AllocId} :
    a ∈ t.objects ↔ ∃ k, t.sortedAllocationTable.find? k = some a := by
  unfold objects
  rw [h.hash_empty]
  simp only [SortedMap.empty, List.map_nil, List.nil_append, List.mem_map,
    Prod.exists, exists_eq_right, SortedMap.mem_entries_iff]

/-- A key of the ordered table finds its own object. -/
theorem findAllocation_of_key (h : t.MaskFree) (allocs : AllocId → Allocation)
    {key : Addr} {a : AllocId} (hk : t.sortedAllocationTable.find? key = some a) :
    findAllocation allocs t key = some a := by
  have hlb := SortedMap.lowerBound_of_find hk
  unfold findAllocation
  rw [h.masks_nil]
  simp [hlb]

/-- An object that a lookup finds is in the table. -/
theorem mem_objects_of_find (h : t.MaskFree) {allocs : AllocId → Allocation}
    {key : Addr} {a : AllocId} (hf : findAllocation allocs t key = some a) :
    a ∈ t.objects := by
  rw [h.mem_objects]
  unfold findAllocation at hf
  rw [h.masks_nil, List.findSome?_nil] at hf
  cases hlb : t.sortedAllocationTable.lowerBound key with
  | none => rw [hlb] at hf; cases hf
  | some e =>
      obtain ⟨k, b⟩ := e
      simp only [hlb] at hf
      split at hf
      · injection hf with hf
        exact ⟨k, by rw [← hf]; exact (SortedMap.lowerBound_eq_some.mp hlb).1⟩
      · cases hpr : t.sortedAllocationTable.pred key with
        | none => rw [hpr] at hf; cases hf
        | some e =>
            obtain ⟨k', b'⟩ := e
            simp only [hpr] at hf
            split at hf
            · cases hf
            · injection hf with hf
              exact ⟨k', by rw [← hf]; exact (SortedMap.pred_eq_some hpr).1⟩

end AllocationTable.MaskFree

end Carmot.Texas
