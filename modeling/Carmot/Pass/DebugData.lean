/-
The debug data of the pass: the records `createDebugData` makes of the
entries, the file `writeDebugData` writes them to (CatPass.cpp), and
the map `getDebugData` reads from it (help.cpp of the pretty printer).

The file is its bytes. A record is written and read as the memory of a
`DebugData` object: two arrays of `STRING_SIZE` characters and two
`unsigned`s, without padding. An id is stored nowhere in it: the writer
numbers the entries, the reader the records.

# Undefined steps

The writer's counter is an `int` that is compared with the size of the
vector. Incrementing it past the largest `int` is undefined in C++, and
`none` here, as is the abort of the constructor of `DebugData`.

# Left out

Both sides only report that a file cannot be opened; here it can. Of an
entry only the fields its debug data needs are kept, and its id.
-/
import Mathlib.Algebra.Group.Nat.Defs
import Mathlib.Data.List.OfFn
import Mathlib.Logic.Function.Basic

namespace Carmot.Pass

-- ========================================================== the records

/-- `STRING_SIZE`. -/
def stringSize : Nat := 1000

/-- A `DebugData` object. -/
structure DebugData where
  pathToFile : Fin stringSize → UInt8
  varName : Fin stringSize → UInt8
  lineNum : UInt32
  columnNum : UInt32

/-- The constructor; `none` is its abort. The arrays are zeroed before
the strings are copied into them. -/
def DebugData.new (pathToFile varName : List UInt8) (lineNum columnNum : UInt32) :
    Option DebugData :=
  if pathToFile.length ≥ stringSize ∨ varName.length ≥ stringSize then none
  else some
    { pathToFile := fun i => pathToFile.getD i 0
      varName := fun i => varName.getD i 0
      lineNum := lineNum
      columnNum := columnNum }

/-- An `unsigned` in memory, least significant byte first. -/
def unsignedBytes (w : UInt32) : List UInt8 :=
  [w.toUInt8, (w >>> 8).toUInt8, (w >>> 16).toUInt8, (w >>> 24).toUInt8]

/-- The `unsigned` whose memory starts at byte `i`. -/
def unsignedAt (bs : List UInt8) (i : Nat) : UInt32 :=
  UInt32.ofNat ((bs.getD i 0).toNat + 2 ^ 8 * (bs.getD (i + 1) 0).toNat
    + 2 ^ 16 * (bs.getD (i + 2) 0).toNat + 2 ^ 24 * (bs.getD (i + 3) 0).toNat)

namespace DebugData

/-- `sizeof(DebugData)`. -/
def size : Nat := stringSize + stringSize + 4 + 4

/-- The memory of an object. -/
def bytes (d : DebugData) : List UInt8 :=
  List.ofFn d.pathToFile ++ (List.ofFn d.varName
    ++ (unsignedBytes d.lineNum ++ unsignedBytes d.columnNum))

/-- The object whose memory starts with these bytes. -/
def ofBytes (bs : List UInt8) : DebugData where
  pathToFile := fun i => bs.getD i 0
  varName := fun i => bs.getD (stringSize + i) 0
  lineNum := unsignedAt bs (stringSize + stringSize)
  columnNum := unsignedAt bs (stringSize + stringSize + 4)

end DebugData

-- ========================================================== the entries

/-- An `Entry*`. -/
abbrev EntryPtr := Nat

/-- An `Entry`. -/
structure Entry where
  pathToFile : List UInt8
  varName : List UInt8
  lineNum : UInt32
  columnNum : UInt32
  id : UInt64

/-- `Entry::getDebugData`. -/
def Entry.getDebugData (e : Entry) : Option DebugData :=
  DebugData.new e.pathToFile e.varName e.lineNum e.columnNum

/-- `createDebugDataForVector`. An id is one more than the number of
records before it: 0 is reserved. -/
def createDebugDataForVector (heap : EntryPtr → Entry) :
    List EntryPtr → List DebugData → Option ((EntryPtr → Entry) × List DebugData)
  | [], debugData => some (heap, debugData)
  | entry :: entries, debugData =>
      let id := UInt64.ofNat debugData.length + 1
      let heap := Function.update heap entry { heap entry with id := id }
      match (heap entry).getDebugData with
      | none => none
      | some debugDatum => createDebugDataForVector heap entries (debugData ++ [debugDatum])

/-- `createDebugData`, with the records made so far. -/
def createDebugData (heap : EntryPtr → Entry) :
    List (List EntryPtr) → List DebugData → Option ((EntryPtr → Entry) × List DebugData)
  | [], debugData => some (heap, debugData)
  | entries :: allEntries, debugData =>
      match createDebugDataForVector heap entries debugData with
      | none => none
      | some (heap, debugData) => createDebugData heap allEntries debugData

-- ============================================================= the file

/-- The largest `int`. -/
def intMax : Nat := 2 ^ 31 - 1

/-- The loop of `writeDebugData` from counter `i` on: what it writes. -/
def writeRecords : Nat → List DebugData → Option (List UInt8)
  | _, [] => some []
  | i, elem :: rest =>
      if i < intMax then (writeRecords (i + 1) rest).map (elem.bytes ++ ·) else none

/-- `writeDebugData`: the content of the file. -/
def writeDebugData (debugData : List DebugData) : Option (List UInt8) := writeRecords 0 debugData

/-- The loop of `getDebugData` on what is left of the file. A read that
finds fewer bytes than it asks for sets the end-of-file flag; one that
takes the last byte does not. -/
def readRecords (file : List UInt8) (staticID : UInt64) (debugData : UInt64 → Option DebugData) :
    UInt64 → Option DebugData :=
  if file.length < DebugData.size then debugData
  else
    readRecords (file.drop DebugData.size) (staticID + 1)
      (Function.update debugData staticID (some (DebugData.ofBytes (file.take DebugData.size))))
termination_by file.length
decreasing_by
  rw [List.length_drop]
  have hpos : 0 < DebugData.size := by decide
  omega

/-- `getDebugData`. -/
def getDebugData (file : List UInt8) : UInt64 → Option DebugData := readRecords file 1 fun _ => none

end Carmot.Pass
