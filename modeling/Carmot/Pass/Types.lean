/-
The LLVM types the pass asks for sizes, and the sizes it computes
(CatPass.cpp): of the elements of a stored value (`visitStoreInst`), and
of stack variables and globals (`findArraySize`, `findStructSize`,
`visitAllocaInst`, `getGlobals`).

LLVM is version 9, where `getPrimitiveSizeInBits` and
`getScalarSizeInBits` return an `unsigned` and give 0 for pointers. The
sizes of variables are `uint64_t`s.

# The layout

`allocSize` is what the x86-64 data layout of that version says
(`e-m:e-i64:64-f80:128-n8:16:32:64-S128`): an integer takes whole bytes
and is aligned like the next larger of 8, 16, 32 and 64 bits, a wider
one like 64 bits; x86_fp80 and the 128-bit floats are aligned to 16
bytes; a struct pads every field to its alignment and itself to the
largest.
-/
import Mathlib.Data.UInt

namespace Carmot.Pass

-- ============================================================= the types

/-- The floating-point types. -/
inductive FloatKind
  | half | float | double | x86Fp80 | fp128 | ppcFp128
  deriving DecidableEq, Repr

def FloatKind.bits : FloatKind → Nat
  | .half => 16
  | .float => 32
  | .double => 64
  | .x86Fp80 => 80
  | .fp128 => 128
  | .ppcFp128 => 128

/-- A type that is neither an array nor a struct nor a vector. LLVM's
integers have 1 to 2^24 - 1 bits. -/
inductive ScalarType
  | integer (bits : Nat) (pos : 0 < bits) (lt : bits < 2 ^ 24)
  | floatingPoint (kind : FloatKind)
  | pointer
  deriving DecidableEq, Repr

/-- The type of a variable. -/
inductive VarType
  | scalar (ty : ScalarType)
  | array (numElements : UInt64) (elementType : VarType)
  | struct (elementTypes : List VarType)

/-- The type of a stored value. -/
inductive StoredType
  | scalar (ty : ScalarType)
  | vector (numElements : Nat) (pos : 0 < numElements) (elementType : ScalarType)
  deriving DecidableEq, Repr

namespace ScalarType

def isPointer : ScalarType → Bool
  | .pointer => true
  | _ => false

/-- `getPrimitiveSizeInBits`. -/
def getPrimitiveSizeInBits : ScalarType → Nat
  | .integer bits _ _ => bits
  | .floatingPoint kind => kind.bits
  | .pointer => 0

/-- The bits a value has in memory. -/
def memoryBits : ScalarType → Nat
  | .pointer => 64
  | ty => ty.getPrimitiveSizeInBits

/-- The ABI alignment, in bytes. -/
def abiAlignment : ScalarType → Nat
  | .integer bits _ _ => if bits ≤ 8 then 1 else if bits ≤ 16 then 2 else if bits ≤ 32 then 4 else 8
  | .floatingPoint .half => 2
  | .floatingPoint .float => 4
  | .floatingPoint .double => 8
  | .floatingPoint _ => 16
  | .pointer => 8

theorem bits_lt (ty : ScalarType) : ty.getPrimitiveSizeInBits < 2 ^ 24 := by
  cases ty with
  | integer bits pos lt => exact lt
  | floatingPoint kind => cases kind <;> decide
  | pointer => decide

theorem bits_pos {ty : ScalarType} (h : ty ≠ .pointer) : 0 < ty.getPrimitiveSizeInBits := by
  cases ty with
  | integer bits pos lt => exact pos
  | floatingPoint kind => cases kind <;> decide
  | pointer => exact absurd rfl h

/-- Only a pointer has more bits in memory than LLVM says. -/
theorem memoryBits_eq {ty : ScalarType} (h : ty ≠ .pointer) :
    ty.memoryBits = ty.getPrimitiveSizeInBits := by
  cases ty with
  | integer bits pos lt => rfl
  | floatingPoint kind => rfl
  | pointer => exact absurd rfl h

end ScalarType

-- ======================================================== stored values

namespace StoredType

/-- The type of one element. -/
def elementType : StoredType → ScalarType
  | .scalar ty => ty
  | .vector _ _ ty => ty

/-- How many elements a value has. -/
def numElements : StoredType → Nat
  | .scalar _ => 1
  | .vector n _ _ => n

variable (ty : StoredType)

/-- `getScalarSizeInBits`. -/
def getScalarSizeInBits : UInt32 := UInt32.ofNat ty.elementType.getPrimitiveSizeInBits

/-- `getPrimitiveSizeInBits`. -/
def getPrimitiveSizeInBits : UInt32 :=
  UInt32.ofNat (ty.numElements * ty.elementType.getPrimitiveSizeInBits)

/-- `typeSizeInBytes`, as `visitStoreInst` computes it. -/
def typeSizeInBytes : UInt64 := (ty.getScalarSizeInBits / 8).toUInt64

/-- `primitiveSizeInBytes`, as `visitStoreInst` computes it. -/
def primitiveSizeInBytes : UInt64 := (ty.getPrimitiveSizeInBits / 8).toUInt64

/-- The bytes a store of the type writes. -/
def storeSize : Nat := (ty.numElements * ty.elementType.memoryBits + 7) / 8

end StoredType

-- ===================================================== sizes of variables

mutual

/-- `findArraySize`, on the number of elements and their type. -/
def findArraySize (size : UInt64) : VarType → UInt64
  | .array numElements elementType => size * findArraySize numElements elementType
  | .struct elementTypes => size * findStructSize elementTypes 0
  | .scalar ty =>
      if ty.getPrimitiveSizeInBits > 0 then size * UInt64.ofNat (ty.getPrimitiveSizeInBits / 8)
      else if ty.isPointer then size + 8
      else 0

/-- The loop of `findStructSize`. -/
def findStructSize : List VarType → UInt64 → UInt64
  | [], size => size
  | .array numElements elementType :: rest, size =>
      findStructSize rest (size + findArraySize numElements elementType)
  | .struct elementTypes :: rest, size => findStructSize rest (size + findStructSize elementTypes 0)
  | .scalar ty :: rest, size =>
      if ty.getPrimitiveSizeInBits > 0 then
        findStructSize rest (size + UInt64.ofNat (ty.getPrimitiveSizeInBits / 8))
      else if ty.isPointer then findStructSize rest (size + 8)
      else 0

end

/-- The size of a variable before the fallback. -/
def totalSizeInBytes : VarType → UInt64
  | .array numElements elementType => findArraySize numElements elementType
  | .struct elementTypes => findStructSize elementTypes 0
  | .scalar ty => UInt64.ofNat (ty.getPrimitiveSizeInBits / 8)

/-- The size `visitAllocaInst` gives a stack variable: a size of 0 is
taken for a pointer's, since the variable's address has pointer type. -/
def visitAllocaInstSize (ty : VarType) : UInt64 :=
  if totalSizeInBytes ty = 0 then 8 else totalSizeInBytes ty

/-- The size `getGlobals` gives a global, by the same steps. -/
def getGlobalsSize (ty : VarType) : UInt64 :=
  if totalSizeInBytes ty = 0 then 8 else totalSizeInBytes ty

-- ============================================================= the layout

/-- The next multiple of an alignment. -/
def alignTo (n align : Nat) : Nat := (n + align - 1) / align * align

/-- The allocation size of a scalar: whole bytes, up to its alignment. -/
def ScalarType.allocSize (ty : ScalarType) : Nat :=
  alignTo ((ty.memoryBits + 7) / 8) ty.abiAlignment

namespace VarType

mutual

/-- The ABI alignment of a type. -/
def abiAlignment : VarType → Nat
  | .scalar ty => ty.abiAlignment
  | .array _ elementType => abiAlignment elementType
  | .struct elementTypes => fieldsAlignment elementTypes

/-- The largest alignment of the fields. -/
def fieldsAlignment : List VarType → Nat
  | [] => 1
  | ty :: rest => max (abiAlignment ty) (fieldsAlignment rest)

end

mutual

/-- The allocation size of a type. -/
def allocSize : VarType → Nat
  | .scalar ty => ty.allocSize
  | .array numElements elementType => numElements.toNat * allocSize elementType
  | .struct elementTypes => alignTo (fieldsEnd 0 elementTypes) (fieldsAlignment elementTypes)

/-- Where the fields of a struct end when the first may start at
`offset`. -/
def fieldsEnd (offset : Nat) : List VarType → Nat
  | [] => offset
  | ty :: rest => fieldsEnd (alignTo offset (abiAlignment ty) + allocSize ty) rest

end

end VarType

end Carmot.Pass
