/-
The sizes the pass gives to stack variables and globals, against the
allocation sizes of the data layout.

`findArraySize` and `findStructSize` add up whole bytes of the scalars a
type is made of. Against the layout they leave out the padding of
structs and what a scalar takes beyond its width in whole bytes, and
they count an array of n pointers as n + 8 bytes, which is too much for
n below 2 and too little above. The three are counted here, with the
multiplicity arrays give them (`padding`, `uncounted`, `pointerArrays`),
and a size is right when they cancel: mostly because all are 0. The
other way is the fallback, which turns a size of 0 into 8.
-/
import Mathlib.Algebra.BigOperators.Group.List.Basic
import Mathlib.Algebra.Order.Group.Int
import Mathlib.Data.Int.ModEq
import Mathlib.Tactic.Ring
import Carmot.Pass.Types

namespace Carmot.Pass

-- ============================================================ alignment

theorem le_alignTo (n : Nat) {align : Nat} (h : 0 < align) : n ≤ alignTo n align := by
  unfold alignTo
  have hdiv := Nat.div_add_mod' (n + align - 1) align
  have hmod := Nat.mod_lt (n + align - 1) h
  omega

theorem ScalarType.abiAlignment_pos (ty : ScalarType) : 0 < ty.abiAlignment := by
  cases ty with
  | integer bits pos lt =>
      show 0 < if bits ≤ 8 then 1 else if bits ≤ 16 then 2 else if bits ≤ 32 then 4 else 8
      split
      · omega
      · split
        · omega
        · split <;> omega
  | floatingPoint kind => cases kind <;> decide
  | pointer => decide

/-- A scalar takes at least its width in whole bytes. -/
theorem ScalarType.bytes_le_allocSize (ty : ScalarType) :
    ty.getPrimitiveSizeInBits / 8 ≤ ty.allocSize := by
  have halign := le_alignTo ((ty.memoryBits + 7) / 8) ty.abiAlignment_pos
  have hbits : ty.getPrimitiveSizeInBits ≤ ty.memoryBits := by
    cases ty with
    | integer bits pos lt => exact Nat.le_refl _
    | floatingPoint kind => exact Nat.le_refl _
    | pointer => exact Nat.zero_le _
  unfold ScalarType.allocSize
  omega

namespace VarType

mutual

theorem abiAlignment_pos : ∀ ty : VarType, 0 < abiAlignment ty
  | .scalar ty => by rw [abiAlignment]; exact ty.abiAlignment_pos
  | .array _ elementType => by rw [abiAlignment]; exact abiAlignment_pos elementType
  | .struct elementTypes => by rw [abiAlignment]; exact fieldsAlignment_pos elementTypes

theorem fieldsAlignment_pos : ∀ tys : List VarType, 0 < fieldsAlignment tys
  | [] => by rw [fieldsAlignment]; exact Nat.one_pos
  | ty :: rest => by
      rw [fieldsAlignment]
      exact Nat.lt_of_lt_of_le (abiAlignment_pos ty) (Nat.le_max_left ..)

end

-- ==================================================== what is miscounted

/-- The bytes between the fields of a struct. -/
def gaps (offset : Nat) : List VarType → Nat
  | [] => 0
  | ty :: rest =>
      (alignTo offset ty.abiAlignment - offset)
        + gaps (alignTo offset ty.abiAlignment + ty.allocSize) rest

mutual

/-- The padding in a type: between the fields of its structs and after
the last. -/
def padding : VarType → Nat
  | .scalar _ => 0
  | .array numElements elementType => numElements.toNat * padding elementType
  | .struct elementTypes =>
      gaps 0 elementTypes
        + (allocSize (.struct elementTypes) - fieldsEnd 0 elementTypes)
        + fieldsPadding elementTypes

/-- The padding inside the fields. -/
def fieldsPadding : List VarType → Nat
  | [] => 0
  | ty :: rest => padding ty + fieldsPadding rest

end

/-- What a scalar takes in memory beyond its width in whole bytes. The
code gives a pointer its 8 bytes. -/
def scalarUncounted : ScalarType → Nat
  | .pointer => 0
  | ty => ty.allocSize - ty.getPrimitiveSizeInBits / 8

mutual

/-- The bytes of a type's scalars beyond their widths. -/
def uncounted : VarType → Nat
  | .scalar ty => scalarUncounted ty
  | .array numElements elementType => numElements.toNat * uncounted elementType
  | .struct elementTypes => fieldsUncounted elementTypes

def fieldsUncounted : List VarType → Nat
  | [] => 0
  | ty :: rest => uncounted ty + fieldsUncounted rest

end

mutual

/-- What the arrays of pointers in a type are counted too much: n + 8
bytes for n pointers. -/
def pointerArrays : VarType → Int
  | .scalar _ => 0
  | .array numElements (.scalar .pointer) => 8 - 7 * numElements.toNat
  | .array numElements elementType => numElements.toNat * pointerArrays elementType
  | .struct elementTypes => fieldsPointerArrays elementTypes

def fieldsPointerArrays : List VarType → Int
  | [] => 0
  | ty :: rest => pointerArrays ty + fieldsPointerArrays rest

end

/-- How much too large the size comes out, before it wraps. -/
def surplus (ty : VarType) : Int := pointerArrays ty - padding ty - uncounted ty

/-- Where the size is right: nothing is miscounted on balance, or the
size of 8 bytes is lost altogether and the fallback gives it back. -/
def Balanced (ty : VarType) : Prop :=
  (0 < ty.allocSize ∧ ty.allocSize < 2 ^ 64 ∧ (2 ^ 64 : Int) ∣ ty.surplus)
    ∨ (ty.allocSize = 8 ∧ (2 ^ 64 : Int) ∣ ty.surplus + 8)

-- ======================================================= what is counted

/-- The size the code adds up, before it wraps. -/
def counted (ty : VarType) : Int := ty.allocSize + ty.surplus

theorem counted_scalar {ty : ScalarType} (h : ty ≠ .pointer) :
    counted (.scalar ty) = (ty.getPrimitiveSizeInBits / 8 : Nat) := by
  have hle := ty.bytes_le_allocSize
  have hun : scalarUncounted ty = ty.allocSize - ty.getPrimitiveSizeInBits / 8 := by
    cases ty with
    | integer bits pos lt => rfl
    | floatingPoint kind => rfl
    | pointer => exact absurd rfl h
  unfold counted surplus
  rw [allocSize, pointerArrays, padding, uncounted, hun]
  omega

theorem counted_pointer : counted (.scalar .pointer) = 8 := by
  unfold counted surplus
  rw [allocSize, pointerArrays, padding, uncounted]
  decide

theorem counted_pointers (n : UInt64) : counted (.array n (.scalar .pointer)) = n.toNat + 8 := by
  have hsize : ScalarType.pointer.allocSize = 8 := by decide
  unfold counted surplus
  rw [allocSize, pointerArrays, padding, uncounted, allocSize, padding, uncounted, scalarUncounted,
    hsize]
  omega

theorem pointerArrays_array {n : UInt64} {ty : VarType} (h : ty ≠ .scalar .pointer) :
    pointerArrays (.array n ty) = n.toNat * pointerArrays ty := by
  rw [pointerArrays]
  exact h

theorem counted_array {n : UInt64} {ty : VarType} (h : ty ≠ .scalar .pointer) :
    counted (.array n ty) = n.toNat * counted ty := by
  unfold counted surplus
  rw [pointerArrays_array h, allocSize, padding, uncounted]
  push_cast
  ring

theorem fieldsEnd_eq : ∀ (tys : List VarType) (offset : Nat),
    fieldsEnd offset tys = offset + gaps offset tys + (tys.map allocSize).sum := by
  intro tys
  induction tys with
  | nil => intro offset; rw [fieldsEnd, gaps]; simp
  | cons ty rest ih =>
      intro offset
      have hle := le_alignTo offset ty.abiAlignment_pos
      rw [fieldsEnd, gaps, ih, List.map_cons, List.sum_cons]
      omega

theorem fields_sums : ∀ tys : List VarType,
    ((tys.map counted).sum : Int) = (tys.map allocSize).sum + fieldsPointerArrays tys
      - fieldsPadding tys - fieldsUncounted tys := by
  intro tys
  induction tys with
  | nil => simp [fieldsPointerArrays, fieldsPadding, fieldsUncounted]
  | cons ty rest ih =>
      rw [List.map_cons, List.sum_cons, ih, List.map_cons, List.sum_cons, fieldsPointerArrays,
        fieldsPadding, fieldsUncounted, counted, surplus]
      push_cast
      ring

theorem counted_struct (tys : List VarType) : counted (.struct tys) = (tys.map counted).sum := by
  have hend := fieldsEnd_eq tys 0
  have hle : fieldsEnd 0 tys ≤ allocSize (.struct tys) := by
    rw [allocSize]
    exact le_alignTo _ (fieldsAlignment_pos tys)
  rw [fields_sums, counted, surplus, pointerArrays, padding, uncounted]
  omega

end VarType

-- ================================================== what the code computes

section ModEq

/-- Machine sums and products are right up to multiples of 2^64. -/
theorem toNat_add_modEq (a b : UInt64) :
    ((a + b).toNat : Int) ≡ a.toNat + b.toNat [ZMOD 2 ^ 64] := by
  rw [UInt64.toNat_add]
  push_cast
  exact Int.mod_modEq _ _

theorem toNat_mul_modEq (a b : UInt64) :
    ((a * b).toNat : Int) ≡ a.toNat * b.toNat [ZMOD 2 ^ 64] := by
  rw [UInt64.toNat_mul]
  push_cast
  exact Int.mod_modEq _ _

/-- The bytes of a scalar fit a machine word. -/
theorem ScalarType.toNat_bytes (ty : ScalarType) :
    (UInt64.ofNat (ty.getPrimitiveSizeInBits / 8)).toNat = ty.getPrimitiveSizeInBits / 8 := by
  have hlt := ty.bits_lt
  rw [UInt64.toNat_ofNat']
  omega

open VarType (counted)

mutual

theorem findArraySize_modEq : ∀ (n : UInt64) (ty : VarType),
    ((findArraySize n ty).toNat : Int) ≡ counted (.array n ty) [ZMOD 2 ^ 64]
  | n, .array m ty => by
      rw [findArraySize, VarType.counted_array (by simp)]
      exact (toNat_mul_modEq _ _).trans ((findArraySize_modEq m ty).mul_left _)
  | n, .struct tys => by
      have hfields := findStructSize_modEq tys 0
      rw [UInt64.toNat_zero, Nat.cast_zero, zero_add] at hfields
      rw [findArraySize, VarType.counted_array (by simp), VarType.counted_struct]
      exact (toNat_mul_modEq _ _).trans (hfields.mul_left _)
  | n, .scalar ty => by
      rw [findArraySize]
      by_cases hptr : ty = .pointer
      · subst hptr
        rw [VarType.counted_pointers]
        exact toNat_add_modEq n 8
      · rw [if_pos (ScalarType.bits_pos hptr),
          VarType.counted_array (by simpa using hptr), VarType.counted_scalar hptr]
        have h := toNat_mul_modEq n (UInt64.ofNat (ty.getPrimitiveSizeInBits / 8))
        rwa [ty.toNat_bytes] at h

theorem findStructSize_modEq : ∀ (tys : List VarType) (size : UInt64),
    ((findStructSize tys size).toNat : Int) ≡ size.toNat + (tys.map counted).sum [ZMOD 2 ^ 64]
  | [], size => by
      rw [findStructSize, List.map_nil, List.sum_nil, add_zero]
  | .array n ty :: rest, size => by
      rw [findStructSize, List.map_cons, List.sum_cons, ← add_assoc]
      refine (findStructSize_modEq rest _).trans (Int.ModEq.add_right _ ?_)
      exact (toNat_add_modEq _ _).trans ((findArraySize_modEq n ty).add_left _)
  | .struct tys :: rest, size => by
      have hfields := findStructSize_modEq tys 0
      rw [UInt64.toNat_zero, Nat.cast_zero, zero_add, ← VarType.counted_struct] at hfields
      rw [findStructSize, List.map_cons, List.sum_cons, ← add_assoc]
      refine (findStructSize_modEq rest _).trans (Int.ModEq.add_right _ ?_)
      exact (toNat_add_modEq _ _).trans (hfields.add_left _)
  | .scalar ty :: rest, size => by
      rw [findStructSize, List.map_cons, List.sum_cons, ← add_assoc]
      by_cases hptr : ty = .pointer
      · subst hptr
        rw [VarType.counted_pointer]
        exact (findStructSize_modEq rest _).trans (Int.ModEq.add_right _ (toNat_add_modEq size 8))
      · rw [if_pos (ScalarType.bits_pos hptr), VarType.counted_scalar hptr]
        refine (findStructSize_modEq rest _).trans (Int.ModEq.add_right _ ?_)
        have h := toNat_add_modEq size (UInt64.ofNat (ty.getPrimitiveSizeInBits / 8))
        rwa [ty.toNat_bytes] at h

end

/-- The size before the fallback, for anything but a lone pointer. -/
theorem totalSizeInBytes_modEq {ty : VarType} (h : ty ≠ .scalar .pointer) :
    ((totalSizeInBytes ty).toNat : Int) ≡ ty.allocSize + ty.surplus [ZMOD 2 ^ 64] := by
  cases ty with
  | array n ty => exact findArraySize_modEq n ty
  | struct tys =>
      have hfields := findStructSize_modEq tys 0
      rw [UInt64.toNat_zero, Nat.cast_zero, zero_add, ← VarType.counted_struct] at hfields
      exact hfields
  | scalar ty =>
      have hptr : ty ≠ .pointer := fun hty => h (by rw [hty])
      have hcounted := VarType.counted_scalar hptr
      unfold counted at hcounted
      rw [hcounted, totalSizeInBytes, ty.toNat_bytes]

end ModEq

-- ======================================================== the two sides

/-- A stack variable and a global of the type get its allocation
size. -/
def SizeRight (ty : VarType) : Prop :=
  (visitAllocaInstSize ty).toNat = ty.allocSize ∧ (getGlobalsSize ty).toNat = ty.allocSize

instance (ty : VarType) : Decidable (SizeRight ty) := inferInstanceAs (Decidable (_ ∧ _))

theorem sizeRight_iff_total {ty : VarType} :
    SizeRight ty ↔
      (totalSizeInBytes ty = 0 ∧ ty.allocSize = 8)
        ∨ (totalSizeInBytes ty ≠ 0 ∧ (totalSizeInBytes ty).toNat = ty.allocSize) := by
  unfold SizeRight visitAllocaInstSize getGlobalsSize
  rw [and_self]
  by_cases hzero : totalSizeInBytes ty = 0
  · rw [if_pos hzero]
    have height : (8 : UInt64).toNat = 8 := rfl
    rw [height]
    constructor
    · intro h
      exact .inl ⟨hzero, h.symm⟩
    · rintro (h | h)
      · exact h.2.symm
      · exact absurd hzero h.1
  · rw [if_neg hzero]
    constructor
    · intro h
      exact .inr ⟨hzero, h⟩
    · rintro (h | h)
      · exact absurd h.1 hzero
      · exact h.2

/-- The sizes of variables of a type are right exactly when nothing is
miscounted on balance, or the fallback makes up for it. -/
theorem sizeRight_iff_balanced (ty : VarType) : SizeRight ty ↔ ty.Balanced := by
  rw [sizeRight_iff_total]
  by_cases hptr : ty = .scalar .pointer
  · subst hptr
    have hsize : VarType.allocSize (.scalar .pointer) = 8 := by decide
    have hsurplus : VarType.surplus (.scalar .pointer) = 0 := by decide
    unfold VarType.Balanced
    rw [hsize, hsurplus]
    exact ⟨fun _ => .inl ⟨by omega, by omega, Int.dvd_zero _⟩, fun _ => .inl ⟨rfl, rfl⟩⟩
  · have hmod := totalSizeInBytes_modEq hptr
    have hlt := (totalSizeInBytes ty).toNat_lt
    have hzero : totalSizeInBytes ty = 0 ↔ (totalSizeInBytes ty).toNat = 0 :=
      ⟨fun h => by rw [h]; rfl, fun h => UInt64.toNat_inj.mp h⟩
    unfold VarType.Balanced
    rw [Ne, hzero]
    obtain ⟨k, hk⟩ := hmod.dvd
    constructor
    · rintro (⟨htotal, hsize⟩ | ⟨htotal, hsize⟩)
      · exact .inr ⟨hsize, ⟨k, by omega⟩⟩
      · exact .inl ⟨by omega, by omega, ⟨k, by omega⟩⟩
    · rintro (⟨hpos, hsmall, ⟨j, hj⟩⟩ | ⟨hsize, ⟨j, hj⟩⟩)
      · exact .inr ⟨by omega, by omega⟩
      · exact .inl ⟨by omega, hsize⟩

example : SizeRight (.struct [.scalar .pointer,
    .array 2 (.scalar (.integer 32 (by decide) (by decide))), .scalar (.floatingPoint .double)]) :=
  by decide

/-- An array of two pointers is given 10 bytes. -/
theorem not_sizeRight_twoPointers : ¬ SizeRight (.array 2 (.scalar .pointer)) := by
  intro h
  exact absurd h.1 (by decide)

end Carmot.Pass
