/-
The writes of an instrumented store, against the elements of the value
it stores.

The pass divides two widths by 8: that of one element, which becomes the
step of the loop in `texasAddToStateWithInfoWrapper`, and that of the
whole value, which becomes its bound. The loop visits each element once
when an element is a whole number of bytes, its width is known (a
pointer's is not) and the width of the value fits an `unsigned`.

`storeLoop` is the loop with its turns counted, so that one that never
ends is not given a result. Where it has one, it is what the wrapper
emits (`elementOffsets_of_storeLoop`).
-/
import Carmot.Pass.Types
import Carmot.Wrapper.Calls

namespace Carmot.Pass

open Carmot.Texas
open Carmot.Wrapper

/-- The loop over the elements of a store, from counter `i` on: the
counters it emits a write for, `none` if it has not ended after the
given turns. -/
def storeLoop (sizeInBytes sizeElementInBytes : UInt64) : Nat → UInt64 → Option (List UInt64)
  | 0, _ => none
  | turns + 1, i =>
      if i < sizeInBytes then
        (storeLoop sizeInBytes sizeElementInBytes turns (asInt (i + sizeElementInBytes))).map (i :: ·)
      else some []

-- ========================================================== the loop

section Loop

variable {size elem : UInt64}

/-- A loop that ends emits what the wrapper's model does. -/
theorem elementOffsets_of_storeLoop (turns : Nat) : ∀ {i : UInt64} {offs : List UInt64},
    storeLoop size elem turns i = some offs →
      ∀ fuel, offs.length ≤ fuel → elementOffsets size elem fuel i = offs := by
  induction turns with
  | zero => intro i offs h; cases h
  | succ turns ih =>
      intro i offs h fuel hfuel
      unfold storeLoop at h
      split at h
      next hlt =>
        obtain ⟨rest, hrest, hoffs⟩ := Option.map_eq_some_iff.mp h
        rw [← hoffs, List.length_cons] at hfuel
        obtain ⟨fuel, rfl⟩ : ∃ m, fuel = m + 1 := ⟨fuel - 1, by omega⟩
        rw [elementOffsets, if_pos hlt, ih hrest fuel (by omega), hoffs]
      next hge =>
        injection h with h
        rw [← h]
        cases fuel with
        | zero => rfl
        | succ fuel => rw [elementOffsets, if_neg hge]

/-- Every counter the loop emits a write for is below its bound. -/
theorem lt_of_mem_storeLoop (turns : Nat) : ∀ {i : UInt64} {offs : List UInt64},
    storeLoop size elem turns i = some offs → ∀ o ∈ offs, o < size := by
  induction turns with
  | zero => intro i offs h; cases h
  | succ turns ih =>
      intro i offs h o ho
      unfold storeLoop at h
      split at h
      next hlt =>
        obtain ⟨rest, hrest, hoffs⟩ := Option.map_eq_some_iff.mp h
        rw [← hoffs] at ho
        rcases List.mem_cons.mp ho with ho | ho
        · rw [ho]; exact hlt
        · exact ih hrest o ho
      next hge =>
        injection h with h
        rw [← h] at ho
        cases ho

/-- A counter that fits an `int` keeps its value. -/
theorem asInt_of_lt {i : UInt64} (h : i.toNat < 2 ^ 31) : asInt i = i := by
  have hword : i.toUInt32.toNat = i.toNat := by
    rw [UInt64.toNat_toUInt32]
    omega
  have hmsb : i.toUInt32.toBitVec.msb = false := by
    rw [BitVec.msb_eq_false_iff_two_mul_lt, UInt32.toNat_toBitVec, hword]
    omega
  apply UInt64.toNat_inj.mp
  show (i.toUInt32.toBitVec.signExtend 64).toNat = i.toNat
  rw [BitVec.signExtend_eq_setWidth_of_msb_false hmsb, BitVec.toNat_setWidth,
    UInt32.toNat_toBitVec, hword]
  omega

/-- The loop over `n` elements of `elem` bytes, from the k-th on. -/
theorem storeLoop_eq {n : Nat} (helem : 0 < elem.toNat) (hsize : size.toNat = n * elem.toNat)
    (hlt : size.toNat + elem.toNat < 2 ^ 31) (left : Nat) :
    ∀ k, k + left = n → storeLoop size elem (left + 1) (UInt64.ofNat (k * elem.toNat))
      = some ((List.range' k left).map fun j => UInt64.ofNat (j * elem.toNat)) := by
  induction left with
  | zero =>
      intro k hk
      rw [Nat.add_zero] at hk
      have hend : ¬ UInt64.ofNat (k * elem.toNat) < size := by
        rw [UInt64.lt_iff_toNat_lt, UInt64.toNat_ofNat', hk, ← hsize]
        omega
      rw [storeLoop, if_neg hend]
      rfl
  | succ left ih =>
      intro k hk
      have hle : (k + 1) * elem.toNat ≤ n * elem.toNat := Nat.mul_le_mul_right _ (by omega)
      have hstep : (k + 1) * elem.toNat = k * elem.toNat + elem.toNat := Nat.succ_mul _ _
      have hcounter : (UInt64.ofNat (k * elem.toNat)).toNat = k * elem.toNat := by
        rw [UInt64.toNat_ofNat']
        omega
      have hin : UInt64.ofNat (k * elem.toNat) < size := by
        rw [UInt64.lt_iff_toNat_lt, hcounter]
        omega
      have hnext : asInt (UInt64.ofNat (k * elem.toNat) + elem)
          = UInt64.ofNat ((k + 1) * elem.toNat) := by
        have hsum : UInt64.ofNat (k * elem.toNat) + elem = UInt64.ofNat ((k + 1) * elem.toNat) := by
          rw [hstep, UInt64.ofNat_add, UInt64.ofNat_toNat]
        rw [hsum, asInt_of_lt]
        rw [UInt64.toNat_ofNat']
        omega
      rw [storeLoop, if_pos hin, hnext, ih (k + 1) (by omega), List.range'_succ, List.map_cons]
      rfl

end Loop

-- ============================================================ the sizes

namespace StoredType

variable (ty : StoredType)

theorem numElements_pos : 0 < ty.numElements := by
  cases ty with
  | scalar ty => exact Nat.one_pos
  | vector n pos ty => exact pos

theorem toNat_typeSizeInBytes :
    ty.typeSizeInBytes.toNat = ty.elementType.getPrimitiveSizeInBits / 8 := by
  have hlt := ty.elementType.bits_lt
  unfold typeSizeInBytes getScalarSizeInBits
  rw [UInt32.toNat_toUInt64, UInt32.toNat_div, UInt32.toNat_ofNat']
  show ty.elementType.getPrimitiveSizeInBits % 2 ^ 32 / 8 = _
  rw [Nat.mod_eq_of_lt (by omega)]

theorem toNat_primitiveSizeInBytes :
    ty.primitiveSizeInBytes.toNat
      = ty.numElements * ty.elementType.getPrimitiveSizeInBits % 2 ^ 32 / 8 := by
  unfold primitiveSizeInBytes getPrimitiveSizeInBits
  rw [UInt32.toNat_toUInt64, UInt32.toNat_div, UInt32.toNat_ofNat']
  rfl

-- ======================================================== the two sides

/-- The loop of a store of the type ends, with one write for each
element; they cover the bytes the store writes, and are what the wrapper
emits in a ROI for a new address. -/
structure Emission (offs : List UInt64) : Prop where
  ends : ∃ turns, storeLoop ty.primitiveSizeInBytes ty.typeSizeInBytes turns 0 = some offs
  offsets : offs.map UInt64.toNat = (List.range ty.numElements).map (· * ty.typeSizeInBytes.toNat)
  covers : ∀ byte < ty.storeSize, ∃ o ∈ offs,
    o.toNat ≤ byte ∧ byte < o.toNat + ty.typeSizeInBytes.toNat
  emitted : ∀ (cfg : WrapperConfig) (w : Wrappers) (id : UInt64) (ptr : Addr)
      (traceArg : Option Trace) (s : StateId),
    w.producer.activeState = some s → ptr ∉ w.seen.stores →
    (cfg.texasAddToStateWithInfoWrapper w id ptr ty.primitiveSizeInBytes ty.typeSizeInBytes
        traceArg).2
      = offs.map fun o => .addToState (ptr + o) .write (cfg.useID w.callstacks id traceArg).2

/-- A store of the type emits one write for each element. -/
def EmitsElements : Prop := ∃ offs, ty.Emission offs

/-- Elements of whole bytes, in a value whose width an `unsigned`
holds. -/
structure WholeBytes : Prop where
  notPointer : ty.elementType ≠ .pointer
  bytes : 8 ∣ ty.elementType.getPrimitiveSizeInBits
  fits : ty.numElements * ty.elementType.getPrimitiveSizeInBits < 2 ^ 32

variable {ty}

/-- The wrapper in a ROI, on a new address, with a loop that ends. -/
theorem emitted_eq {size elem : UInt64} {turns : Nat} {offs : List UInt64}
    (hloop : storeLoop size elem turns 0 = some offs) (hlen : offs.length ≤ size.toNat)
    (cfg : WrapperConfig) (w : Wrappers) (id : UInt64) (ptr : Addr) (traceArg : Option Trace)
    (s : StateId) (hactive : w.producer.activeState = some s) (hnew : ptr ∉ w.seen.stores) :
    (cfg.texasAddToStateWithInfoWrapper w id ptr size elem traceArg).2
      = offs.map fun o => .addToState (ptr + o) .write (cfg.useID w.callstacks id traceArg).2 := by
  have helements : elements ptr size elem = offs.map (ptr + ·) := by
    unfold elements
    rw [elementOffsets_of_storeLoop turns hloop size.toNat hlen]
  have hseen : cfg.checkSeen w.seen ptr .write = some (w.seen.insert ptr .write) := by
    unfold WrapperConfig.checkSeen
    rw [if_neg]
    intro h
    rw [Bool.and_eq_true, decide_eq_true_iff] at h
    exact hnew h.2
  unfold WrapperConfig.texasAddToStateWithInfoWrapper WrapperConfig.accessWrapper
  rw [hactive, hseen, helements]
  exact List.map_map

/-- The sizes of a value of whole bytes: its elements lie one after the
other, and every counter is an `int`. -/
theorem WholeBytes.sizes (h : ty.WholeBytes) :
    0 < ty.typeSizeInBytes.toNat
      ∧ ty.primitiveSizeInBytes.toNat = ty.numElements * ty.typeSizeInBytes.toNat
      ∧ ty.storeSize = ty.numElements * ty.typeSizeInBytes.toNat
      ∧ ty.primitiveSizeInBytes.toNat + ty.typeSizeInBytes.toNat < 2 ^ 31 := by
  have hpos := ScalarType.bits_pos h.notPointer
  have hbits := ty.elementType.bits_lt
  have hfits := h.fits
  have helem := ty.toNat_typeSizeInBytes
  obtain ⟨e, he⟩ := h.bytes
  rw [he, Nat.mul_div_cancel_left e (by omega)] at helem
  have hmul : ty.numElements * (8 * e) = 8 * (ty.numElements * e) := Nat.mul_left_comm ..
  have hsize : ty.primitiveSizeInBytes.toNat = ty.numElements * ty.typeSizeInBytes.toNat := by
    rw [toNat_primitiveSizeInBytes, Nat.mod_eq_of_lt h.fits, he, hmul, helem]
    omega
  refine ⟨by omega, hsize, ?_, ?_⟩
  · unfold storeSize
    rw [ScalarType.memoryBits_eq h.notPointer, he, hmul, helem]
    omega
  · rw [he, hmul] at hfits
    rw [hsize, helem]
    omega

/-- Whole bytes are enough. -/
theorem WholeBytes.emitsElements (h : ty.WholeBytes) : ty.EmitsElements := by
  obtain ⟨helem, hsize, hstore, hlt⟩ := h.sizes
  have hloop := storeLoop_eq helem hsize hlt ty.numElements 0 (Nat.zero_add _)
  have hsmall : ∀ j < ty.numElements, (UInt64.ofNat (j * ty.typeSizeInBytes.toNat)).toNat
      = j * ty.typeSizeInBytes.toNat := by
    intro j hj
    have hle : j * ty.typeSizeInBytes.toNat ≤ ty.numElements * ty.typeSizeInBytes.toNat :=
      Nat.mul_le_mul_right _ (Nat.le_of_lt hj)
    rw [UInt64.toNat_ofNat']
    omega
  rw [Nat.zero_mul] at hloop
  refine ⟨_, ⟨_, hloop⟩, ?_, ?_, ?_⟩
  · rw [List.map_map, List.range_eq_range']
    apply List.map_congr_left
    intro j hj
    have hj := List.mem_range'_1.mp hj
    exact hsmall j (by omega)
  · intro byte hbyte
    rw [hstore] at hbyte
    have hj : byte / ty.typeSizeInBytes.toNat < ty.numElements :=
      (Nat.div_lt_iff_lt_mul helem).mpr hbyte
    have hdiv := Nat.div_add_mod' byte ty.typeSizeInBytes.toNat
    have hmod := Nat.mod_lt byte helem
    refine ⟨_, List.mem_map_of_mem (List.mem_range'_1.mpr
      (⟨Nat.zero_le (byte / ty.typeSizeInBytes.toNat), by omega⟩)), ?_, ?_⟩
    · rw [hsmall _ hj]
      omega
    · rw [hsmall _ hj]
      omega
  · intro cfg w id ptr traceArg s hactive hnew
    refine emitted_eq hloop ?_ cfg w id ptr traceArg s hactive hnew
    rw [List.length_map, List.length_range', hsize]
    exact Nat.le_mul_of_pos_right _ helem

section Necessary

variable {offs : List UInt64}

/-- The writes are at the multiples of the step. -/
theorem Emission.mem_iff (h : ty.Emission offs) {k : Nat} :
    (∃ o ∈ offs, o.toNat = k) ↔ ∃ j < ty.numElements, k = j * ty.typeSizeInBytes.toNat := by
  have hmap : (∃ o ∈ offs, o.toNat = k) ↔ k ∈ offs.map UInt64.toNat := List.mem_map.symm
  rw [hmap, h.offsets, List.mem_map]
  simp only [List.mem_range, eq_comm]

/-- The last counter is below the bound of the loop. -/
theorem Emission.last_lt (h : ty.Emission offs) :
    (ty.numElements - 1) * ty.typeSizeInBytes.toNat < ty.primitiveSizeInBytes.toNat := by
  have hn := ty.numElements_pos
  obtain ⟨turns, hloop⟩ := h.ends
  obtain ⟨o, ho, heq⟩ := h.mem_iff.mpr ⟨ty.numElements - 1, by omega, rfl⟩
  rw [← heq]
  exact UInt64.lt_iff_toNat_lt.mp (lt_of_mem_storeLoop turns hloop o ho)

/-- A pointer's bound is 0. -/
theorem Emission.notPointer (h : ty.Emission offs) : ty.elementType ≠ .pointer := by
  intro hptr
  have hlt := h.last_lt
  have hzero : ScalarType.pointer.getPrimitiveSizeInBits = 0 := rfl
  rw [toNat_primitiveSizeInBytes, hptr, hzero, Nat.mul_zero] at hlt
  omega

/-- The last byte of the store is covered by the last element at most. -/
theorem Emission.storeSize_le (h : ty.Emission offs) :
    ty.storeSize ≤ ty.numElements * ty.typeSizeInBytes.toNat := by
  by_cases hzero : ty.storeSize = 0
  · omega
  · obtain ⟨o, ho, -, hlast⟩ := h.covers (ty.storeSize - 1) (by omega)
    obtain ⟨j, hj, hoj⟩ := h.mem_iff.mp ⟨o, ho, rfl⟩
    have hle : (j + 1) * ty.typeSizeInBytes.toNat ≤ ty.numElements * ty.typeSizeInBytes.toNat :=
      Nat.mul_le_mul_right _ hj
    rw [Nat.succ_mul] at hle
    omega

theorem Emission.bytes (h : ty.Emission offs) : 8 ∣ ty.elementType.getPrimitiveSizeInBits := by
  have hle := h.storeSize_le
  have hn := ty.numElements_pos
  unfold storeSize at hle
  rw [ScalarType.memoryBits_eq h.notPointer, toNat_typeSizeInBytes] at hle
  have hbits : ty.elementType.getPrimitiveSizeInBits
      ≤ 8 * (ty.elementType.getPrimitiveSizeInBits / 8) := by
    apply Nat.le_of_mul_le_mul_left _ hn
    rw [Nat.mul_left_comm]
    omega
  omega

/-- A truncated bound is too small for the last element. -/
theorem Emission.fits (h : ty.Emission offs) :
    ty.numElements * ty.elementType.getPrimitiveSizeInBits < 2 ^ 32 := by
  have hlt := h.last_lt
  have hbits := ty.elementType.bits_lt
  obtain ⟨e, he⟩ := h.bytes
  rw [toNat_primitiveSizeInBytes, toNat_typeSizeInBytes, he, Nat.mul_div_cancel_left e (by omega),
    Nat.mul_left_comm, Nat.sub_mul, Nat.one_mul] at hlt
  rw [he, Nat.mul_left_comm]
  omega

end Necessary

/-- A store emits one write for each element, covering the bytes it
writes, exactly when its elements are whole bytes of known width. -/
theorem emitsElements_iff (ty : StoredType) : ty.EmitsElements ↔ ty.WholeBytes := by
  constructor
  · rintro ⟨offs, h⟩
    exact ⟨h.notPointer, h.bytes, h.fits⟩
  · exact WholeBytes.emitsElements

/-- A stored pointer emits nothing. -/
theorem not_emitsElements_pointer : ¬ (StoredType.scalar .pointer).EmitsElements := by
  rintro ⟨offs, h⟩
  exact h.notPointer rfl

end StoredType

/-- With elements narrower than a byte the loop of a longer value never
ends. -/
theorem storeLoop_never {size : UInt64} (hsize : 0 < size) (turns : Nat) :
    storeLoop size 0 turns 0 = none := by
  have hzero : asInt (0 + 0) = 0 := by decide
  induction turns with
  | zero => rfl
  | succ turns ih => rw [storeLoop, if_pos hsize, hzero, ih]; rfl

end Carmot.Pass
