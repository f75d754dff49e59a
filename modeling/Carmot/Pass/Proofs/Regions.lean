/-
The region a direct-state access records, against the elements the loop
touches.

The pass hands on the base of the array, not the first element, so the
region starts at the first element only when the index starts at 0. Its
length is counted in bits and divided by 8: that is the distance of the
last element when the type has as many bits as its bytes say, and the
product does not wrap. A pointer has no bits, and an access that is not
tied to the induction variable gets the length of one whole element.
-/
import Mathlib.Data.Int.Order.Basic
import Mathlib.Tactic.Linarith
import Carmot.Pass.EmittedCode
import Carmot.Texas.Proofs.Conservation

namespace Carmot.Pass

open Carmot.Texas
open Carmot.Wrapper

-- ========================================================= the two ends

/-- The offsets `processStateRegionSet` inserts: `beginningOffset` and
`endOffset`. -/
def regionOffsets (alloc : Allocation) (e : ShadowEntry) : UInt64 × UInt64 :=
  (getOffset alloc.pointer e.ptr, getOffset alloc.pointer e.ptr + e.sizeState.getSize)

/-- The offset of the first element touched. -/
def firstOffset (alloc : Allocation) (ty : ElementType) : DirectAccess → Int
  | .indexed b start _ => (b.toNat : Int) - alloc.pointer.toNat + start.toInt * ty.bytes
  | .scalar addr => (addr.toNat : Int) - alloc.pointer.toNat

/-- The offset of the last element touched. -/
def lastOffset (alloc : Allocation) (ty : ElementType) : DirectAccess → Int
  | .indexed b _ stop => (b.toNat : Int) - alloc.pointer.toNat + (stop.toInt - 1) * ty.bytes
  | .scalar addr => (addr.toNat : Int) - alloc.pointer.toNat

/-- The index takes a value. -/
def DirectAccess.Nonempty : DirectAccess → Prop
  | .indexed _ start stop => start < stop
  | .scalar _ => True

/-- Where the region is right. -/
def RegionSafe (alloc : Allocation) (ty : ElementType) : DirectAccess → Prop
  | .indexed b start stop => start = 0 ∧ (stop = 1 ∨
      (ty.getScalarSizeInBits = 8 * ty.bytes ∧ (stop.toInt - 1) * (8 * ty.bytes) < 2 ^ 64 ∧
        (b.toNat : Int) - alloc.pointer.toNat + (stop.toInt - 1) * ty.bytes < 2 ^ 64))
  | .scalar _ => ty.getScalarSizeInBits < 8

/-- The entries a wrapper's call pushes, in recycled slots. -/
def pushedEntries (cfg : WrapperConfig) (w : Wrappers) (c : WrapperCall) (slot : ShadowEntry) :
    List ShadowEntry :=
  (w.producer.calls cfg.options.trackCycles (cfg.body w c).2).2.filterMap fun
    | .write sw => some (sw.fill slot)
    | .flush => none

-- ============================================================ the entry

section Entry

variable {cfg : WrapperConfig} {w : Wrappers} {s : StateId}

/-- In a ROI the call pushes one region entry, for the active state. -/
theorem pushedEntries_setDirectState (hactive : w.producer.activeState = some s) (id : UInt64)
    (startPtr : Addr) (startIndVar stopIndVar : Int64) (elementBitwidth : UInt64)
    (stateToSet : StateClass) (traceArg : Option Trace) (slot : ShadowEntry) :
    pushedEntries cfg w (.setDirectState id startPtr startIndVar stopIndVar elementBitwidth
        stateToSet traceArg) slot
      = [(SlotWrite.regionSet startPtr
            (((stopIndVar - 1) - startIndVar).toUInt64 * elementBitwidth / 8) (some s) stateToSet
            (cfg.useID w.callstacks id traceArg).2).fill slot] := by
  have hlt := w.producer.active_lt s hactive
  have hcalls : (cfg.body w (.setDirectState id startPtr startIndVar stopIndVar elementBitwidth
      stateToSet traceArg)).2
      = [.setStateRegion startPtr
          (((stopIndVar - 1) - startIndVar).toUInt64 * elementBitwidth / 8) s stateToSet
          (cfg.useID w.callstacks id traceArg).2] := by
    show (cfg.setDirectState w id startPtr startIndVar stopIndVar elementBitwidth stateToSet
      traceArg).2 = _
    unfold WrapperConfig.setDirectState
    rw [hactive]
  unfold pushedEntries
  rw [hcalls]
  simp [Producer.calls, Producer.call, hlt]

/-- Processing the entry records its two offsets for its state. -/
theorem recorded_regionOffsets (env : Env) {rt : Runtime} {e : ShadowEntry} {a : AllocId}
    (hop : e.operation = .stateRegionSet) (hstate : e.affiliatedState = some s)
    (hfind : rt.find e.ptr = some a) (x : UInt64) :
    Pending (processEntry env rt e) a s (.offset e.stateToSet x) ↔
      Pending rt a s (.offset e.stateToSet x)
        ∨ x = (regionOffsets (rt.allocs a) e).1 ∨ x = (regionOffsets (rt.allocs a) e).2 := by
  rw [processEntry_regionSet rt hop, (processStateRegionSet_effect e _ rt).2.2.2, hstate]
  have hself : s ∈ env.tree.chain? (some s) := env.tree.self_mem_chain s
  simp [hfind, hself, RegionItem, regionOffsets]

end Entry

-- ======================================================= the arithmetic

/-- A type has no more bits than its bytes hold. -/
theorem ElementType.getScalarSizeInBits_le (ty : ElementType) :
    ty.getScalarSizeInBits ≤ 8 * ty.bytes := by
  unfold ElementType.getScalarSizeInBits
  split
  · exact Nat.zero_le _
  · exact ty.fits

theorem ElementType.getScalarSizeInBits_lt (ty : ElementType) :
    ty.getScalarSizeInBits < 2 ^ 32 := by
  unfold ElementType.getScalarSizeInBits
  split
  · decide
  · exact ty.bits_lt

/-- The width survives the conversion to 64 bits. -/
theorem ElementType.toNat_getScalarSizeInBits (ty : ElementType) :
    (UInt64.ofNat ty.getScalarSizeInBits).toNat = ty.getScalarSizeInBits :=
  UInt64.toNat_ofNat_of_lt' (Nat.lt_trans ty.getScalarSizeInBits_lt (by decide))

/-- The offset of an address above the base. -/
theorem toNat_getOffset {pointer b : Addr} (hle : pointer.toNat ≤ b.toNat) :
    (getOffset pointer b).toNat = b.toNat - pointer.toNat :=
  UInt64.toNat_sub_of_le _ _ hle

/-- The distance in elements of a loop that starts at 0. -/
theorem toNat_distance {stop : Int64} (hpos : 0 < stop.toInt) :
    ((stop - 1) - 0).toUInt64.toNat = (stop.toInt - 1).toNat := by
  have hone : (1 : Int64) ≤ stop := by
    rw [Int64.le_iff_toInt_le]
    exact hpos
  have hsub : (stop - 1).toInt = stop.toInt - 1 :=
    Int64.toInt_sub_of_le _ _ (by decide) hone
  have hzero : (stop - 1) - 0 = stop - 1 := Int64.sub_zero _
  rw [hzero, Int64.toNat_toUInt64_of_le, Int64.toNatClampNeg, hsub]
  rw [Int64.le_iff_toInt_le, hsub]
  exact Int.le_sub_one_of_lt hpos

/-- A length of `n` elements, counted in bits modulo 2^64 and divided by
8, ends `n` elements on exactly when nothing was lost on the way. -/
theorem length_exact_iff {beg n bits bytes : Nat} (hbeg : beg < 2 ^ 64) (hfits : bits ≤ 8 * bytes) :
    (beg + n * bits % 2 ^ 64 / 8) % 2 ^ 64 = beg + n * bytes ↔
      n = 0 ∨ (bits = 8 * bytes ∧ n * (8 * bytes) < 2 ^ 64 ∧ beg + n * bytes < 2 ^ 64) := by
  have hbits : n * bits ≤ n * (8 * bytes) := Nat.mul_le_mul_left n hfits
  have height : n * (8 * bytes) = 8 * (n * bytes) := Nat.mul_left_comm n 8 bytes
  constructor
  · intro heq
    refine or_iff_not_imp_left.mpr fun hn => ?_
    have hpos : 0 < n := Nat.pos_of_ne_zero hn
    have hmod : n * bits % 2 ^ 64 ≤ n * bits := Nat.mod_le _ _
    have hfull : n * bits = n * (8 * bytes) ∧ n * (8 * bytes) < 2 ^ 64 := by omega
    exact ⟨Nat.eq_of_mul_eq_mul_left hpos hfull.1, hfull.2, by omega⟩
  · rintro (rfl | ⟨rfl, hlt, hend⟩)
    · omega
    · rw [Nat.mod_eq_of_lt hlt, height, Nat.mul_div_cancel_left _ (by decide),
        Nat.mod_eq_of_lt hend]

-- ============================================================ the ends

section Ends

variable {alloc : Allocation} {ty : ElementType} {b : Addr} {e : ShadowEntry}

/-- The region's first offset is that of the base handed on. -/
theorem toNat_regionOffsets_fst (hle : alloc.pointer.toNat ≤ e.ptr.toNat) :
    ((regionOffsets alloc e).1.toNat : Int) = (e.ptr.toNat : Int) - alloc.pointer.toNat := by
  show ((getOffset alloc.pointer e.ptr).toNat : Int) = _
  rw [toNat_getOffset hle]
  exact Int.ofNat_sub hle

/-- It is the first element's exactly when the index starts at 0. -/
theorem first_exact_iff (hle : alloc.pointer.toNat ≤ b.toNat) (hptr : e.ptr = b)
    (start stop : Int64) :
    (((regionOffsets alloc e).1.toNat : Int) = firstOffset alloc ty (.indexed b start stop)) ↔
      start = 0 := by
  have hbytes : (ty.bytes : Int) ≠ 0 := Int.ofNat_ne_zero.mpr (Nat.pos_iff_ne_zero.mp ty.pos)
  subst hptr
  rw [toNat_regionOffsets_fst hle, ← Int64.toInt_inj]
  show _ = _ - _ + start.toInt * ty.bytes ↔ start.toInt = 0
  constructor
  · intro heq
    have hmul : start.toInt * ty.bytes = 0 := by linarith
    exact (mul_eq_zero.mp hmul).resolve_right hbytes
  · intro hzero
    rw [hzero, zero_mul, add_zero]

/-- The region's second offset is `n` elements on exactly when the
length's arithmetic loses nothing. -/
theorem last_exact_iff (hle : alloc.pointer.toNat ≤ e.ptr.toNat) {n : UInt64} {m : Nat}
    (hlen : e.sizeState.getSize = n * UInt64.ofNat ty.getScalarSizeInBits / 8)
    (hfits : ty.getScalarSizeInBits ≤ 8 * m) :
    (((regionOffsets alloc e).2.toNat : Int)
        = (e.ptr.toNat : Int) - alloc.pointer.toNat + n.toNat * m) ↔
      n.toNat = 0 ∨ (ty.getScalarSizeInBits = 8 * m ∧ (n.toNat : Int) * (8 * m) < 2 ^ 64 ∧
        (e.ptr.toNat : Int) - alloc.pointer.toNat + n.toNat * m < 2 ^ 64) := by
  have hfst := toNat_regionOffsets_fst (e := e) hle
  have hsnd : (regionOffsets alloc e).2.toNat
      = ((regionOffsets alloc e).1.toNat + n.toNat * ty.getScalarSizeInBits % 2 ^ 64 / 8)
        % 2 ^ 64 := by
    show (getOffset alloc.pointer e.ptr + e.sizeState.getSize).toNat = _
    rw [hlen, UInt64.toNat_add, UInt64.toNat_div, UInt64.toNat_mul,
      ty.toNat_getScalarSizeInBits]
    rfl
  rw [hsnd, ← hfst]
  have hexact := length_exact_iff (n := n.toNat) (regionOffsets alloc e).1.toNat_lt hfits
  constructor
  · intro heq
    refine (hexact.mp (by exact_mod_cast heq)).imp id fun ⟨hbits, hprod, hend⟩ => ?_
    exact ⟨hbits, by exact_mod_cast hprod, by exact_mod_cast hend⟩
  · intro hsafe
    have := hexact.mpr (hsafe.imp id fun ⟨hbits, hprod, hend⟩ =>
      ⟨hbits, by exact_mod_cast hprod, by exact_mod_cast hend⟩)
    exact_mod_cast this

end Ends

-- ========================================================= the regions

/-- The recorded offsets are those of the first and the last element. -/
def RegionExact (alloc : Allocation) (ty : ElementType) (access : DirectAccess)
    (e : ShadowEntry) : Prop :=
  ((regionOffsets alloc e).1.toNat : Int) = firstOffset alloc ty access ∧
    ((regionOffsets alloc e).2.toNat : Int) = lastOffset alloc ty access

section Regions

variable {alloc : Allocation} {ty : ElementType} {e : ShadowEntry}

/-- An indexed access. -/
theorem regionExact_indexed_iff {b : Addr} {start stop : Int64}
    (hle : alloc.pointer.toNat ≤ b.toNat) (hlt : start < stop) (hptr : e.ptr = b)
    (hlen : e.sizeState.getSize
      = ((stop - 1) - start).toUInt64 * UInt64.ofNat ty.getScalarSizeInBits / 8) :
    RegionExact alloc ty (.indexed b start stop) e ↔
      RegionSafe alloc ty (.indexed b start stop) := by
  unfold RegionExact
  rw [first_exact_iff hle hptr]
  refine and_congr_right fun hstart => ?_
  subst hstart hptr
  have hpos : 0 < stop.toInt := Int64.lt_iff_toInt_lt.mp hlt
  have hdist : (((stop - 1) - 0).toUInt64.toNat : Int) = stop.toInt - 1 := by
    rw [toNat_distance hpos]
    exact Int.toNat_of_nonneg (Int.le_sub_one_of_lt hpos)
  have hone : ((stop - 1) - 0).toUInt64.toNat = 0 ↔ stop = 1 := by
    rw [← Int64.toInt_inj]
    show _ ↔ stop.toInt = 1
    omega
  have hlast := last_exact_iff hle hlen ty.getScalarSizeInBits_le
  rw [hone, hdist] at hlast
  exact hlast

/-- An access that is not tied to the induction variable. -/
theorem regionExact_scalar_iff {addr : Addr} (hle : alloc.pointer.toNat ≤ addr.toNat)
    (hptr : e.ptr = addr)
    (hlen : e.sizeState.getSize
      = (((2 : Int64) - 1) - 0).toUInt64 * UInt64.ofNat ty.getScalarSizeInBits / 8) :
    RegionExact alloc ty (.scalar addr) e ↔ RegionSafe alloc ty (.scalar addr) := by
  subst hptr
  have hfst := toNat_regionOffsets_fst (e := e) hle
  have hsnd : (regionOffsets alloc e).2.toNat
      = ((regionOffsets alloc e).1.toNat + ty.getScalarSizeInBits / 8) % 2 ^ 64 := by
    have hunit : (((2 : Int64) - 1) - 0).toUInt64 = 1 := by decide
    show (getOffset alloc.pointer e.ptr + e.sizeState.getSize).toNat = _
    rw [hlen, hunit, UInt64.one_mul, UInt64.toNat_add, UInt64.toNat_div,
      ty.toNat_getScalarSizeInBits]
    rfl
  have hbits := ty.getScalarSizeInBits_lt
  have hbeg := (regionOffsets alloc e).1.toNat_lt
  simp only [RegionExact, RegionSafe, firstOffset, lastOffset]
  rw [hsnd, ← hfst]
  omega

end Regions

/-- The pass's call for an access pushes one entry; processing it
records two offsets; they are the first and the last element's exactly
on a `RegionSafe` access. -/
theorem regionExact_iff (cfg : WrapperConfig) {w : Wrappers} {s : StateId}
    (hactive : w.producer.activeState = some s) (id : UInt64) (ty : ElementType)
    (access : DirectAccess) (hne : access.Nonempty) (fsaState : StateClass)
    (callstackInst : Option Trace) (slot : ShadowEntry) (env : Env) {rt : Runtime} {a : AllocId}
    (hfind : rt.find access.baseAddr = some a)
    (hbase : (rt.allocs a).pointer.toNat ≤ access.baseAddr.toNat) :
    ∃ e, pushedEntries cfg w (createCallToRuntime (access.elem id ty) access.baseAddr fsaState
          callstackInst) slot = [e]
      ∧ (∀ x, Pending (processEntry env rt e) a s (.offset fsaState x) ↔
          Pending rt a s (.offset fsaState x)
            ∨ x = (regionOffsets (rt.allocs a) e).1 ∨ x = (regionOffsets (rt.allocs a) e).2)
      ∧ (RegionExact (rt.allocs a) ty access e ↔ RegionSafe (rt.allocs a) ty access) := by
  refine ⟨_, pushedEntries_setDirectState hactive _ _ _ _ _ _ _ _,
    fun x => recorded_regionOffsets env rfl rfl hfind x, ?_⟩
  cases access with
  | indexed b start stop => exact regionExact_indexed_iff hbase hne rfl rfl
  | scalar addr => exact regionExact_scalar_iff hbase rfl rfl

/-- A 32-bit integer. -/
def ElementType.i32 : ElementType := ⟨.integer, 32, 4, by decide, by decide, by decide⟩

/-- A runtime whose table holds 64 bytes at `0x1000`. -/
def regionRuntime : Runtime :=
  processEntry (Env.ofTree .flat) texasInit (SlotWrite.allocAdd 0x1000 64 7 none).entry

theorem find_regionRuntime : regionRuntime.find 0x1000 = some 1 := by decide

/-- `b[0]` to `b[3]` of 32 bits each. -/
theorem regionExact_fourElements :
    let cfg : WrapperConfig := ⟨id, ⟨true, true⟩, Options.default, true⟩
    let w := (cfg.call .init (.caratGetState "main" 3)).1
    ∃ e, pushedEntries cfg w (createCallToRuntime
          ((DirectAccess.indexed 0x1000 0 4).elem 5 .i32) 0x1000 .output none) .redundant = [e]
      ∧ RegionExact (regionRuntime.allocs 1) .i32 (.indexed 0x1000 0 4) e := by
  intro cfg w
  obtain ⟨e, hpushed, -, hexact⟩ := regionExact_iff cfg (w := w) (s := 0) (by decide) 5 .i32
    (.indexed 0x1000 0 4) (by decide : (0 : Int64) < 4) .output none .redundant
    (Env.ofTree .flat) find_regionRuntime (by decide)
  exact ⟨e, hpushed, hexact.mpr ⟨rfl, Or.inr ⟨rfl, by decide, by decide⟩⟩⟩

/-- `b[2]` to `b[4]`: the region starts at `b`. -/
theorem regionExact_fails_fromTwo :
    let cfg : WrapperConfig := ⟨id, ⟨true, true⟩, Options.default, true⟩
    let w := (cfg.call .init (.caratGetState "main" 3)).1
    w.producer.activeState = some 0 ∧ regionRuntime.find 0x1000 = some 1 ∧
      ∃ e, pushedEntries cfg w (createCallToRuntime
          ((DirectAccess.indexed 0x1000 2 5).elem 5 .i32) 0x1000 .output none) .redundant = [e]
      ∧ regionOffsets (regionRuntime.allocs 1) e = (0, 8)
      ∧ ¬ RegionExact (regionRuntime.allocs 1) .i32 (.indexed 0x1000 2 5) e := by
  refine ⟨by decide, by decide, _, rfl, by decide, fun hexact => ?_⟩
  exact absurd hexact.1 (by decide)

end Carmot.Pass
