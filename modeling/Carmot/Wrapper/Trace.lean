/-
Call stacks (utils.hpp, utils.cpp, wrapper.cpp): what `backtrace_asm`
captures, the hash over its frames, and the comparison of two traces.

A captured stack has between 1 and `TRACE_SIZE` frames: the capture is
given room for that many, and `myHashPart1` aborts on an empty one. The
slots of the buffer past the last frame hold whatever was there before.
A `Trace` carries that its `hashPart1` is the hash of its frames, since
every place that makes one stores it together with them.

# memcmp

The comparisons pass `nptrs` as the length of `memcmp`, which counts
BYTES. The buffer is therefore also kept as the bytes it is made of,
least significant first, as the machines of the assembly backtrace
store them.
-/
import Mathlib.Data.List.OfFn

namespace Carmot.Wrapper

/-- One return address (`long long`, cast to `size_t` when hashed). -/
abbrev Frame := UInt64

/-- `TRACE_SIZE`. -/
def traceSize : Nat := 100

/-- A captured call stack. -/
structure Stack where
  buffer : Fin traceSize → Frame
  nptrs : Nat
  nptrs_pos : 1 ≤ nptrs
  nptrs_le : nptrs ≤ traceSize

namespace Stack

/-- The first `nptrs` slots of the buffer. -/
def frames (s : Stack) : List Frame := List.ofFn fun i : Fin s.nptrs => s.buffer (i.castLE s.nptrs_le)

/-- Frames in front of a buffer that held zeros. -/
def ofFrames (fs : List Frame) (hpos : 1 ≤ fs.length) (hle : fs.length ≤ traceSize) : Stack where
  buffer := fun i => fs.getD i 0
  nptrs := fs.length
  nptrs_pos := hpos
  nptrs_le := hle

end Stack

/-- `myHashPart1`: the xor of the frames. -/
def myHashPart1 (s : Stack) : UInt64 := s.frames.foldl (· ^^^ ·) 0

/-- A `Trace` object. -/
structure Trace extends Stack where
  accessFrequency : UInt64
  hashPart1 : UInt64
  hashPart1_eq : hashPart1 = myHashPart1 toStack

/-- A stack that was just captured and hashed. -/
def Trace.new (s : Stack) : Trace := ⟨s, 0, myHashPart1 s, rfl⟩

-- ============================================================ comparing

/-- The bytes of a frame in memory. -/
def frameBytes (w : Frame) : List UInt8 :=
  (List.range 8).map fun k => (w >>> (8 * UInt64.ofNat k)).toUInt8

/-- The bytes of a buffer. -/
def Stack.bytes (s : Stack) : List UInt8 := (List.ofFn s.buffer).flatMap frameBytes

/-- Does `memcmp(a, b, n)` return 0? -/
def memcmpEqual (a b : List UInt8) (n : Nat) : Bool := a.take n == b.take n

/-- `traceCompare`. -/
def traceCompare (t₁ t₂ : Stack) : Bool :=
  t₁.nptrs == t₂.nptrs && memcmpEqual t₁.bytes t₂.bytes t₁.nptrs

/-- What `memcmp` reads of a stack. -/
def Stack.compared (s : Stack) : List UInt8 := s.bytes.take s.nptrs

theorem traceCompare_iff {s t : Stack} :
    traceCompare s t = true ↔ s.nptrs = t.nptrs ∧ s.compared = t.compared := by
  unfold traceCompare memcmpEqual Stack.compared
  rw [Bool.and_eq_true, beq_iff_eq, beq_iff_eq]
  constructor
  · intro h
    exact ⟨h.1, by rw [h.2, h.1]⟩
  · intro h
    exact ⟨h.1, by rw [h.2, h.1]⟩

theorem length_frameBytes (w : Frame) : (frameBytes w).length = 8 := by
  simp [frameBytes]

theorem Stack.length_frames (s : Stack) : s.frames.length = s.nptrs := List.length_ofFn

/-- The frames are the start of the buffer. -/
theorem Stack.take_buffer (s : Stack) : (List.ofFn s.buffer).take s.nptrs = s.frames := by
  apply List.ext_getElem
  · rw [List.length_take, List.length_ofFn, s.length_frames]
    exact Nat.min_eq_left s.nptrs_le
  · intro i h₁ h₂
    simp only [List.getElem_take, List.getElem_ofFn, Stack.frames]
    rfl

theorem length_flatMap_frameBytes (ws : List Frame) :
    (ws.flatMap frameBytes).length = 8 * ws.length := by
  induction ws with
  | nil => rfl
  | cons w ws ih =>
      rw [List.flatMap_cons, List.length_append, length_frameBytes, ih, List.length_cons]
      omega

/-- The bytes compared lie in the frames: a stack has at least as many
bytes as frames. -/
theorem Stack.compared_eq (s : Stack) :
    s.compared = (s.frames.flatMap frameBytes).take s.nptrs := by
  have hle : s.nptrs ≤ (s.frames.flatMap frameBytes).length := by
    rw [length_flatMap_frameBytes, s.length_frames]
    omega
  unfold Stack.compared Stack.bytes
  rw [← List.take_append_drop s.nptrs (List.ofFn s.buffer), s.take_buffer, List.flatMap_append,
    List.take_append_of_le_length hle]

/-- Equal frames compare equal. -/
theorem Stack.compared_of_frames {s t : Stack} (h : s.frames = t.frames) :
    s.nptrs = t.nptrs ∧ s.compared = t.compared := by
  have hn : s.nptrs = t.nptrs := by rw [← s.length_frames, ← t.length_frames, h]
  exact ⟨hn, by rw [s.compared_eq, t.compared_eq, h, hn]⟩

theorem myHashPart1_of_frames {s t : Stack} (h : s.frames = t.frames) :
    myHashPart1 s = myHashPart1 t := by
  unfold myHashPart1
  rw [h]

end Carmot.Wrapper
