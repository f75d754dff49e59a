/-
The records a run saves (utils.hpp): what wrapper.cpp writes at the end
and the tools of utils/prettyPrint read back. The cycles of a state are
left out: no run saves one.

A `Trace*` is the trace, or `none` for the null pointer.
-/
import Mathlib.Data.Finset.Basic
import Carmot.Wrapper.Trace
import Carmot.Texas.Basic

namespace Carmot.Wrapper

open Carmot.Texas (StateClass)

/-- A `UseToSave`. -/
structure UseToSave where
  trace : Option Trace
  staticID : UInt64
  uniqueID : UInt64

/-- An `AllocationToSave`. -/
structure AllocationToSave where
  trace : Option Trace
  staticID : UInt64
  uniqueID : UInt64
  pointer : UInt64
  length : UInt64
  offsets : Finset UInt64
  uses : List UseToSave
  isDirectState : Bool

/-- One value for each of the seven sets: the members `I`, `O`, `IO`,
`CO`, `TO`, `CIO` and `TIO` of a saved state. -/
structure PerSet (α : Type) where
  input : α
  output : α
  io : α
  co : α
  tout : α
  cio : α
  tio : α
  deriving DecidableEq, Repr

namespace PerSet

variable {α β : Type}

/-- The member with the code `c`. -/
def get (s : PerSet α) : StateClass → α
  | .input => s.input
  | .output => s.output
  | .io => s.io
  | .co => s.co
  | .to => s.tout
  | .cio => s.cio
  | .tio => s.tio

/-- Overwrite the member with the code `c`. -/
def set (s : PerSet α) (c : StateClass) (a : α) : PerSet α :=
  match c with
  | .input => { s with input := a }
  | .output => { s with output := a }
  | .io => { s with io := a }
  | .co => { s with co := a }
  | .to => { s with tout := a }
  | .cio => { s with cio := a }
  | .tio => { s with tio := a }

/-- Every member through `f`. -/
def map (f : α → β) (s : PerSet α) : PerSet β where
  input := f s.input
  output := f s.output
  io := f s.io
  co := f s.co
  tout := f s.tout
  cio := f s.cio
  tio := f s.tio

@[simp] theorem get_map (f : α → β) (s : PerSet α) (c : StateClass) :
    (s.map f).get c = f (s.get c) := by
  cases c with
  | _ => rfl

@[simp] theorem map_set (f : α → β) (s : PerSet α) (c : StateClass) (a : α) :
    (s.set c a).map f = (s.map f).set c (f a) := by
  cases c with
  | _ => rfl

theorem get_set (s : PerSet α) (c d : StateClass) (a : α) :
    (s.set c a).get d = if d = c then a else s.get d := by
  cases c <;> cases d <;> rfl

theorem ext_get {s s' : PerSet α} (h : ∀ c, s.get c = s'.get c) : s = s' := by
  obtain ⟨i, o, io, co, t, cio, tio⟩ := s
  obtain ⟨i', o', io', co', t', cio', tio'⟩ := s'
  have hi := h .input
  have ho := h .output
  have hio := h .io
  have hco := h .co
  have ht := h .to
  have hcio := h .cio
  have htio := h .tio
  simp only [PerSet.get] at hi ho hio hco ht hcio htio
  rw [hi, ho, hio, hco, ht, hcio, htio]

end PerSet

/-- A `StateToSave`; each `StateSetToSave` is its vector. -/
structure StateToSave where
  functionName : String
  lineNumber : UInt64
  sets : PerSet (List AllocationToSave)

/-- A `StatesToSave`: the pairs of its map. -/
structure StatesToSave where
  states : List (UInt64 × StateToSave)

end Carmot.Wrapper
