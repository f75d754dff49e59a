/-
`cleanBatch` (texas.cpp): the first pass runs the per-address state
machine over a batch and stamps every access with the innermost state;
the second pass replaces each access by the set code its address has in
that state once the whole batch has been seen.

The first pass is a left fold over the entries, with the local
`batchState` and the global `oldState` in its state. It reads nothing
of an entry but its operation, its address and, for the two markers,
its state pointer.
-/
import Carmot.Texas.Shadow

namespace Carmot.Texas

open Carmot.Lib (Rw)

-- ============================================== the per-address machine

/-- `statePtrMap.insert_or_assign(ptr, c)`. -/
def StatePtrs.assign (m : StatePtrs) (p : Addr) (c : StateClass) : StatePtrs :=
  { m with statePtrMap := Function.update m.statePtrMap p (some c) }

/-- `currentPtrIterUpgrades.insert(ptr)`. -/
def StatePtrs.upgrade (m : StatePtrs) (p : Addr) : StatePtrs :=
  { m with currentPtrIterUpgrades := Function.update m.currentPtrIterUpgrades p true }

/-- Assign `c` and note the upgrade, unless the open iteration already
settled the address. -/
def StatePtrs.upgradeTo (m : StatePtrs) (p : Addr) (c : StateClass) : StatePtrs :=
  if m.currentPtrIterUpgrades p then m else (m.assign p c).upgrade p

/-- `statePtrIterMap.insert_or_assign(ptr, c)`. -/
def StatePtrs.assignIter (m : StatePtrs) (p : Addr) (c : StateClass) : StatePtrs :=
  { m with statePtrIterMap := Function.update m.statePtrIterMap p (some c) }

/-- The access case of the first pass, on the innermost state's maps:
the nested switch over the class the address already has. -/
def cleanAccess (rw : Rw) (p : Addr) (m : StatePtrs) : StatePtrs :=
  match m.statePtrMap p with
  | some .input =>
      match rw with
      | .write => (m.assign p .io).upgrade p
      | .read => m
  | some .io =>
      match rw with
      | .read => m.upgradeTo p .tio
      | .write => m.upgradeTo p .cio
  | some .cio =>
      match rw with
      | .read => m.upgradeTo p .tio
      | .write => m.upgrade p
  | some .tio => m.upgrade p
  | some .output =>
      match rw with
      | .read => m.upgradeTo p .to
      | .write => m.upgradeTo p .co
  | some .co =>
      match rw with
      | .read => m.upgradeTo p .to
      | .write => m.upgrade p
  | some .to => m.upgrade p
  | none =>
      match m.statePtrIterMap p with
      | some c =>
          if c = .input ∧ rw = .write then m.assignIter p .io else m
      | none =>
          match rw with
          | .write => m.assignIter p .output
          | .read => m.assignIter p .input

/-- `STATE_BEGIN` on the state's maps: a fresh iteration. -/
def beginIteration (m : StatePtrs) : StatePtrs :=
  { m with
    statePtrIterMap := fun _ => none
    currentPtrIterUpgrades := fun _ => false }

/-- `STATE_END` on the state's maps: what the iteration touched first
joins `statePtrMap`, where a present key keeps its class. -/
def endIteration (m : StatePtrs) : StatePtrs :=
  { m with
    statePtrMap := fun p =>
      match m.statePtrMap p with
      | some c => some c
      | none => m.statePtrIterMap p }

theorem endIteration_of_some {m : StatePtrs} {p : Addr} {c : StateClass}
    (h : m.statePtrMap p = some c) : (endIteration m).statePtrMap p = some c := by
  simp [endIteration, h]

theorem endIteration_of_none {m : StatePtrs} {p : Addr} (h : m.statePtrMap p = none) :
    (endIteration m).statePtrMap p = m.statePtrIterMap p := by
  simp [endIteration, h]

-- ======================================================== the first pass

/-- The state of the first pass. -/
structure Cleaner where
  ptrs : StateId → StatePtrs
  batchState : Option StateId
  oldState : Option StateId

/-- Rewrite one state's maps. -/
def Cleaner.onState (cl : Cleaner) (s : StateId) (f : StatePtrs → StatePtrs) :
    Cleaner :=
  { cl with ptrs := Function.update cl.ptrs s (f (cl.ptrs s)) }

/-- One entry of the first pass: the new state, and the entry as it is
left in the batch. A marker whose union holds no state pointer would be
a wild dereference; the producer never pushes one. -/
def cleanEntry (env : Env) (cl : Cleaner) (e : ShadowEntry) :
    Cleaner × ShadowEntry :=
  match e.operation.access?, e.operation with
  | some rw, _ =>
      match cl.batchState with
      | none =>
          (cl, if env.options.trackCycles then
              { e with operation := .redundant } else e)
      | some s =>
          (cl.onState s (cleanAccess rw e.ptr), { e with sizeState := .statePtr s })
  | none, .stateEnd =>
      match e.sizeState.getStatePtr with
      | none => (cl, e)
      | some s =>
          ({ cl.onState s endIteration with
              batchState := env.tree.parent s, oldState := env.tree.parent s },
            { e with operation := .redundant })
  | none, .stateBegin =>
      match e.sizeState.getStatePtr with
      | none => (cl, e)
      | some s =>
          ({ cl.onState s beginIteration with
              batchState := some s, oldState := some s },
            { e with operation := .redundant })
  | none, _ => (cl, e)

section CleanEntry

variable {env : Env} {cl : Cleaner} {e : ShadowEntry} {s : StateId}

theorem cleanEntry_access {rw : Rw} (hop : e.operation.access? = some rw)
    (hb : cl.batchState = some s) :
    cleanEntry env cl e
      = (cl.onState s (cleanAccess rw e.ptr), { e with sizeState := .statePtr s }) := by
  unfold cleanEntry
  simp only [hop, hb]

theorem cleanEntry_begin (hop : e.operation = .stateBegin)
    (hs : e.sizeState = .statePtr s) :
    cleanEntry env cl e
      = ({ cl.onState s beginIteration with
            batchState := some s, oldState := some s },
          { e with operation := .redundant }) := by
  unfold cleanEntry
  simp only [hop, hs, Operation.access?, SizeState.getStatePtr]

theorem cleanEntry_end (hop : e.operation = .stateEnd)
    (hs : e.sizeState = .statePtr s) :
    cleanEntry env cl e
      = ({ cl.onState s endIteration with
            batchState := env.tree.parent s, oldState := env.tree.parent s },
          { e with operation := .redundant }) := by
  unfold cleanEntry
  simp only [hop, hs, Operation.access?, SizeState.getStatePtr]

theorem cleanEntry_other (hacc : e.operation.access? = none)
    (hbegin : e.operation ≠ .stateBegin) (hend : e.operation ≠ .stateEnd) :
    cleanEntry env cl e = (cl, e) := by
  unfold cleanEntry
  rw [hacc]
  split
  · cases ‹none = some _›
  · exact absurd ‹_› hend
  · exact absurd ‹_› hbegin
  · rfl

theorem cleanEntry_oldState (h : cl.oldState = cl.batchState) :
    (cleanEntry env cl e).1.oldState = (cleanEntry env cl e).1.batchState := by
  unfold cleanEntry
  split
  · split
    · exact h
    · exact h
  · cases e.sizeState.getStatePtr with
    | none => exact h
    | some s => rfl
  · cases e.sizeState.getStatePtr with
    | none => exact h
    | some s => rfl
  · exact h

end CleanEntry

/-- The first pass over a list of entries. -/
def firstPass (env : Env) : Cleaner → List ShadowEntry → Cleaner × List ShadowEntry
  | cl, [] => (cl, [])
  | cl, e :: es =>
      let (cl, e) := cleanEntry env cl e
      let (cl, es) := firstPass env cl es
      (cl, e :: es)

/-- Two stretches of entries in one go. -/
theorem firstPass_append (env : Env) (es fs : List ShadowEntry) :
    ∀ cl : Cleaner, firstPass env cl (es ++ fs)
      = ((firstPass env (firstPass env cl es).1 fs).1,
          (firstPass env cl es).2 ++ (firstPass env (firstPass env cl es).1 fs).2) := by
  induction es with
  | nil => intro cl; rfl
  | cons e es ih =>
      intro cl
      simp only [List.cons_append, firstPass, ih]

/-- `oldState` follows `batchState`. -/
theorem firstPass_oldState (env : Env) (es : List ShadowEntry) :
    ∀ cl : Cleaner, cl.oldState = cl.batchState →
      (firstPass env cl es).1.oldState = (firstPass env cl es).1.batchState := by
  induction es with
  | nil => intro cl h; exact h
  | cons e es ih =>
      intro cl h
      exact ih _ (cleanEntry_oldState h)

-- ======================================================= the second pass

/-- Do the options ask for class `c`? -/
def Options.tracks (o : Options) : StateClass → Bool
  | .input => o.trackInput
  | .io => o.trackInput || o.trackOutput
  | .cio => o.trackCloneable || o.trackInput || o.trackOutput
  | .tio => o.trackTransfer || o.trackInput || o.trackOutput
  | .output => o.trackOutput
  | .co => o.trackCloneable || o.trackOutput
  | .to => o.trackTransfer || o.trackOutput

/-- An access that gets no set code: dropped, unless cycle tracking
wants to see it. -/
def dropAccess (o : Options) (e : ShadowEntry) : ShadowEntry :=
  if o.trackCycles then e else { e with operation := .redundant }

/-- One entry of the second pass. -/
def reassignEntry (o : Options) (ptrs : StateId → StatePtrs) (e : ShadowEntry) :
    ShadowEntry :=
  if e.operation.isAccess then
    match e.sizeState.getStatePtr with
    | none => e
    | some s =>
        match (ptrs s).statePtrMap e.ptr with
        | none => dropAccess o e
        | some c =>
            if o.tracks c then { e with operation := .stateAdd c }
            else dropAccess o e
  else e

-- ============================================================ cleanBatch

/-- The first pass starts with `batchState` taken from `oldState`. -/
def Runtime.cleaner (rt : Runtime) : Cleaner := ⟨rt.ptrs, rt.oldState, rt.oldState⟩

/-- `cleanBatch`. With optimisations disabled it returns before the
final assignment of `oldState`. -/
def cleanBatch (env : Env) (rt : Runtime) (entries : List ShadowEntry) :
    Runtime × List ShadowEntry :=
  let (cl, entries) := firstPass env rt.cleaner entries
  let entries := entries.map (reassignEntry env.options cl.ptrs)
  let oldState := if env.options.disableOptimizations then cl.oldState else cl.batchState
  ({ rt with ptrs := cl.ptrs, oldState := oldState }, entries)

/-- Cleaning one batch moves the cleaner as the first pass does, in
both modes. -/
theorem cleanBatch_cleaner (env : Env) (rt : Runtime) (es : List ShadowEntry) :
    (cleanBatch env rt es).1.cleaner = (firstPass env rt.cleaner es).1 := by
  have hold := firstPass_oldState env es rt.cleaner rfl
  generalize hcl : (firstPass env rt.cleaner es).1 = cl at hold
  have hptrs : (cleanBatch env rt es).1.ptrs = cl.ptrs := by
    rw [← hcl]
    rfl
  have hstate : (cleanBatch env rt es).1.oldState = cl.batchState := by
    show (if env.options.disableOptimizations
      then (firstPass env rt.cleaner es).1.oldState
      else (firstPass env rt.cleaner es).1.batchState) = cl.batchState
    rw [hcl, hold]
    split
    · rfl
    · rfl
  unfold Runtime.cleaner
  rw [hptrs, hstate]
  cases cl
  cases hold
  rfl

end Carmot.Texas
