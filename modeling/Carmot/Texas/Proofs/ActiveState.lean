/-
The worker follows the producer's active state.

The producer keeps `activeState` as the calls move it; the first pass
keeps `batchState` as the markers of the pushed entries move it. Since
a state's parent is fixed before its first marker is pushed, the two
are the same at every entry (`calls_agree`), for balanced and
unbalanced calls alike. So an access, which is pushed only while a
state is active, always finds one.

The calls also flush right after every commit (`commitsFlushed_calls`),
so a commit is the last entry of its batch under any window.
-/
import Carmot.Texas.Clean
import Carmot.Texas.Threads
import Carmot.Texas.Proofs.Nesting

namespace Carmot.Texas

open Carmot.Lib (Rw)

-- ============================================================ the writes

/-- What the events store, slot by slot. -/
def writesOf : List Event → List SlotWrite
  | [] => []
  | .write w :: evs => w :: writesOf evs
  | .flush :: evs => writesOf evs

theorem writesOf_append (evs evs' : List Event) :
    writesOf (evs ++ evs') = writesOf evs ++ writesOf evs' := by
  induction evs with
  | nil => rfl
  | cons ev evs ih =>
      cases ev with
      | write w => exact congrArg (w :: ·) ih
      | flush => exact ih

/-- The state a commit is for. -/
def SlotWrite.commits? : SlotWrite → Option StateId
  | .stateCommit s => some s
  | _ => none

def SlotWrite.isAccess : SlotWrite → Bool
  | .access .. => true
  | _ => false

/-- A window divides the writes without losing or moving any. -/
theorem flatten_divide (window : Nat) (evs : List Event) :
    ∀ cur, (divide window cur evs).flatten = cur ++ writesOf evs := by
  induction evs with
  | nil => intro cur; simp [divide, writesOf]
  | cons ev evs ih =>
      intro cur
      cases ev with
      | flush =>
          rw [divide, List.flatten_cons, ih]
          rfl
      | write w =>
          rw [divide]
          split
          · rw [List.flatten_cons, ih]
            rfl
          · rw [ih, List.append_assoc]
            rfl

-- =============================================================== commits

/-- Every commit is followed by a flush. -/
def CommitsFlushed : List Event → Prop
  | [] => True
  | ev :: evs =>
      (∀ s, ev = .write (.stateCommit s) → evs.head? = some .flush) ∧ CommitsFlushed evs

theorem commitsFlushed_flush {evs : List Event} (h : CommitsFlushed evs) :
    CommitsFlushed (.flush :: evs) := by
  refine ⟨?_, h⟩
  intro s hs
  cases hs

theorem commitsFlushed_write {w : SlotWrite} {evs : List Event} (hw : w.commits? = none)
    (h : CommitsFlushed evs) : CommitsFlushed (.write w :: evs) := by
  refine ⟨?_, h⟩
  intro s hs
  injection hs with hs
  rw [hs] at hw
  cases hw

theorem CommitsFlushed.append {evs evs' : List Event} (h : CommitsFlushed evs)
    (h' : CommitsFlushed evs') : CommitsFlushed (evs ++ evs') := by
  induction evs with
  | nil => exact h'
  | cons ev evs ih =>
      refine ⟨?_, ih h.2⟩
      intro s hs
      have hhead := h.1 s hs
      cases evs with
      | nil => cases hhead
      | cons ev' evs => exact hhead

theorem commitsFlushed_call (trackCycles : Bool) (p : Producer) (c : Call) :
    CommitsFlushed (p.call trackCycles c).2 := by
  cases c with
  | endState id =>
      unfold Producer.call
      dsimp only
      split
      · exact trivial
      · exact commitsFlushed_write rfl trivial
  | endStateInvocation id =>
      unfold Producer.call
      dsimp only
      split
      · exact ⟨fun _ _ => rfl, commitsFlushed_flush trivial⟩
      · exact trivial
  | addToEscapeTable address =>
      unfold Producer.call
      dsimp only
      split
      · exact commitsFlushed_write rfl trivial
      · exact trivial
  | addToState ptr rw id =>
      unfold Producer.call
      dsimp only
      split
      · exact trivial
      · exact commitsFlushed_write rfl trivial
  | findCycleInAllocationMap sync id =>
      exact commitsFlushed_write rfl (commitsFlushed_flush trivial)
  | _ => exact commitsFlushed_write rfl trivial

/-- The calls flush after every commit. -/
theorem commitsFlushed_calls (trackCycles : Bool) (cs : List Call) :
    ∀ p : Producer, CommitsFlushed (p.calls trackCycles cs).2 := by
  induction cs with
  | nil => intro p; exact trivial
  | cons c cs ih => intro p; exact (commitsFlushed_call trackCycles p c).append (ih _)

/-- So a commit is the last write of its batch. The buffer at hand has
one only if a flush comes next. -/
theorem commit_last_divide (window : Nat) (evs : List Event) :
    ∀ cur : List SlotWrite, CommitsFlushed evs → (∀ w ∈ cur.dropLast, w.commits? = none) →
      ((∃ w ∈ cur, w.commits? ≠ none) → evs.head? = some .flush) →
      ∀ ws ∈ divide window cur evs, ∀ w ∈ ws.dropLast, w.commits? = none := by
  induction evs with
  | nil =>
      intro cur _ hcur _ ws hws
      rw [List.mem_singleton.mp hws]
      exact hcur
  | cons ev evs ih =>
      intro cur hflush hcur hnext ws hws
      cases ev with
      | flush =>
          rcases List.mem_cons.mp hws with rfl | hws
          · exact hcur
          · refine ih [] hflush.2 ?_ ?_ ws hws
            · intro w hw
              cases hw
            · intro h
              obtain ⟨w, hw, -⟩ := h
              cases hw
      | write w =>
          -- nothing in the buffer commits, and what is added may
          have hnone : ∀ w' ∈ cur, w'.commits? = none := by
            intro w' hw'
            by_contra hne
            have hbad := hnext ⟨w', hw', hne⟩
            cases hbad
          have hadded : w.commits? ≠ none → evs.head? = some .flush := by
            intro hc
            cases w with
            | stateCommit s => exact hflush.1 s rfl
            | _ => exact absurd rfl hc
          rw [divide] at hws
          split at hws
          · rcases List.mem_cons.mp hws with rfl | hws
            · exact hcur
            · refine ih [w] hflush.2 ?_ ?_ ws hws
              · intro w' hw'
                cases hw'
              · intro h
                obtain ⟨w', hw', hc⟩ := h
                rw [List.mem_singleton.mp hw'] at hc
                exact hadded hc
          · refine ih (cur ++ [w]) hflush.2 ?_ ?_ ws hws
            · rw [List.dropLast_concat]
              exact hnone
            · intro h
              obtain ⟨w', hw', hc⟩ := h
              rcases List.mem_append.mp hw' with hw' | hw'
              · exact absurd (hnone w' hw') hc
              · rw [List.mem_singleton.mp hw'] at hc
                exact hadded hc

-- ======================================================= the active state

/-- The innermost state after a write, as the first pass keeps it. -/
def innerStep (tree : StateTree) (inner : Option StateId) : SlotWrite → Option StateId
  | .stateBegin s => some s
  | .stateEnd s => tree.parent s
  | _ => inner

/-- The innermost state after some writes. -/
def innerAfter (tree : StateTree) (inner : Option StateId) (ws : List SlotWrite) :
    Option StateId := ws.foldl (innerStep tree) inner

/-- Every access finds a state. -/
def InsideRoi (tree : StateTree) : Option StateId → List SlotWrite → Prop
  | _, [] => True
  | inner, w :: ws =>
      (w.isAccess = true → inner ≠ none) ∧ InsideRoi tree (innerStep tree inner w) ws

theorem insideRoi_append {tree : StateTree} {ws ws' : List SlotWrite} :
    ∀ {inner : Option StateId}, InsideRoi tree inner (ws ++ ws') ↔
      InsideRoi tree inner ws ∧ InsideRoi tree (innerAfter tree inner ws) ws' := by
  induction ws with
  | nil => intro inner; simp [InsideRoi, innerAfter]
  | cons w ws ih =>
      intro inner
      simp only [List.cons_append, InsideRoi, ih, innerAfter, List.foldl_cons, and_assoc]

theorem insideRoi_singleton {tree : StateTree} {inner : Option StateId} {w : SlotWrite}
    (hw : w.isAccess = false) : InsideRoi tree inner [w] := by
  refine ⟨?_, trivial⟩
  intro h
  rw [hw] at h
  cases h

theorem innerAfter_append (tree : StateTree) (inner : Option StateId)
    (ws ws' : List SlotWrite) :
    innerAfter tree inner (ws ++ ws') = innerAfter tree (innerAfter tree inner ws) ws' :=
  List.foldl_append

/-- An access by its position. -/
theorem InsideRoi.active {tree : StateTree} {ws : List SlotWrite} {w : SlotWrite} :
    ∀ {inner : Option StateId} {i : Nat}, InsideRoi tree inner ws → ws[i]? = some w →
      w.isAccess = true → ∃ s, innerAfter tree inner (ws.take i) = some s := by
  induction ws with
  | nil => intro inner i _ h; cases h
  | cons w' ws ih =>
      intro inner i hin hw hacc
      cases i with
      | zero =>
          injection hw with hw
          subst hw
          exact Option.ne_none_iff_exists'.mp (hin.1 hacc)
      | succ i => exact ih hin.2 hw hacc

/-- A walk of the tree that knows at least the states of `m`. -/
def StateMap.Within (m : StateMap) (tree : StateTree) : Prop :=
  ∀ s, s < m.states.length → tree.parent s = m.parent s

/-- What a call does to the states: old ones stay as they are. -/
structure Producer.Grows (p p' : Producer) : Prop where
  length_le : p.stateMap.states.length ≤ p'.stateMap.states.length
  parent_old : ∀ s, s < p.stateMap.states.length → p'.stateMap.parent s = p.stateMap.parent s

theorem Producer.Grows.within {p p' : Producer} {tree : StateTree} (h : p.Grows p')
    (hin : p'.stateMap.Within tree) : p.stateMap.Within tree := by
  intro s hs
  rw [hin s (Nat.lt_of_lt_of_le hs h.length_le), h.parent_old s hs]

theorem Producer.Grows.trans {p p' p'' : Producer} (h : p.Grows p') (h' : p'.Grows p'') :
    p.Grows p'' := by
  refine ⟨Nat.le_trans h.length_le h'.length_le, fun s hs => ?_⟩
  rw [h'.parent_old s (Nat.lt_of_lt_of_le hs h.length_le), h.parent_old s hs]

theorem Producer.Grows.refl (p : Producer) : p.Grows p := ⟨Nat.le_refl _, fun _ _ => rfl⟩

/-- The two outcomes of `EndState`. -/
theorem call_endState (trackCycles : Bool) (p : Producer) (id : StateId) :
    (p.activeState = none ∧ p.call trackCycles (.endState id) = (p, []))
      ∨ ∃ s, ∃ h : p.activeState = some s,
        p.call trackCycles (.endState id) = (p.popState s h, [.write (.stateEnd s)]) := by
  have hend : (p.activeState = none ∧ p.endState id = (p, none))
      ∨ ∃ s, ∃ h : p.activeState = some s, p.endState id = (p.popState s h, some s) := by
    unfold Producer.endState
    split
    next h => exact Or.inl ⟨h, rfl⟩
    next s h => exact Or.inr ⟨s, h, rfl⟩
  rcases hend with ⟨ha, heq⟩ | ⟨s, ha, heq⟩
  · left
    refine ⟨ha, ?_⟩
    unfold Producer.call
    dsimp only
    rw [heq]
  · right
    refine ⟨s, ha, ?_⟩
    unfold Producer.call
    dsimp only
    rw [heq]

theorem grows_call (trackCycles : Bool) (p : Producer) (c : Call) :
    p.Grows (p.call trackCycles c).1 := by
  cases c with
  | getState f l =>
      have h := getState_entered p f l
      exact ⟨h.length_le, h.parent_old⟩
  | endState id =>
      rcases call_endState trackCycles p id with ⟨-, heq⟩ | ⟨s, ha, heq⟩
      · rw [heq]
        exact .refl p
      · rw [heq]
        exact ⟨Nat.le_refl _, fun _ _ => rfl⟩
  | _ => exact .refl p

theorem grows_calls (trackCycles : Bool) (cs : List Call) :
    ∀ p : Producer, p.Grows (p.calls trackCycles cs).1 := by
  induction cs with
  | nil => intro p; exact .refl p
  | cons c cs ih => intro p; exact (grows_call trackCycles p c).trans (ih _)

/-- One call keeps the two in step. -/
theorem call_agrees {trackCycles : Bool} {p : Producer} {c : Call} {tree : StateTree}
    (hin : (p.call trackCycles c).1.stateMap.Within tree) :
    InsideRoi tree p.activeState (writesOf (p.call trackCycles c).2)
      ∧ innerAfter tree p.activeState (writesOf (p.call trackCycles c).2)
        = (p.call trackCycles c).1.activeState := by
  cases c with
  | getState f l =>
      refine ⟨insideRoi_singleton rfl, ?_⟩
      exact (getState_entered p f l).active.symm
  | endState id =>
      rcases call_endState trackCycles p id with ⟨ha, heq⟩ | ⟨s, ha, heq⟩
      · rw [heq]
        exact ⟨trivial, rfl⟩
      · rw [heq] at hin ⊢
        refine ⟨insideRoi_singleton rfl, ?_⟩
        exact hin s (p.active_lt s ha)
  | endStateInvocation id =>
      unfold Producer.call
      dsimp only
      split
      · exact ⟨insideRoi_singleton rfl, rfl⟩
      · exact ⟨trivial, rfl⟩
  | addToEscapeTable address =>
      unfold Producer.call
      dsimp only
      split
      · exact ⟨insideRoi_singleton rfl, rfl⟩
      · exact ⟨trivial, rfl⟩
  | addToState ptr rw id =>
      unfold Producer.call
      cases ha : p.activeState with
      | none => exact ⟨trivial, rfl⟩
      | some s => exact ⟨⟨(fun _ => by simp), trivial⟩, rfl⟩
  | _ => exact ⟨insideRoi_singleton rfl, rfl⟩

/-- The worker follows the producer, over any calls. -/
theorem calls_agree (trackCycles : Bool) (tree : StateTree) (cs : List Call) :
    ∀ p : Producer, (p.calls trackCycles cs).1.stateMap.Within tree →
      InsideRoi tree p.activeState (writesOf (p.calls trackCycles cs).2)
        ∧ innerAfter tree p.activeState (writesOf (p.calls trackCycles cs).2)
          = (p.calls trackCycles cs).1.activeState := by
  induction cs with
  | nil => intro p _; exact ⟨trivial, rfl⟩
  | cons c cs ih =>
      intro p hin
      have hrest := ih (p.call trackCycles c).1 hin
      have hone := call_agrees ((grows_calls trackCycles cs _).within hin)
      show InsideRoi tree p.activeState
          (writesOf ((p.call trackCycles c).2 ++ ((p.call trackCycles c).1.calls trackCycles cs).2))
        ∧ innerAfter tree p.activeState
          (writesOf ((p.call trackCycles c).2 ++ ((p.call trackCycles c).1.calls trackCycles cs).2))
          = ((p.call trackCycles c).1.calls trackCycles cs).1.activeState
      rw [writesOf_append, insideRoi_append, innerAfter_append, hone.2]
      exact ⟨⟨hone.1, hrest.1⟩, hrest.2⟩

end Carmot.Texas
