/-
Runs as entry sequences, and what they mean without any runtime state:
which ROIs are open at each point, when a run is properly nested, and
the access history of a memory cell under a state.

Two histories matter for a state `r` and an address `p`, both with the
iterations of `r` itself: the direct one counts an access when `r` is
the innermost open ROI, the extent one whenever `r` is open at all.

`StateClass.usage` reads a set code as an input bit and an output
level, and `classOf` is the code a history stands for.
-/
import Carmot.Texas.Clean
import Carmot.Texas.Producer

namespace Carmot.Texas

open Carmot.Lib

-- ============================================================== nesting

/-- The open ROIs after an entry, innermost first. -/
def stackStep (stk : List StateId) (e : ShadowEntry) : List StateId :=
  match e.operation, e.sizeState.getStatePtr with
  | .stateBegin, some s => s :: stk
  | .stateEnd, some _ => stk.tail
  | _, _ => stk

/-- May this entry follow? Accesses are pushed only inside a ROI, a ROI
is entered under the parent its state has, and only the innermost ROI
is left. -/
def NestedStep (tree : StateTree) (stk : List StateId) (e : ShadowEntry) : Prop :=
  match e.operation with
  | .stateAddRead | .stateAddWrite => stk ≠ []
  | .stateBegin => ∃ s, e.sizeState = .statePtr s ∧ tree.parent s = stk.head?
  | .stateEnd => ∃ s, e.sizeState = .statePtr s ∧ stk.head? = some s
  | _ => True

/-- Accesses are made inside a ROI. -/
theorem NestedStep.ne_nil {tree : StateTree} {stk : List StateId} {e : ShadowEntry}
    (h : NestedStep tree stk e) (hacc : e.operation.isAccess = true) : stk ≠ [] := by
  unfold NestedStep at h
  split at h
  · exact h
  · exact h
  next hop => rw [hop] at hacc; cases hacc
  next hop => rw [hop] at hacc; cases hacc
  next hread hwrite _ _ =>
    rcases Operation.isAccess_iff.mp hacc with h | h
    · exact absurd h hread
    · exact absurd h hwrite

/-- A properly nested run in which every ROI is always entered under
the same parent, from the given open ROIs on. -/
def Nested (tree : StateTree) : List StateId → List ShadowEntry → Prop
  | _, [] => True
  | stk, e :: es => NestedStep tree stk e ∧ Nested tree (stackStep stk e) es

/-- The open ROIs after a run. -/
def stackAfter (stk : List StateId) (es : List ShadowEntry) : List StateId :=
  es.foldl stackStep stk

theorem nested_append {tree : StateTree} {es fs : List ShadowEntry} :
    ∀ {stk : List StateId}, Nested tree stk (es ++ fs) ↔
      Nested tree stk es ∧ Nested tree (stackAfter stk es) fs := by
  induction es with
  | nil => intro stk; simp [Nested, stackAfter]
  | cons e es ih =>
      intro stk
      simp only [List.cons_append, Nested, ih, stackAfter, List.foldl_cons,
        and_assoc]

/-- A run of the one ROI `s`: nested (so `s` is never opened while
open), every marker is of `s`, and nothing is committed. -/
structure SingleRun (tree : StateTree) (s : StateId) (es : List ShadowEntry) :
    Prop where
  nested : Nested tree [] es
  only : ∀ e ∈ es, e.operation = .stateBegin ∨ e.operation = .stateEnd →
    e.sizeState = .statePtr s
  no_commit : ∀ e ∈ es, e.operation ≠ .stateCommit

-- ============================================================= histories

/-- One more access in the last iteration. -/
def touchLast (h : History) (rw : Rw) : History :=
  h.dropLast ++ [h.getLast?.getD [] ++ [rw]]

theorem touchLast_append (h : History) (it : List Rw) (rw : Rw) :
    touchLast (h ++ [it]) rw = h ++ [it ++ [rw]] := by
  simp [touchLast]

/-- Which accesses a history of `r` counts. -/
inductive Scope
  | direct | extent

/-- Is an access under this stack counted for `r`? -/
def Scope.counts (r : StateId) (stk : List StateId) : Scope → Bool
  | .direct => decide (stk.head? = some r)
  | .extent => decide (r ∈ stk)

/-- The history of cell `p` under state `r` after one more entry. -/
def historyStep (sc : Scope) (r : StateId) (p : Addr) (stk : List StateId)
    (h : History) (e : ShadowEntry) : History :=
  match e.operation.access?, e.operation with
  | some rw, _ => if sc.counts r stk ∧ e.ptr = p then touchLast h rw else h
  | none, .stateBegin =>
      if e.sizeState.getStatePtr = some r then h ++ [[]] else h
  | none, _ => h

/-- The history after a run that starts with the given ROIs open. -/
def historyFrom (sc : Scope) (r : StateId) (p : Addr) :
    List StateId → History → List ShadowEntry → History
  | _, h, [] => h
  | stk, h, e :: es =>
      historyFrom sc r p (stackStep stk e) (historyStep sc r p stk h e) es

/-- The accesses to `p` made while `r` is the innermost ROI, by
iterations of `r`. -/
def directHistory (r : StateId) (p : Addr) (es : List ShadowEntry) : History :=
  historyFrom .direct r p [] [] es

/-- The accesses to `p` made while `r` is open, by iterations of
`r`. -/
def extentHistory (r : StateId) (p : Addr) (es : List ShadowEntry) : History :=
  historyFrom .extent r p [] [] es

theorem historyFrom_append (sc : Scope) (r : StateId) (p : Addr)
    (es fs : List ShadowEntry) :
    ∀ (stk : List StateId) (h : History),
      historyFrom sc r p stk h (es ++ fs)
        = historyFrom sc r p (stackAfter stk es) (historyFrom sc r p stk h es) fs := by
  induction es with
  | nil => intro stk h; rfl
  | cons e es ih =>
      intro stk h
      simp only [List.cons_append, historyFrom, ih, stackAfter, List.foldl_cons]

/-- The runs the producer can push: every entry is some call's. -/
def Pushed (e : ShadowEntry) : Prop := ∃ (slot : ShadowEntry) (w : SlotWrite), e = w.fill slot

theorem pushed_entry (w : SlotWrite) : Pushed w.entry := ⟨_, w, rfl⟩

/-- Does the run access `p` while `r` is the innermost ROI? -/
def Touches (r : StateId) (p : Addr) (stk : List StateId) (es : List ShadowEntry) : Prop :=
  ∃ pre e post, es = pre ++ e :: post ∧ e.operation.isAccess = true ∧ e.ptr = p
    ∧ (stackAfter stk pre).head? = some r

theorem touches_cons {r : StateId} {p : Addr} {stk : List StateId} {e : ShadowEntry}
    {es : List ShadowEntry} :
    Touches r p stk (e :: es) ↔
      (e.operation.isAccess = true ∧ e.ptr = p ∧ stk.head? = some r)
        ∨ Touches r p (stackStep stk e) es := by
  constructor
  · intro h
    obtain ⟨pre, f, post, heq, hacc, hp, hhead⟩ := h
    cases pre with
    | nil =>
        injection heq with h₁ h₂
        subst h₁
        exact Or.inl ⟨hacc, hp, hhead⟩
    | cons x pre =>
        injection heq with h₁ h₂
        subst h₁
        exact Or.inr ⟨pre, f, post, h₂, hacc, hp, hhead⟩
  · intro h
    rcases h with ⟨hacc, hp, hhead⟩ | ⟨pre, f, post, heq, hacc, hp, hhead⟩
    · exact ⟨[], e, es, rfl, hacc, hp, hhead⟩
    · exact ⟨e :: pre, f, post, by rw [heq]; rfl, hacc, hp, hhead⟩

theorem touched_touchLast (h : History) (rw : Rw) : (touchLast h rw).touched = true := by
  unfold touchLast
  rw [History.touched_append]
  simp [History.touched]

/-- A direct history is touched exactly by the accesses it counts. -/
theorem touched_historyFrom {r : StateId} {p : Addr} (es : List ShadowEntry) :
    ∀ (stk : List StateId) (h : History),
      (historyFrom .direct r p stk h es).touched = true ↔
        h.touched = true ∨ Touches r p stk es := by
  induction es with
  | nil =>
      intro stk h
      have hno : ¬ Touches r p stk [] := by
        intro h
        obtain ⟨pre, e, post, heq, -⟩ := h
        simp at heq
      simp [historyFrom, hno]
  | cons e es ih =>
      intro stk h
      rw [historyFrom, ih, touches_cons, ← or_assoc]
      apply or_congr_left
      unfold historyStep Operation.isAccess Scope.counts
      cases hacc : e.operation.access? with
      | none =>
          simp only [Option.isSome_none, Bool.false_eq_true, false_and, or_false]
          split
          · cases ‹none = some _›
          · split
            · simp [History.touched]
            · exact Iff.rfl
          · exact Iff.rfl
      | some rw =>
          simp only [Option.isSome_some, true_and, decide_eq_true_eq]
          by_cases hc : stk.head? = some r ∧ e.ptr = p
          · rw [if_pos hc]
            simp [touched_touchLast, hc.1, hc.2]
          · rw [if_neg hc]
            constructor
            · exact Or.inl
            · intro h
              rcases h with ht | ⟨hp, hhead⟩
              · exact ht
              · exact absurd ⟨hhead, hp⟩ hc

/-- Finished iterations are not rewritten: a history that starts while
`r` is closed only appends iterations. -/
theorem historyFrom_done {sc : Scope} {r : StateId} {p : Addr} (done : History)
    (es : List ShadowEntry) :
    ∀ (stk : List StateId) (h : History), (r ∈ stk → h ≠ []) →
      historyFrom sc r p stk (done ++ h) es = done ++ historyFrom sc r p stk h es := by
  induction es with
  | nil => intro stk h _; rfl
  | cons e es ih =>
      intro stk h hopen
      have hstep : historyStep sc r p stk (done ++ h) e
          = done ++ historyStep sc r p stk h e := by
        unfold historyStep
        split
        · split
          next hc =>
            have hmem : r ∈ stk := by
              cases sc with
              | direct => exact List.mem_of_mem_head? (of_decide_eq_true hc.1)
              | extent => exact of_decide_eq_true hc.1
            have hne := hopen hmem
            unfold touchLast
            rw [List.dropLast_append_of_ne_nil hne, List.getLast?_append_of_ne_nil _ hne,
              List.append_assoc]
          next => rfl
        · split
          · rw [List.append_assoc]
          · rfl
        · rfl
      rw [historyFrom, historyFrom, hstep]
      apply ih (stackStep stk e) _
      -- `r` can only become open by its own begin marker, which starts an iteration
      intro hmem
      have hkeep : h ≠ [] → historyStep sc r p stk h e ≠ [] := by
        intro hne
        unfold historyStep
        split
        · split
          · simp [touchLast]
          · exact hne
        · split
          · simp
          · exact hne
        · exact hne
      unfold stackStep at hmem
      split at hmem
      next s hbegin hs =>
        rcases List.mem_cons.mp hmem with rfl | hmem
        · simp [historyStep, hbegin, Operation.access?, hs]
        · exact hkeep (hopen hmem)
      next => exact hkeep (hopen (List.mem_of_mem_tail hmem))
      next => exact hkeep (hopen hmem)

-- =============================================================== classes

/-- A set code as input bit and output level. -/
def StateClass.usage : StateClass → Usage
  | .input => (true, .none)
  | .io => (true, .plain)
  | .cio => (true, .cloneable)
  | .tio => (true, .transfer)
  | .output => (false, .plain)
  | .co => (false, .cloneable)
  | .to => (false, .transfer)

/-- The set code of a usage; a cell that is touched but neither read
first nor written does not exist. -/
def StateClass.ofUsage : Usage → StateClass
  | (_, .none) => .input
  | (true, .plain) => .io
  | (true, .cloneable) => .cio
  | (true, .transfer) => .tio
  | (false, .plain) => .output
  | (false, .cloneable) => .co
  | (false, .transfer) => .to

/-- The class of a cell, from its history alone. -/
def classOf (h : History) : Option StateClass :=
  if h.touched then some (.ofUsage h.usage) else none

theorem classOf_of_untouched {h : History} (ht : h.touched = false) :
    classOf h = none := by
  simp [classOf, ht]

theorem classOf_of_touched {h : History} (ht : h.touched = true) :
    classOf h = some (.ofUsage h.usage) := by
  simp [classOf, ht]

/-- The code read back gives the usage it was made from. -/
theorem usage_ofUsage {u : Usage} (hu : u.2 = .none → u.1 = true) :
    (StateClass.ofUsage u).usage = u := by
  obtain ⟨i, l⟩ := u
  cases l with
  | none =>
      have hi : i = true := hu rfl
      rw [hi]
      rfl
  | plain => cases i <;> rfl
  | cloneable => cases i <;> rfl
  | transfer => cases i <;> rfl

/-- A class in the map is the history's, read as bits. -/
theorem usage_of_classOf {h : History} {c : StateClass} (hc : classOf h = some c) :
    h.touched = true ∧ c.usage = h.usage := by
  unfold classOf at hc
  split at hc
  case isFalse => cases hc
  case isTrue ht =>
    injection hc with hc
    refine ⟨ht, ?_⟩
    rw [← hc]
    exact usage_ofUsage (h.input_of_level_none ht)

end Carmot.Texas
