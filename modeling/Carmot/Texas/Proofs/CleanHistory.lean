/-
The first pass computes classes of histories.

For one cell `p` of one state the three pointer maps carry exactly the
part of the history that still matters (`OpenCell`, while an iteration
of the state is open; a plain equation when none is):

- a cell no finished iteration touched is absent from `statePtrMap`,
  and `statePtrIterMap` holds the class of the open iteration alone;
- a cell some finished iteration touched has in `statePtrMap` the class
  of its whole history, the open iteration counted as far as it got,
  and is in `currentPtrIterUpgrades` exactly when the open iteration
  touched it and something was written.

`openCell_access` is the state machine's case analysis, done once.
`cleanInv_step` lifts it to the whole cleaner along a properly nested
run, for every state and cell at once; `cleanInv_firstPass` runs it.
Nothing in the invariant mentions batches: the first pass over a
division into batches is the first pass over the concatenation
(`cleanBatches_ptrs`), because `oldState` hands `batchState` on.
-/
import Carmot.Texas.Pipeline
import Carmot.Texas.Producer
import Carmot.Texas.Trace

namespace Carmot.Texas

open Carmot.Lib

-- ==================================================== one cell, one access

/-- What the maps hold of cell `p` while an iteration is open: `done`
are the finished iterations, `cur` the accesses of the open one. -/
structure OpenCell (m : StatePtrs) (p : Addr) (done : History) (cur : List Rw) :
    Prop where
  fresh : done.touched = false →
    m.statePtrMap p = none ∧ m.statePtrIterMap p = classOf [cur]
      ∧ m.currentPtrIterUpgrades p = false
  seen : done.touched = true →
    m.statePtrMap p = classOf (done ++ [cur])
      ∧ m.currentPtrIterUpgrades p
        = decide (cur ≠ [] ∧ (done ++ [cur]).level ≠ .none)

/-- An access leaves every other cell alone. -/
theorem cleanAccess_other (rw : Rw) {p q : Addr} {m : StatePtrs} (hq : q ≠ p) :
    (cleanAccess rw p m).statePtrMap q = m.statePtrMap q
      ∧ (cleanAccess rw p m).statePtrIterMap q = m.statePtrIterMap q
      ∧ (cleanAccess rw p m).currentPtrIterUpgrades q = m.currentPtrIterUpgrades q := by
  have hup : ∀ c, (m.upgradeTo p c).statePtrMap q = m.statePtrMap q
      ∧ (m.upgradeTo p c).statePtrIterMap q = m.statePtrIterMap q
      ∧ (m.upgradeTo p c).currentPtrIterUpgrades q = m.currentPtrIterUpgrades q := by
    intro c
    unfold StatePtrs.upgradeTo
    split
    · exact ⟨rfl, rfl, rfl⟩
    · simp [StatePtrs.assign, StatePtrs.upgrade, hq]
  unfold cleanAccess
  cases hm : m.statePtrMap p with
  | none =>
      cases hi : m.statePtrIterMap p with
      | none => cases rw <;> simp [StatePtrs.assignIter, hq]
      | some c =>
          dsimp only
          split
          · simp [StatePtrs.assignIter, hq]
          · exact ⟨rfl, rfl, rfl⟩
  | some c =>
      cases c <;> cases rw <;>
        first
          | exact hup _
          | exact ⟨rfl, rfl, rfl⟩
          | simp [StatePtrs.assign, StatePtrs.upgrade, hq]

/-- Once the open iteration settled a written cell, further accesses
change nothing. -/
theorem cleanAccess_settled (rw : Rw) {p : Addr} {m : StatePtrs} {c : StateClass}
    (hm : m.statePtrMap p = some c) (hc : c ≠ .input)
    (hu : m.currentPtrIterUpgrades p = true) :
    (cleanAccess rw p m).statePtrMap p = some c
      ∧ (cleanAccess rw p m).currentPtrIterUpgrades p = true := by
  unfold cleanAccess
  rw [hm]
  cases c <;> cases rw <;>
    first
      | exact absurd rfl hc
      | simp [StatePtrs.upgradeTo, StatePtrs.upgrade, hu, hm]

/-- The first access of an open iteration to a cell that was written
before: a read makes it transferred, a write at least cloneable. -/
theorem cleanAccess_first (rw : Rw) {p : Addr} {m : StatePtrs} {i : Bool} {l : Level}
    (hl : l ≠ .none) (hm : m.statePtrMap p = some (.ofUsage (i, l)))
    (hu : m.currentPtrIterUpgrades p = false) :
    (cleanAccess rw p m).statePtrMap p
        = some (.ofUsage (i, if rw = .read then .transfer else max l .cloneable))
      ∧ (cleanAccess rw p m).currentPtrIterUpgrades p = true := by
  unfold cleanAccess
  rw [hm]
  cases i <;> cases l <;> cases rw <;>
    first
      | exact absurd rfl hl
      | simp [StateClass.ofUsage, StatePtrs.upgradeTo, StatePtrs.upgrade,
          StatePtrs.assign, hu, hm]
        try rfl

/-- The class of a cell only one iteration has touched. -/
theorem classOf_singleton {it : List Rw} (hne : it ≠ []) :
    classOf [it] = some (.ofUsage (History.readsFirst it,
      if History.writes it then .plain else .none)) := by
  have hlevel := History.level_append_singleton [] it
  rw [List.nil_append, if_pos (show History.level [] = .none from rfl)] at hlevel
  have ht : History.touched [it] = true := by simp [History.touched, hne]
  rw [classOf_of_touched ht]
  unfold History.usage History.input
  rw [hlevel, List.flatten_singleton]

theorem classOf_write_first (rest : List Rw) :
    classOf [.write :: rest] = some .output := by
  rw [classOf_singleton (by simp)]
  rfl

theorem classOf_read_first (rest : List Rw) :
    classOf [.read :: rest] = some (if History.writes rest then .io else .input) := by
  rw [classOf_singleton (by simp)]
  cases hw : History.writes rest with
  | true => simp_all [History.writes, History.readsFirst, StateClass.ofUsage]
  | false => simp_all [History.writes, History.readsFirst, StateClass.ofUsage]

/-- The class of a cell that finished iterations touched. -/
theorem classOf_append_singleton {done : History} (ht : done.touched = true)
    (it : List Rw) :
    classOf (done ++ [it]) = some (.ofUsage (done.input, (done ++ [it]).level)) := by
  rw [classOf_of_touched (by rw [History.touched_append, ht, Bool.true_or])]
  unfold History.usage
  rw [History.input_append ht]

/-- A cell neither map knows. -/
theorem cleanAccess_new {rw : Rw} {p : Addr} {m : StatePtrs}
    (hmap : m.statePtrMap p = none) (hiter : m.statePtrIterMap p = none) :
    cleanAccess rw p m
      = m.assignIter p (match rw with | .write => .output | .read => .input) := by
  unfold cleanAccess
  rw [hmap, hiter]
  cases rw <;> rfl

/-- A cell only the iteration map knows. -/
theorem cleanAccess_iter {rw : Rw} {p : Addr} {m : StatePtrs} {c : StateClass}
    (hmap : m.statePtrMap p = none) (hiter : m.statePtrIterMap p = some c) :
    cleanAccess rw p m
      = if c = .input ∧ rw = .write then m.assignIter p .io else m := by
  unfold cleanAccess
  rw [hmap, hiter]

/-- A fresh cell: the access lands in the iteration map. -/
theorem openCell_access_fresh {m : StatePtrs} {p : Addr} {cur : List Rw} (rw : Rw)
    (hmap : m.statePtrMap p = none) (hiter : m.statePtrIterMap p = classOf [cur])
    (hu : m.currentPtrIterUpgrades p = false) :
    (cleanAccess rw p m).statePtrMap p = none
      ∧ (cleanAccess rw p m).statePtrIterMap p = classOf [cur ++ [rw]]
      ∧ (cleanAccess rw p m).currentPtrIterUpgrades p = false := by
  cases cur with
  | nil =>
      rw [cleanAccess_new hmap hiter]
      refine ⟨hmap, ?_, hu⟩
      cases rw with
      | read => exact Function.update_self ..
      | write => exact Function.update_self ..
  | cons a rest =>
      cases a with
      | write =>
          rw [classOf_write_first] at hiter
          rw [List.cons_append, classOf_write_first, cleanAccess_iter hmap hiter,
            if_neg (by simp)]
          exact ⟨hmap, hiter, hu⟩
      | read =>
          rw [classOf_read_first] at hiter
          rw [List.cons_append, classOf_read_first, cleanAccess_iter hmap hiter]
          cases hw : History.writes rest with
          | true =>
              have hw' : History.writes (rest ++ [rw]) = true := by
                simp_all [History.writes]
              rw [hw', if_neg (by simp)]
              exact ⟨hmap, by rw [hiter, hw], hu⟩
          | false =>
              cases rw with
              | read =>
                  have hw' : History.writes (rest ++ [.read]) = false := by
                    simp_all [History.writes]
                  rw [hw', if_neg (by simp)]
                  exact ⟨hmap, by rw [hiter, hw], hu⟩
              | write =>
                  have hw' : History.writes (rest ++ [.write]) = true := by
                    simp [History.writes]
                  rw [hw', if_pos (by simp)]
                  exact ⟨hmap, Function.update_self .., hu⟩

section OpenCell

variable {m : StatePtrs} {p : Addr} {done : History} {cur : List Rw} (rw : Rw)
  (ht : done.touched = true) (hmap : m.statePtrMap p = classOf (done ++ [cur]))
  (hu : m.currentPtrIterUpgrades p = decide (cur ≠ [] ∧ (done ++ [cur]).level ≠ .none))

include ht hmap hu

/-- Nothing was written before this iteration: its first write counts. -/
theorem openCell_access_unwritten (hl : done.level = .none) :
    (cleanAccess rw p m).statePtrMap p = classOf (done ++ [cur ++ [rw]])
      ∧ (cleanAccess rw p m).currentPtrIterUpgrades p
        = decide (cur ++ [rw] ≠ [] ∧ (done ++ [cur ++ [rw]]).level ≠ .none) := by
  rw [classOf_append_singleton ht] at hmap ⊢
  have hb := History.level_append_singleton done cur
  have ha := History.level_append_singleton done (cur ++ [rw])
  have hi := History.input_of_level_none done ht hl
  rw [if_pos hl] at hb ha
  cases hw : History.writes cur with
  | true =>
      have hw' : History.writes (cur ++ [rw]) = true := by simp_all [History.writes]
      have hcur : cur ≠ [] := fun h => by rw [h] at hw; cases hw
      rw [hw, if_pos rfl] at hb
      rw [hw', if_pos rfl] at ha
      rw [hb] at hmap hu
      rw [ha]
      have hset := cleanAccess_settled rw hmap (by rw [hi]; simp [StateClass.ofUsage])
        (by rw [hu]; simp [hcur])
      exact ⟨hset.1, by rw [hset.2]; simp⟩
  | false =>
      rw [hw, if_neg (by simp)] at hb
      rw [hb] at hmap hu
      have hu' : m.currentPtrIterUpgrades p = false := by rw [hu]; simp
      have hmap' : m.statePtrMap p = some .input := by rw [hmap]; simp [StateClass.ofUsage]
      unfold cleanAccess
      rw [hmap']
      cases rw with
      | read =>
          have hw' : History.writes (cur ++ [.read]) = false := by
            simp_all [History.writes]
          rw [hw', if_neg (by simp)] at ha
          rw [ha]
          exact ⟨hmap, by simpa using hu'⟩
      | write =>
          have hw' : History.writes (cur ++ [.write]) = true := by
            simp [History.writes]
          rw [hw', if_pos rfl] at ha
          rw [ha, hi]
          simp [StatePtrs.assign, StatePtrs.upgrade, StateClass.ofUsage]

/-- Written before: the first access of this iteration decides. -/
theorem openCell_access_written (hl : done.level ≠ .none) :
    (cleanAccess rw p m).statePtrMap p = classOf (done ++ [cur ++ [rw]])
      ∧ (cleanAccess rw p m).currentPtrIterUpgrades p
        = decide (cur ++ [rw] ≠ [] ∧ (done ++ [cur ++ [rw]]).level ≠ .none) := by
  have hne : cur ++ [rw] ≠ [] := by simp
  rw [classOf_append_singleton ht] at hmap ⊢
  have hb := History.level_append_singleton done cur
  have ha := History.level_append_singleton done (cur ++ [rw])
  rw [if_neg hl] at hb ha
  rw [if_neg hne] at ha
  by_cases hcur : cur = []
  · subst hcur
    rw [if_pos rfl] at hb
    rw [hb] at hmap hu
    have hfirst := cleanAccess_first rw hl hmap (by rw [hu]; simp)
    have hlev : (done ++ [[] ++ [rw]]).level
        = if rw = .read then .transfer else max done.level .cloneable := by
      rw [ha]
      cases rw <;> rfl
    rw [hlev]
    refine ⟨hfirst.1, ?_⟩
    rw [hfirst.2]
    cases rw with
    | read => simp
    | write =>
        have hmax : max done.level Level.cloneable ≠ .none := by
          cases done.level <;> decide
        simp [hmax]
  · rw [if_neg hcur] at hb
    have hread : History.readsFirst (cur ++ [rw]) = History.readsFirst cur := by
      cases cur with
      | nil => exact absurd rfl hcur
      | cons a rest => rfl
    rw [hread, ← hb] at ha
    have hlev : (done ++ [cur]).level ≠ .none := by
      rw [hb]
      split
      · simp
      · cases done.level <;> decide
    have hset := cleanAccess_settled rw hmap
      (by
        revert hlev
        cases (done ++ [cur]).level <;> cases done.input <;> simp [StateClass.ofUsage])
      (by rw [hu]; simp [hcur, hlev])
    rw [ha]
    exact ⟨hset.1, by rw [hset.2]; simp [hlev]⟩

/-- A cell that finished iterations touched: the access updates its
class in place. -/
theorem openCell_access_seen :
    (cleanAccess rw p m).statePtrMap p = classOf (done ++ [cur ++ [rw]])
      ∧ (cleanAccess rw p m).currentPtrIterUpgrades p
        = decide (cur ++ [rw] ≠ [] ∧ (done ++ [cur ++ [rw]]).level ≠ .none) := by
  by_cases hl : done.level = .none
  · exact openCell_access_unwritten rw ht hmap hu hl
  · exact openCell_access_written rw ht hmap hu hl

end OpenCell

/-- One access, on its own cell. -/
theorem openCell_access {m : StatePtrs} {p : Addr} {done : History} {cur : List Rw}
    (rw : Rw) (h : OpenCell m p done cur) :
    OpenCell (cleanAccess rw p m) p done (cur ++ [rw]) where
  fresh ht := by
    obtain ⟨hmap, hiter, hu⟩ := h.fresh ht
    exact openCell_access_fresh rw hmap hiter hu
  seen ht := by
    obtain ⟨hmap, hu⟩ := h.seen ht
    exact openCell_access_seen rw ht hmap hu

-- ============================================================ the cleaner

/-- The cleaner after a properly nested run: `stk` are the open ROIs,
`hist` the direct history of every cell of every state. -/
structure CleanInv (tree : StateTree) (cl : Cleaner) (stk : List StateId)
    (hist : StateId → Addr → History) : Prop where
  batchState_eq : cl.batchState = stk.head?
  stack_chain : stk = tree.chain? stk.head?
  cell_open : ∀ r ∈ stk, ∀ p, ∃ done cur,
    hist r p = done ++ [cur] ∧ OpenCell (cl.ptrs r) p done cur
  cell_closed : ∀ r, r ∉ stk → ∀ p,
    (cl.ptrs r).statePtrMap p = classOf (hist r p)

section Step

variable {env : Env} {cl : Cleaner} {stk : List StateId}
  {hist : StateId → Addr → History} {e : ShadowEntry}

theorem onState_ptrs_self (cl : Cleaner) (s : StateId) (f : StatePtrs → StatePtrs) :
    (cl.onState s f).ptrs s = f (cl.ptrs s) := Function.update_self ..

theorem onState_ptrs_of_ne (cl : Cleaner) {r s : StateId} (h : r ≠ s)
    (f : StatePtrs → StatePtrs) : (cl.onState s f).ptrs r = cl.ptrs r :=
  Function.update_of_ne h ..

/-- An access touches one cell of the innermost state. -/
theorem cleanInv_access {rw : Rw} (hinv : CleanInv env.tree cl stk hist)
    (hop : e.operation.access? = some rw) (hne : stk ≠ []) :
    CleanInv env.tree (cleanEntry env cl e).1 stk
      fun r p => historyStep .direct r p stk (hist r p) e := by
  obtain ⟨s, rest, hstk⟩ := List.exists_cons_of_ne_nil hne
  have hhead : stk.head? = some s := by rw [hstk]; rfl
  rw [cleanEntry_access hop (hinv.batchState_eq.trans hhead)]
  have hstep : ∀ r p, historyStep .direct r p stk (hist r p) e
      = if s = r ∧ e.ptr = p then touchLast (hist r p) rw else hist r p := by
    intro r p
    simp only [historyStep, hop, Scope.counts, hhead, Option.some.injEq,
      decide_eq_true_eq]
  refine ⟨hinv.batchState_eq, hinv.stack_chain, ?_, ?_⟩
  · intro r hr p
    obtain ⟨done, cur, hh, hcell⟩ := hinv.cell_open r hr p
    rw [hstep]
    by_cases hrs : r = s
    · subst hrs
      rw [onState_ptrs_self]
      by_cases hp : e.ptr = p
      · subst hp
        refine ⟨done, cur ++ [rw], ?_, openCell_access rw hcell⟩
        rw [if_pos ⟨rfl, rfl⟩, hh, touchLast_append]
      · obtain ⟨h₁, h₂, h₃⟩ :=
          cleanAccess_other rw (m := cl.ptrs r) (q := p) (fun h => hp h.symm)
        refine ⟨done, cur, by rw [if_neg fun h => hp h.2, hh], ?_, ?_⟩
        · rw [h₁, h₂, h₃]
          exact hcell.fresh
        · rw [h₁, h₃]
          exact hcell.seen
    · rw [onState_ptrs_of_ne cl hrs, if_neg fun h => hrs h.1.symm]
      exact ⟨done, cur, hh, hcell⟩
  · intro r hr p
    have hrs : r ≠ s := by
      intro h
      rw [h, hstk] at hr
      exact hr (List.mem_cons_self ..)
    rw [hstep, onState_ptrs_of_ne cl hrs, if_neg fun h => hrs h.1.symm]
    exact hinv.cell_closed r hr p

/-- A begin marker opens an iteration of a state that is not open. -/
theorem cleanInv_begin {s : StateId} (hinv : CleanInv env.tree cl stk hist)
    (hop : e.operation = .stateBegin) (hs : e.sizeState = .statePtr s)
    (hpar : env.tree.parent s = stk.head?) :
    CleanInv env.tree (cleanEntry env cl e).1 (s :: stk)
      fun r p => historyStep .direct r p stk (hist r p) e := by
  rw [cleanEntry_begin hop hs]
  have hnot : s ∉ stk := by
    rw [hinv.stack_chain, ← hpar]
    exact env.tree.not_mem_chain_parent s
  have hstep : ∀ r p, historyStep .direct r p stk (hist r p) e
      = if s = r then hist r p ++ [[]] else hist r p := by
    intro r p
    simp only [historyStep, hop, hs, Operation.access?, SizeState.getStatePtr,
      Option.some.injEq]
  refine ⟨rfl, ?_, ?_, ?_⟩
  · show s :: stk = env.tree.chain s
    rw [env.tree.chain_eq, hpar, ← hinv.stack_chain]
  · intro r hr p
    rw [hstep]
    by_cases hrs : r = s
    · subst hrs
      rw [if_pos rfl]
      refine ⟨hist r p, [], rfl, ?_⟩
      have hcl := hinv.cell_closed r hnot p
      show OpenCell ((cl.onState r beginIteration).ptrs r) p (hist r p) []
      rw [onState_ptrs_self]
      refine ⟨fun ht => ⟨?_, rfl, rfl⟩, fun ht => ⟨?_, rfl⟩⟩
      · exact hcl.trans (classOf_of_untouched ht)
      · show (cl.ptrs r).statePtrMap p = _
        rw [hcl, classOf_of_touched ht, classOf_of_touched
          (by rw [History.touched_append, ht, Bool.true_or]),
          History.usage_append_nil]
    · rw [if_neg fun h => hrs h.symm]
      obtain ⟨done, cur, hh, hcell⟩ := hinv.cell_open r
        ((List.mem_cons.mp hr).resolve_left hrs) p
      refine ⟨done, cur, hh, ?_⟩
      show OpenCell ((cl.onState s beginIteration).ptrs r) p done cur
      rw [onState_ptrs_of_ne cl hrs]
      exact hcell
  · intro r hr p
    have hrs : r ≠ s := fun h => hr (h ▸ List.mem_cons_self ..)
    rw [hstep, if_neg fun h => hrs h.symm]
    show ((cl.onState s beginIteration).ptrs r).statePtrMap p = _
    rw [onState_ptrs_of_ne cl hrs]
    exact hinv.cell_closed r (fun h => hr (List.mem_cons_of_mem _ h)) p

/-- An end marker closes the innermost state's iteration. -/
theorem cleanInv_end {s : StateId} (hinv : CleanInv env.tree cl stk hist)
    (hop : e.operation = .stateEnd) (hs : e.sizeState = .statePtr s)
    (hhead : stk.head? = some s) :
    CleanInv env.tree (cleanEntry env cl e).1 stk.tail
      fun r p => historyStep .direct r p stk (hist r p) e := by
  rw [cleanEntry_end hop hs]
  have hchain : stk = s :: env.tree.chain? (env.tree.parent s) := by
    rw [← env.tree.chain_eq]
    have h := hinv.stack_chain
    rw [hhead] at h
    exact h
  have htail : stk.tail = env.tree.chain? (env.tree.parent s) := by
    rw [hchain]
    rfl
  have hnot : s ∉ stk.tail := by
    rw [htail]
    exact env.tree.not_mem_chain_parent s
  have hstep : ∀ r p, historyStep .direct r p stk (hist r p) e = hist r p := by
    intro r p
    simp only [historyStep, hop, Operation.access?]
  have hparent : env.tree.parent s = stk.tail.head? := by
    rw [htail]
    cases hp : env.tree.parent s with
    | none => rfl
    | some t =>
        show some t = (env.tree.chain t).head?
        rw [env.tree.chain_eq]
        rfl
  refine ⟨hparent, ?_, ?_, ?_⟩
  · rw [← hparent, htail]
  · intro r hr p
    have hrs : r ≠ s := fun h => hnot (h ▸ hr)
    rw [hstep]
    obtain ⟨done, cur, hh, hcell⟩ := hinv.cell_open r (List.mem_of_mem_tail hr) p
    refine ⟨done, cur, hh, ?_⟩
    show OpenCell ((cl.onState s endIteration).ptrs r) p done cur
    rw [onState_ptrs_of_ne cl hrs]
    exact hcell
  · intro r hr p
    rw [hstep]
    show ((cl.onState s endIteration).ptrs r).statePtrMap p = _
    by_cases hrs : r = s
    · subst hrs
      rw [onState_ptrs_self]
      obtain ⟨done, cur, hh, hcell⟩ := hinv.cell_open r
        (List.mem_of_mem_head? hhead) p
      rw [hh]
      cases ht : done.touched with
      | false =>
          -- only this iteration touched the cell, if any did
          obtain ⟨hmap, hiter, -⟩ := hcell.fresh ht
          rw [endIteration_of_none hmap, hiter]
          show classOf [cur] = classOf (done ++ [cur])
          unfold classOf History.usage
          rw [History.touched_append, ht, Bool.false_or,
            History.input_append_of_untouched ht, History.level_append_singleton,
            if_pos (History.level_of_untouched ht)]
          have hlevel := History.level_append_singleton [] cur
          rw [List.nil_append, if_pos (show History.level [] = .none from rfl)] at hlevel
          rw [hlevel]
      | true =>
          obtain ⟨hmap, -⟩ := hcell.seen ht
          rw [classOf_append_singleton ht] at hmap ⊢
          exact endIteration_of_some hmap
    · rw [onState_ptrs_of_ne cl hrs]
      refine hinv.cell_closed r (fun h => ?_) p
      rw [hchain] at h
      rcases List.mem_cons.mp h with h | h
      · exact hrs h
      · exact hr (htail ▸ h)

/-- One entry of a properly nested run. -/
theorem cleanInv_step (hinv : CleanInv env.tree cl stk hist)
    (hstep : NestedStep env.tree stk e) :
    CleanInv env.tree (cleanEntry env cl e).1 (stackStep stk e)
      fun r p => historyStep .direct r p stk (hist r p) e := by
  cases hacc : e.operation.access? with
  | some rw =>
      have hop : e.operation = .stateAddRead ∨ e.operation = .stateAddWrite := by
        revert hacc
        cases e.operation <;> simp [Operation.access?]
      have hne : stk ≠ [] := by
        rcases hop with hop | hop
        · simpa only [NestedStep, hop] using hstep
        · simpa only [NestedStep, hop] using hstep
      have hstk : stackStep stk e = stk := by
        rcases hop with hop | hop
        · simp only [stackStep, hop]
        · simp only [stackStep, hop]
      rw [hstk]
      exact cleanInv_access hinv hacc hne
  | none =>
      by_cases hbegin : e.operation = .stateBegin
      · simp only [NestedStep, hbegin] at hstep
        obtain ⟨s, hs, hpar⟩ := hstep
        have hstk : stackStep stk e = s :: stk := by
          simp only [stackStep, hbegin, hs, SizeState.getStatePtr]
        rw [hstk]
        exact cleanInv_begin hinv hbegin hs hpar
      · by_cases hend : e.operation = .stateEnd
        · simp only [NestedStep, hend] at hstep
          obtain ⟨s, hs, hhead⟩ := hstep
          have hstk : stackStep stk e = stk.tail := by
            simp only [stackStep, hend, hs, SizeState.getStatePtr]
          rw [hstk]
          exact cleanInv_end hinv hend hs hhead
        · have hstk : stackStep stk e = stk := by
            unfold stackStep
            split
            · exact absurd ‹_› hbegin
            · exact absurd ‹_› hend
            · rfl
          have hh : ∀ r p, historyStep .direct r p stk (hist r p) e = hist r p := by
            intro r p
            unfold historyStep
            rw [hacc]
            split
            · cases ‹none = some _›
            · exact absurd ‹_› hbegin
            · rfl
          rw [cleanEntry_other hacc hbegin hend, hstk]
          simp only [hh]
          exact hinv

end Step

/-- The first pass keeps the invariant along any properly nested run. -/
theorem cleanInv_firstPass (env : Env) (es : List ShadowEntry) :
    ∀ {cl : Cleaner} {stk : List StateId} {hist : StateId → Addr → History},
      CleanInv env.tree cl stk hist → Nested env.tree stk es →
      CleanInv env.tree (firstPass env cl es).1 (stackAfter stk es)
        fun r p => historyFrom .direct r p stk (hist r p) es := by
  induction es with
  | nil => intro cl stk hist hinv _; exact hinv
  | cons e es ih =>
      intro cl stk hist hinv hnest
      exact ih (cleanInv_step hinv hnest.1) hnest.2

-- ============================================================= whole runs

/-- Nothing has happened yet. -/
theorem cleanInv_init (tree : StateTree) :
    CleanInv tree texasInit.cleaner [] fun _ _ => [] where
  batchState_eq := rfl
  stack_chain := rfl
  cell_open := fun _ hr => absurd hr List.not_mem_nil
  cell_closed := fun _ _ _ => rfl

/-- A run cut into batches anywhere, the last one cleaned as far as its
first pass got. -/
theorem cleanInv_batches {env : Env} {bs : List (List ShadowEntry)}
    {cur : List ShadowEntry} (hnest : Nested env.tree [] (bs.flatten ++ cur)) :
    CleanInv env.tree (firstPass env (cleanBatches env texasInit bs).cleaner cur).1
      (stackAfter [] (bs.flatten ++ cur))
      fun r p => directHistory r p (bs.flatten ++ cur) := by
  have hinv := cleanInv_firstPass env _ (cleanInv_init env.tree) hnest
  rw [firstPass_append, ← cleanBatches_cleaner] at hinv
  exact hinv

/-- Right after its end marker a state is closed. -/
theorem not_mem_stackAfter_end {env : Env} {s : StateId} {cl : Cleaner}
    {es : List ShadowEntry} {e : ShadowEntry} {hist : StateId → Addr → History}
    (hinv : CleanInv env.tree cl (stackAfter [] es) hist)
    (hstep : NestedStep env.tree (stackAfter [] es) e)
    (hend : e.operation = .stateEnd) (hs : e.sizeState = .statePtr s) :
    s ∉ stackAfter [] (es ++ [e]) := by
  simp only [NestedStep, hend] at hstep
  obtain ⟨t, ht, hhead⟩ := hstep
  rw [hs] at ht
  injection ht with ht
  subst ht
  have hchain := hinv.stack_chain
  rw [hhead] at hchain
  have hafter : stackAfter [] (es ++ [e]) = env.tree.chain? (env.tree.parent s) := by
    unfold stackAfter at hchain ⊢
    rw [List.foldl_append, hchain]
    simp only [List.foldl_cons, List.foldl_nil, stackStep, hend, hs,
      SizeState.getStatePtr, StateTree.chain?]
    rw [env.tree.chain_eq]
    rfl
  rw [hafter]
  exact env.tree.not_mem_chain_parent s

/-- The meaning of the state machine. In a run of one ROI, cut into
batches anywhere, right after any end marker is handled an address is
in `statePtrMap` exactly when an iteration touched it, and its class
has the input bit and the output level of its access history. -/
theorem statePtrMap_after_end (env : Env) (s : StateId)
    (bs : List (List ShadowEntry)) (cur : List ShadowEntry) (e : ShadowEntry)
    (hrun : SingleRun env.tree s (bs.flatten ++ (cur ++ [e])))
    (hend : e.operation = .stateEnd) (p : Addr) :
    let cl := (firstPass env (cleanBatches env texasInit bs).cleaner (cur ++ [e])).1
    let h := directHistory s p (bs.flatten ++ (cur ++ [e]))
    ((cl.ptrs s).statePtrMap p ≠ none ↔ h.touched = true)
      ∧ ∀ c, (cl.ptrs s).statePtrMap p = some c → c.usage = (h.input, h.level) := by
  intro cl h
  have hs : e.sizeState = .statePtr s := hrun.only e (by simp) (Or.inr hend)
  have hnest := hrun.nested
  have hinv := cleanInv_batches hnest
  rw [← List.append_assoc, nested_append] at hnest
  have hbefore := cleanInv_firstPass env _ (cleanInv_init env.tree) hnest.1
  have hclosed := not_mem_stackAfter_end hbefore hnest.2.1 hend hs
  rw [List.append_assoc] at hclosed
  have hmap : (cl.ptrs s).statePtrMap p = classOf h := hinv.cell_closed s hclosed p
  rw [hmap]
  constructor
  · unfold classOf
    split
    next ht => simp [ht]
    next ht => simp [ht]
  · intro c hc
    exact (usage_of_classOf hc).2

/-- Written in one iteration and read in the next, with a batch cut
inside the first one: the value is transferred. -/
theorem statePtrMap_after_end_transfer :
    let env := Env.ofTree .flat
    let bs := [[(SlotWrite.stateBegin 0).entry, (SlotWrite.access .write 8 1).entry]]
    let cur := [(SlotWrite.stateEnd 0).entry, (SlotWrite.stateBegin 0).entry,
      (SlotWrite.access .read 8 2).entry]
    let e := (SlotWrite.stateEnd 0).entry
    let cl := (firstPass env (cleanBatches env texasInit bs).cleaner (cur ++ [e])).1
    SingleRun env.tree 0 (bs.flatten ++ (cur ++ [e]))
      ∧ (cl.ptrs 0).statePtrMap 8 ≠ none
      ∧ ∀ c, (cl.ptrs 0).statePtrMap 8 = some c → c.usage = (false, .transfer) := by
  intro env bs cur e cl
  have hrun : SingleRun env.tree 0 (bs.flatten ++ (cur ++ [e])) := by
    refine ⟨?_, ?_, ?_⟩
    · simp [bs, cur, e, env, Nested, NestedStep, stackStep, SlotWrite.entry, SlotWrite.fill,
        accessOperation, SizeState.getStatePtr, Env.ofTree, StateTree.flat]
    · simp [bs, cur, e, SlotWrite.entry, SlotWrite.fill, accessOperation]
    · simp [bs, cur, e, SlotWrite.entry, SlotWrite.fill, accessOperation]
  obtain ⟨htouched, husage⟩ := statePtrMap_after_end env 0 bs cur e hrun rfl 8
  exact ⟨hrun, htouched.mpr (by decide), husage⟩

end Carmot.Texas
