/-
Runs in which no ROI is entered inside another.

At most one ROI is open, so an access counts for that ROI and no other,
and the history of a cell under a ROI is what its iterations have seen
(`FlatRun.history`). Every state is a root, so nothing is copied to an
enclosing ROI: over batches that end outside of the ROIs the classes a
state ends up with for a cell are below the class of its history, which
is one of them (`root_usage_isLUB`).
-/
import Carmot.Lib.Repeats
import Carmot.Texas.Proofs.EndToEnd
import Carmot.Texas.Proofs.Nesting
import Carmot.Texas.Proofs.WholeProgram

namespace Carmot.Texas

open Carmot.Lib

-- ================================================================ the pushes

/-- Neither a marker of a ROI nor an access. -/
def SlotWrite.idle : SlotWrite → Bool
  | .allocAdd .. | .allocFree .. | .escapeAdd .. | .redundant => true
  | _ => false

/-- Writes pushed while no ROI is entered inside another, and the ROI
that is open after them. -/
inductive FlatRun (tree : StateTree) : Option StateId → List SlotWrite → Prop
  | nil : FlatRun tree none []
  | enter {ws : List SlotWrite} (h : FlatRun tree none ws) {s : StateId}
      (hroot : tree.parent s = none) : FlatRun tree (some s) (ws ++ [.stateBegin s])
  | leave {ws : List SlotWrite} {s : StateId} (h : FlatRun tree (some s) ws) :
      FlatRun tree none (ws ++ [.stateEnd s])
  | access {ws : List SlotWrite} {s : StateId} (h : FlatRun tree (some s) ws) (rw : Rw) (q : Addr)
      (id : UInt64) : FlatRun tree (some s) (ws ++ [.access rw q id])
  | idle {ws : List SlotWrite} {active : Option StateId} (h : FlatRun tree active ws)
      {w : SlotWrite} (hw : w.idle = true) : FlatRun tree active (ws ++ [w])

theorem plain_concat (ws : List SlotWrite) (w : SlotWrite) :
    plain (ws ++ [w]) = plain ws ++ [w.entry] := by
  unfold plain
  rw [List.map_append]
  rfl

/-- What an idle write is to ROIs and cells. -/
theorem SlotWrite.idle_entry {w : SlotWrite} (hw : w.idle = true) :
    (∀ stk, stackStep stk w.entry = stk) ∧ (∀ tree stk, NestedStep tree stk w.entry)
      ∧ (∀ r p stk h, historyStep .direct r p stk h w.entry = h)
      ∧ w.entry.operation ≠ .stateBegin ∧ w.entry.operation ≠ .stateCommit
      ∧ w.entry.operation ≠ .stateRegionSet := by
  cases w <;> cases hw <;>
    exact ⟨fun _ => rfl, fun _ _ => True.intro, fun _ _ _ _ => rfl, nofun, nofun, nofun⟩

namespace FlatRun

variable {tree : StateTree} {active : Option StateId} {ws : List SlotWrite}

/-- The open ROI is all of the stack, and the run nests. -/
theorem nested (h : FlatRun tree active ws) :
    Nested tree [] (plain ws) ∧ stackAfter [] (plain ws) = active.toList := by
  have hstep : ∀ {ws : List SlotWrite} {active active' : Option StateId} {w : SlotWrite},
      Nested tree [] (plain ws) ∧ stackAfter [] (plain ws) = active.toList →
      NestedStep tree active.toList w.entry → stackStep active.toList w.entry = active'.toList →
      Nested tree [] (plain (ws ++ [w])) ∧ stackAfter [] (plain (ws ++ [w])) = active'.toList := by
    intro ws active active' w ⟨hnest, hstack⟩ hok heq
    rw [plain_concat, nested_append, stackAfter_append, hstack]
    exact ⟨⟨hnest, hok, True.intro⟩, heq⟩
  induction h with
  | nil => exact ⟨True.intro, rfl⟩
  | @enter ws _ s hroot ih => exact hstep ih ⟨s, rfl, hroot⟩ rfl
  | @leave ws s _ ih => exact hstep ih ⟨s, rfl, rfl⟩ rfl
  | @access ws s _ rw q id ih =>
      cases rw with
      | read => exact hstep ih (List.cons_ne_nil _ _) rfl
      | write => exact hstep ih (List.cons_ne_nil _ _) rfl
  | idle _ hw ih =>
      obtain ⟨hstack, hnest, -⟩ := SlotWrite.idle_entry hw
      exact hstep ih (hnest tree _) (hstack _)

/-- Every ROI is a root; nothing is committed, and no region is set. -/
theorem entries (h : FlatRun tree active ws) :
    ∀ e ∈ plain ws,
      (e.operation = .stateBegin → ∀ s, e.sizeState = .statePtr s → tree.parent s = none)
      ∧ e.operation ≠ .stateCommit ∧ e.operation ≠ .stateRegionSet := by
  induction h with
  | nil => exact fun e he => absurd he List.not_mem_nil
  | @enter ws _ s hroot ih =>
      intro e he
      rw [plain_concat] at he
      rcases List.mem_append.mp he with he | he
      · exact ih e he
      · rw [List.mem_singleton.mp he]
        refine ⟨fun _ t ht => ?_, nofun, nofun⟩
        injection ht with ht
        rw [← ht]
        exact hroot
  | @leave ws s _ ih =>
      intro e he
      rw [plain_concat] at he
      rcases List.mem_append.mp he with he | he
      · exact ih e he
      · rw [List.mem_singleton.mp he]
        exact ⟨nofun, nofun, nofun⟩
  | @access ws s _ rw q id ih =>
      intro e he
      rw [plain_concat] at he
      rcases List.mem_append.mp he with he | he
      · exact ih e he
      · rw [List.mem_singleton.mp he]
        cases rw <;> exact ⟨nofun, nofun, nofun⟩
  | idle _ hw ih =>
      intro e he
      rw [plain_concat] at he
      rcases List.mem_append.mp he with he | he
      · exact ih e he
      · rw [List.mem_singleton.mp he]
        obtain ⟨-, -, -, hbegin, hcommit, hregion⟩ := SlotWrite.idle_entry hw
        exact ⟨fun hop => absurd hop hbegin, hcommit, hregion⟩

/-- Several accesses. -/
theorem accesses {s : StateId} (h : FlatRun tree (some s) ws) (rw : Rw) (id : UInt64)
    (ps : List Addr) : FlatRun tree (some s) (ws ++ ps.map fun q => .access rw q id) := by
  induction ps generalizing ws with
  | nil =>
      rw [List.map_nil, List.append_nil]
      exact h
  | cons q ps ih =>
      rw [List.map_cons, List.append_cons]
      exact ih (h.access rw q id)

end FlatRun

-- ============================================================ the histories

/-- What a ROI and a cell see of a write. -/
def SlotWrite.cellEvents (r : StateId) (p : Addr) : SlotWrite → List CellEvent
  | .stateBegin s => if s = r then [.enter] else []
  | .stateEnd _ => [.leave]
  | .access rw q _ => if q = p then [.access rw] else []
  | _ => []

theorem SlotWrite.cellEvents_idle {w : SlotWrite} (hw : w.idle = true) (r : StateId) (p : Addr) :
    w.cellEvents r p = [] := by
  cases w <;> cases hw <;> rfl

theorem directHistory_concat (r : StateId) (p : Addr) (ws : List SlotWrite) (w : SlotWrite) :
    directHistory r p (plain (ws ++ [w]))
      = historyStep .direct r p (stackAfter [] (plain ws)) (directHistory r p (plain ws)) w.entry := by
  unfold directHistory
  rw [plain_concat, historyFrom_append]
  rfl

theorem iterations_concat (r : StateId) (p : Addr) (ws : List SlotWrite) (w : SlotWrite) :
    Iterations.after ((ws ++ [w]).flatMap (SlotWrite.cellEvents r p))
      = (w.cellEvents r p).foldl Iterations.step
        (Iterations.after (ws.flatMap (SlotWrite.cellEvents r p))) := by
  unfold Iterations.after
  rw [List.flatMap_append, List.flatMap_singleton, List.foldl_append]

theorem directHistory_access (r : StateId) (p q : Addr) (stk : List StateId) (h : History) (rw : Rw)
    (id : UInt64) : historyStep .direct r p stk h (SlotWrite.access rw q id).entry
      = if stk.head? = some r ∧ q = p then touchLast h rw else h := by
  cases rw <;> simp only [historyStep, SlotWrite.entry, SlotWrite.fill, accessOperation,
    Operation.access?, Scope.counts, decide_eq_true_eq]

/-- The history of a cell is what the iterations of the ROI have seen,
and the ROI is open while there is a current one. -/
theorem FlatRun.history {tree : StateTree} {active : Option StateId} {ws : List SlotWrite}
    (h : FlatRun tree active ws) (r : StateId) (p : Addr) :
    directHistory r p (plain ws)
        = (Iterations.after (ws.flatMap (SlotWrite.cellEvents r p))).history
      ∧ ((Iterations.after (ws.flatMap (SlotWrite.cellEvents r p))).current.isSome = true
        ↔ active = some r) := by
  induction h with
  | nil => exact ⟨rfl, by simp [Iterations.after, Iterations.init]⟩
  | @enter ws hflat s hroot ih =>
      obtain ⟨hhistory, hcurrent⟩ := ih
      rw [directHistory_concat, iterations_concat, hhistory]
      generalize Iterations.after (ws.flatMap (SlotWrite.cellEvents r p)) = its at hcurrent
      obtain ⟨finished, current⟩ := its
      have hnone : current = none := by
        cases current with
        | none => rfl
        | some it => cases hcurrent.mp rfl
      subst hnone
      by_cases hs : s = r
      · subst hs
        refine ⟨?_, by simp [SlotWrite.cellEvents, Iterations.step]⟩
        simp [historyStep, SlotWrite.entry, SlotWrite.fill, Operation.access?,
          SizeState.getStatePtr, SlotWrite.cellEvents, Iterations.step, Iterations.history]
      · refine ⟨?_, by simp [SlotWrite.cellEvents, hs]⟩
        simp [historyStep, SlotWrite.entry, SlotWrite.fill, Operation.access?,
          SizeState.getStatePtr, SlotWrite.cellEvents, hs]
  | @leave ws s hflat ih =>
      obtain ⟨hhistory, hcurrent⟩ := ih
      rw [directHistory_concat, iterations_concat, hhistory]
      refine ⟨?_, by simp [SlotWrite.cellEvents, Iterations.step]⟩
      simp [historyStep, SlotWrite.entry, SlotWrite.fill, Operation.access?, SlotWrite.cellEvents,
        Iterations.step, Iterations.history]
  | @access ws s hflat rw q id ih =>
      obtain ⟨hhistory, hcurrent⟩ := ih
      rw [directHistory_concat, iterations_concat, hhistory, directHistory_access, hflat.nested.2]
      generalize Iterations.after (ws.flatMap (SlotWrite.cellEvents r p)) = its at hcurrent
      obtain ⟨finished, current⟩ := its
      by_cases hq : q = p
      · subst hq
        have hone : (SlotWrite.access rw q id).cellEvents r q = [.access rw] := if_pos rfl
        rw [hone]
        cases current with
        | none =>
            have hs : ¬ some s = some r := fun h => by cases hcurrent.mpr h
            exact ⟨if_neg fun h => hs h.1, hcurrent⟩
        | some it =>
            have hs : some s = some r := hcurrent.mp rfl
            exact ⟨(if_pos ⟨hs, rfl⟩).trans (touchLast_append finished it rw), hcurrent⟩
      · have hnone : (SlotWrite.access rw q id).cellEvents r p = [] := if_neg hq
        rw [hnone]
        exact ⟨if_neg fun h => hq h.2, hcurrent⟩
  | @idle ws active hflat w hw ih =>
      obtain ⟨-, -, hkeep, -⟩ := SlotWrite.idle_entry hw
      rw [directHistory_concat, iterations_concat, SlotWrite.cellEvents_idle hw, hkeep]
      exact ih

-- ============================================================== the classes

/-- Only roots are open. -/
theorem root_of_stackAfter {tree : StateTree} (es : List ShadowEntry) :
    ∀ {stk : List StateId}, (∀ u ∈ stk, tree.parent u = none) →
      (∀ e ∈ es, e.operation = .stateBegin → ∀ t, e.sizeState = .statePtr t →
        tree.parent t = none) →
      ∀ u ∈ stackAfter stk es, tree.parent u = none := by
  induction es with
  | nil => exact fun hstk _ => hstk
  | cons e es ih =>
      intro stk hstk hroots
      refine ih ?_ fun e' he' => hroots e' (List.mem_cons_of_mem e he')
      intro u hu
      unfold stackStep at hu
      split at hu
      · next t hop ht =>
          rcases List.mem_cons.mp hu with rfl | hu
          · refine hroots e List.mem_cons_self hop u ?_
            cases hsize : e.sizeState with
            | size n =>
                rw [hsize] at ht
                cases ht
            | statePtr t =>
                rw [hsize] at ht
                injection ht with ht
                rw [ht]
          · exact hstk u hu
      · exact hstk u (List.mem_of_mem_tail hu)
      · exact hstk u hu

theorem StateTree.chain_root {tree : StateTree} {s : StateId} (h : tree.parent s = none) :
    tree.chain s = [s] := by
  rw [tree.chain_eq, h]
  rfl

section Roots

variable {env : Env} {bs : List Batch} {live : List LiveRange} {rng : LiveRange} {a : AllocId}
  {p : Addr} {s : StateId} {stateMap : List StateId}

/-- The classes recorded for a root. -/
theorem root_final_iff (hcl : ClosedBatches env bs)
    (hroots : ∀ e ∈ rawEntries bs, e.operation = .stateBegin → ∀ t, e.sizeState = .statePtr t →
      env.tree.parent t = none)
    (hrun : AllocatedRun (rawEntries bs) live) (hs : s ∈ stateMap)
    (htracks : ∀ c, env.options.tracks c = true) (hrng : rng ∈ live) (hp : rng.Contains p)
    (hregion : RegionFree (rawEntries bs) p)
    (ha : (runBatches env texasInit bs).originToAllocMap rng.origin = some a) (c : StateClass) :
    Final (reportStatistics env stateMap (runBatches env texasInit bs)) a s
        (.offset c (p - rng.base))
      ↔ ∃ bs₁ b bs₂, bs = bs₁ ++ b :: bs₂ ∧ Touches s p [] b.entries
        ∧ classOf (directHistory s p (rawEntries (bs₁ ++ [b]))) = some c := by
  rw [final_access_iff hcl hrun hs hrng hp hregion ha]
  constructor
  · intro h
    obtain ⟨bs₁, b, bs₂, r, hbs, htouch, hchain, hclass, -⟩ := h
    have hroot : env.tree.parent r = none := by
      obtain ⟨pre, e, post, hb, -, -, hhead⟩ := htouch
      refine root_of_stackAfter pre (fun u hu => absurd hu List.not_mem_nil) ?_ r
        (List.mem_of_mem_head? hhead)
      intro e' he'
      apply hroots e'
      rw [hbs, rawEntries_append]
      refine List.mem_append_right _ (List.mem_append_left _ ?_)
      rw [hb]
      exact List.mem_append_left _ he'
    rw [StateTree.chain_root hroot, List.mem_singleton] at hchain
    rw [hchain]
    exact ⟨bs₁, b, bs₂, hbs, htouch, hclass⟩
  · intro h
    obtain ⟨bs₁, b, bs₂, hbs, htouch, hclass⟩ := h
    exact ⟨bs₁, b, bs₂, s, hbs, htouch, env.tree.self_mem_chain s, hclass, htracks c⟩

/-- What the history is at the end of a batch that touches the cell, the
whole one is above. -/
theorem ClosedBatches.usage_le (hcl : ClosedBatches env bs) {bs₁ bs₂ : List Batch} {b : Batch}
    (hbs : bs = bs₁ ++ b :: bs₂) (htouch : Touches s p [] b.entries) :
    (directHistory s p (rawEntries (bs₁ ++ [b]))).touched = true
      ∧ (directHistory s p (rawEntries (bs₁ ++ [b]))).usage
        ≤ (directHistory s p (rawEntries bs)).usage := by
  have htouched : (directHistory s p (rawEntries (bs₁ ++ [b]))).touched = true := by
    rw [rawEntries_append, rawEntries_singleton,
      directHistory_append (hcl.closed bs₁ ⟨b :: bs₂, hbs.symm⟩), History.touched_append,
      touched_directHistory.mpr htouch, Bool.or_true]
  have hsplit : bs = (bs₁ ++ [b]) ++ bs₂ := by
    rw [hbs, List.append_assoc]
    rfl
  refine ⟨htouched, ?_⟩
  have hclosed := hcl.closed (bs₁ ++ [b]) ⟨bs₂, hsplit.symm⟩
  rw [hsplit, rawEntries_append (bs₁ ++ [b]), directHistory_append hclosed]
  exact History.usage_le_append htouched _

/-- The classes recorded for a root: there are some, and the class of
the cell's history is the least above them. -/
theorem root_usage_isLUB (hcl : ClosedBatches env bs)
    (hroots : ∀ e ∈ rawEntries bs, e.operation = .stateBegin → ∀ t, e.sizeState = .statePtr t →
      env.tree.parent t = none)
    (hrun : AllocatedRun (rawEntries bs) live) (hs : s ∈ stateMap)
    (htracks : ∀ c, env.options.tracks c = true) (hrng : rng ∈ live) (hp : rng.Contains p)
    (hregion : RegionFree (rawEntries bs) p)
    (ha : (runBatches env texasInit bs).originToAllocMap rng.origin = some a)
    (htouched : (directHistory s p (rawEntries bs)).touched = true) :
    let held := fun c => Final (reportStatistics env stateMap (runBatches env texasInit bs)) a s
      (.offset c (p - rng.base))
    (∃ c, held c)
      ∧ IsLUB {u | ∃ c, held c ∧ u = c.usage} (directHistory s p (rawEntries bs)).usage := by
  intro held
  have hfinal : ∀ c, held c ↔ _ := root_final_iff hcl hroots hrun hs htracks hrng hp hregion ha
  -- the last batch that touches the cell records the class of the whole history
  obtain ⟨bs₁, b, bs₂, hbs, htouch, husage⟩ := exists_last_touch bs hcl.closed htouched
  have hlast : held (.ofUsage (directHistory s p (rawEntries (bs₁ ++ [b]))).usage) :=
    (hfinal _).mpr ⟨bs₁, b, bs₂, hbs, htouch, classOf_of_touched (hcl.usage_le hbs htouch).1⟩
  refine ⟨⟨_, hlast⟩, ?_, ?_⟩
  · intro u hu
    obtain ⟨c, hc, rfl⟩ := hu
    obtain ⟨bs₁', b', bs₂', hbs', htouch', hclass⟩ := (hfinal c).mp hc
    rw [(usage_of_classOf hclass).2]
    exact (hcl.usage_le hbs' htouch').2
  · intro u hu
    refine hu ⟨_, hlast, ?_⟩
    rw [usage_ofUsage (History.input_of_level_none _ (hcl.usage_le hbs htouch).1), husage]

end Roots

/-- The Final sets of a program whose ROIs do not nest: for every cell
of an allocation that a ROI accesses, some set holds its offset, and the
join of the classes whose sets do is the class of what the iterations of
the ROI have seen. -/
theorem final_of_flatRun {pr : Program} {su : Setup} (hW : 1 ≤ su.window)
    (hfin : (su.run pr).Finished (su.config pr)) (hpast : (su.run pr).InertPast)
    {active : Option StateId} (hflat : FlatRun pr.env.tree active (writesOf pr.events))
    (hclosed : pr.ClosedBetween su.window) {live : List LiveRange}
    (halloc : AllocatedRun pr.trace live) (htracks : ∀ c, pr.options.tracks c = true) {s : StateId}
    (hs : s ∈ pr.stateMap.ids) {rng : LiveRange} (hrng : rng ∈ live) {p : Addr}
    (hp : rng.Contains p) {seen : History}
    (hseen : seen
      = (Iterations.after ((writesOf pr.events).flatMap (SlotWrite.cellEvents s p))).history)
    (htouched : seen.touched = true) :
    ∃ a, (su.run pr).rt.originToAllocMap rng.origin = some a
      ∧ let held := fun c => Final (su.report pr) a s (.offset c (p - rng.base))
        (∃ c, held c) ∧ IsLUB {u | ∃ c, held c ∧ u = c.usage} seen.usage := by
  have hentries := hflat.entries
  have hcl := pr.closedBatches hflat.nested.1 hclosed fun e he => (hentries e he).2.1
  have hraw := pr.rawEntries_divide su.window
  have hhistory : directHistory s p pr.trace = seen := by
    rw [hseen]
    exact (hflat.history s p).1
  rw [← hraw] at halloc
  obtain ⟨a, ha⟩ := (halloc.keyed pr.env hcl.overrun).known rng hrng
  refine ⟨a, ?_, ?_⟩
  · have hsame := congrArg Runtime.originToAllocMap (forget_run_plain hW hfin hpast)
    exact (congrFun hsame rng.origin).trans ha
  · have hLUB := root_usage_isLUB hcl (by rw [hraw]; exact fun e he => (hentries e he).1) halloc hs
      htracks hrng hp (by rw [hraw]; exact fun e he hop => absurd hop (hentries e he).2.2) ha
      (by rw [hraw, hhistory]; exact htouched)
    rw [hraw, hhistory] at hLUB
    have hsame : ∀ c, Final (su.report pr) a s (.offset c (p - rng.base)) ↔ _ :=
      fun c => final_report hW hfin hpast a s _
    simp only [hsame]
    exact hLUB

end Carmot.Texas
